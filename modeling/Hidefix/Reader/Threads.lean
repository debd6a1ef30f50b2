import Hidefix.Foundation.Interleaving
import Hidefix.Reader.Segments

/-!
# Reading in threads

The groups of `read_to_par` are tasks of a pool.  A task opens the file, reads and
decodes its chunk, and then copies its segments to the destination, byte by byte, while
the other tasks do the same.  Once a task has failed, those that wait may be skipped.
-/

namespace Hidefix.Reader

open Buffer (write)
open Foundation
open Idx
open Interleaving (Machine)

variable {D : Nat}

/-- What is left to a task: its group, or the copy it is at and the segments behind. -/
inductive Task (D : Nat) where
  | waiting (group : List (Segment D))
  | copying (chunk : Bytes) (dptr : Nat) (src : Bytes) (segments : List (Segment D))
  | finished
  | failed (fault : Fault)
  | skipped

namespace Direct

variable {env : Env} {r : Direct D} {len : Nat}

/-! ## The steps of a task -/

/--
The pointer into a destination of `len` bytes and the bytes that are copied there.  A
copy that leaves the destination is not started.
-/
def copyPointers (b : Build) (len : Nat) (chunk : Bytes) (current start stop : Nat) :
    Exec (Nat × Bytes) := do
  debugAssert b (start ≤ chunk.length)
  debugAssert b (stop ≤ chunk.length)
  let sz ← subU64 b stop start
  if current ≤ len then do
    let src ← indexRange chunk start stop
    if current + sz ≤ len then .ok (current, src) else .error .outOfBuffer
  else panicWith .index

def segmentPointers (env : Env) (r : Direct D) (len : Nat) (chunk : Bytes)
    (segment : Segment D) : Exec (Nat × Bytes) := do
  let (current, start, stop) ← segmentBounds env.build r.ds.dsize
    segment.2.1 segment.2.2.1 segment.2.2.2
  copyPointers env.build len chunk current start stop

def notOpened : Fault := .err "Could not open file."

/-- A step of a task among the others, and the byte that it writes. -/
inductive TaskStep (env : Env) (r : Direct D) (len : Nat) :
    List (Task D) → Task D → Task D → Option (Nat × UInt8) → Prop
  | notOpened {ts group} :
      TaskStep env r len ts (.waiting group) (.failed notOpened) none
  | empty {ts} :
      TaskStep env r len ts (.waiting []) (.failed (.panic .index)) none
  | read {ts first group chunk} :
      chunkData env r.ds r.chunkSz first.1 = .ok chunk →
        TaskStep env r len ts (.waiting (first :: group))
          (.copying chunk 0 [] (first :: group)) none
  | notRead {ts first group fault} :
      chunkData env r.ds r.chunkSz first.1 = .error fault →
        TaskStep env r len ts (.waiting (first :: group)) (.failed fault) none
  | segment {ts chunk dptr segment segments dptr' src} :
      r.segmentPointers env len chunk segment = .ok (dptr', src) →
        TaskStep env r len ts (.copying chunk dptr [] (segment :: segments))
          (.copying chunk dptr' src segments) none
  | notCopied {ts chunk dptr segment segments fault} :
      r.segmentPointers env len chunk segment = .error fault →
        TaskStep env r len ts (.copying chunk dptr [] (segment :: segments))
          (.failed fault) none
  | byte {ts chunk dptr byte src segments} :
      TaskStep env r len ts (.copying chunk dptr (byte :: src) segments)
        (.copying chunk (dptr + 1) src segments) (some (dptr, byte))
  | finish {ts chunk dptr} :
      TaskStep env r len ts (.copying chunk dptr [] []) .finished none
  | skip {ts group fault} :
      .failed fault ∈ ts → TaskStep env r len ts (.waiting group) .skipped none

/-! ## What a task has left -/

def placed : Nat → Bytes → List (Nat × UInt8)
  | _, [] => []
  | dptr, byte :: src => (dptr, byte) :: placed (dptr + 1) src

def segmentWrites (env : Env) (r : Direct D) (len : Nat) (chunk : Bytes) :
    List (Segment D) → List (Nat × UInt8)
  | [] => []
  | segment :: segments =>
      match r.segmentPointers env len chunk segment with
      | .ok (dptr, src) => placed dptr src ++ segmentWrites env r len chunk segments
      | .error _ => []

def segmentSteps (env : Env) (r : Direct D) (len : Nat) (chunk : Bytes) :
    List (Segment D) → Nat
  | [] => 1
  | segment :: segments =>
      match r.segmentPointers env len chunk segment with
      | .ok (_, src) => src.length + 1 + segmentSteps env r len chunk segments
      | .error _ => 1

def taskWrites (env : Env) (r : Direct D) (len : Nat) : Task D → List (Nat × UInt8)
  | .waiting (first :: group) =>
      match chunkData env r.ds r.chunkSz first.1 with
      | .ok chunk => r.segmentWrites env len chunk (first :: group)
      | .error _ => []
  | .copying chunk dptr src segments =>
      placed dptr src ++ r.segmentWrites env len chunk segments
  | _ => []

def taskSteps (env : Env) (r : Direct D) (len : Nat) : Task D → Nat
  | .waiting [] => 1
  | .waiting (first :: group) =>
      match chunkData env r.ds r.chunkSz first.1 with
      | .ok chunk => 1 + r.segmentSteps env len chunk (first :: group)
      | .error _ => 1
  | .copying chunk _ src segments => src.length + r.segmentSteps env len chunk segments
  | _ => 0

def Stopped : Task D → Prop
  | .failed _ | .skipped => True
  | _ => False

def pool (env : Env) (r : Direct D) (len : Nat) : Machine (Task D) UInt8 where
  step := TaskStep env r len
  pending := r.taskWrites env len
  GaveUp := Stopped
  measure := r.taskSteps env len

theorem pool_lawful : (r.pool env len).Lawful where
  writes := by
    rintro ts t t' w h
    cases h with
    | notOpened => exact .inr ⟨rfl, rfl, trivial⟩
    | empty => exact .inl rfl
    | read hread => simp [pool, taskWrites, hread, placed]
    | notRead hread => simp [pool, taskWrites, hread]
    | segment hcopy => simp [pool, taskWrites, segmentWrites, hcopy, placed]
    | notCopied hcopy => simp [pool, taskWrites, segmentWrites, hcopy, placed]
    | byte => exact .inl rfl
    | finish => exact .inl rfl
    | skip => exact .inr ⟨rfl, rfl, trivial⟩
  ends := by
    rintro ts t t' w h
    cases h <;> exact id
  measure_lt := by
    rintro ts t t' w h
    cases h with
    | @notOpened group =>
        cases group with
        | nil => simp [pool, taskSteps]
        | cons first group =>
            simp only [pool, taskSteps]
            split <;> omega
    | empty => simp [pool, taskSteps]
    | read hread => simp [pool, taskSteps, hread]
    | notRead hread => simp [pool, taskSteps, hread]
    | segment hcopy => simp [pool, taskSteps, segmentSteps, hcopy]
    | notCopied hcopy => simp [pool, taskSteps, segmentSteps, hcopy]
    | byte => simp [pool, taskSteps]
    | finish => simp [pool, taskSteps, segmentSteps]
    | @skip group _ _ =>
        cases group with
        | nil => simp [pool, taskSteps]
        | cons first group =>
            simp only [pool, taskSteps]
            split <;> omega

theorem exists_step {ts : List (Task D)} {t : Task D} (hstopped : ¬ Stopped t)
    (hfinished : t ≠ .finished) : ∃ t' w, TaskStep env r len ts t t' w := by
  cases t with
  | waiting group => exact ⟨_, _, .notOpened⟩
  | copying chunk dptr src segments =>
      cases src with
      | cons byte src => exact ⟨_, _, .byte⟩
      | nil =>
          cases segments with
          | nil => exact ⟨_, _, .finish⟩
          | cons segment segments =>
              cases hcopy : r.segmentPointers env len chunk segment with
              | ok w => exact ⟨_, _, .segment hcopy⟩
              | error fault => exact ⟨_, _, .notCopied hcopy⟩
  | finished => exact absurd rfl hfinished
  | failed fault => exact absurd trivial hstopped
  | skipped => exact absurd trivial hstopped

theorem copyRaw_eq (b : Build) (dst chunk : Bytes) (current start stop : Nat) :
    copyRaw b dst chunk current start stop =
      copyPointers b dst.length chunk current start stop >>= fun w =>
        .ok (write dst w.1 w.2) := by
  unfold copyRaw copyPointers
  simp only [bind_assoc]
  refine bind_congr fun _ => bind_congr fun _ => bind_congr fun sz => ?_
  split
  · simp only [bind_assoc]
    refine bind_congr fun src => ?_
    split <;> rfl
  · rfl

theorem readSegmentRaw_eq (dst chunk : Bytes) (segment : Segment D) :
    r.readSegmentRaw env chunk dst segment =
      r.segmentPointers env dst.length chunk segment >>= fun w =>
        .ok (write dst w.1 w.2) := by
  unfold readSegmentRaw segmentPointers
  simp only [bind_assoc]
  exact bind_congr fun bounds => copyRaw_eq _ _ _ _ _ _

end Direct

end Hidefix.Reader
