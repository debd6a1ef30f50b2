import Hidefix.Idx.WellFormed

/-!
# The check of a layout

`valid` looks at every chunk by itself: the chunk is to contain its own offset.
A coordinate is looked up at the place that the strides give to its block, and the
chunk found there is to cover the block.
-/

namespace Hidefix.Idx

open MixedRadix
open Foundation

variable {D : Nat} {b : Build}

/-- The layout is accepted only where every coordinate is found. -/
def ValidSound (b : Build) (ds : Dataset D) : Prop :=
  ds.valid b = .ok true →
    ∀ x, InBox ds.shape.toList x → ∃ c, ds.chunkAtCoord b x = .ok c ∧
      c.contains b x ds.chunkShape.toList = .ok .eq

namespace Dataset

def divisors (ds : Dataset D) : List Nat :=
  ds.chunkShapeReduced.toList.map StrengthReducedU64.get

def blockCounts (ds : Dataset D) : List Nat :=
  cellCounts ds.shape.toList ds.divisors

def place (ds : Dataset D) (block : List Nat) : Nat :=
  (List.zipWith (· * ·) block ds.scaledDimSz.toList).sum

def EndsFit (ds : Dataset D) : Prop :=
  ∀ c ∈ ds.chunks,
    List.Forall₂ (fun o sz => o + sz < 2 ^ 64) c.offsetU64 ds.chunkShape.toList

end Dataset

def InsideFrom : (offset x chunkShape : List Nat) → Prop
  | o :: offset, i :: x, sz :: chunkShape =>
      (o ≤ i ∧ i < o + sz) ∧ InsideFrom offset x chunkShape
  | _, _, _ => True

def CoversFrom : (offset block divisors shape chunkShape : List Nat) → Prop
  | o :: offset, q :: block, r :: divisors, n :: shape, sz :: chunkShape =>
      (o ≤ q * r ∧ min ((q + 1) * r) n ≤ o + sz) ∧
        CoversFrom offset block divisors shape chunkShape
  | _, _, _, _, _ => True

/-- The chunk at the place of every block covers the block. -/
def CoversBlocks (ds : Dataset D) : Prop :=
  ∀ block, InBox ds.blockCounts block → ds.place block < 2 ^ 64 ∧
    ∃ c, ds.chunks[ds.place block]? = some c ∧
      CoversFrom c.offsetU64 block ds.divisors ds.shape.toList ds.chunkShape.toList

/-! ## The check of one chunk -/

theorem containsFrom_iff {offset x cs : List Nat}
    (hends : List.Forall₂ (fun o sz => o + sz < 2 ^ 64) offset cs) :
    containsFrom b offset x cs = .ok .eq ↔ InsideFrom offset x cs := by
  induction hends generalizing x with
  | nil => simp [containsFrom, InsideFrom]
  | @cons o sz offset cs hfit _ ih =>
      cases x with
      | nil => simp [containsFrom, InsideFrom]
      | cons i x =>
          rw [containsFrom, InsideFrom, ← ih]
          split
          · rename_i hlt
            simp [Nat.not_le.mpr hlt]
          · rename_i hge
            rw [addU64_eq hfit, ok_bind]
            split
            · rename_i hgt
              simp [Nat.not_lt.mpr hgt]
            · rename_i hlt
              simp [Nat.le_of_not_lt hge, Nat.lt_of_not_le hlt]

theorem containsFrom_self {offset cs : List Nat} (hlen : offset.length = cs.length)
    (hoffset : ∀ o ∈ offset, o < 2 ^ 64) (hcs : ∀ c ∈ cs, 1 ≤ c ∧ c < 2 ^ 64) :
    containsFrom b offset offset cs = .ok .eq ↔
      List.Forall₂ (fun o sz => o + sz < 2 ^ 64) offset cs := by
  induction offset generalizing cs with
  | nil =>
      cases cs with
      | nil => simp [containsFrom]
      | cons c cs => simp at hlen
  | cons o offset ih =>
      cases cs with
      | nil => simp at hlen
      | cons c cs =>
          rw [List.forall_mem_cons] at hoffset hcs
          have htail := ih (by simpa using hlen) hoffset.2 hcs.2
          rw [containsFrom, if_neg (Nat.lt_irrefl o), List.forall₂_cons, ← htail]
          by_cases hfit : o + c < 2 ^ 64
          · rw [addU64_eq hfit, ok_bind, if_neg (by omega)]
            exact (and_iff_right hfit).symm
          · apply iff_of_false
            · cases b with
              | debug =>
                  have hadd : addU64 .debug o c = panicWith .overflow := if_neg hfit
                  simp [hadd, panicWith]
              | release =>
                  have hadd : addU64 .release o c = .ok ((o + c) % 2 ^ 64) := if_neg hfit
                  have hwrap : (o + c) % 2 ^ 64 ≤ o := by omega
                  rw [hadd, ok_bind, if_pos hwrap]
                  simp
            · intro h
              exact hfit h.1

theorem contains_iff {ds : Dataset D} {c : Chunk D} {x : List Nat}
    (hx : x.length = D) :
    c.contains b x ds.chunkShape.toList =
      containsFrom b c.offsetU64 x ds.chunkShape.toList := by
  rw [Chunk.contains, assertThat_of (by simpa using hx), ok_bind,
    assertThat_of (by simpa using hx), ok_bind]

theorem valid_iff_contains {ds : Dataset D} :
    ds.valid b = .ok true ↔ ∀ c ∈ ds.chunks,
      c.contains b c.offsetU64 ds.chunkShape.toList = .ok .eq := by
  unfold Dataset.valid
  induction ds.chunks with
  | nil => simp
  | cons c cs ih =>
      rw [List.forIn_cons, List.forall_mem_cons, ← ih]
      cases hc : c.contains b c.offsetU64 ds.chunkShape.toList with
      | error f => simp
      | ok r => cases r <;> simp [bail]

theorem valid_iff_endsFit {ds : Dataset D}
    (hcs : ∀ c ∈ ds.chunkShape.toList, 1 ≤ c ∧ c < 2 ^ 64) :
    ds.valid b = .ok true ↔ ds.EndsFit := by
  rw [valid_iff_contains]
  apply forall₂_congr
  intro c _
  have hwords : ∀ o ∈ c.offsetU64, o < 2 ^ 64 := by
    intro o ho
    rcases List.mem_map.mp ho with ⟨u, _, rfl⟩
    exact u.get_lt
  rw [contains_iff (by simp)]
  exact containsFrom_self (by simp) hwords hcs

/-! ## The look-up -/

theorem sum_terms (ds : Dataset D) (x : List Nat) :
    ((x.zip (ds.chunkShapeReduced.toList.zip ds.scaledDimSz.toList)).map
      fun p => p.1 / p.2.1.get * p.2.2).sum = ds.place (cellOf ds.divisors x) := by
  unfold Dataset.place Dataset.divisors cellOf
  generalize ds.chunkShapeReduced.toList = reduced
  generalize ds.scaledDimSz.toList = scaled
  induction x generalizing reduced scaled with
  | nil => simp
  | cons i x ih =>
      cases reduced with
      | nil => simp
      | cons r reduced =>
          cases scaled with
          | nil => simp
          | cons s scaled => simp [ih]

theorem chunkAtCoord_place {ds : Dataset D} {x : List Nat} (hx : x.length = D)
    (hfit : ds.place (cellOf ds.divisors x) < 2 ^ 64) :
    ds.chunkAtCoord b x =
      match ds.chunks[ds.place (cellOf ds.divisors x)]? with
      | some c => .ok c
      | none => panicWith .index := by
  have hterms : ∀ p ∈ x.zip (ds.chunkShapeReduced.toList.zip ds.scaledDimSz.toList),
      mulU64 b (p.1 / p.2.1.get) p.2.2 = .ok (p.1 / p.2.1.get * p.2.2) := by
    intro p hp
    apply mulU64_eq
    apply Nat.lt_of_le_of_lt _ hfit
    rw [← sum_terms]
    exact List.single_le_sum (by simp) _
      (List.mem_map_of_mem (f := fun p : Nat × StrengthReducedU64 × Nat =>
        p.1 / p.2.1.get * p.2.2) hp)
  have hfold := foldlM_addU64 (b := b)
    (fun p : Nat × StrengthReducedU64 × Nat => mulU64 b (p.1 / p.2.1.get) p.2.2)
    (fun p => p.1 / p.2.1.get * p.2.2) _ 0 hterms
    (by rw [Nat.zero_add, sum_terms]; exact hfit)
  rw [Nat.zero_add, sum_terms] at hfold
  unfold Dataset.chunkAtCoord
  simp only [StrengthReducedU64.div_eq]
  rw [debugAssert_of (by simpa using hx), ok_bind,
    debugAssert_of (by simpa using hx), ok_bind]
  exact congrArg (· >>= _) hfold

theorem place_lt_of_chunkAtCoord {ds : Dataset D} {x : List Nat} {c : Chunk D}
    (h : ds.chunkAtCoord .debug x = .ok c) :
    ds.place (cellOf ds.divisors x) < 2 ^ 64 := by
  have hfold : ∀ (ps : List (Nat × StrengthReducedU64 × Nat)) (acc z : Nat),
      acc < 2 ^ 64 →
      ps.foldlM (fun offset p => do
        addU64 .debug offset (← mulU64 .debug (p.1 / p.2.1.get) p.2.2)) acc = .ok z →
      acc + (ps.map fun p => p.1 / p.2.1.get * p.2.2).sum < 2 ^ 64 := by
    intro ps
    induction ps with
    | nil =>
        intro acc z hacc _
        simpa using hacc
    | cons p ps ih =>
        intro acc z _ hps
        rw [List.foldlM_cons] at hps
        rcases bind_eq_ok.mp hps with ⟨acc', hfirst, hps⟩
        rcases bind_eq_ok.mp hfirst with ⟨term, hmul, hadd⟩
        rcases mulU64_debug hmul with ⟨rfl, -⟩
        rcases addU64_debug hadd with ⟨rfl, hlt⟩
        have htail := ih _ z hlt hps
        simpa [Nat.add_assoc] using htail
  unfold Dataset.chunkAtCoord at h
  simp only [StrengthReducedU64.div_eq] at h
  rcases bind_eq_ok.mp h with ⟨_, -, h⟩
  rcases bind_eq_ok.mp h with ⟨_, -, h⟩
  rcases bind_eq_ok.mp h with ⟨offset, hoffset, -⟩
  have hlt := hfold _ 0 offset (by decide) hoffset
  rwa [Nat.zero_add, sum_terms] at hlt

/-! ## Blocks -/

theorem covers_block_iff {r n q o sz : Nat} (hr : 1 ≤ r) (hlow : q * r < n) :
    (o ≤ q * r ∧ min ((q + 1) * r) n ≤ o + sz) ↔
      ∀ i < n, i / r = q → o ≤ i ∧ i < o + sz := by
  constructor
  · rintro ⟨hfirst, hlast⟩ i hi hdiv
    have hmod := Nat.div_add_mod' i r
    have hlt := Nat.mod_lt i hr
    rw [hdiv] at hmod
    rw [Nat.succ_mul] at hlast
    omega
  · intro hall
    have hfirst := hall (q * r) hlow (Nat.mul_div_cancel q hr)
    have hlast := hall (min ((q + 1) * r) n - 1) (by omega) (by
      rw [Nat.div_eq_iff hr, Nat.succ_mul]
      omega)
    rw [Nat.succ_mul] at hlast ⊢
    omega

/-- All points of a block are in a chunk where the chunk covers the block. -/
theorem coversFrom_iff {offset block rs shape cs : List Nat}
    (hrs : ∀ r ∈ rs, 1 ≤ r) (hlen : rs.length = shape.length)
    (hblock : InBox (cellCounts shape rs) block) :
    CoversFrom offset block rs shape cs ↔
      ∀ x, InBox shape x → cellOf rs x = block → InsideFrom offset x cs := by
  induction rs generalizing offset block shape cs with
  | nil =>
      cases shape with
      | cons n shape => simp at hlen
      | nil =>
          cases hblock
          apply iff_of_true
          · cases offset <;> simp [CoversFrom]
          · intro x hx _
            cases hx
            cases offset <;> simp [InsideFrom]
  | cons r rs ih =>
      cases shape with
      | nil => simp at hlen
      | cons n shape =>
          rw [List.forall_mem_cons] at hrs
          cases hblock with
          | @cons q _ block _ hq hblock =>
              have hlow : q * r < n := (lt_divCeil hrs.1).mp hq
              have hlen' : rs.length = shape.length := by simpa using hlen
              cases offset with
              | nil => simp [CoversFrom, InsideFrom]
              | cons o offset =>
                  cases cs with
                  | nil => simp [CoversFrom, InsideFrom]
                  | cons sz cs =>
                      rw [CoversFrom, ih hrs.2 hlen' hblock]
                      rw [covers_block_iff hrs.1 hlow]
                      constructor
                      · rintro ⟨hfirst, htail⟩ x hx hcell
                        cases hx with
                        | @cons i _ x _ hi hx =>
                            rcases List.cons.inj hcell with ⟨hdiv, hcell⟩
                            exact ⟨hfirst i hi hdiv, htail x hx hcell⟩
                      · intro hall
                        -- the first point of the block in the other dimensions
                        have hcorner := cellOffset_inBox hrs.2 hlen' hblock
                        have hcornerCell := cellOf_cellOffset (g := block) hrs.2
                          (by simpa [cellCounts, hlen'] using hblock.length_eq)
                        constructor
                        · intro i hi hdiv
                          exact (hall (i :: cellOffset rs block)
                            (.cons hi hcorner)
                            (congrArg₂ List.cons hdiv hcornerCell)).1
                        · intro x hx hcell
                          exact (hall (q * r :: x) (.cons hlow hx)
                            (congrArg₂ List.cons (Nat.mul_div_cancel q hrs.1)
                              hcell)).2

/-! ## What the check is worth -/

theorem InsideFrom.contains {ds : Dataset D} (hends : ds.EndsFit) {c : Chunk D}
    (hc : c ∈ ds.chunks) {x : List Nat} (hx : x.length = D) :
    c.contains b x ds.chunkShape.toList = .ok .eq ↔
      InsideFrom c.offsetU64 x ds.chunkShape.toList := by
  rw [contains_iff hx]
  exact containsFrom_iff (hends c hc)

theorem divisors_pos (ds : Dataset D) : ∀ r ∈ ds.divisors, 1 ≤ r := by
  intro r hr
  rcases List.mem_map.mp hr with ⟨divisor, _, rfl⟩
  exact divisor.get_pos

@[simp] theorem length_divisors (ds : Dataset D) : ds.divisors.length = D := by
  simp [Dataset.divisors]

theorem validSound_of_covers {ds : Dataset D} (hends : ds.EndsFit)
    (h : CoversBlocks ds) : ValidSound b ds := by
  intro _ x hx
  have hlen : x.length = D := by simpa using hx.length_eq
  have hblock := cellOf_inBox (divisors_pos ds) (by simp) hx
  rcases h _ hblock with ⟨hfit, c, hc, hcovers⟩
  refine ⟨c, ?_, ?_⟩
  · rw [chunkAtCoord_place hlen hfit, hc]
  · rw [InsideFrom.contains hends (List.mem_of_getElem? hc) hlen]
    exact (coversFrom_iff (divisors_pos ds) (by simp) hblock).mp hcovers x hx rfl

theorem covers_of_validSound {ds : Dataset D} (hends : ds.EndsFit)
    (hvalid : ∀ b, ds.valid b = .ok true) (h : ∀ b, ValidSound b ds) :
    CoversBlocks ds := by
  intro block hblock
  have hcell : cellOf ds.divisors (cellOffset ds.divisors block) = block :=
    cellOf_cellOffset (divisors_pos ds)
      (by simpa [Dataset.blockCounts, cellCounts] using hblock.length_eq)
  have hcorner := cellOffset_inBox (divisors_pos ds)
    (by simp : ds.divisors.length = ds.shape.toList.length) hblock
  -- The lookup is that of the first point of the block.
  rcases h .debug (hvalid .debug) _ hcorner with ⟨c, hfound, -⟩
  have hfit := place_lt_of_chunkAtCoord hfound
  rw [hcell] at hfit
  rw [chunkAtCoord_place (by simpa using hcorner.length_eq) (by rwa [hcell]),
    hcell] at hfound
  have hc : ds.chunks[ds.place block]? = some c := by
    cases hget : ds.chunks[ds.place block]? with
    | none => simp [hget, panicWith] at hfound
    | some c' =>
        rw [hget] at hfound
        cases hfound
        rfl
  refine ⟨hfit, c, hc, ?_⟩
  rw [coversFrom_iff (divisors_pos ds) (by simp) hblock]
  intro x hx hxcell
  have hlen : x.length = D := by simpa using hx.length_eq
  rcases h .debug (hvalid .debug) x hx with ⟨c', hfound', hcontains⟩
  rw [chunkAtCoord_place hlen (by rwa [hxcell]), hxcell, hc] at hfound'
  cases hfound'
  exact (InsideFrom.contains hends (List.mem_of_getElem? hc) hlen).mp hcontains

/--
What `valid` accepts can be read in both builds exactly where it accepts nothing,
as the end of some chunk is not a word, or where the chunk at the place of every
block of the dataset covers the block.
-/
theorem validSound_iff {ds : Dataset D}
    (hcs : ∀ c ∈ ds.chunkShape.toList, 1 ≤ c ∧ c < 2 ^ 64) :
    (∀ b, ValidSound b ds) ↔ ¬ ds.EndsFit ∨ CoversBlocks ds := by
  constructor
  · intro h
    by_cases hends : ds.EndsFit
    · right
      apply covers_of_validSound hends _ h
      intro b
      exact (valid_iff_endsFit hcs).mpr hends
    · exact .inl hends
  · rintro (hends | hcovers) b
    · intro hvalid
      exact absurd ((valid_iff_endsFit hcs).mp hvalid) hends
    · by_cases hends : ds.EndsFit
      · exact validSound_of_covers hends hcovers
      · intro hvalid
        exact absurd ((valid_iff_endsFit hcs).mp hvalid) hends

theorem validSound_iff_tiles :
    (∀ b, ValidSound b tiles) ↔ ¬ tiles.EndsFit ∨ CoversBlocks tiles :=
  validSound_iff (by decide)

/-! ## A dataset of one value -/

def single (chunks : List (Chunk 1)) : Dataset 1 where
  dtype := .uint 1
  dsize := 1
  order := .le
  chunks := chunks
  shape := 1 ::ᵥ .nil
  chunkShape := 1 ::ᵥ .nil
  chunkShapeReduced := 1 ::ᵥ .nil
  scaledDimSz := 1 ::ᵥ .nil
  dimSz := 1 ::ᵥ .nil
  chunkDimSz := 1 ::ᵥ .nil
  shuffle := false
  gzip := none

/-- A list without any chunk is valid. -/
theorem not_validSound_missing : ¬ ValidSound .release (single []) := by
  intro h
  rcases h rfl [0] (.cons (by decide) .nil) with ⟨c, hfound, -⟩
  cases hfound

end Hidefix.Idx
