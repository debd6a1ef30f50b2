import Hidefix.Foundation.Checked
import Mathlib.Data.Vector.Basic

/-!
# Gzip filter
-/

namespace Hidefix.Filters

open Foundation

/--
`zlib_decompress` of libdeflater: what the output buffer, of the given length,
holds afterwards, or `none` for an error.
-/
abbrev ZlibDecompress := Bytes → (out : Nat) → Option (List.Vector UInt8 out)

def decompress (zlib : ZlibDecompress) (compressed : Bytes) (out : Nat) :
    Exec Bytes :=
  match zlib compressed out with
  | some decache => .ok decache.toList
  | none => bail "Could not decompress chunk"

end Hidefix.Filters
