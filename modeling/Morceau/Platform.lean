import Morceau.Data.Graph
import Morceau.Lib.SliceSort
import Morceau.Lib.Wire

/-!
# What the program is built on

The functions of other libraries that the program calls, as a parameter of everything that uses
them: bincode 2 with its standard configuration for the payload of a record, and `slice::sort_by`
for `ORDER BY`. Of each of them the model keeps what its documentation says and no more.

Decoding an encoded mutation gives the mutation back. A sort with a comparator that is total on the
elements of the slice gives the stable sorted permutation; with any other comparator it may panic,
and if it does not, it leaves the elements in some order. Which of the two happens, and which
order it is, depends on the algorithm and on the order of the elements.
-/

set_option autoImplicit false

namespace Morceau

open Lib

/-- `bincode::error::EncodeError`. -/
inductive EncodeError where
  | other (message : String)
deriving DecidableEq, Repr

/-- `bincode::serde::encode_to_vec` and `decode_from_slice` at the type `Mutation`, and
`slice::sort_by`, where `none` is a panic. -/
structure Platform where
  encode : Mutation → Except EncodeError Bytes
  decode : Bytes → Except DecodeError Mutation
  decode_encode : ∀ {m b}, encode m = .ok b → decode b = .ok m
  sortBy : {α : Type} → (α → α → Ordering) → List α → Option (List α)
  perm_sortBy : ∀ {α : Type} {cmp : α → α → Ordering} {as bs : List α},
    sortBy cmp as = some bs → bs.Perm as
  sortBy_total : ∀ {α : Type} {cmp : α → α → Ordering} {as : List α}, TotalOn cmp as →
    sortBy cmp as = some (as.mergeSort fun a b => cmp a b != .gt)

end Morceau
