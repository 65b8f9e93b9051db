import Std.Data.ExtTreeMap
import ValueAlgebra.Ty.Identity
import ValueAlgebra.Ty.Text

/-!
# Shared types

A pool keeps types and hands out the kept one for each equal type it is shown. This changes no
type, but types from one pool that are equal occupy the same storage, so that comparing them takes
no time. It matters for aliases whose definitions are built from aliases: written out, such a
definition doubles with every step.
-/

open Std (ExtTreeMap)

namespace ValueAlgebra

namespace Ty

/-- The types kept, by their text. -/
structure Pool where
  kept : ExtTreeMap String (List Ty) := ∅

namespace Pool

instance : EmptyCollection Pool := ⟨{}⟩

instance : Inhabited Pool := ⟨∅⟩

/-- The kept type equal to `t`, which is `t` from now on if there was none. -/
def share (p : Pool) (t : Ty) : Ty × Pool :=
  let candidates := p.kept.getD t.text []
  match candidates.find? (· == t) with
  | some old => (old, p)
  | none => (t, { kept := p.kept.insert t.text (t :: candidates) })

@[simp]
theorem share_fst (p : Pool) (t : Ty) : (p.share t).1 = t := by
  simp only [share]
  split
  · rename_i h
    simpa using List.find?_some h
  · rfl

end Pool

end Ty

end ValueAlgebra
