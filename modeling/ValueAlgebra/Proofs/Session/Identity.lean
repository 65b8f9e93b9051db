import ValueAlgebra.Proofs.Session.Coherent
import ValueAlgebra.Proofs.Value.Contents

/-!
# Identity as a shortcut

Equality answers at once for values in the same storage, at every depth and in every lookup. Storage
is shared by copies, by scalars that `Build.make` gives another type and by nothing else, so that
values in one cell differ in their static type at most. That type shows in constructor applications
only, whose identity asks for it.
-/

namespace ValueAlgebra

namespace Session

variable {s : Session} {v w : Value}

/-- Values of a program that share storage are one value under two static types, identical values
are the same when all their contents are compared, and so equality, which asks for identity before
it compares anything, always answers as a comparison of all contents does. -/
theorem Reachable.beq_eq_same_of_sharing (hs : s.Reachable) (hv : s.Has v) (hw : s.Has w) :
    (∀ c, v.cell? = some c → w.cell? = some c → w = v.withTy w.ty) ∧
    (v.isIdenticalTo w = true → v.same w = true) ∧
    (v == w) = v.same w ∧
    (v.same w = true ↔ v.Agrees (fun p q => p.same q = true) w) := by
  have hc := hs.coherent
  refine ⟨hc.shared v w hv hw, hc.same_of_isIdenticalTo hv hw, hc.beq_eq_same hv hw, ?_⟩
  exact Value.same_iff_agrees (hc.sound hv) (hc.sound hw)

/-! ### A text under two types -/

namespace Shared

def manager : Manager := ⟨0⟩

def label : Ty := manager.aliased "Label" manager.str

def text : Value := Build.str manager 0 "a"

/-- The text as a label, in the same cell. -/
def labelled : Value := .str label 0 "a"

/-- A set that was filled with the text, and then with its copy, which changes nothing. -/
def plain : Value := Build.set manager 2 [text, labelled]

def session : Session :=
  { next := 4
    values := [Build.set manager 3 [labelled], plain, labelled, text] }

theorem reachable_session : session.Reachable := by
  have htext : (({} : Session).add text).Has text := has_of_mem List.mem_cons_self
  have hlabel : ((({} : Session).add text).add labelled).Reachable :=
    .make (.make .start (.str manager "a"))
      (.make manager (.aliased manager "Label" (.basic manager .str))
        (List.forall_mem_singleton.2 htext) rfl)
  have hset : (((({} : Session).add text).add labelled).add plain).Reachable := by
    refine .make hlabel (.set manager (List.forall_mem_cons.2 ⟨?_, List.forall_mem_singleton.2 ?_⟩))
    · exact has_of_mem (.tail _ (.head _))
    · exact has_of_mem (.head _)
  refine .make hset (.set manager (List.forall_mem_singleton.2 ?_))
  exact has_of_mem (.tail _ (.head _))

end Shared

open Shared in
/-- The text and the label are identical values of different types, and sets of them are equal,
found by identity or without it. -/
theorem beq_eq_same_labelled : text.isIdenticalTo labelled = true ∧ text.ty ≠ labelled.ty ∧
    text.same labelled = true ∧ labelled = text.withTy label ∧
    (plain == Build.set manager 3 [labelled]) = plain.same (Build.set manager 3 [labelled]) := by
  have htext : session.Has text := has_of_mem (.tail _ (.tail _ (.tail _ (.head _))))
  have hlabelled : session.Has labelled := has_of_mem (.tail _ (.tail _ (.head _)))
  have hplain : session.Has plain := has_of_mem (.tail _ (.head _))
  have hset : session.Has (Build.set manager 3 [labelled]) := has_of_mem (.head _)
  obtain ⟨hshared, hsame, -⟩ := reachable_session.beq_eq_same_of_sharing htext hlabelled
  exact ⟨rfl, nofun, hsame rfl, hshared 0 rfl rfl,
    (reachable_session.beq_eq_same_of_sharing hplain hset).2.2.1⟩

end Session

end ValueAlgebra
