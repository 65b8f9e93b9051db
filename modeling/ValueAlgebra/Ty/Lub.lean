import ValueAlgebra.Ty.Subtype
import ValueAlgebra.Ty.Manager

/-!
# Least upper bounds

`t.lub m u` is the most precise type above both `t` and `u`; where they are comparable it is the
larger of the two as given, and otherwise manager `m` builds it. A tuple keeps a label only where
both sides agree on it, two constructors meet in their data types, and types of unlike kinds have
only `value` above them.
-/

namespace ValueAlgebra

namespace Ty

/-- The label of a joined field. -/
def commonLabel (l k : Option String) : Option String := if l = k then l else none

mutual

def lub (m : Manager) (t u : Ty) : Ty :=
  if t.isSubtypeOf u then u
  else if u.isSubtypeOf t then t
  else
    match _ht : t.unalias, _hu : u.unalias with
    | tuple _ fs, tuple _ gs =>
      if fs.length = gs.length then m.tupleOfFields (lubFields m fs gs) else m.value
    | list _ e, list _ e' => m.list (lub m e e')
    | set _ e, set _ e' => m.set (lub m e e')
    | set _ e, relation _ r => m.set (lub m e r)
    | relation _ r, set _ e => m.set (lub m r e)
    | relation _ r, relation _ r' => m.set (lub m r r')
    | map _ k v, map _ k' v' => m.map (lub m k k') (lub m v v')
    | constructor _ a _ _, constructor _ b _ _ => lub m a b
    | constructor _ a _ _, adt o n ps => lub m a (adt o n ps)
    | adt o n ps, constructor _ a _ _ => lub m a (adt o n ps)
    | adt _ n ps, adt _ n' qs =>
      if n = n' ∧ ps.length = qs.length then m.adt n (lubAll m ps qs) else m.value
    | _, _ => m.value
termination_by sizeOf t + sizeOf u
decreasing_by
  all_goals
    have h₁ := sizeOf_unalias_le t
    have h₂ := sizeOf_unalias_le u
    rw [_ht] at h₁
    rw [_hu] at h₂
    simp at h₁ h₂ ⊢
    omega

/-- The joins of fields at the same position. -/
def lubFields (m : Manager) (fs gs : List (Field Ty)) : List (Field Ty) :=
  match fs, gs with
  | ⟨t, l⟩ :: fs, ⟨u, k⟩ :: gs => ⟨lub m t u, commonLabel l k⟩ :: lubFields m fs gs
  | _, _ => []
termination_by sizeOf fs + sizeOf gs

/-- The joins of types at the same position. -/
def lubAll (m : Manager) (ts us : List Ty) : List Ty :=
  match ts, us with
  | t :: ts, u :: us => lub m t u :: lubAll m ts us
  | _, _ => []
termination_by sizeOf ts + sizeOf us

end

variable {m : Manager}

theorem lubFields_eq_zipWith : ∀ fs gs : List (Field Ty), lubFields m fs gs =
    List.zipWith (fun f g => ⟨f.ty.lub m g.ty, commonLabel f.label g.label⟩) fs gs
  | [], _ | _ :: _, [] => by simp [lubFields]
  | f :: fs, g :: gs => by rw [lubFields, lubFields_eq_zipWith fs gs, List.zipWith_cons_cons]

theorem lubAll_eq_zipWith : ∀ ts us : List Ty, lubAll m ts us = List.zipWith (lub m) ts us
  | [], _ | _ :: _, [] => by simp [lubAll]
  | t :: ts, u :: us => by rw [lubAll, lubAll_eq_zipWith ts us, List.zipWith_cons_cons]

theorem mem_lubFields {f : Field Ty} {fs gs : List (Field Ty)} (h : f ∈ lubFields m fs gs) :
    ∃ p ∈ fs, ∃ q ∈ gs, f = ⟨p.ty.lub m q.ty, commonLabel p.label q.label⟩ := by
  rw [lubFields_eq_zipWith, ← List.map_uncurry_zip_eq_zipWith] at h
  obtain ⟨⟨p, q⟩, hpq, rfl⟩ := List.mem_map.1 h
  exact ⟨p, (List.of_mem_zip hpq).1, q, (List.of_mem_zip hpq).2, rfl⟩

end Ty

end ValueAlgebra
