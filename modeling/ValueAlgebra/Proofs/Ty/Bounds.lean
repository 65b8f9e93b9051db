import ValueAlgebra.Proofs.Ty.Join

/-!
# Least types above several others

A collection infers the type of its elements by joining one type after the other. How the joins are
nested, which manager makes them and in what order the types come shows in the aliases and labels of
the result only: what is reached is a least type above all of them, and such types are equivalent.

## Main definitions

- `Ty.IsLeastAbove`: a type is a least one above the types of a list
-/

namespace ValueAlgebra

namespace Ty

/-- The type is above each of `types` and below whatever is above all of them. -/
structure IsLeastAbove (types : List Ty) (e : Ty) : Prop where
  above : ∀ t ∈ types, t.isSubtypeOf e = true
  least : ∀ w : Ty, (∀ t ∈ types, t.isSubtypeOf w = true) → e.isSubtypeOf w = true

variable {t u e e' : Ty}

theorem isEquivalentTo_iff :
    t.isEquivalentTo u = true ↔ t.isSubtypeOf u = true ∧ u.isSubtypeOf t = true := by
  rw [isEquivalentTo, Bool.and_eq_true]

namespace IsLeastAbove

variable {types types' : List Ty}

/-- A least type above more types is above one of fewer. -/
theorem isSubtypeOf (h : IsLeastAbove types e) (h' : IsLeastAbove types' e')
    (hsub : types ⊆ types') : e.isSubtypeOf e' = true :=
  h.least e' fun t ht => h'.above t (hsub ht)

/-- It is determined up to equivalence by which types it bounds. -/
theorem isEquivalentTo (h : IsLeastAbove types e) (h' : IsLeastAbove types' e')
    (hsub : types ⊆ types') (hsub' : types' ⊆ types) : e.isEquivalentTo e' = true :=
  isEquivalentTo_iff.2 ⟨h.isSubtypeOf h' hsub, h'.isSubtypeOf h hsub'⟩

theorem singleton (t : Ty) : IsLeastAbove [t] t :=
  ⟨List.forall_mem_singleton.2 (isSubtypeOf_refl t), fun _ hw => hw t List.mem_cons_self⟩

/-- One more type is joined to it. -/
theorem snoc (h : IsLeastAbove types e) {j : Ty} (hj : IsJoin e t j) :
    IsLeastAbove (types ++ [t]) j := by
  refine ⟨fun u hu => ?_, fun w hw => ?_⟩
  · rcases List.mem_append.1 hu with hu | hu
    · exact isSubtypeOf_trans (h.above u hu) hj.left
    · exact List.mem_singleton.1 hu ▸ hj.right
  · refine hj.least w (h.least w fun u hu => ?_) (hw t ?_)
    · exact hw u (List.mem_append_left _ hu)
    · exact List.mem_append_right _ List.mem_cons_self

/-- More types are joined to it one by one, in whatever way joins are made. -/
theorem foldl {join : Ty → Ty → Ty}
    (hjoin : ∀ t u, t.WellFormed → u.WellFormed → IsJoin t u (join t u))
    (h : IsLeastAbove types e) (he : e.WellFormed) (ht : ∀ t ∈ types', t.WellFormed) :
    IsLeastAbove (types ++ types') (types'.foldl join e) := by
  induction types' generalizing types e with
  | nil =>
    rw [List.append_nil]
    exact h
  | cons t types' ih =>
    obtain ⟨htwf, ht⟩ := List.forall_mem_cons.1 ht
    have hj := hjoin e t he htwf
    rw [List.append_cons]
    exact ih (h.snoc hj) hj.wellFormed ht

end IsLeastAbove

/-! ### Equivalent parts -/

variable {o o' : Origin} {k k' x x' : Ty}

theorem isEquivalentTo_list (h : e.isEquivalentTo e' = true) :
    (list o e).isEquivalentTo (list o' e') = true := by
  rwa [isEquivalentTo, isSubtypeOf_list, isSubtypeOf_list]

/-- Equivalent types make equivalent sets, of which both or none are relations. -/
theorem isEquivalentTo_setOf (m m' : Manager) (h : e.isEquivalentTo e' = true) :
    (m.set e).isEquivalentTo (m'.set e') = true := by
  rwa [isEquivalentTo, (IsSetOf.setOf m e).isSubtypeOf_iff (.setOf m' e'),
    (IsSetOf.setOf m' e').isSubtypeOf_iff (.setOf m e)]

theorem isEquivalentTo_map (hk : k.isEquivalentTo k' = true) (hx : x.isEquivalentTo x' = true) :
    (map o k x).isEquivalentTo (map o' k' x') = true := by
  obtain ⟨hk, hk'⟩ := isEquivalentTo_iff.1 hk
  obtain ⟨hx, hx'⟩ := isEquivalentTo_iff.1 hx
  exact isEquivalentTo_iff.2 ⟨isSubtypeOf_map.2 ⟨hk, hx⟩, isSubtypeOf_map.2 ⟨hk', hx'⟩⟩

end Ty

namespace Manager

open Ty

variable {types : List Ty}

theorem isLeastAbove_lubOf (m : Manager) (h : ∀ t ∈ types, t.WellFormed) :
    IsLeastAbove types (m.lubOf types) :=
  ⟨isSubtypeOf_lubOf h, fun _ hw => lubOf_isSubtypeOf h hw⟩

end Manager

end ValueAlgebra
