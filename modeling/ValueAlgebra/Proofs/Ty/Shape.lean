import ValueAlgebra.Proofs.Ty.Laws

/-!
# Types up to identity

Which manager built a type, or which parts of it, decides neither what lies above it nor what it
joins with. `Ty.isSubtypeWith` compares types as they are compared, with the test for identity as a
parameter: a test that holds of types of the same shape only never decides the answer. A join has
the shape of the join of the shapes, so it depends on nothing else either.

## Main results

- `Ty.isSubtypeWith_eq`: a shortcut between types of the same shape changes no comparison
- `Ty.shape_lub`: the join of shapes is the shape of the join
-/

namespace ValueAlgebra

namespace Ty

variable {shortcut : Ty → Ty → Bool} {t u : Ty} {m : Manager} {o o' : Origin}

mutual

/-- Compares what is left of two types without their aliases: by `shortcut` first, and otherwise
by their outermost forms. -/
def isSubtypeWith (shortcut : Ty → Ty → Bool) (t u : Ty) : Bool :=
  shortcut t.unalias u.unalias ||
    match _ht : t.unalias, _hu : u.unalias with
    | _, basic _ .value => true
    | basic _ .void, _ => true
    | list _ e, list _ e' => isSubtypeWith shortcut e e'
    | set _ e, set _ e' => isSubtypeWith shortcut e e'
    | set _ e, relation _ r => isSubtypeWith shortcut e r
    | relation _ r, set _ e => isSubtypeWith shortcut r e
    | relation _ r, relation _ r' => isSubtypeWith shortcut r r'
    | map _ k v, map _ k' v' => isSubtypeWith shortcut k k' && isSubtypeWith shortcut v v'
    | tuple _ fs, tuple _ gs => fieldsSubtypeWith shortcut fs gs
    | adt _ n ps, adt _ n' qs => n == n' && allSubtypeWith shortcut ps qs
    | constructor _ a _ _, adt o n ps => isSubtypeWith shortcut a (adt o n ps)
    | basic _ b, basic _ c => b == c
    | constructor o a n fs, constructor o' b n' gs =>
      (constructor o a n fs).sameShape (constructor o' b n' gs)
    | _, _ => false
termination_by sizeOf t + sizeOf u
decreasing_by
  all_goals
    have h₁ := sizeOf_unalias_le t
    have h₂ := sizeOf_unalias_le u
    rw [_ht] at h₁
    rw [_hu] at h₂
    simp at h₁ h₂ ⊢
    omega

/-- As many fields on both sides, each compared with its counterpart. -/
def fieldsSubtypeWith (shortcut : Ty → Ty → Bool) (fs gs : List (Field Ty)) : Bool :=
  match fs, gs with
  | [], [] => true
  | ⟨t, _⟩ :: fs, ⟨u, _⟩ :: gs => isSubtypeWith shortcut t u && fieldsSubtypeWith shortcut fs gs
  | _, _ => false
termination_by sizeOf fs + sizeOf gs

/-- As many types on both sides, each compared with its counterpart. -/
def allSubtypeWith (shortcut : Ty → Ty → Bool) (ts us : List Ty) : Bool :=
  match ts, us with
  | [], [] => true
  | t :: ts, u :: us => isSubtypeWith shortcut t u && allSubtypeWith shortcut ts us
  | _, _ => false
termination_by sizeOf ts + sizeOf us

end

/-! ### The shortcut decides nothing -/

theorem fieldsSubtypeWith_eq : ∀ {fs gs : List (Field Ty)},
    (∀ f ∈ fs, ∀ g ∈ gs, isSubtypeWith shortcut f.ty g.ty = f.ty.isSubtypeOf g.ty) →
    fieldsSubtypeWith shortcut fs gs = fieldsBelow fs gs
  | [], [], _ | [], _ :: _, _ | _ :: _, [], _ => by
    simp only [fieldsSubtypeWith, fieldsBelow]
  | f :: fs, g :: gs, h => by
    have ih := fieldsSubtypeWith_eq fun f' hf g' hg =>
      h f' (List.mem_cons_of_mem f hf) g' (List.mem_cons_of_mem g hg)
    rw [fieldsSubtypeWith, fieldsBelow, ih]
    congr 1
    exact h f List.mem_cons_self g List.mem_cons_self

theorem allSubtypeWith_eq : ∀ {ts us : List Ty},
    (∀ t ∈ ts, ∀ u ∈ us, isSubtypeWith shortcut t u = t.isSubtypeOf u) →
    allSubtypeWith shortcut ts us = allBelow ts us
  | [], [], _ | [], _ :: _, _ | _ :: _, [], _ => by
    simp only [allSubtypeWith, allBelow]
  | t :: ts, u :: us, h => by
    have ih := allSubtypeWith_eq fun t' ht u' hu =>
      h t' (List.mem_cons_of_mem t ht) u' (List.mem_cons_of_mem u hu)
    rw [allSubtypeWith, allBelow, ih]
    congr 1
    exact h t List.mem_cons_self u List.mem_cons_self

/-- A test for identity is a shortcut: what it holds of is of one shape, and the comparison that
skips it answers the same. -/
theorem isSubtypeWith_eq (hs : ∀ t u : Ty, shortcut t u = true → t.shape = u.shape) (t u : Ty) :
    isSubtypeWith shortcut t u = t.isSubtypeOf u := by
  induction hn : sizeOf t + sizeOf u using Nat.strongRecOn generalizing t u with
  | ind n ih =>
    subst hn
    have ih (t' u' : Ty) (hlt : sizeOf t' + sizeOf u' < sizeOf t.unalias + sizeOf u.unalias) :
        isSubtypeWith shortcut t' u' = t'.isSubtypeOf u' := by
      have := sizeOf_unalias_le t
      have := sizeOf_unalias_le u
      exact ih _ (by omega) t' u' rfl
    rw [isSubtypeWith, ← isSubtypeOf_unalias_left, ← isSubtypeOf_unalias_right]
    have hua := isAlias_unalias u
    have hta := isAlias_unalias t
    generalize t.unalias = t' at *
    generalize u.unalias = u' at *
    by_cases hsc : shortcut t' u' = true
    · rw [hsc, Bool.true_or, isSubtypeOf_congr_left (hs t' u' hsc), isSubtypeOf_refl]
    rw [Bool.eq_false_iff.2 hsc, Bool.false_or, isSubtypeOf, unalias_of_isAlias_eq_false hua]
    split
    · exact (isBelow_value _).symm
    · exact (void_isBelow _).symm
    · next e _ e' =>
      rw [isBelow]
      exact ih e e' (by simp only [list.sizeOf_spec]; omega)
    · next e _ e' =>
      rw [isBelow]
      exact ih e e' (by simp only [set.sizeOf_spec]; omega)
    · next e _ r =>
      rw [isBelow]
      exact ih e r (by simp only [set.sizeOf_spec, relation.sizeOf_spec]; omega)
    · next r _ e =>
      rw [isBelow]
      exact ih r e (by simp only [set.sizeOf_spec, relation.sizeOf_spec]; omega)
    · next r _ r' =>
      rw [isBelow]
      exact ih r r' (by simp only [relation.sizeOf_spec]; omega)
    · next k v _ k' v' =>
      rw [isBelow, ih k k' (by simp only [map.sizeOf_spec]; omega),
        ih v v' (by simp only [map.sizeOf_spec]; omega)]
      rfl
    · next fs _ gs =>
      rw [isBelow]
      refine fieldsSubtypeWith_eq fun f hf g hg => ?_
      have := sizeOf_field_lt hf
      have := sizeOf_field_lt hg
      exact ih f.ty g.ty (by simp only [tuple.sizeOf_spec]; omega)
    · next n ps _ n' qs =>
      rw [isBelow]
      congr 1
      refine allSubtypeWith_eq fun p hp q hq => ?_
      have := List.sizeOf_lt_of_mem hp
      have := List.sizeOf_lt_of_mem hq
      exact ih p q (by simp only [adt.sizeOf_spec]; omega)
    · next a _ _ o n ps =>
      rw [isBelow]
      exact ih a (adt o n ps) (by simp only [constructor.sizeOf_spec]; omega)
    · next b _ c _ _ =>
      cases b <;> cases c <;> simp_all [isBelow]
    · rw [isBelow]
    · -- No case of the comparison is for two such forms.
      have halias (o : Origin) (n : String) (w : Ty) : t' = aliased o n w → False := by
        rintro rfl
        cases hta
      rw [isBelow] <;> assumption

/-! ### The join of shapes -/

theorem isSubtypeOf_shape (t u : Ty) : t.shape.isSubtypeOf u.shape = t.isSubtypeOf u := by
  rw [isSubtypeOf, isSubtypeOf, ← shape_unalias, isBelow_shape]

theorem shapeFields_lubFields : ∀ {fs gs : List (Field Ty)},
    (∀ f ∈ fs, ∀ g ∈ gs, (f.ty.lub m g.ty).shape = f.ty.shape.lub ⟨0⟩ g.ty.shape) →
    shapeFields (lubFields m fs gs) = lubFields ⟨0⟩ (shapeFields fs) (shapeFields gs)
  | [], _, _ | _ :: _, [], _ => by
    simp only [lubFields, shapeFields]
  | f :: fs, g :: gs, h => by
    have ih := shapeFields_lubFields fun f' hf g' hg =>
      h f' (List.mem_cons_of_mem f hf) g' (List.mem_cons_of_mem g hg)
    rw [lubFields, shapeFields, ih, shapeFields, shapeFields, lubFields,
      h f List.mem_cons_self g List.mem_cons_self]

theorem shapes_lubAll : ∀ {ts us : List Ty},
    (∀ t ∈ ts, ∀ u ∈ us, (t.lub m u).shape = t.shape.lub ⟨0⟩ u.shape) →
    shapes (lubAll m ts us) = lubAll ⟨0⟩ (shapes ts) (shapes us)
  | [], _, _ | _ :: _, [], _ => by
    simp only [lubAll, shapes]
  | t :: ts, u :: us, h => by
    have ih := shapes_lubAll fun t' ht u' hu =>
      h t' (List.mem_cons_of_mem t ht) u' (List.mem_cons_of_mem u hu)
    rw [lubAll, shapes, ih, shapes, shapes, lubAll, h t List.mem_cons_self u List.mem_cons_self]

theorem shape_set (m : Manager) (e : Ty) : (m.set e).shape = Manager.set ⟨0⟩ e.shape := by
  rw [Manager.set, Manager.set, isTuple, isTuple, kind_shape]
  split <;> rfl

theorem shape_lub (m : Manager) (t u : Ty) : (t.lub m u).shape = t.shape.lub ⟨0⟩ u.shape := by
  induction hn : sizeOf t + sizeOf u using Nat.strongRecOn generalizing t u with
  | ind n ih =>
    subst hn
    have ih (t' u' : Ty) (hlt : sizeOf t' + sizeOf u' < sizeOf t.unalias + sizeOf u.unalias) :
        (t'.lub m u').shape = t'.shape.lub ⟨0⟩ u'.shape := by
      have := sizeOf_unalias_le t
      have := sizeOf_unalias_le u
      exact ih _ (by omega) t' u' rfl
    rw [lub, lub, isSubtypeOf_shape, isSubtypeOf_shape, ← shape_unalias, ← shape_unalias]
    by_cases htu : t.isSubtypeOf u = true
    · rw [if_pos htu, if_pos htu]
    by_cases hut : u.isSubtypeOf t = true
    · rw [if_neg htu, if_neg htu, if_pos hut, if_pos hut]
    rw [if_neg htu, if_neg htu, if_neg hut, if_neg hut]
    generalize t.unalias = t' at *
    generalize u.unalias = u' at *
    split
    · next fs _ gs =>
      have hlen : (shapeFields fs).length = (shapeFields gs).length ↔ fs.length = gs.length := by
        rw [shapeFields_eq_map, shapeFields_eq_map, List.length_map, List.length_map]
      show _ = if _ then Manager.tupleOfFields ⟨0⟩ (lubFields ⟨0⟩ (shapeFields fs) (shapeFields gs))
        else Manager.value ⟨0⟩
      rw [← shapeFields_lubFields fun f hf g hg => ?_]
      · simp only [hlen]
        split <;> rfl
      · have := sizeOf_field_lt hf
        have := sizeOf_field_lt hg
        exact ih f.ty g.ty (by simp only [tuple.sizeOf_spec]; omega)
    · next e _ e' =>
      show (m.list (e.lub m e')).shape = Manager.list ⟨0⟩ (e.shape.lub ⟨0⟩ e'.shape)
      rw [← ih e e' (by simp only [list.sizeOf_spec]; omega)]
      rfl
    · next e _ e' =>
      rw [shape_set, ih e e' (by simp only [set.sizeOf_spec]; omega)]
      rfl
    · next e _ r =>
      rw [shape_set, ih e r (by simp only [set.sizeOf_spec, relation.sizeOf_spec]; omega)]
      rfl
    · next r _ e =>
      rw [shape_set, ih r e (by simp only [set.sizeOf_spec, relation.sizeOf_spec]; omega)]
      rfl
    · next r _ r' =>
      rw [shape_set, ih r r' (by simp only [relation.sizeOf_spec]; omega)]
      rfl
    · next k v _ k' v' =>
      show (m.map (k.lub m k') (v.lub m v')).shape =
        Manager.map ⟨0⟩ (k.shape.lub ⟨0⟩ k'.shape) (v.shape.lub ⟨0⟩ v'.shape)
      rw [← ih k k' (by simp only [map.sizeOf_spec]; omega),
        ← ih v v' (by simp only [map.sizeOf_spec]; omega)]
      rfl
    · next a _ _ _ b _ _ => exact ih a b (by simp only [constructor.sizeOf_spec]; omega)
    · next a _ _ o n ps => exact ih a (adt o n ps) (by simp only [constructor.sizeOf_spec]; omega)
    · next o n ps _ a _ _ => exact ih a (adt o n ps) (by simp only [constructor.sizeOf_spec]; omega)
    · next n ps _ n' qs =>
      have hlen : (shapes ps).length = (shapes qs).length ↔ ps.length = qs.length := by
        rw [shapes_eq_map, shapes_eq_map, List.length_map, List.length_map]
      show _ = if _ then Manager.adt ⟨0⟩ n (lubAll ⟨0⟩ (shapes ps) (shapes qs))
        else Manager.value ⟨0⟩
      rw [← shapes_lubAll fun p hp q hq => ?_]
      · simp only [hlen]
        split <;> rfl
      · have := List.sizeOf_lt_of_mem hp
        have := List.sizeOf_lt_of_mem hq
        exact ih p q (by simp only [adt.sizeOf_spec]; omega)
    · -- Two forms that have a case of their own contradict one of the hypotheses.
      cases t' <;> cases u' <;> first | rfl | (exfalso; solve_by_elim)

/-- Types of one shape lie below the same types, whichever managers built their nodes, and their
joins are of one shape, whichever managers build them. The test for identity that a comparison
makes first changes no answer, nor does any other test that holds within a shape only. -/
theorem sameShape_isCongruence {t t' u u' : Ty} (ht : t.sameShape t' = true)
    (hu : u.sameShape u' = true) (m m' : Manager) :
    t.isSubtypeOf u = t'.isSubtypeOf u' ∧
      (t.lub m u).sameShape (t'.lub m' u') = true ∧
        isSubtypeWith (· == ·) t u = t.isSubtypeOf u ∧
          ∀ shortcut : Ty → Ty → Bool,
            (∀ a b : Ty, shortcut a b = true → a.sameShape b = true) →
              isSubtypeWith shortcut t u = isSubtypeWith (fun _ _ => false) t u := by
  rw [sameShape_iff] at ht hu
  have hbelow : t.isSubtypeOf u = t'.isSubtypeOf u' := by
    rw [← isSubtypeOf_shape t u, ht, hu, isSubtypeOf_shape]
  have hlub : (t.lub m u).shape = (t'.lub m' u').shape := by
    rw [shape_lub, shape_lub, ht, hu]
  refine ⟨hbelow, sameShape_iff.2 hlub, ?_, ?_⟩
  · refine isSubtypeWith_eq (fun a b hab => ?_) t u
    rw [eq_of_beq hab]
  · intro shortcut hs
    rw [isSubtypeWith_eq (fun a b hab => sameShape_iff.1 (hs a b hab)),
      isSubtypeWith_eq fun a b hab => (Bool.false_ne_true hab).elim]

namespace Sample

/-- `rel[Box[int]::full(int content) box, int count]` over tuples of another manager. -/
def mixedBoxes : Ty := other.set (other.aliased "Row" row)

/-- `rel[Box[str], double]` with parts of two managers. -/
def mixedCounts : Ty := other.relation [manager.adt "Box" [other.str], manager.double]

end Sample

open Sample in
theorem sameShape_boxes_counts :
    boxes.sameShape mixedBoxes = true ∧ counts.sameShape mixedCounts = true ∧
      boxes.isSubtypeOf counts = mixedBoxes.isSubtypeOf mixedCounts ∧
        (boxes.lub manager counts).sameShape (mixedBoxes.lub other mixedCounts) = true ∧
          isSubtypeWith (· == ·) boxes counts = isSubtypeWith (fun _ _ => false) boxes counts := by
  have hboxes : boxes.sameShape mixedBoxes = true := by decide
  have hcounts : counts.sameShape mixedCounts = true := by decide
  obtain ⟨hbelow, hlub, -, hshortcut⟩ := sameShape_isCongruence hboxes hcounts manager other
  refine ⟨hboxes, hcounts, hbelow, hlub, hshortcut _ fun a b hab => ?_⟩
  rw [eq_of_beq hab, sameShape_self]

end Ty

end ValueAlgebra
