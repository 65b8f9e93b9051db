import Mathlib.Data.List.Forall2
import ValueAlgebra.Proofs.Ty.Join
import ValueAlgebra.Proofs.Value.Parts
import ValueAlgebra.Store.Basic

/-!
# Well-typed values

The static type of a value describes its contents: it is of the value's kind, and what the value
holds lies below the types that it gives for fields, elements, keys and values. This is said of one
level of a value; `Session` proofs carry it through all levels.

## Main definitions

- `Value.Fits`: children that match fields
- `Value.WellTyped`: a value whose type describes it
- `Value.Total`: a value for which every accessor of its type has an answer
-/

namespace ValueAlgebra

namespace Value

variable {v : Value} {t u : Ty}

/-- As many children as fields, each of a subtype of its field's type. -/
def Fits (vs : List Value) (fs : List (Field Ty)) : Prop :=
  List.Forall₂ (fun v f => v.ty.isSubtypeOf f.ty = true) vs fs

/-- The type of the value describes the value and bounds its parts. Relations, and no other sets,
have tuples for elements. -/
def WellTyped : Value → Prop
  | int t _ => t.kind = .int
  | double t _ => t.kind = .double
  | bool t _ => t.kind = .bool
  | str t _ _ => t.kind = .str
  | loc t _ _ _ => t.kind = .loc
  | node t _ _ _ => t.kind = .node
  | tuple t _ vs => ∃ o fs, t.unalias = .tuple o fs ∧ Fits vs fs
  | constructor t _ vs => ∃ o a n fs, t.unalias = .constructor o a n fs ∧ Fits vs fs
  | list t _ vs => ∃ o e, t.unalias = .list o e ∧ ∀ v ∈ vs, v.ty.isSubtypeOf e = true
  | set t _ es => ∃ o e, (t.unalias = .set o e ∧ e.isTuple = false ∨
      t.unalias = .relation o e ∧ e.isTuple = true) ∧ ∀ v ∈ es.keys, v.ty.isSubtypeOf e = true
  | map t _ es => ∃ o k x, t.unalias = .map o k x ∧ (∀ v ∈ es.keys, v.ty.isSubtypeOf k = true) ∧
      ∀ v ∈ es.values, v.ty.isSubtypeOf x = true

/-- Every accessor that a value of this kind has finds its answer in the type. -/
def Total : Value → Prop
  | list t _ _ | set t _ _ => t.element?.isSome = true
  | map t _ _ => t.key?.isSome = true ∧ t.val?.isSome = true
  | constructor t _ _ => t.constructorName?.isSome = true ∧ t.owner?.isSome = true
  | _ => True

theorem WellTyped.total (h : v.WellTyped) : v.Total := by
  cases v with
  | list =>
    obtain ⟨_, _, h, -⟩ := h
    simp [Total, Ty.element?, h]
  | set =>
    obtain ⟨_, _, ⟨h, -⟩ | ⟨h, -⟩, -⟩ := h <;> simp [Total, Ty.element?, h]
  | map =>
    obtain ⟨_, _, _, h, -⟩ := h
    simp [Total, Ty.key?, Ty.val?, h]
  | constructor =>
    obtain ⟨_, _, _, _, h, -⟩ := h
    simp [Total, Ty.constructorName?, Ty.owner?, h]
  | _ => trivial

/-- A value is of the kind of its type. -/
theorem WellTyped.kind_ty (h : v.WellTyped) : v.ty.kind = v.kind := by
  cases v with
  | int | double | bool | str | loc | node => exact h
  | set t c es =>
    obtain ⟨_, _, ⟨h, -⟩ | ⟨h, -⟩, -⟩ := h
    · have hk : t.kind = .set := by rw [← Ty.kind_unalias, h]; rfl
      simp [ty, kind, Ty.isRelation, hk]
    · have hk : t.kind = .relation := by rw [← Ty.kind_unalias, h]; rfl
      simp [ty, kind, Ty.isRelation, hk]
  | tuple t c vs =>
    obtain ⟨_, _, h, -⟩ := h
    rw [ty, ← Ty.kind_unalias, h]
    rfl
  | list t c vs =>
    obtain ⟨_, _, h, -⟩ := h
    rw [ty, ← Ty.kind_unalias, h]
    rfl
  | map t c vs =>
    obtain ⟨_, _, _, h, -⟩ := h
    rw [ty, ← Ty.kind_unalias, h]
    rfl
  | constructor t c vs =>
    obtain ⟨_, _, _, _, h, -⟩ := h
    rw [ty, ← Ty.kind_unalias, h]
    rfl

theorem kind_ne_void (v : Value) : v.kind ≠ .void := by
  cases v with
  | set t c es =>
    rw [kind]
    split <;> nofun
  | _ => nofun

/-- No value is of type `void`, nor of any subtype of it. -/
theorem WellTyped.not_isSubtypeOf_void (h : v.WellTyped) (ht : t.kind = .void) :
    v.ty.isSubtypeOf t = false := by
  refine Bool.eq_false_iff.2 fun hv => v.kind_ne_void ?_
  have hbasic : ∃ o, t.unalias = .basic o .void := by
    rw [← Ty.kind_unalias] at ht
    have := Ty.isAlias_unalias t
    revert ht this
    cases t.unalias with
    | basic o b => cases b <;> simp [Ty.kind, BasicTy.kind]
    | _ => simp [Ty.kind, Ty.isAlias]
  obtain ⟨o, hbasic⟩ := hbasic
  rw [Ty.isSubtypeOf, hbasic] at hv
  rw [← h.kind_ty]
  exact Ty.kind_of_isSubtypeOf_void hv

/-! ### Children and fields -/

theorem fits_iff_allBelow {vs : List Value} {fs : List (Field Ty)} :
    Fits vs fs ↔ Ty.allBelow (vs.map ty) (fs.map Field.ty) = true := by
  induction vs generalizing fs with
  | nil => cases fs <;> simp [Fits, Ty.allBelow]
  | cons v vs ih =>
    cases fs with
    | nil => simp [Fits, Ty.allBelow]
    | cons f fs =>
      rw [Fits, List.forall₂_cons, List.map_cons, List.map_cons, Ty.allBelow, Bool.and_eq_true, ← ih]
      rfl

theorem fits_self (vs : List Value) : Fits vs (vs.map fun v => ⟨v.ty, none⟩) := by
  rw [Fits, List.forall₂_map_right_iff, List.forall₂_same]
  exact fun v _ => Ty.isSubtypeOf_refl v.ty

theorem Fits.congr {vs : List Value} : ∀ {fs gs : List (Field Ty)}, Fits vs fs →
    Ty.shapeFields fs = Ty.shapeFields gs → Fits vs gs := by
  induction vs with
  | nil =>
    intro fs gs h hs
    cases h
    cases gs with
    | nil => exact .nil
    | cons => cases hs
  | cons v vs ih =>
    intro fs gs h hs
    obtain ⟨f, fs, hf, hfs, rfl⟩ := List.forall₂_cons_left_iff.1 h
    cases gs with
    | nil => cases hs
    | cons g gs =>
      simp only [Ty.shapeFields, List.cons.injEq, Field.mk.injEq] at hs
      exact .cons ((Ty.isSubtypeOf_congr_right hs.1.1).symm.trans hf) (ih hfs hs.2)

/-! ### Types of the same structure -/

/-- Forms with the same shape, one of them known. -/
theorem eq_of_shape_eq (h : t.shape = u.shape) :
    match t with
    | .tuple _ fs => ∃ o gs, u = .tuple o gs ∧ Ty.shapeFields fs = Ty.shapeFields gs
    | .list _ e => ∃ o e', u = .list o e' ∧ e.shape = e'.shape
    | .set _ e => ∃ o e', u = .set o e' ∧ e.shape = e'.shape
    | .relation _ r => ∃ o r', u = .relation o r' ∧ r.shape = r'.shape
    | .map _ k x => ∃ o k' x', u = .map o k' x' ∧ k.shape = k'.shape ∧ x.shape = x'.shape
    | .constructor _ _ _ fs =>
      ∃ o a n gs, u = .constructor o a n gs ∧ Ty.shapeFields fs = Ty.shapeFields gs
    | _ => True := by
  cases t with
  | tuple _ fs =>
    cases u with
    | tuple o gs => exact ⟨o, gs, rfl, by simpa [Ty.shape] using h⟩
    | _ => simp [Ty.shape] at h
  | list _ e =>
    cases u with
    | list o e' => exact ⟨o, e', rfl, by simpa [Ty.shape] using h⟩
    | _ => simp [Ty.shape] at h
  | set _ e =>
    cases u with
    | set o e' => exact ⟨o, e', rfl, by simpa [Ty.shape] using h⟩
    | _ => simp [Ty.shape] at h
  | relation _ r =>
    cases u with
    | relation o r' => exact ⟨o, r', rfl, by simpa [Ty.shape] using h⟩
    | _ => simp [Ty.shape] at h
  | map _ k x =>
    cases u with
    | map o k' x' => exact ⟨o, k', x', rfl, by simpa [Ty.shape] using h⟩
    | _ => simp [Ty.shape] at h
  | constructor _ a n fs =>
    cases u with
    | constructor o a' n' gs =>
      simp only [Ty.shape, Ty.constructor.injEq] at h
      exact ⟨o, a', n', gs, rfl, h.2.2.2⟩
    | _ => simp [Ty.shape] at h
  | basic | adt | aliased => trivial

/-- A value may take any type that is, aliases stripped, of the same structure as its own. -/
theorem WellTyped.withTy (h : v.WellTyped) (ht : v.ty.unalias.shape = t.unalias.shape) :
    (v.withTy t).WellTyped := by
  cases v with
  | int | double | bool | str | loc | node => exact (Ty.kind_congr ht).symm.trans h
  | tuple u c vs =>
    obtain ⟨o, fs, hu, hvs⟩ := h
    obtain ⟨o', gs, hgs, hs⟩ := eq_of_shape_eq (hu ▸ ht)
    exact ⟨o', gs, hgs, hvs.congr hs⟩
  | constructor u c vs =>
    obtain ⟨o, a, n, fs, hu, hvs⟩ := h
    obtain ⟨o', a', n', gs, hgs, hs⟩ := eq_of_shape_eq (hu ▸ ht)
    exact ⟨o', a', n', gs, hgs, hvs.congr hs⟩
  | list u c vs =>
    obtain ⟨o, e, hu, hvs⟩ := h
    obtain ⟨o', e', he', hs⟩ := eq_of_shape_eq (hu ▸ ht)
    exact ⟨o', e', he', fun v hv => (Ty.isSubtypeOf_congr_right hs).symm.trans (hvs v hv)⟩
  | set u c es =>
    obtain ⟨o, e, hu, hvs⟩ := h
    have hcongr {e' : Ty} (hs : e.shape = e'.shape) (v : Value) (hv : v ∈ es.keys) :
        v.ty.isSubtypeOf e' = true := (Ty.isSubtypeOf_congr_right hs).symm.trans (hvs v hv)
    -- Types of one shape are both relations or both sets, as their rows are tuples or not.
    rcases hu with ⟨hu, he⟩ | ⟨hu, he⟩
    · obtain ⟨o', e', he', hs⟩ := eq_of_shape_eq (hu ▸ ht)
      exact ⟨o', e', .inl ⟨he', (Ty.isTuple_congr hs).symm.trans he⟩, hcongr hs⟩
    · obtain ⟨o', e', he', hs⟩ := eq_of_shape_eq (hu ▸ ht)
      exact ⟨o', e', .inr ⟨he', (Ty.isTuple_congr hs).symm.trans he⟩, hcongr hs⟩
  | map u c es =>
    obtain ⟨o, k, x, hu, hks, hxs⟩ := h
    obtain ⟨o', k', x', hk', hsk, hsx⟩ := eq_of_shape_eq (hu ▸ ht)
    exact ⟨o', k', x', hk', fun v hv => (Ty.isSubtypeOf_congr_right hsk).symm.trans (hks v hv),
      fun v hv => (Ty.isSubtypeOf_congr_right hsx).symm.trans (hxs v hv)⟩

end Value

end ValueAlgebra
