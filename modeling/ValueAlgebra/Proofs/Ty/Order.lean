import ValueAlgebra.Ty.Subtype

/-!
# Subtyping is an order

Subtyping is reflexive and transitive, `void` is its least type and `value` its greatest. Types of
the same shape have the same types above and below them.

What lies above a type is read off its outermost form, one lemma for each. Transitivity peels both
sides with these and recurses on the least of the three types.
-/

namespace ValueAlgebra

namespace Ty

variable {t u w : Ty} {o : Origin}

/-- An alias counts as its definition below any type. -/
@[simp]
theorem isBelow_unalias_left : ∀ t u : Ty, t.unalias.isBelow u = t.isBelow u
  | aliased o n t, u => by rw [unalias_aliased, isBelow_aliased, isBelow_unalias_left t u]
  | basic .., _ | tuple .., _ | list .., _ | set .., _ | relation .., _ | map .., _ | adt .., _
  | constructor .., _ => rfl

@[simp]
theorem isSubtypeOf_unalias_left : t.unalias.isSubtypeOf u = t.isSubtypeOf u :=
  isBelow_unalias_left t u.unalias

@[simp]
theorem isSubtypeOf_unalias_right : t.isSubtypeOf u.unalias = t.isSubtypeOf u := by
  rw [isSubtypeOf, unalias_unalias, isSubtypeOf]

@[simp]
theorem isSubtypeOf_refl (t : Ty) : t.isSubtypeOf t = true := isBelow_unalias t

@[simp]
theorem isBelow_value : ∀ t : Ty, t.isBelow (basic o .value) = true
  | aliased _ _ t => by rw [isBelow_aliased, isBelow_value t]
  | basic .. | tuple .. | list .. | set .. | relation .. | map .. | adt .. | constructor .. => by
    simp [isBelow]

@[simp]
theorem void_isBelow (u : Ty) : (basic o .void).isBelow u = true := by
  unfold isBelow
  split <;> simp_all

/-! ### What lies above a type -/

theorem of_basic_isBelow {b : BasicTy} (hb : b ≠ .void) (h : (basic o b).isBelow u = true) :
    (∃ o', u = basic o' .value) ∨ ∃ o', u = basic o' b := by
  cases u with
  | basic o' c => cases b <;> cases c <;> simp_all [isBelow]
  | _ => cases b <;> simp_all [isBelow]

theorem of_list_isBelow {e : Ty} (h : (list o e).isBelow u = true) :
    (∃ o', u = basic o' .value) ∨ ∃ o' e', u = list o' e' ∧ e.isBelow e'.unalias = true := by
  cases u with
  | basic o' c => cases c <;> simp_all [isBelow]
  | list o' e' => exact .inr ⟨o', e', rfl, by simpa [isBelow] using h⟩
  | _ => simp [isBelow] at h

theorem of_set_isBelow {e : Ty} (h : (set o e).isBelow u = true) :
    (∃ o', u = basic o' .value) ∨
      ∃ o' e', (u = set o' e' ∨ u = relation o' e') ∧ e.isBelow e'.unalias = true := by
  cases u with
  | basic o' c => cases c <;> simp_all [isBelow]
  | set o' e' => exact .inr ⟨o', e', .inl rfl, by simpa [isBelow] using h⟩
  | relation o' e' => exact .inr ⟨o', e', .inr rfl, by simpa [isBelow] using h⟩
  | _ => simp [isBelow] at h

theorem of_relation_isBelow {e : Ty} (h : (relation o e).isBelow u = true) :
    (∃ o', u = basic o' .value) ∨
      ∃ o' e', (u = set o' e' ∨ u = relation o' e') ∧ e.isBelow e'.unalias = true := by
  cases u with
  | basic o' c => cases c <;> simp_all [isBelow]
  | set o' e' => exact .inr ⟨o', e', .inl rfl, by simpa [isBelow] using h⟩
  | relation o' e' => exact .inr ⟨o', e', .inr rfl, by simpa [isBelow] using h⟩
  | _ => simp [isBelow] at h

theorem of_map_isBelow {k v : Ty} (h : (map o k v).isBelow u = true) :
    (∃ o', u = basic o' .value) ∨ ∃ o' k' v', u = map o' k' v' ∧
      k.isBelow k'.unalias = true ∧ v.isBelow v'.unalias = true := by
  cases u with
  | basic o' c => cases c <;> simp_all [isBelow]
  | map o' k' v' => exact .inr ⟨o', k', v', rfl, by simpa [isBelow] using h⟩
  | _ => simp [isBelow] at h

theorem of_tuple_isBelow {fs : List (Field Ty)} (h : (tuple o fs).isBelow u = true) :
    (∃ o', u = basic o' .value) ∨ ∃ o' gs, u = tuple o' gs ∧ fieldsBelow fs gs = true := by
  cases u with
  | basic o' c => cases c <;> simp_all [isBelow]
  | tuple o' gs => exact .inr ⟨o', gs, rfl, by simpa [isBelow] using h⟩
  | _ => simp [isBelow] at h

theorem of_adt_isBelow {n : String} {ps : List Ty} (h : (adt o n ps).isBelow u = true) :
    (∃ o', u = basic o' .value) ∨ ∃ o' qs, u = adt o' n qs ∧ allBelow ps qs = true := by
  cases u with
  | basic o' c => cases c <;> simp_all [isBelow]
  | adt o' m qs =>
    obtain ⟨rfl, hqs⟩ : n = m ∧ allBelow ps qs = true := by simpa [isBelow] using h
    exact .inr ⟨o', qs, rfl, hqs⟩
  | _ => simp [isBelow] at h

theorem of_constructor_isBelow {a : Ty} {n : String} {fs : List (Field Ty)}
    (h : (constructor o a n fs).isBelow u = true) : (∃ o', u = basic o' .value) ∨
      (∃ o' m ps, u = adt o' m ps ∧ a.isBelow u = true) ∨
      ∃ o' b m gs, u = constructor o' b m gs ∧ (constructor o a n fs).sameShape u = true := by
  cases u with
  | basic o' c => cases c <;> simp_all [isBelow]
  | adt o' m ps => exact .inr (.inl ⟨o', m, ps, rfl, by simpa [isBelow] using h⟩)
  | constructor o' b m gs =>
    exact .inr (.inr ⟨o', b, m, gs, rfl, by simpa only [isBelow] using h⟩)
  | _ => simp [isBelow] at h

theorem of_fieldsBelow_cons {f : Field Ty} {fs gs : List (Field Ty)}
    (h : fieldsBelow (f :: fs) gs = true) : ∃ g gs', gs = g :: gs' ∧
      f.ty.isBelow g.ty.unalias = true ∧ fieldsBelow fs gs' = true := by
  cases gs with
  | nil => simp [fieldsBelow] at h
  | cons g gs => exact ⟨g, gs, rfl, by simpa [fieldsBelow] using h⟩

theorem of_allBelow_cons {ts us : List Ty} (h : allBelow (t :: ts) us = true) :
    ∃ u us', us = u :: us' ∧ t.isBelow u.unalias = true ∧ allBelow ts us' = true := by
  cases us with
  | nil => simp [allBelow] at h
  | cons u us => exact ⟨u, us, rfl, by simpa [allBelow] using h⟩

/-- Only `value` is above `value`. -/
theorem eq_value_of_isBelow (h : (basic o .value).isBelow u = true) :
    ∃ o', u = basic o' .value := by
  rcases of_basic_isBelow (b := .value) nofun h with hu | hu <;> exact hu

/-- Only `void` is below `void`. -/
theorem kind_of_isSubtypeOf_void {o : Origin} : ∀ {t : Ty}, t.isBelow (basic o .void) = true →
    t.kind = .void
  | aliased _ _ t, h => kind_of_isSubtypeOf_void (t := t) (by rwa [isBelow_aliased] at h)
  | basic _ b, h => by cases b <;> simp_all [isBelow, kind, BasicTy.kind]
  | tuple .., h | list .., h | set .., h | relation .., h | map .., h | adt .., h
  | constructor .., h => by simp [isBelow] at h

/-! ### Types of the same shape -/

theorem shape_unalias : ∀ t : Ty, t.unalias.shape = t.shape.unalias
  | aliased _ _ t => by rw [unalias_aliased, shape_unalias t, shape, unalias_aliased]
  | basic .. | tuple .. | list .. | set .. | relation .. | map .. | adt .. | constructor .. => rfl

mutual

@[simp]
theorem shape_shape : ∀ t : Ty, t.shape.shape = t.shape
  | basic .. => rfl
  | tuple _ fs => by rw [shape, shape, shapeFields_shapeFields fs]
  | list _ e => by rw [shape, shape, shape_shape e]
  | set _ e => by rw [shape, shape, shape_shape e]
  | relation _ r => by rw [shape, shape, shape_shape r]
  | map _ k v => by rw [shape, shape, shape_shape k, shape_shape v]
  | adt _ _ ps => by rw [shape, shape, shapes_shapes ps]
  | constructor _ a _ fs => by rw [shape, shape, shape_shape a, shapeFields_shapeFields fs]
  | aliased _ _ t => by rw [shape, shape, shape_shape t]

theorem shapeFields_shapeFields : ∀ fs : List (Field Ty),
    shapeFields (shapeFields fs) = shapeFields fs
  | [] => rfl
  | ⟨t, _⟩ :: fs => by
    rw [shapeFields, shapeFields, shape_shape t, shapeFields_shapeFields fs]

theorem shapes_shapes : ∀ ts : List Ty, shapes (shapes ts) = shapes ts
  | [] => rfl
  | t :: ts => by rw [shapes, shapes, shape_shape t, shapes_shapes ts]

end

@[simp]
theorem sameShape_shape : t.shape.sameShape u.shape = t.sameShape u := by
  rw [Bool.eq_iff_iff, sameShape_iff, sameShape_iff, shape_shape, shape_shape]

mutual

/-- Only shapes matter for subtyping. -/
theorem isBelow_shape : ∀ t u : Ty, t.shape.isBelow u.shape = t.isBelow u
  | aliased _ _ t, u => by rw [shape, isBelow_aliased, isBelow_aliased, isBelow_shape t u]
  | basic _ b, u => by
    cases u with
    | basic _ c => cases b <;> cases c <;> simp [shape, isBelow]
    | _ => cases b <;> simp [shape, isBelow]
  | tuple _ fs, u => by
    cases u with
    | basic _ c => cases c <;> simp [shape, isBelow]
    | tuple _ gs => simp only [shape, isBelow, fieldsBelow_shape fs gs]
    | _ => simp [shape, isBelow]
  | list _ e, u => by
    cases u with
    | basic _ c => cases c <;> simp [shape, isBelow]
    | list _ e' => simp only [shape, isBelow, ← shape_unalias, isBelow_shape e e'.unalias]
    | _ => simp [shape, isBelow]
  | set _ e, u => by
    cases u with
    | basic _ c => cases c <;> simp [shape, isBelow]
    | set _ e' | relation _ e' =>
      simp only [shape, isBelow, ← shape_unalias, isBelow_shape e e'.unalias]
    | _ => simp [shape, isBelow]
  | relation _ r, u => by
    cases u with
    | basic _ c => cases c <;> simp [shape, isBelow]
    | set _ e' | relation _ e' =>
      simp only [shape, isBelow, ← shape_unalias, isBelow_shape r e'.unalias]
    | _ => simp [shape, isBelow]
  | map _ k v, u => by
    cases u with
    | basic _ c => cases c <;> simp [shape, isBelow]
    | map _ k' v' =>
      simp only [shape, isBelow, ← shape_unalias, isBelow_shape k k'.unalias,
        isBelow_shape v v'.unalias]
    | _ => simp [shape, isBelow]
  | adt _ n ps, u => by
    cases u with
    | basic _ c => cases c <;> simp [shape, isBelow]
    | adt _ m qs => simp only [shape, isBelow, allBelow_shape ps qs]
    | _ => simp [shape, isBelow]
  | constructor o a n fs, u => by
    cases u with
    | basic _ c => cases c <;> simp [shape, isBelow]
    | adt o' m ps =>
      have := isBelow_shape a (adt o' m ps)
      simp only [shape, isBelow] at this ⊢
      exact this
    | constructor o' b m gs =>
      have := sameShape_shape (t := constructor o a n fs) (u := constructor o' b m gs)
      simp only [shape, isBelow] at this ⊢
      exact this
    | _ => simp [shape, isBelow]

theorem fieldsBelow_shape : ∀ fs gs : List (Field Ty),
    fieldsBelow (shapeFields fs) (shapeFields gs) = fieldsBelow fs gs
  | [], [] => rfl
  | [], _ :: _ => rfl
  | _ :: _, [] => rfl
  | ⟨t, _⟩ :: fs, g :: gs => by
    simp only [shapeFields, fieldsBelow, ← shape_unalias, isBelow_shape t g.ty.unalias,
      fieldsBelow_shape fs gs]

theorem allBelow_shape : ∀ ts us : List Ty, allBelow (shapes ts) (shapes us) = allBelow ts us
  | [], [] => rfl
  | [], _ :: _ => rfl
  | _ :: _, [] => rfl
  | t :: ts, u :: us => by
    simp only [shapes, allBelow, ← shape_unalias, isBelow_shape t u.unalias, allBelow_shape ts us]

end

theorem isBelow_congr_left (h : t.shape = w.shape) : t.isBelow u = w.isBelow u := by
  rw [← isBelow_shape t, ← isBelow_shape w, h]

theorem isSubtypeOf_congr_left (h : t.shape = w.shape) : t.isSubtypeOf u = w.isSubtypeOf u :=
  isBelow_congr_left h

theorem isSubtypeOf_congr_right (h : u.shape = w.shape) : t.isSubtypeOf u = t.isSubtypeOf w := by
  rw [isSubtypeOf, isSubtypeOf, ← isBelow_shape t u.unalias, ← isBelow_shape t w.unalias,
    shape_unalias, shape_unalias, h]

@[simp]
theorem kind_shape : ∀ t : Ty, t.shape.kind = t.kind
  | aliased _ _ t => kind_shape t
  | basic .. | tuple .. | list .. | set .. | relation .. | map .. | adt .. | constructor .. => rfl

theorem kind_congr (h : t.unalias.shape = u.unalias.shape) : t.kind = u.kind := by
  rw [← kind_unalias t, ← kind_unalias u, ← kind_shape t.unalias, ← kind_shape u.unalias, h]

theorem isTuple_congr (h : t.shape = u.shape) : t.isTuple = u.isTuple := by
  rw [isTuple, isTuple, ← kind_shape t, ← kind_shape u, h]

/-! ### Sets and relations -/

/-- A set or a relation. Below one another they compare by their elements. -/
inductive IsSetOf : Ty → Ty → Prop
  | set (o : Origin) (e : Ty) : IsSetOf e (.set o e)
  | relation (o : Origin) (e : Ty) : IsSetOf e (.relation o e)

namespace IsSetOf

variable {e e' : Ty}

theorem unalias_eq (h : IsSetOf e t) : t.unalias = t := by
  cases h <;> rfl

theorem isBelow_eq (h : IsSetOf e t) (h' : IsSetOf e' u) : t.isBelow u = e.isBelow e'.unalias := by
  cases h <;> cases h' <;> rw [isBelow]

theorem of_isBelow (h : IsSetOf e t) (hu : t.isBelow u = true) :
    (∃ o, u = basic o .value) ∨ ∃ e', IsSetOf e' u ∧ e.isBelow e'.unalias = true := by
  cases h with
  | set =>
    rcases of_set_isBelow hu with hu | ⟨_, e', rfl | rfl, he⟩
    · exact .inl hu
    · exact .inr ⟨e', .set .., he⟩
    · exact .inr ⟨e', .relation .., he⟩
  | relation =>
    rcases of_relation_isBelow hu with hu | ⟨_, e', rfl | rfl, he⟩
    · exact .inl hu
    · exact .inr ⟨e', .set .., he⟩
    · exact .inr ⟨e', .relation .., he⟩

end IsSetOf

/-! ### Transitivity -/

mutual

theorem isBelow_trans : ∀ {t u w : Ty}, t.isBelow u = true → u.isBelow w = true →
    w.isAlias = false → t.isBelow w = true
  | aliased _ _ t, u, w, h, h', hw => by
    -- Aliases are stripped on the left as subtyping recurses, and never occur on the right.
    rw [isBelow_aliased] at h ⊢
    exact isBelow_trans h h' hw
  | basic o b, u, w, h, h', hw => by
    -- `void` is below everything, the other basic types only below themselves and `value`.
    by_cases hb : b = .void
    · subst hb
      exact void_isBelow w
    rcases of_basic_isBelow hb h with ⟨_, rfl⟩ | ⟨_, rfl⟩
    · obtain ⟨_, rfl⟩ := eq_value_of_isBelow h'
      exact isBelow_value _
    · rcases of_basic_isBelow hb h' with ⟨_, rfl⟩ | ⟨o', rfl⟩
      · exact isBelow_value _
      · rw [isBelow_congr_left (t := basic o b) (w := basic o' b) rfl]
        exact isBelow_unalias (basic o' b)
  | tuple _ fs, u, w, h, h', hw => by
    rcases of_tuple_isBelow h with ⟨_, rfl⟩ | ⟨_, gs, rfl, hfs⟩
    · obtain ⟨_, rfl⟩ := eq_value_of_isBelow h'
      exact isBelow_value _
    · rcases of_tuple_isBelow h' with ⟨_, rfl⟩ | ⟨_, hs, rfl, hgs⟩
      · exact isBelow_value _
      · rw [isBelow]
        exact fieldsBelow_trans hfs hgs
  | list _ e, u, w, h, h', hw => by
    rcases of_list_isBelow h with ⟨_, rfl⟩ | ⟨_, e', rfl, he⟩
    · obtain ⟨_, rfl⟩ := eq_value_of_isBelow h'
      exact isBelow_value _
    · rcases of_list_isBelow h' with ⟨_, rfl⟩ | ⟨_, e'', rfl, he'⟩
      · exact isBelow_value _
      · rw [isBelow]
        exact isBelow_trans he ((isBelow_unalias_left _ _).trans he') (isAlias_unalias _)
  | set o e, u, w, h, h', hw => by
    have ht : IsSetOf e (set o e) := .set o e
    rcases ht.of_isBelow h with ⟨_, rfl⟩ | ⟨e', hu, he⟩
    · obtain ⟨_, rfl⟩ := eq_value_of_isBelow h'
      exact isBelow_value _
    · rcases hu.of_isBelow h' with ⟨_, rfl⟩ | ⟨e'', hw', he'⟩
      · exact isBelow_value _
      · rw [ht.isBelow_eq hw']
        exact isBelow_trans he ((isBelow_unalias_left _ _).trans he') (isAlias_unalias _)
  | relation o e, u, w, h, h', hw => by
    have ht : IsSetOf e (relation o e) := .relation o e
    rcases ht.of_isBelow h with ⟨_, rfl⟩ | ⟨e', hu, he⟩
    · obtain ⟨_, rfl⟩ := eq_value_of_isBelow h'
      exact isBelow_value _
    · rcases hu.of_isBelow h' with ⟨_, rfl⟩ | ⟨e'', hw', he'⟩
      · exact isBelow_value _
      · rw [ht.isBelow_eq hw']
        exact isBelow_trans he ((isBelow_unalias_left _ _).trans he') (isAlias_unalias _)
  | map _ k v, u, w, h, h', hw => by
    rcases of_map_isBelow h with ⟨_, rfl⟩ | ⟨_, k', v', rfl, hk, hv⟩
    · obtain ⟨_, rfl⟩ := eq_value_of_isBelow h'
      exact isBelow_value _
    · rcases of_map_isBelow h' with ⟨_, rfl⟩ | ⟨_, k'', v'', rfl, hk', hv'⟩
      · exact isBelow_value _
      · rw [isBelow, Bool.and_eq_true]
        exact ⟨isBelow_trans hk ((isBelow_unalias_left _ _).trans hk') (isAlias_unalias _),
          isBelow_trans hv ((isBelow_unalias_left _ _).trans hv') (isAlias_unalias _)⟩
  | adt _ n ps, u, w, h, h', hw => by
    rcases of_adt_isBelow h with ⟨_, rfl⟩ | ⟨_, qs, rfl, hps⟩
    · obtain ⟨_, rfl⟩ := eq_value_of_isBelow h'
      exact isBelow_value _
    · rcases of_adt_isBelow h' with ⟨_, rfl⟩ | ⟨_, rs, rfl, hqs⟩
      · exact isBelow_value _
      · rw [isBelow, beq_self_eq_true, Bool.true_and]
        exact allBelow_trans hps hqs
  | constructor o a n fs, u, w, h, h', hw => by
    rcases of_constructor_isBelow h with ⟨_, rfl⟩ | ⟨_, m, ps, rfl, ha⟩ | ⟨_, b, m, gs, rfl, hs⟩
    · obtain ⟨_, rfl⟩ := eq_value_of_isBelow h'
      exact isBelow_value _
    · rcases of_adt_isBelow h' with ⟨_, rfl⟩ | ⟨_, qs, rfl, -⟩
      · exact isBelow_value _
      · rw [isBelow]
        exact isBelow_trans ha h' rfl
    · -- Constructors of one shape have the same types above them.
      rw [isBelow_congr_left (sameShape_iff.1 hs)]
      exact h'

theorem fieldsBelow_trans : ∀ {fs gs hs : List (Field Ty)}, fieldsBelow fs gs = true →
    fieldsBelow gs hs = true → fieldsBelow fs hs = true
  | [], [], hs, _, h => h
  | ⟨t, l⟩ :: fs, gs, hs, h, h' => by
    obtain ⟨g, gs, rfl, hg, hgs⟩ := of_fieldsBelow_cons h
    obtain ⟨i, is, rfl, hi, his⟩ := of_fieldsBelow_cons h'
    rw [fieldsBelow, Bool.and_eq_true]
    exact ⟨isBelow_trans hg ((isBelow_unalias_left _ _).trans hi) (isAlias_unalias _),
      fieldsBelow_trans hgs his⟩

theorem allBelow_trans : ∀ {ts us ws : List Ty}, allBelow ts us = true → allBelow us ws = true →
    allBelow ts ws = true
  | [], [], ws, _, h => h
  | t :: ts, us, ws, h, h' => by
    obtain ⟨u, us, rfl, hu, hus⟩ := of_allBelow_cons h
    obtain ⟨w, ws, rfl, hw, hws⟩ := of_allBelow_cons h'
    rw [allBelow, Bool.and_eq_true]
    exact ⟨isBelow_trans hu ((isBelow_unalias_left _ _).trans hw) (isAlias_unalias _),
      allBelow_trans hus hws⟩

end

theorem isSubtypeOf_trans (h : t.isSubtypeOf u = true) (h' : u.isSubtypeOf w = true) :
    t.isSubtypeOf w = true :=
  isBelow_trans h ((isBelow_unalias_left u w.unalias).trans h') (isAlias_unalias w)

end Ty

end ValueAlgebra
