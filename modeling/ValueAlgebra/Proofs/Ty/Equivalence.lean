import ValueAlgebra.Proofs.Ty.Join

/-!
# Equivalent types

Types are equivalent when each is a subtype of the other. What equivalence ignores is what
`Ty.plain` removes: aliases and the labels of tuples, everywhere outside constructors. Every type
is equivalent to its plain form, and types below each other have plain forms of the same shape, so
subtyping orders the plain forms. The second half needs that sets never hold tuples, since a set
compares with a relation by its elements alone.
-/

namespace ValueAlgebra

namespace Ty

variable {t u : Ty} {o : Origin}

mutual

/-- The type with every alias replaced by its definition and every tuple label dropped.
Constructors stay as they are. -/
def plain : Ty → Ty
  | basic o b => basic o b
  | tuple o fs => tuple o (plainFields fs)
  | list o e => list o e.plain
  | set o e => set o e.plain
  | relation o r => relation o r.plain
  | map o k v => map o k.plain v.plain
  | adt o n ps => adt o n (plainAll ps)
  | constructor o a n fs => constructor o a n fs
  | aliased _ _ t => t.plain

def plainFields : List (Field Ty) → List (Field Ty)
  | [] => []
  | ⟨t, _⟩ :: fs => ⟨t.plain, none⟩ :: plainFields fs

def plainAll : List Ty → List Ty
  | [] => []
  | t :: ts => t.plain :: plainAll ts

end

@[simp]
theorem plain_unalias : ∀ t : Ty, t.unalias.plain = t.plain
  | aliased _ _ t => plain_unalias t
  | basic .. | tuple .. | list .. | set .. | relation .. | map .. | adt .. | constructor .. => rfl

@[simp]
theorem unalias_plain : ∀ t : Ty, t.plain.unalias = t.plain
  | aliased _ _ t => unalias_plain t
  | basic .. | tuple .. | list .. | set .. | relation .. | map .. | adt .. | constructor .. => rfl

@[simp]
theorem kind_plain : ∀ t : Ty, t.plain.kind = t.kind
  | aliased _ _ t => kind_plain t
  | basic .. | tuple .. | list .. | set .. | relation .. | map .. | adt .. | constructor .. => rfl

/-! ### A type and its plain form -/

mutual

theorem isBelow_plain : ∀ t : Ty, t.isBelow t.plain = true
  | basic o b => isBelow_unalias (basic o b)
  | tuple _ fs => by simp [plain, isBelow, fieldsBelow_plain fs]
  | list _ e => by simp [plain, isBelow, isBelow_plain e]
  | set _ e => by simp [plain, isBelow, isBelow_plain e]
  | relation _ r => by simp [plain, isBelow, isBelow_plain r]
  | map _ k v => by simp [plain, isBelow, isBelow_plain k, isBelow_plain v]
  | adt _ _ ps => by simp [plain, isBelow, allBelow_plain ps]
  | constructor o a n fs => isBelow_unalias (constructor o a n fs)
  | aliased _ _ t => by simp [plain, isBelow_plain t]

theorem fieldsBelow_plain : ∀ fs : List (Field Ty), fieldsBelow fs (plainFields fs) = true
  | [] => rfl
  | ⟨t, _⟩ :: fs => by simp [plainFields, fieldsBelow, isBelow_plain t, fieldsBelow_plain fs]

theorem allBelow_plain : ∀ ts : List Ty, allBelow ts (plainAll ts) = true
  | [] => rfl
  | t :: ts => by simp [plainAll, allBelow, isBelow_plain t, allBelow_plain ts]

end

mutual

theorem plain_isBelow : ∀ t : Ty, t.plain.isBelow t.unalias = true
  | basic o b => isBelow_unalias (basic o b)
  | tuple _ fs => by simp [plain, unalias, isBelow, plainFields_below fs]
  | list _ e => by simp [plain, unalias, isBelow, plain_isBelow e]
  | set _ e => by simp [plain, unalias, isBelow, plain_isBelow e]
  | relation _ r => by simp [plain, unalias, isBelow, plain_isBelow r]
  | map _ k v => by simp [plain, unalias, isBelow, plain_isBelow k, plain_isBelow v]
  | adt _ _ ps => by simp [plain, unalias, isBelow, plainAll_below ps]
  | constructor o a n fs => isBelow_unalias (constructor o a n fs)
  | aliased _ _ t => by simp [plain, plain_isBelow t]

theorem plainFields_below : ∀ fs : List (Field Ty), fieldsBelow (plainFields fs) fs = true
  | [] => rfl
  | ⟨t, _⟩ :: fs => by simp [plainFields, fieldsBelow, plain_isBelow t, plainFields_below fs]

theorem plainAll_below : ∀ ts : List Ty, allBelow (plainAll ts) ts = true
  | [] => rfl
  | t :: ts => by simp [plainAll, allBelow, plain_isBelow t, plainAll_below ts]

end

theorem isSubtypeOf_plain (t : Ty) : t.isSubtypeOf t.plain = true := by
  rw [isSubtypeOf, unalias_plain, isBelow_plain]

theorem plain_isSubtypeOf (t : Ty) : t.plain.isSubtypeOf t = true := plain_isBelow t

/-- Types with plain forms of one shape are subtypes of each other. -/
theorem isSubtypeOf_of_plain (h : t.plain.shape = u.plain.shape) : t.isSubtypeOf u = true := by
  have hplain : t.plain.isSubtypeOf u = true := by
    rw [isSubtypeOf_congr_left h]
    exact plain_isSubtypeOf u
  exact isSubtypeOf_trans (isSubtypeOf_plain t) hplain

/-! ### Types below each other -/

/-- Only `value` is above `value`. -/
theorem unalias_ne_value (ht : t.kind ≠ .value) (h : u.isSubtypeOf t = true) :
    ¬∃ o, u.unalias = basic o .value := by
  rintro ⟨o, hu⟩
  rw [← isSubtypeOf_unalias_left, hu] at h
  obtain ⟨o', ht'⟩ := eq_value_of_isBelow h
  rw [← kind_unalias, ht'] at ht
  exact ht rfl

/-- What lies below `void` is `void`. -/
theorem unalias_eq_void (h : t.isSubtypeOf (basic o .void) = true) :
    ∃ o', t.unalias = basic o' .void := by
  have hkind := kind_of_isSubtypeOf_void h
  have halias := isAlias_unalias t
  rw [← kind_unalias] at hkind
  cases ht : t.unalias with
  | basic o' b =>
    rw [ht] at hkind
    cases b with
    | void => exact ⟨o', rfl⟩
    | _ => cases hkind
  | aliased => simp [ht, isAlias] at halias
  | _ =>
    rw [ht] at hkind
    cases hkind

theorem shape_plain_basic {b : BasicTy} (h : (basic o b).isSubtypeOf u = true)
    (h' : u.isSubtypeOf (basic o b) = true) : (basic o b).plain.shape = u.plain.shape := by
  have hu : ∃ o', u.unalias = basic o' b := by
    cases b with
    | void => exact unalias_eq_void h'
    | value => exact eq_value_of_isBelow h
    | _ => refine (of_basic_isBelow ?_ h).resolve_left (unalias_ne_value ?_ h') <;> nofun
  obtain ⟨o', hu⟩ := hu
  rw [← plain_unalias u, hu]
  rfl

namespace IsSetOf

variable {e e' : Ty}

theorem elem_wellFormed : IsSetOf e t → t.WellFormed → e.WellFormed
  | .set .., h => h.elem_of_set
  | .relation .., h => h.row_of_relation

/-- Whether it is a set or a relation is up to the elements. -/
theorem eq_setOf (h : IsSetOf e t) (ht : t.WellFormed) : ∃ m : Manager, t = m.set e := by
  cases h with
  | set o =>
    cases ht with
    | set _ he => exact ⟨⟨o⟩, by simp [Manager.set, he]⟩
  | relation o =>
    cases ht with
    | relation _ he => exact ⟨⟨o⟩, by simp [Manager.set, he]⟩

theorem shape_plain_congr (ht : IsSetOf e t) (hu : IsSetOf e' u) (hwt : t.WellFormed)
    (hwu : u.WellFormed) (h : e.plain.shape = e'.plain.shape) : t.plain.shape = u.plain.shape := by
  have htuple : e.isTuple = e'.isTuple := by
    have := isTuple_congr h
    rwa [isTuple, isTuple, kind_plain, kind_plain] at this
  obtain ⟨m, rfl⟩ := ht.eq_setOf hwt
  obtain ⟨m', rfl⟩ := hu.eq_setOf hwu
  unfold Manager.set
  rw [htuple]
  split <;> rw [plain, plain, shape, shape, h]

/-- Sets and relations compare as their elements do. -/
theorem shape_plain_eq (ht : IsSetOf e t) (hwt : t.WellFormed) (hwu : u.WellFormed)
    (h : t.isSubtypeOf u = true) (h' : u.isSubtypeOf t = true)
    (helem : ∀ e' : Ty, e'.WellFormed → e.isSubtypeOf e' = true → e'.isSubtypeOf e = true →
      e.plain.shape = e'.plain.shape) : t.plain.shape = u.plain.shape := by
  have hkind : t.kind ≠ .value := by cases ht <;> nofun
  obtain ⟨e', hu, he⟩ := (ht.of_isBelow h).resolve_left (unalias_ne_value hkind h')
  rw [← isSubtypeOf_unalias_left, hu.isSubtypeOf_iff ht] at h'
  rw [← plain_unalias u]
  exact ht.shape_plain_congr hu hwt hwu.unalias (helem e' (hu.elem_wellFormed hwu.unalias) he h')

end IsSetOf

/-- Aliases around the larger type count neither for subtyping nor for plain forms. -/
theorem shape_plain_eq_of_unalias {w : Ty} (hw : u.unalias = w) (hu : u.WellFormed)
    (h : u.isSubtypeOf t = true)
    (heq : w.WellFormed → w.isSubtypeOf t = true → t.plain.shape = w.plain.shape) :
    t.plain.shape = u.plain.shape := by
  subst hw
  rw [← isSubtypeOf_unalias_left] at h
  rw [← plain_unalias u]
  exact heq hu.unalias h

mutual

/-- Well-formed types that are subtypes of each other have plain forms of one shape. -/
theorem shape_plain_eq : ∀ {t u : Ty}, t.WellFormed → u.WellFormed → t.isSubtypeOf u = true →
    u.isSubtypeOf t = true → t.plain.shape = u.plain.shape
  | aliased _ _ t, u, .aliased _ _ ht, hu, h, h' => by
    rw [← isSubtypeOf_unalias_left, unalias_aliased, isSubtypeOf_unalias_left] at h
    rw [plain]
    exact shape_plain_eq ht hu h h'
  | basic .., u, _, _, h, h' => shape_plain_basic h h'
  | tuple o fs, u, ht, hu, h, h' => by
    obtain ⟨_, gs, hgs, hfs⟩ :=
      (of_tuple_isBelow h).resolve_left (unalias_ne_value (t := tuple o fs) nofun h')
    refine shape_plain_eq_of_unalias hgs hu h' fun hu h' => ?_
    rw [isSubtypeOf_tuple] at h'
    rw [plain, plain, shape, shape,
      shapeFields_plain_eq ht.fields_of_tuple hu.fields_of_tuple hfs h']
  | list o e, u, ht, hu, h, h' => by
    obtain ⟨_, e', he, hee'⟩ :=
      (of_list_isBelow h).resolve_left (unalias_ne_value (t := list o e) nofun h')
    refine shape_plain_eq_of_unalias he hu h' fun hu h' => ?_
    rw [isSubtypeOf_list] at h'
    rw [plain, plain, shape, shape, shape_plain_eq ht.elem_of_list hu.elem_of_list hee' h']
  | set o e, u, ht, hu, h, h' =>
    (IsSetOf.set o e).shape_plain_eq ht hu h h' fun _ => shape_plain_eq ht.elem_of_set
  | relation o e, u, ht, hu, h, h' =>
    (IsSetOf.relation o e).shape_plain_eq ht hu h h' fun _ => shape_plain_eq ht.row_of_relation
  | map o k v, u, ht, hu, h, h' => by
    obtain ⟨_, k', v', he, hkk', hvv'⟩ :=
      (of_map_isBelow h).resolve_left (unalias_ne_value (t := map o k v) nofun h')
    refine shape_plain_eq_of_unalias he hu h' fun hu h' => ?_
    obtain ⟨hk, hv⟩ := isSubtypeOf_map.1 h'
    rw [plain, plain, shape, shape, shape_plain_eq ht.key_of_map hu.key_of_map hkk' hk,
      shape_plain_eq ht.val_of_map hu.val_of_map hvv' hv]
  | adt o n ps, u, ht, hu, h, h' => by
    obtain ⟨_, qs, he, hps⟩ :=
      (of_adt_isBelow h).resolve_left (unalias_ne_value (t := adt o n ps) nofun h')
    refine shape_plain_eq_of_unalias he hu h' fun hu h' => ?_
    rw [isSubtypeOf_adt] at h'
    rw [plain, plain, shape, shape,
      shapes_plain_eq ht.params_of_adt hu.params_of_adt hps h']
  | constructor o a n fs, u, ht, hu, h, h' => by
    rcases (of_constructor_isBelow h).resolve_left
      (unalias_ne_value (t := constructor o a n fs) nofun h') with ⟨_, _, _, hm, -⟩ |
        ⟨_, _, _, _, hm, hs⟩
    · -- No data type is below a constructor.
      rw [← isSubtypeOf_unalias_left, hm] at h'
      cases h'
    · rw [← plain_unalias u]
      rw [hm] at hs ⊢
      exact sameShape_iff.1 hs

theorem shapeFields_plain_eq : ∀ {fs gs : List (Field Ty)}, (∀ f ∈ fs, f.ty.WellFormed) →
    (∀ g ∈ gs, g.ty.WellFormed) → fieldsBelow fs gs = true → fieldsBelow gs fs = true →
    shapeFields (plainFields fs) = shapeFields (plainFields gs)
  | [], [], _, _, _, _ => rfl
  | ⟨t, _⟩ :: fs, ⟨u, _⟩ :: gs, hfs, hgs, h, h' => by
    obtain ⟨ht, hfs⟩ := List.forall_mem_cons.1 hfs
    obtain ⟨hu, hgs⟩ := List.forall_mem_cons.1 hgs
    rw [fieldsBelow, Bool.and_eq_true] at h h'
    rw [plainFields, plainFields, shapeFields, shapeFields, shape_plain_eq ht hu h.1 h'.1,
      shapeFields_plain_eq hfs hgs h.2 h'.2]

theorem shapes_plain_eq : ∀ {ts us : List Ty}, (∀ t ∈ ts, t.WellFormed) →
    (∀ u ∈ us, u.WellFormed) → allBelow ts us = true → allBelow us ts = true →
    shapes (plainAll ts) = shapes (plainAll us)
  | [], [], _, _, _, _ => rfl
  | t :: ts, u :: us, hts, hus, h, h' => by
    obtain ⟨ht, hts⟩ := List.forall_mem_cons.1 hts
    obtain ⟨hu, hus⟩ := List.forall_mem_cons.1 hus
    rw [allBelow, Bool.and_eq_true] at h h'
    rw [plainAll, plainAll, shapes, shapes, shape_plain_eq ht hu h.1 h'.1,
      shapes_plain_eq hts hus h.2 h'.2]

end

/-- Equivalence sees what plain forms keep, whoever made the types. -/
theorem isEquivalentTo_iff_plain (ht : t.WellFormed) (hu : u.WellFormed) :
    t.isEquivalentTo u = true ↔ t.plain.sameShape u.plain = true := by
  rw [isEquivalentTo, Bool.and_eq_true, sameShape_iff]
  constructor
  · rintro ⟨h, h'⟩
    exact shape_plain_eq ht hu h h'
  · intro h
    exact ⟨isSubtypeOf_of_plain h, isSubtypeOf_of_plain h.symm⟩

end Ty

end ValueAlgebra
