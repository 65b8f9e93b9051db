import ValueAlgebra.Build.Element
import ValueAlgebra.Proofs.Ty.Made
import ValueAlgebra.Proofs.Ty.Order

/-!
# Least upper bounds are least and upper

`Ty.IsJoin t u j` says what `Ty.lub` promises: `j` lies above `t` and `u`, below whatever lies
above both, and is well formed. Each form of type has a lemma that assembles a join from joins of
parts, and `Ty.lub_isJoin` recurses the way `Ty.lub` does.
-/

namespace ValueAlgebra

namespace Ty

variable {t u w j : Ty} {o o' : Origin} {m : Manager}

/-- `j` is a least upper bound of `t` and `u`. -/
structure IsJoin (t u j : Ty) : Prop where
  left : t.isSubtypeOf j = true
  right : u.isSubtypeOf j = true
  least : ∀ w, t.isSubtypeOf w = true → u.isSubtypeOf w = true → j.isSubtypeOf w = true
  wellFormed : j.WellFormed

/-! ### Subtyping by form -/

theorem isSubtypeOf_list {e e' : Ty} :
    (list o e).isSubtypeOf (list o' e') = e.isSubtypeOf e' := by
  simp [isSubtypeOf, unalias, isBelow]

theorem isSubtypeOf_map {k v k' v' : Ty} : (map o k v).isSubtypeOf (map o' k' v') = true ↔
    k.isSubtypeOf k' = true ∧ v.isSubtypeOf v' = true := by
  simp [isSubtypeOf, unalias, isBelow]

theorem isSubtypeOf_tuple {fs gs : List (Field Ty)} :
    (tuple o fs).isSubtypeOf (tuple o' gs) = fieldsBelow fs gs := by
  simp [isSubtypeOf, unalias, isBelow]

theorem isSubtypeOf_adt {n : String} {ps qs : List Ty} :
    (adt o n ps).isSubtypeOf (adt o' n qs) = allBelow ps qs := by
  simp [isSubtypeOf, unalias, isBelow]

@[simp]
theorem isSubtypeOf_value (t : Ty) : t.isSubtypeOf m.value = true := isBelow_value t

@[simp]
theorem void_isSubtypeOf (t : Ty) : m.void.isSubtypeOf t = true := void_isBelow t.unalias

namespace IsSetOf

variable {e e' : Ty}

theorem isSubtypeOf_iff (h : IsSetOf e t) (h' : IsSetOf e' u) :
    t.isSubtypeOf u = e.isSubtypeOf e' := by
  rw [isSubtypeOf, isSubtypeOf, h'.unalias_eq, h.isBelow_eq h']

theorem eq_value_or_isSetOf (h : IsSetOf e t) (hu : t.isBelow u = true) :
    (∃ o, u = basic o .value) ∨ ∃ e', IsSetOf e' u := by
  rcases h.of_isBelow hu with hu | ⟨e', hu, -⟩
  · exact .inl hu
  · exact .inr ⟨e', hu⟩

theorem setOf (m : Manager) (e : Ty) : IsSetOf e (m.set e) := by
  unfold Manager.set
  split
  · exact .relation ..
  · exact .set ..

end IsSetOf

theorem isSubtypeOf_of_unalias_value (h : w.unalias = basic o .value) : t.isSubtypeOf w = true := by
  rw [isSubtypeOf, h, isBelow_value]

/-! ### Joins of parts -/

namespace IsJoin

protected theorem unalias (h : IsJoin t.unalias u.unalias j) : IsJoin t u j where
  left := by simpa using h.left
  right := by simpa using h.right
  least w ht hu := h.least w (by simpa using ht) (by simpa using hu)
  wellFormed := h.wellFormed

protected theorem symm (h : IsJoin t u j) : IsJoin u t j :=
  ⟨h.right, h.left, fun w hu ht => h.least w ht hu, h.wellFormed⟩

theorem of_isSubtypeOf (h : t.isSubtypeOf u = true) (hu : u.WellFormed) : IsJoin t u u :=
  ⟨h, isSubtypeOf_refl u, fun _ _ hu => hu, hu⟩

protected theorem list {e e' : Ty} (h : IsJoin e e' j) :
    IsJoin (list o e) (list o' e') (m.list j) where
  left := isSubtypeOf_list.trans h.left
  right := isSubtypeOf_list.trans h.right
  least w ht hu := by
    rcases of_list_isBelow ht with ⟨_, hw⟩ | ⟨_, f, hw, hf⟩
    · exact isSubtypeOf_of_unalias_value hw
    · rw [isSubtypeOf, hw, isBelow] at hu
      rw [← isSubtypeOf_unalias_right, hw]
      exact isSubtypeOf_list.trans (h.least f hf hu)
  wellFormed := .list _ h.wellFormed

protected theorem set {e e' : Ty} (ht : IsSetOf e t) (hu : IsSetOf e' u) (h : IsJoin e e' j) :
    IsJoin t u (m.set j) where
  left := (ht.isSubtypeOf_iff (.setOf m j)).trans h.left
  right := (hu.isSubtypeOf_iff (.setOf m j)).trans h.right
  least w htw huw := by
    rcases ht.eq_value_or_isSetOf htw with ⟨_, hw⟩ | ⟨f, hw⟩
    · exact isSubtypeOf_of_unalias_value hw
    · rw [← isSubtypeOf_unalias_right, ht.isSubtypeOf_iff hw] at htw
      rw [← isSubtypeOf_unalias_right, hu.isSubtypeOf_iff hw] at huw
      rw [← isSubtypeOf_unalias_right, (IsSetOf.setOf m j).isSubtypeOf_iff hw]
      exact h.least f htw huw
  wellFormed := .setOf m h.wellFormed

protected theorem map {k k' v v' jk jv : Ty} (hk : IsJoin k k' jk) (hv : IsJoin v v' jv) :
    IsJoin (map o k v) (map o' k' v') (m.map jk jv) where
  left := isSubtypeOf_map.2 ⟨hk.left, hv.left⟩
  right := isSubtypeOf_map.2 ⟨hk.right, hv.right⟩
  least w ht hu := by
    rcases of_map_isBelow ht with ⟨_, hw⟩ | ⟨_, f, g, hw, hf, hg⟩
    · exact isSubtypeOf_of_unalias_value hw
    · rw [← isSubtypeOf_unalias_right, hw] at hu ⊢
      obtain ⟨hf', hg'⟩ := isSubtypeOf_map.1 hu
      exact isSubtypeOf_map.2 ⟨hk.least f hf hf', hv.least g hg hg'⟩
  wellFormed := .map _ hk.wellFormed hv.wellFormed

/-- A constructor joins as its data type does, unless it lies below the other side. -/
theorem constructor_left {a : Ty} {n : String} {fs : List (Field Ty)}
    (ha : ∃ o' n' ps, a = adt o' n' ps) (h : IsJoin a u j)
    (hu : ∀ w, (constructor o a n fs).isSubtypeOf w = true → u.isSubtypeOf w = true →
      w.unalias.isConstructor = false) :
    IsJoin (constructor o a n fs) u j where
  left := by
    obtain ⟨_, _, _, rfl⟩ := ha
    have hj := h.left
    rcases of_adt_isBelow hj with ⟨_, hw⟩ | ⟨_, _, hw, -⟩
    · exact isSubtypeOf_of_unalias_value hw
    · rw [isSubtypeOf, hw] at hj ⊢
      rwa [isBelow]
  right := h.right
  least w htw huw := by
    refine h.least w ?_ huw
    rcases of_constructor_isBelow htw with ⟨_, hw⟩ | ⟨_, _, _, -, ha⟩ | ⟨_, _, _, _, hw, -⟩
    · exact isSubtypeOf_of_unalias_value hw
    · exact ha
    · have := hu w htw huw
      rw [hw] at this
      cases this
  wellFormed := h.wellFormed

end IsJoin

/-- Joins field by field. -/
structure FieldsJoin (fs gs hs : List (Field Ty)) : Prop where
  left : fieldsBelow fs hs = true
  right : fieldsBelow gs hs = true
  least : ∀ is, fieldsBelow fs is = true → fieldsBelow gs is = true → fieldsBelow hs is = true
  wellFormed : ∀ f ∈ hs, f.ty.WellFormed

/-- Joins type by type. -/
structure AllJoin (ts us js : List Ty) : Prop where
  left : allBelow ts js = true
  right : allBelow us js = true
  least : ∀ ws, allBelow ts ws = true → allBelow us ws = true → allBelow js ws = true
  wellFormed : ∀ t ∈ js, t.WellFormed

theorem lubFields_fieldsJoin : ∀ {fs gs : List (Field Ty)}, fs.length = gs.length →
    (∀ f ∈ fs, ∀ g ∈ gs, IsJoin f.ty g.ty (f.ty.lub m g.ty)) →
    FieldsJoin fs gs (lubFields m fs gs)
  | [], [], _, _ => by
    simp only [lubFields]
    exact ⟨rfl, rfl, fun _ h _ => h, List.forall_mem_nil _⟩
  | ⟨t, l⟩ :: fs, ⟨u, k⟩ :: gs, hlen, h => by
    have hj : IsJoin t u (t.lub m u) := h ⟨t, l⟩ List.mem_cons_self ⟨u, k⟩ List.mem_cons_self
    have ih := lubFields_fieldsJoin (Nat.succ.inj hlen) fun f hf g hg =>
      h f (List.mem_cons_of_mem _ hf) g (List.mem_cons_of_mem _ hg)
    rw [lubFields]
    refine ⟨?_, ?_, fun is hfs hgs => ?_, List.forall_mem_cons.2 ⟨hj.wellFormed, ih.wellFormed⟩⟩
    · rw [fieldsBelow, Bool.and_eq_true]
      exact ⟨hj.left, ih.left⟩
    · rw [fieldsBelow, Bool.and_eq_true]
      exact ⟨hj.right, ih.right⟩
    · obtain ⟨i, is, rfl, hi, his⟩ := of_fieldsBelow_cons hfs
      rw [fieldsBelow, Bool.and_eq_true] at hgs ⊢
      exact ⟨hj.least i.ty hi hgs.1, ih.least is his hgs.2⟩

theorem lubAll_allJoin : ∀ {ts us : List Ty}, ts.length = us.length →
    (∀ t ∈ ts, ∀ u ∈ us, IsJoin t u (t.lub m u)) → AllJoin ts us (lubAll m ts us)
  | [], [], _, _ => by
    simp only [lubAll]
    exact ⟨rfl, rfl, fun _ h _ => h, List.forall_mem_nil _⟩
  | t :: ts, u :: us, hlen, h => by
    have hj := h t List.mem_cons_self u List.mem_cons_self
    have ih := lubAll_allJoin (Nat.succ.inj hlen) fun t ht u hu =>
      h t (List.mem_cons_of_mem _ ht) u (List.mem_cons_of_mem _ hu)
    rw [lubAll]
    refine ⟨?_, ?_, fun ws hts hus => ?_, List.forall_mem_cons.2 ⟨hj.wellFormed, ih.wellFormed⟩⟩
    · rw [allBelow, Bool.and_eq_true]
      exact ⟨hj.left, ih.left⟩
    · rw [allBelow, Bool.and_eq_true]
      exact ⟨hj.right, ih.right⟩
    · obtain ⟨w, ws, rfl, hw, hws⟩ := of_allBelow_cons hts
      rw [allBelow, Bool.and_eq_true] at hus ⊢
      exact ⟨hj.least w hw hus.1, ih.least ws hws hus.2⟩

theorem length_of_fieldsBelow {fs gs : List (Field Ty)} (h : fieldsBelow fs gs = true) :
    fs.length = gs.length := by
  rw [fieldsBelow_eq_all, Bool.and_eq_true, beq_iff_eq] at h
  exact h.1

theorem length_of_allBelow {ts us : List Ty} (h : allBelow ts us = true) :
    ts.length = us.length := by
  rw [allBelow_eq_all, Bool.and_eq_true, beq_iff_eq] at h
  exact h.1

namespace IsJoin

protected theorem tuple {fs gs hs : List (Field Ty)} (h : FieldsJoin fs gs hs) :
    IsJoin (tuple o fs) (tuple o' gs) (m.tupleOfFields hs) where
  left := isSubtypeOf_tuple.trans h.left
  right := isSubtypeOf_tuple.trans h.right
  least w ht hu := by
    rcases of_tuple_isBelow ht with ⟨_, hw⟩ | ⟨_, is, hw, hfs⟩
    · exact isSubtypeOf_of_unalias_value hw
    · rw [← isSubtypeOf_unalias_right, hw] at hu ⊢
      exact isSubtypeOf_tuple.trans (h.least is hfs (isSubtypeOf_tuple.symm.trans hu))
  wellFormed := .tuple _ h.wellFormed

protected theorem adt {n : String} {ps qs js : List Ty} (h : AllJoin ps qs js) :
    IsJoin (adt o n ps) (adt o' n qs) (m.adt n js) where
  left := isSubtypeOf_adt.trans h.left
  right := isSubtypeOf_adt.trans h.right
  least w ht hu := by
    rcases of_adt_isBelow ht with ⟨_, hw⟩ | ⟨_, is, hw, hfs⟩
    · exact isSubtypeOf_of_unalias_value hw
    · rw [← isSubtypeOf_unalias_right, hw] at hu ⊢
      exact isSubtypeOf_adt.trans (h.least is hfs (isSubtypeOf_adt.symm.trans hu))
  wellFormed := .adt _ n h.wellFormed

/-- Types with nothing else above them both join in `value`. -/
protected theorem value (h : ∀ w, t.isBelow w = true → u.isBelow w = true →
    w.isAlias = false → ∃ o, w = basic o .value) : IsJoin t u m.value where
  left := isSubtypeOf_value t
  right := isSubtypeOf_value u
  least w ht hu := by
    obtain ⟨_, hw⟩ := h w.unalias ht hu (isAlias_unalias w)
    exact isSubtypeOf_of_unalias_value hw
  wellFormed := .basic _ _

end IsJoin

/-! ### The join of two types -/

/-- What a type has in common with the types above it, `value` apart. -/
def family : Ty → Kind
  | basic _ b => b.kind
  | tuple .. => .tuple
  | list .. => .list
  | set .. | relation .. => .set
  | map .. => .map
  | adt .. | constructor .. => .dataType
  | aliased .. => .aliased

theorem family_of_isBelow (ht : t.isAlias = false) (hv : ∀ o, t ≠ basic o .void)
    (h : t.isBelow u = true) : (∃ o, u = basic o .value) ∨ u.family = t.family := by
  cases t with
  | basic o b =>
    rcases of_basic_isBelow (fun hb => hv o (hb ▸ rfl)) h with h | ⟨_, rfl⟩
    · exact .inl h
    · exact .inr rfl
  | tuple =>
    rcases of_tuple_isBelow h with h | ⟨_, _, rfl, -⟩
    · exact .inl h
    · exact .inr rfl
  | list =>
    rcases of_list_isBelow h with h | ⟨_, _, rfl, -⟩
    · exact .inl h
    · exact .inr rfl
  | set =>
    rcases of_set_isBelow h with h | ⟨_, _, rfl | rfl, -⟩
    · exact .inl h
    all_goals exact .inr rfl
  | relation =>
    rcases of_relation_isBelow h with h | ⟨_, _, rfl | rfl, -⟩
    · exact .inl h
    all_goals exact .inr rfl
  | map =>
    rcases of_map_isBelow h with h | ⟨_, _, _, rfl, -⟩
    · exact .inl h
    · exact .inr rfl
  | adt =>
    rcases of_adt_isBelow h with h | ⟨_, _, rfl, -⟩
    · exact .inl h
    · exact .inr rfl
  | constructor =>
    rcases of_constructor_isBelow h with h | ⟨_, _, _, rfl, -⟩ | ⟨_, _, _, _, rfl, -⟩
    · exact .inl h
    all_goals exact .inr rfl
  | aliased => cases ht

/-- Types of unlike families have only `value` above them. -/
theorem IsJoin.unlike (ht : t.isAlias = false) (hu : u.isAlias = false)
    (htv : ∀ o, t ≠ basic o .void) (huv : ∀ o, u ≠ basic o .void) (h : t.family ≠ u.family) :
    IsJoin t u m.value := by
  refine .value fun w htw huw _ => ?_
  rcases family_of_isBelow ht htv htw with hw | hw
  · exact hw
  rcases family_of_isBelow hu huv huw with hw' | hw'
  · exact hw'
  · exact (h (hw.symm.trans hw')).elim

theorem sizeOf_field_lt {f : Field Ty} {fs : List (Field Ty)} (h : f ∈ fs) :
    sizeOf f.ty < sizeOf fs := by
  obtain ⟨t, l⟩ := f
  have := List.sizeOf_lt_of_mem h
  simp only [Field.mk.sizeOf_spec] at this
  show sizeOf t < _
  omega

namespace WellFormed

theorem elem_of_list {e : Ty} : (Ty.list o e).WellFormed → e.WellFormed
  | .list _ h => h

theorem elem_of_set {e : Ty} : (Ty.set o e).WellFormed → e.WellFormed
  | .set _ _ h => h

theorem row_of_relation {r : Ty} : (Ty.relation o r).WellFormed → r.WellFormed
  | .relation _ _ h => h

theorem key_of_map {k v : Ty} : (Ty.map o k v).WellFormed → k.WellFormed
  | .map _ h _ => h

theorem val_of_map {k v : Ty} : (Ty.map o k v).WellFormed → v.WellFormed
  | .map _ _ h => h

theorem fields_of_tuple {fs : List (Field Ty)} : (Ty.tuple o fs).WellFormed →
    ∀ f ∈ fs, f.ty.WellFormed
  | .tuple _ h => h

theorem params_of_adt {n : String} {ps : List Ty} : (Ty.adt o n ps).WellFormed →
    ∀ t ∈ ps, t.WellFormed
  | .adt _ _ h => h

theorem owner_of_constructor {a : Ty} {n : String} {fs : List (Field Ty)} :
    (Ty.constructor o a n fs).WellFormed → a.WellFormed ∧ ∃ o n ps, a = .adt o n ps
  | .constructor _ _ ha _ => ⟨ha, _, _, _, rfl⟩

end WellFormed

/-- Data types that join only in `value`: their names differ, or how many parameters they have. -/
theorem IsJoin.unlike_adt {n n' : String} {ps qs : List Ty}
    (h : ¬(n = n' ∧ ps.length = qs.length)) :
    IsJoin (adt o n ps) (adt o' n' qs) m.value := by
  refine .value fun w ht hu _ => ?_
  rcases of_adt_isBelow ht with hw | ⟨_, rs, rfl, hps⟩
  · exact hw
  rcases of_adt_isBelow hu with hw | ⟨_, rs', hw, hqs⟩
  · exact hw
  · obtain ⟨-, hname, hrs⟩ := adt.inj hw
    exact (h ⟨hname, (length_of_allBelow hps).trans (hrs ▸ (length_of_allBelow hqs).symm)⟩).elim

theorem IsJoin.unlike_tuple {fs gs : List (Field Ty)} (h : fs.length ≠ gs.length) :
    IsJoin (tuple o fs) (tuple o' gs) m.value := by
  refine .value fun w ht hu _ => ?_
  rcases of_tuple_isBelow ht with hw | ⟨_, hs, rfl, hfs⟩
  · exact hw
  rcases of_tuple_isBelow hu with hw | ⟨_, hs', hw, hgs⟩
  · exact hw
  · obtain ⟨-, hhs⟩ := tuple.inj hw
    exact (h ((length_of_fieldsBelow hfs).trans (hhs ▸ (length_of_fieldsBelow hgs).symm))).elim

/-- No constructor is above a data type. -/
theorem isConstructor_of_adt_isSubtypeOf {n : String} {ps : List Ty}
    (h : (adt o n ps).isSubtypeOf w = true) : w.unalias.isConstructor = false := by
  rcases of_adt_isBelow h with ⟨_, hw⟩ | ⟨_, _, hw, -⟩ <;> rw [hw] <;> rfl

/-- A constructor is above only those of its own shape, and these are below each other. -/
theorem isSubtypeOf_of_below_constructor {a b : Ty} {n n' : String} {fs gs : List (Field Ty)}
    (ht : (constructor o a n fs).isSubtypeOf w = true)
    (hu : (constructor o' b n' gs).isSubtypeOf w = true) (hw : w.unalias.isConstructor = true) :
    (constructor o a n fs).isSubtypeOf (constructor o' b n' gs) = true := by
  rcases of_constructor_isBelow ht with ⟨_, h⟩ | ⟨_, _, _, h, -⟩ | ⟨_, _, _, _, h, hs⟩
  · rw [h] at hw
    cases hw
  · rw [h] at hw
    cases hw
  rcases of_constructor_isBelow hu with ⟨_, h'⟩ | ⟨_, _, _, h', -⟩ | ⟨_, _, _, _, h', hs'⟩
  · rw [h'] at hw
    cases hw
  · rw [h'] at hw
    cases hw
  · rw [isSubtypeOf_congr_left ((sameShape_iff.1 hs).trans (sameShape_iff.1 hs').symm)]
    exact isSubtypeOf_refl _

/-- Constructors join as their data types do, unless one lies below the other. -/
theorem IsJoin.constructors {a b : Ty} {n n' : String} {fs gs : List (Field Ty)}
    (ha : ∃ o n ps, a = adt o n ps) (hb : ∃ o n ps, b = adt o n ps) (h : IsJoin a b j)
    (hbelow : (constructor o a n fs).isSubtypeOf (constructor o' b n' gs) ≠ true) :
    IsJoin (constructor o a n fs) (constructor o' b n' gs) j := by
  refine (IsJoin.constructor_left hb (IsJoin.constructor_left ha h ?_).symm ?_).symm
  · intro w _ hbw
    obtain ⟨_, _, _, rfl⟩ := hb
    exact isConstructor_of_adt_isSubtypeOf hbw
  · intro w hbw haw
    -- A constructor above both sides would put one below the other.
    refine Bool.eq_false_iff.2 fun hw => ?_
    exact hbelow (isSubtypeOf_of_below_constructor haw hbw hw)

/-- Two types of one family, by their forms. -/
inductive Akin : Ty → Ty → Prop
  | basic (o o' : Origin) (b : BasicTy) : Akin (.basic o b) (.basic o' b)
  | tuple (o o' : Origin) (fs gs : List (Field Ty)) : Akin (.tuple o fs) (.tuple o' gs)
  | list (o o' : Origin) (e e' : Ty) : Akin (.list o e) (.list o' e')
  | sets (e e' t u : Ty) : IsSetOf e t → IsSetOf e' u → Akin t u
  | map (o o' : Origin) (k v k' v' : Ty) : Akin (.map o k v) (.map o' k' v')
  | constructors (o o' : Origin) (a b : Ty) (n n' : String) (fs gs : List (Field Ty)) :
    Akin (.constructor o a n fs) (.constructor o' b n' gs)
  | constructor_adt (o o' : Origin) (a : Ty) (n n' : String) (fs : List (Field Ty))
    (ps : List Ty) : Akin (.constructor o a n fs) (.adt o' n' ps)
  | adt_constructor (o o' : Origin) (a : Ty) (n n' : String) (fs : List (Field Ty))
    (ps : List Ty) : Akin (.adt o n ps) (.constructor o' a n' fs)
  | adt (o o' : Origin) (n n' : String) (ps qs : List Ty) : Akin (.adt o n ps) (.adt o' n' qs)

theorem akin_of_family (ht : t.isAlias = false) (h : t.family = u.family) : Akin t u := by
  cases t with
  | basic o b =>
    cases u with
    | basic o' c =>
      obtain rfl : b = c := by cases b <;> cases c <;> first | rfl | cases h
      exact .basic ..
    | _ => cases b <;> cases h
  | tuple =>
    cases u with
    | basic _ b => cases b <;> cases h
    | tuple => exact .tuple ..
    | _ => cases h
  | list =>
    cases u with
    | basic _ b => cases b <;> cases h
    | list => exact .list ..
    | _ => cases h
  | set =>
    cases u with
    | basic _ b => cases b <;> cases h
    | set => exact .sets _ _ _ _ (.set ..) (.set ..)
    | relation => exact .sets _ _ _ _ (.set ..) (.relation ..)
    | _ => cases h
  | relation =>
    cases u with
    | basic _ b => cases b <;> cases h
    | set => exact .sets _ _ _ _ (.relation ..) (.set ..)
    | relation => exact .sets _ _ _ _ (.relation ..) (.relation ..)
    | _ => cases h
  | map =>
    cases u with
    | basic _ b => cases b <;> cases h
    | map => exact .map ..
    | _ => cases h
  | adt =>
    cases u with
    | basic _ b => cases b <;> cases h
    | constructor => exact .adt_constructor ..
    | adt => exact .adt ..
    | _ => cases h
  | constructor =>
    cases u with
    | basic _ b => cases b <;> cases h
    | constructor => exact .constructors ..
    | adt => exact .constructor_adt ..
    | _ => cases h
  | aliased => cases ht

theorem lub_isJoin (m : Manager) (t u : Ty) (ht : t.WellFormed) (hu : u.WellFormed) :
    IsJoin t u (t.lub m u) := by
  induction hn : sizeOf t + sizeOf u using Nat.strongRecOn generalizing t u with
  | ind n ih =>
    subst hn
    -- Stripping aliases makes types no larger, so the recursion may start from what is left.
    have ih (t' u' : Ty) (hlt : sizeOf t' + sizeOf u' < sizeOf t.unalias + sizeOf u.unalias)
        (ht' : t'.WellFormed) (hu' : u'.WellFormed) : IsJoin t' u' (t'.lub m u') := by
      have := sizeOf_unalias_le t
      have := sizeOf_unalias_le u
      exact ih _ (by omega) t' u' ht' hu' rfl
    rw [lub]
    split
    · next h => exact .of_isSubtypeOf h hu
    split
    · next h => exact (IsJoin.of_isSubtypeOf h ht).symm
    next htu hut =>
    rw [← isSubtypeOf_unalias_left, ← isSubtypeOf_unalias_right] at htu hut
    have ht := ht.unalias
    have hu := hu.unalias
    have hta := isAlias_unalias t
    have hua := isAlias_unalias u
    apply IsJoin.unalias
    generalize t.unalias = t' at *
    generalize u.unalias = u' at *
    split
    · next fs _ gs =>
      split
      · next hlen =>
        refine .tuple (lubFields_fieldsJoin hlen fun f hf g hg => ?_)
        have := sizeOf_field_lt hf
        have := sizeOf_field_lt hg
        exact ih _ _ (by simp only [tuple.sizeOf_spec]; omega) (ht.fields_of_tuple f hf)
          (hu.fields_of_tuple g hg)
      · next hlen => exact .unlike_tuple hlen
    · next e _ e' =>
      exact .list (ih _ _ (by simp only [list.sizeOf_spec]; omega) ht.elem_of_list hu.elem_of_list)
    · next e _ e' =>
      exact .set (.set ..) (.set ..)
        (ih _ _ (by simp only [set.sizeOf_spec]; omega) ht.elem_of_set hu.elem_of_set)
    · next e _ r =>
      exact .set (.set ..) (.relation ..)
        (ih _ _ (by simp only [set.sizeOf_spec, relation.sizeOf_spec]; omega) ht.elem_of_set
          hu.row_of_relation)
    · next r _ e =>
      exact .set (.relation ..) (.set ..)
        (ih _ _ (by simp only [set.sizeOf_spec, relation.sizeOf_spec]; omega) ht.row_of_relation
          hu.elem_of_set)
    · next r _ r' =>
      exact .set (.relation ..) (.relation ..)
        (ih _ _ (by simp only [relation.sizeOf_spec]; omega) ht.row_of_relation hu.row_of_relation)
    · next k v _ k' v' =>
      exact .map
        (ih _ _ (by simp only [map.sizeOf_spec]; omega) ht.key_of_map hu.key_of_map)
        (ih _ _ (by simp only [map.sizeOf_spec]; omega) ht.val_of_map hu.val_of_map)
    · next a n fs _ b n' gs =>
      obtain ⟨ha, haa⟩ := ht.owner_of_constructor
      obtain ⟨hb, hba⟩ := hu.owner_of_constructor
      have hj := ih a b (by simp only [constructor.sizeOf_spec]; omega) ha hb
      exact .constructors haa hba hj htu
    · next a n fs o' n' ps =>
      obtain ⟨ha, haa⟩ := ht.owner_of_constructor
      have hj := ih a _ (by simp only [constructor.sizeOf_spec]; omega) ha hu
      exact .constructor_left haa hj fun _ _ huw => isConstructor_of_adt_isSubtypeOf huw
    · next o' n' ps _ a n fs =>
      obtain ⟨ha, haa⟩ := hu.owner_of_constructor
      have hj := ih a _ (by simp only [constructor.sizeOf_spec]; omega) ha ht
      exact (IsJoin.constructor_left haa hj fun _ _ huw =>
        isConstructor_of_adt_isSubtypeOf huw).symm
    · next n ps _ n' qs =>
      split
      · next h =>
        obtain ⟨rfl, hlen⟩ := h
        refine .adt (lubAll_allJoin hlen fun p hp q hq => ?_)
        have := List.sizeOf_lt_of_mem hp
        have := List.sizeOf_lt_of_mem hq
        exact ih _ _ (by simp only [adt.sizeOf_spec]; omega) (ht.params_of_adt p hp)
          (hu.params_of_adt q hq)
      · next h => exact .unlike_adt h
    · next h₁ h₂ h₃ h₄ h₅ h₆ h₇ h₈ h₉ h₁₀ h₁₁ =>
      have htv (o : Origin) : t' ≠ basic o .void := fun h => htu (h ▸ void_isBelow _)
      have huv (o : Origin) : u' ≠ basic o .void := fun h => hut (h ▸ void_isBelow _)
      refine .unlike hta hua htv huv fun hf => ?_
      -- Types of one family are comparable basic types or have a case of their own.
      cases akin_of_family hta hf with
      | basic o o' b =>
        refine htu (Eq.trans ?_ (isSubtypeOf_refl (basic o' b)))
        exact isSubtypeOf_congr_left (t := basic o b) (w := basic o' b) rfl
      | tuple => exact h₁ _ _ _ _ rfl rfl
      | list => exact h₂ _ _ _ _ rfl rfl
      | sets _ _ _ _ ht hu =>
        cases ht with
        | set =>
          cases hu with
          | set => exact h₃ _ _ _ _ rfl rfl
          | relation => exact h₄ _ _ _ _ rfl rfl
        | relation =>
          cases hu with
          | set => exact h₅ _ _ _ _ rfl rfl
          | relation => exact h₆ _ _ _ _ rfl rfl
      | map => exact h₇ _ _ _ _ _ _ rfl rfl
      | constructors => exact h₈ _ _ _ _ _ _ _ _ rfl rfl
      | constructor_adt => exact h₉ _ _ _ _ _ _ _ rfl rfl
      | adt_constructor => exact h₁₀ _ _ _ _ _ _ _ rfl rfl
      | adt => exact h₁₁ _ _ _ _ _ _ rfl rfl

end Ty

namespace Manager

open Ty

/-- What the join of any number of types promises. -/
theorem foldl_lub (m : Manager) : ∀ {types : List Ty} {u : Ty}, u.WellFormed →
    (∀ t ∈ types, t.WellFormed) →
    u.isSubtypeOf (types.foldl (fun u t => u.lub m t) u) = true ∧
    (∀ t ∈ types, t.isSubtypeOf (types.foldl (fun u t => u.lub m t) u) = true) ∧
    (∀ w, u.isSubtypeOf w = true → (∀ t ∈ types, t.isSubtypeOf w = true) →
      (types.foldl (fun u t => u.lub m t) u).isSubtypeOf w = true) ∧
    (types.foldl (fun u t => u.lub m t) u).WellFormed
  | [], u, hu, _ => ⟨isSubtypeOf_refl u, nofun, fun _ h _ => h, hu⟩
  | t :: ts, u, hu, hts => by
    obtain ⟨ht, hts⟩ := List.forall_mem_cons.1 hts
    have hj := lub_isJoin m u t hu ht
    obtain ⟨hstart, hall, hleast, hwf⟩ := foldl_lub m (u := u.lub m t) hj.wellFormed hts
    refine ⟨isSubtypeOf_trans hj.left hstart, ?_, fun w hw hws => ?_, hwf⟩
    · exact List.forall_mem_cons.2 ⟨isSubtypeOf_trans hj.right hstart, hall⟩
    · obtain ⟨htw, hws⟩ := List.forall_mem_cons.1 hws
      exact hleast w (hj.least w hw htw) hws

variable {types : List Ty} {m : Manager}

theorem isSubtypeOf_lubOf (h : ∀ t ∈ types, t.WellFormed) :
    ∀ t ∈ types, t.isSubtypeOf (m.lubOf types) = true :=
  (foldl_lub m (.basic _ _) h).2.1

theorem lubOf_isSubtypeOf (h : ∀ t ∈ types, t.WellFormed) {w : Ty}
    (hw : ∀ t ∈ types, t.isSubtypeOf w = true) : (m.lubOf types).isSubtypeOf w = true :=
  (foldl_lub m (.basic _ _) h).2.2.1 w (void_isSubtypeOf w) hw

theorem lubOf_wellFormed (h : ∀ t ∈ types, t.WellFormed) : (m.lubOf types).WellFormed :=
  (foldl_lub m (.basic _ _) h).2.2.2

end Manager

end ValueAlgebra
