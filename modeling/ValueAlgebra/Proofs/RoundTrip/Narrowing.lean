import ValueAlgebra.Proofs.RoundTrip.ReadType
import ValueAlgebra.Proofs.Session.Building

/-!
# Types read back are narrower

If the constructors of every data type differ in name or number of fields, a constructor
application has one overload to be read as, which is its own. Then every value of declared
constructors is read back, with a type below the one it had: types inferred from the parts are
least, and the types that the value had bounded the same parts.

## Main definitions

- `Store.KeepsApart`: no two constructors of a data type share both name and number of fields
- `Value.DeclaredIn`: all constructor applications use constructors of the store
-/

namespace ValueAlgebra

namespace Ty

theorem unalias_eq_basic {t : Ty} {b : BasicTy} (h : t.kind = b.kind) :
    ∃ o, t.unalias = basic o b := by
  rw [← kind_unalias] at h
  have halias := isAlias_unalias t
  cases ht : t.unalias with
  | basic o c =>
    rw [ht] at h
    have hc : c = b := by cases b <;> cases c <;> first | rfl | cases h
    exact ⟨o, hc ▸ rfl⟩
  | aliased =>
    rw [ht] at halias
    cases halias
  | _ =>
    rw [ht] at h
    cases b <;> cases h

/-- Types without parts are below the types of their kind. -/
theorem basic_isSubtypeOf {o : Origin} {t : Ty} {b : BasicTy} (h : t.kind = b.kind) :
    (basic o b).isSubtypeOf t = true := by
  obtain ⟨o', ht⟩ := unalias_eq_basic h
  rw [isSubtypeOf, ht]
  cases b <;> rfl

theorem fieldsBelow_of_forall₂ {ts : List Ty} {fs : List (Field Ty)}
    (h : List.Forall₂ (fun t f => t.isSubtypeOf f.ty = true) ts fs) :
    fieldsBelow (ts.map fun t => ⟨t, none⟩) fs = true := by
  induction h with
  | nil => rfl
  | cons ht _ ih =>
    rw [List.map_cons, fieldsBelow, ih, Bool.and_true]
    exact ht

theorem allBelow_of_forall₂ {ts : List Ty} {fs : List (Field Ty)}
    (h : List.Forall₂ (fun t f => t.isSubtypeOf f.ty = true) ts fs) :
    allBelow ts (fs.map Field.ty) = true := by
  induction h with
  | nil => rfl
  | cons ht _ ih =>
    rw [List.map_cons, allBelow, ih, Bool.and_true]
    exact ht

theorem shapes_of_shapeFields {fs gs : List (Field Ty)} (h : shapeFields fs = shapeFields gs) :
    shapes (fs.map Field.ty) = shapes (gs.map Field.ty) := by
  rw [shapeFields_eq_map, shapeFields_eq_map] at h
  have hty := congrArg (List.map Field.ty) h
  rw [List.map_map, List.map_map] at hty
  rw [shapes_eq_map, shapes_eq_map, List.map_map, List.map_map]
  exact hty

theorem allBelow_congr_right {ts us ws : List Ty} (h : shapes us = shapes ws) :
    allBelow ts us = allBelow ts ws := by
  rw [← allBelow_shape ts us, h, allBelow_shape]

end Ty

namespace Store

/-- No two constructors of a data type share both name and number of fields. -/
def KeepsApart (st : Store) : Prop :=
  ∀ adt, ∀ c ∈ st.constructorsOf adt, ∀ d ∈ st.constructorsOf adt,
    c.constructorName? = d.constructorName? → c.arity? = d.arity? → c = d

end Store

namespace Value

/-- Every constructor application in the value uses a constructor declared in the store. -/
def DeclaredIn (st : Store) (v : Value) : Prop := ∀ t c vs, (constructor t c vs).Within v →
  ∃ owner d, t.owner? = some owner ∧ d ∈ st.constructorsOf owner ∧ d.sameShape t.unalias = true

theorem DeclaredIn.part {st : Store} {p v : Value} (h : v.DeclaredIn st) (hp : p ∈ v.parts) :
    p.DeclaredIn st := fun t c vs hw => h t c vs (.part hp hw)

/-- The value is read back with type `t`, which is below its own. -/
structure Narrows (st : Store) (m : Manager) (v : Value) (t : Ty) : Prop where
  read : v.readTy? st m = some t
  below : t.isSubtypeOf v.ty = true
  wellFormed : t.WellFormed

variable {st : Store} {m : Manager} {vs : List Value} {ts : List Ty}

theorem exists_narrows (h : ∀ v ∈ vs, ∃ t, v.Narrows st m t) :
    ∃ ts, List.Forall₂ (Narrows st m) vs ts := by
  induction vs with
  | nil => exact ⟨[], .nil⟩
  | cons v vs ih =>
    obtain ⟨⟨t, ht⟩, hvs⟩ := List.forall_mem_cons.1 h
    obtain ⟨ts, hts⟩ := ih hvs
    exact ⟨t :: ts, .cons ht hts⟩

theorem Narrows.reads (h : List.Forall₂ (Narrows st m) vs ts) : readTys? st m vs = some ts :=
  readTys?_eq_some.2 (h.imp fun _ _ h => h.read)

theorem Narrows.all_wellFormed (h : List.Forall₂ (Narrows st m) vs ts) :
    ∀ t ∈ ts, t.WellFormed := by
  induction h with
  | nil => exact List.forall_mem_nil _
  | cons hvt _ ih => exact List.forall_mem_cons.2 ⟨hvt.wellFormed, ih⟩

/-- What bounds the values bounds the types they are read back with. -/
theorem Narrows.lubOf_isSubtypeOf (h : List.Forall₂ (Narrows st m) vs ts) {e : Ty}
    (he : ∀ v ∈ vs, v.ty.isSubtypeOf e = true) : (m.lubOf ts).isSubtypeOf e = true := by
  refine Manager.lubOf_isSubtypeOf (all_wellFormed h) ?_
  induction h with
  | nil => exact List.forall_mem_nil _
  | cons hvt _ ih =>
    obtain ⟨hv, hvs⟩ := List.forall_mem_cons.1 he
    exact List.forall_mem_cons.2 ⟨Ty.isSubtypeOf_trans hvt.below hv, ih hvs⟩

theorem Narrows.fits (h : List.Forall₂ (Narrows st m) vs ts) {fs : List (Field Ty)}
    (hvs : Fits vs fs) : List.Forall₂ (fun t f => t.isSubtypeOf f.ty = true) ts fs := by
  induction h generalizing fs with
  | nil =>
    cases hvs
    exact .nil
  | cons hvt _ ih =>
    cases hvs with
    | cons hv hvs => exact .cons (Ty.isSubtypeOf_trans hvt.below hv) (ih hvs)

/-- Where constructors are kept apart, an application is read with its own constructor. -/
theorem overload?_eq (hst : st.Reachable) (hapart : st.KeepsApart) {t owner d : Ty} {o : Origin}
    {n : String} {fs : List (Field Ty)} (ht : t.unalias = .constructor o owner n fs)
    (hd : d ∈ st.constructorsOf owner) (hshape : d.sameShape t.unalias = true)
    (hts : List.Forall₂ (fun t f => t.isSubtypeOf f.ty = true) ts fs) :
    overload? st t ts = some d := by
  obtain ⟨a, ha, hmem⟩ := Store.of_mem_constructorsOf hd
  obtain ⟨o', oa, ps, n', gs, rfl⟩ := hst.consistent.constructor_eq a _ hmem
  obtain ⟨adt, hadt⟩ := Option.isSome_iff_exists.1 (hst.consistent.constructor_declared a _ hmem)
  rw [ht, Ty.sameShape_iff, Ty.shape, Ty.shape] at hshape
  obtain ⟨-, -, rfl, hfields⟩ := Ty.constructor.inj hshape
  -- Subtyping sees shapes only, and `d` has the shape of the application's own type.
  have hargs : Ty.allBelow ts (gs.map Field.ty) = true := by
    rw [Ty.allBelow_congr_right (Ty.shapes_of_shapeFields hfields)]
    exact Ty.allBelow_of_forall₂ hts
  have hdmem : .constructor o' (.adt oa a ps) n' gs ∈ st.constructorsOf adt := by
    rw [hst.consistent.constructorsOf_eq hadt]
    exact hmem
  have happlies : Store.applies n' ts (.constructor o' (.adt oa a ps) n' gs) = true := by
    rw [Store.applies, hargs, Bool.and_true, beq_iff_eq]
  -- So the search finds some constructor, and all it can find is `d`.
  obtain ⟨c, hc⟩ : ∃ c, st.constructorFor? adt n' ts = some c :=
    Option.isSome_iff_exists.1 (List.find?_isSome.2 ⟨_, hdmem, happlies⟩)
  obtain ⟨hcmem, oc, ac, hs, rfl, hcargs⟩ := Store.constructorFor?_eq_some hc
  have hlength : hs.length = gs.length := by
    have h₁ := Ty.length_of_allBelow hargs
    have h₂ := Ty.length_of_allBelow hcargs
    rw [List.length_map] at h₁ h₂
    omega
  have heq := hapart adt _ hcmem _ hdmem rfl (congrArg some hlength)
  have hname : t.ownerName? = some a := by rw [Ty.ownerName?, Ty.owner?, ht]; exact ha
  have hcons : t.constructorName? = some n' := by rw [Ty.constructorName?, ht]
  rw [overload?, hname, hcons, Option.getD_some, Option.getD_some, hadt, Option.bind_some, hc, heq]

namespace Narrows

variable {t : Ty} {c : Cell}

protected theorem node {n : String} (h : List.Forall₂ (Narrows st m) vs ts)
    (hv : (node t c n vs).WellTyped) : (node t c n vs).Narrows st m m.node := by
  refine ⟨?_, Ty.basic_isSubtypeOf hv, .basic _ _⟩
  rw [readTy?, reads h]
  rfl

protected theorem tuple (h : List.Forall₂ (Narrows st m) vs ts) (hv : (tuple t c vs).WellTyped) :
    (tuple t c vs).Narrows st m (m.tuple ts) := by
  obtain ⟨o, fs, ht, hfits⟩ := hv
  refine ⟨?_, ?_, Ty.wellFormed_tupleOf m (all_wellFormed h)⟩
  · rw [readTy?, reads h]
    rfl
  · rw [ty, Ty.isSubtypeOf, ht]
    exact Ty.fieldsBelow_of_forall₂ (fits h hfits)

protected theorem list (h : List.Forall₂ (Narrows st m) vs ts) (hv : (list t c vs).WellTyped) :
    (list t c vs).Narrows st m (m.list (m.lubOf ts)) := by
  obtain ⟨o, e, ht, hvs⟩ := hv
  refine ⟨?_, ?_, .list _ (Manager.lubOf_wellFormed (all_wellFormed h))⟩
  · rw [readTy?, reads h]
    rfl
  · rw [ty, Ty.isSubtypeOf, ht]
    exact lubOf_isSubtypeOf h hvs

protected theorem set {es : Table Value Unit} (h : List.Forall₂ (Narrows st m) es.keys ts)
    (hv : (set t c es).WellTyped) : (set t c es).Narrows st m (m.set (m.lubOf ts)) := by
  obtain ⟨o, e, ht, hvs⟩ := hv
  have hbelow : (m.lubOf ts).isSubtypeOf e = true := lubOf_isSubtypeOf h hvs
  refine ⟨?_, ?_, .setOf m (Manager.lubOf_wellFormed (all_wellFormed h))⟩
  · rw [readTy?_set, reads h]
    rfl
  · rw [ty, Ty.isSubtypeOf]
    -- The empty set is no relation, but below every relation.
    obtain ⟨o', ⟨hset, -⟩ | ⟨hset, -⟩⟩ := Ty.setOf_eq m (m.lubOf ts)
    all_goals
      rw [hset]
      obtain ⟨ht, -⟩ | ⟨ht, -⟩ := ht
      all_goals
        rw [ht]
        exact hbelow

protected theorem map {es : Table Value Value} {ks xs : List Ty}
    (hks : List.Forall₂ (Narrows st m) es.keys ks)
    (hxs : List.Forall₂ (Narrows st m) es.values xs) (hv : (map t c es).WellTyped) :
    (map t c es).Narrows st m (m.map (m.lubOf ks) (m.lubOf xs)) := by
  obtain ⟨o, k, x, ht, hk, hx⟩ := hv
  refine ⟨?_, ?_, .map _ (Manager.lubOf_wellFormed (all_wellFormed hks))
    (Manager.lubOf_wellFormed (all_wellFormed hxs))⟩
  · rw [readTy?_map, reads hks, reads hxs]
    rfl
  · rw [ty, Ty.isSubtypeOf, ht]
    exact Bool.and_eq_true_iff.2 ⟨lubOf_isSubtypeOf hks hk, lubOf_isSubtypeOf hxs hx⟩

/-- The overload read is the constructor of the type that the application had. -/
protected theorem constructor (hst : st.Reachable) (hapart : st.KeepsApart)
    (h : List.Forall₂ (Narrows st m) vs ts) (hv : (constructor t c vs).WellTyped)
    (hdecl : (constructor t c vs).DeclaredIn st) :
    ∃ d, (constructor t c vs).Narrows st m d := by
  obtain ⟨o, a, n, fs, ht, hfits⟩ := hv
  obtain ⟨owner, d, howner, hd, hshape⟩ := hdecl t c vs .refl
  rw [Ty.owner?, ht] at howner
  obtain rfl := Option.some.inj howner
  refine ⟨d, ?_, ?_, hst.wellFormed_of_mem_constructorsOf hd⟩
  · rw [readTy?, reads h]
    exact overload?_eq hst hapart ht hd hshape (fits h hfits)
  · rw [ty, Ty.isSubtypeOf_congr_left (Ty.sameShape_iff.1 hshape), Ty.isSubtypeOf_unalias_left]
    exact Ty.isSubtypeOf_refl t

end Narrows

theorem narrows (hst : st.Reachable) (hapart : st.KeepsApart) {v : Value}
    (htyped : ∀ w : Value, w.Within v → w.WellTyped) (hdecl : v.DeclaredIn st) :
    ∃ t, v.Narrows st m t := by
  induction v using parts_induction with
  | h v ih =>
    have ih : ∀ p ∈ v.parts, ∃ t, p.Narrows st m t := fun p hp =>
      ih p hp (fun w hw => htyped w (.part hp hw)) (hdecl.part hp)
    have hv := htyped v .refl
    cases v with
    | int t i => exact ⟨m.int, rfl, Ty.basic_isSubtypeOf hv, .basic _ _⟩
    | double t d => exact ⟨m.double, rfl, Ty.basic_isSubtypeOf hv, .basic _ _⟩
    | bool t b => exact ⟨m.bool, rfl, Ty.basic_isSubtypeOf hv, .basic _ _⟩
    | str t c x => exact ⟨m.str, rfl, Ty.basic_isSubtypeOf hv, .basic _ _⟩
    | loc t c p x => exact ⟨m.loc, rfl, Ty.basic_isSubtypeOf hv, .basic _ _⟩
    | node t c n vs =>
      obtain ⟨ts, hts⟩ := exists_narrows ih
      exact ⟨m.node, .node hts hv⟩
    | tuple t c vs =>
      obtain ⟨ts, hts⟩ := exists_narrows ih
      exact ⟨m.tuple ts, .tuple hts hv⟩
    | list t c vs =>
      obtain ⟨ts, hts⟩ := exists_narrows ih
      exact ⟨m.list (m.lubOf ts), .list hts hv⟩
    | set t c es =>
      obtain ⟨ts, hts⟩ := exists_narrows ih
      exact ⟨m.set (m.lubOf ts), .set hts hv⟩
    | map t c es =>
      obtain ⟨ks, hks⟩ := exists_narrows fun p hp => ih p (List.mem_append_left _ hp)
      obtain ⟨xs, hxs⟩ := exists_narrows fun p hp => ih p (List.mem_append_right _ hp)
      exact ⟨m.map (m.lubOf ks) (m.lubOf xs), .map hks hxs hv⟩
    | constructor t c vs =>
      obtain ⟨ts, hts⟩ := exists_narrows ih
      exact Narrows.constructor hst hapart hts hv hdecl

end Value

end ValueAlgebra
