import ValueAlgebra.Proofs.RoundTrip.Inferred
import ValueAlgebra.Proofs.RoundTrip.Narrowing
import ValueAlgebra.Proofs.Value.Contents

/-!
# The same values are read back alike

What a value is read back as depends on its contents only. Elements and entries of the same
collections may come in another order, but the types they are read back with have the same
structures, so their least upper bounds do, and overloads see no more than structures.

## Main definitions

- `Value.ReadsTo`: the value is read back with a type of a given structure
- `Value.JoinsTo`: the types of several values read back have a join of a given structure
-/

namespace ValueAlgebra

namespace Manager

variable {m : Manager} {t u : Ty} {ts us : List Ty}

theorem shape_set_congr (h : u.shape = t.shape) : (m.set u).shape = (m.set t).shape := by
  rw [set, set, Ty.isTuple_congr h]
  split
  · rw [Ty.shape, Ty.shape, h]
  · rw [Ty.shape, Ty.shape, h]

theorem shape_tuple_congr (h : us.map Ty.shape = ts.map Ty.shape) :
    (m.tuple us).shape = (m.tuple ts).shape := by
  have hfields (ws : List Ty) : Ty.shapeFields (ws.map fun w => ⟨w, none⟩) =
      (ws.map Ty.shape).map fun w => ⟨w, none⟩ := by
    rw [Ty.shapeFields_eq_map, List.map_map, List.map_map]
    rfl
  show Ty.tuple _ (Ty.shapeFields _) = Ty.tuple _ (Ty.shapeFields _)
  rw [hfields, hfields, h]

end Manager

namespace Value

variable {st : Store} {m : Manager}

/-- Overloads are chosen by the structures of the arguments. -/
theorem overload?_congr {t : Ty} {ts us : List Ty} (h : us.map Ty.shape = ts.map Ty.shape) :
    overload? st t us = overload? st t ts := by
  have hbelow (ws : List Ty) : Ty.allBelow us ws = Ty.allBelow ts ws := by
    rw [← Ty.allBelow_shape us, ← Ty.allBelow_shape ts, Ty.shapes_eq_map us, Ty.shapes_eq_map ts, h]
  have happlies (n : String) : Store.applies n us = Store.applies n ts := by
    funext c
    unfold Store.applies
    split
    · rw [hbelow]
    · rfl
  unfold overload? Store.constructorFor?
  rw [happlies]

/-- The types that values are read back with are those that a reader infers. -/
theorem inferred_of_readTy? (hst : st.Reachable) {v : Value} {t : Ty}
    (h : v.readTy? st m = some t) : t.Inferred st m := by
  induction v using parts_induction generalizing t with
  | h v ih =>
    have hall {vs : List Value} {ts : List Ty} (hvs : ∀ p ∈ vs, p ∈ v.parts)
        (hts : readTys? st m vs = some ts) : ∀ t ∈ ts, t.Inferred st m := by
      intro t ht
      obtain ⟨p, hp, hpt⟩ := exists_of_forall₂_right (readTys?_eq_some.1 hts) t ht
      exact ih p (hvs p hp) hpt
    cases v with
    | int | double | bool | str | loc =>
      obtain rfl := Option.some.inj h
      exact .basic _
    | tuple _ c vs =>
      rw [readTy?] at h
      obtain ⟨ts, hts, rfl⟩ := Option.map_eq_some_iff.1 h
      exact .tupleOf (hall (fun _ => id) hts)
    | list _ c vs =>
      rw [readTy?] at h
      obtain ⟨ts, hts, rfl⟩ := Option.map_eq_some_iff.1 h
      exact .list (Manager.inferred_lubOf hst (hall (fun _ => id) hts))
    | set _ c es =>
      rw [readTy?_set] at h
      obtain ⟨ts, hts, rfl⟩ := Option.map_eq_some_iff.1 h
      exact .setOf (Manager.inferred_lubOf hst (hall (fun _ => id) hts))
    | map _ c es =>
      rw [readTy?_map] at h
      obtain ⟨ks, hks, h⟩ := Option.bind_eq_some_iff.1 h
      obtain ⟨xs, hxs, rfl⟩ := Option.map_eq_some_iff.1 h
      exact .map (Manager.inferred_lubOf hst (hall (fun _ => List.mem_append_left _) hks))
        (Manager.inferred_lubOf hst (hall (fun _ => List.mem_append_right _) hxs))
    | node _ c n vs =>
      rw [readTy?] at h
      obtain ⟨ts, -, rfl⟩ := Option.map_eq_some_iff.1 h
      exact .basic _
    | constructor _ c vs =>
      rw [readTy?] at h
      obtain ⟨ts, -, h⟩ := Option.bind_eq_some_iff.1 h
      obtain ⟨adt, -, h⟩ := Option.bind_eq_some_iff.1 h
      exact .of_constructorFor? hst h

theorem inferred_of_readTys? (hst : st.Reachable) {vs : List Value} {ts : List Ty}
    (h : readTys? st m vs = some ts) : ∀ t ∈ ts, t.Inferred st m := by
  intro t ht
  obtain ⟨v, -, hvt⟩ := exists_of_forall₂_right (readTys?_eq_some.1 h) t ht
  exact inferred_of_readTy? hst hvt

/-! ### Types read back, up to their structures -/

/-- The value is read back with a type of the structure of `t`. -/
def ReadsTo (st : Store) (m : Manager) (v : Value) (t : Ty) : Prop :=
  ∃ u, v.readTy? st m = some u ∧ u.shape = t.shape

/-- The values are read back with types whose join has the structure of `t`. -/
def JoinsTo (st : Store) (m : Manager) (vs : List Value) (t : Ty) : Prop :=
  ∃ us, readTys? st m vs = some us ∧ (m.lubOf us).shape = t.shape

variable {t e k x : Ty} {c : Cell} {vs ws : List Value} {ts : List Ty}

theorem ReadsTo.of_shape_eq {v : Value} {u : Ty} (h : v.ReadsTo st m u) (hu : u.shape = t.shape) :
    v.ReadsTo st m t := by
  obtain ⟨w, hw, hwu⟩ := h
  exact ⟨w, hw, hwu.trans hu⟩

namespace ReadsTo

theorem exists_readTys? (h : List.Forall₂ (ReadsTo st m) vs ts) :
    ∃ us, readTys? st m vs = some us ∧ us.map Ty.shape = ts.map Ty.shape := by
  induction h with
  | nil => exact ⟨[], rfl, rfl⟩
  | cons hvt _ ih =>
    obtain ⟨u, hu, hshape⟩ := hvt
    obtain ⟨us, hus, hshapes⟩ := ih
    refine ⟨u :: us, ?_, by rw [List.map_cons, List.map_cons, hshape, hshapes]⟩
    rw [readTys?, hu, hus]
    rfl

protected theorem tuple (h : List.Forall₂ (ReadsTo st m) vs ts) :
    (tuple t c vs).ReadsTo st m (m.tuple ts) := by
  obtain ⟨us, hus, hshapes⟩ := exists_readTys? h
  exact ⟨m.tuple us, by rw [readTy?, hus]; rfl, Manager.shape_tuple_congr hshapes⟩

protected theorem list (h : JoinsTo st m vs e) : (list t c vs).ReadsTo st m (m.list e) := by
  obtain ⟨us, hus, hshape⟩ := h
  refine ⟨m.list (m.lubOf us), by rw [readTy?, hus]; rfl, ?_⟩
  rw [Manager.list, Manager.list, Ty.shape, Ty.shape, hshape]

protected theorem set {es : Table Value Unit} (h : JoinsTo st m es.keys e) :
    (set t c es).ReadsTo st m (m.set e) := by
  obtain ⟨us, hus, hshape⟩ := h
  exact ⟨m.set (m.lubOf us), by rw [readTy?_set, hus]; rfl, Manager.shape_set_congr hshape⟩

protected theorem map {es : Table Value Value} (hk : JoinsTo st m es.keys k)
    (hx : JoinsTo st m es.values x) : (map t c es).ReadsTo st m (m.map k x) := by
  obtain ⟨ks, hks, hkshape⟩ := hk
  obtain ⟨xs, hxs, hxshape⟩ := hx
  refine ⟨m.map (m.lubOf ks) (m.lubOf xs), by rw [readTy?_map, hks, hxs]; rfl, ?_⟩
  rw [Manager.map, Manager.map, Ty.shape, Ty.shape, hkshape, hxshape]

protected theorem node {n : String} (h : List.Forall₂ (ReadsTo st m) vs ts) :
    (node t c n vs).ReadsTo st m m.node := by
  obtain ⟨us, hus, -⟩ := exists_readTys? h
  exact ⟨m.node, by rw [readTy?, hus]; rfl, rfl⟩

protected theorem constructor {u : Ty} (h : List.Forall₂ (ReadsTo st m) vs ts)
    (hu : overload? st t ts = some u) : (constructor t c vs).ReadsTo st m u := by
  obtain ⟨us, hus, hshapes⟩ := exists_readTys? h
  refine ⟨u, ?_, rfl⟩
  rw [readTy?, hus, Option.bind_some, overload?_congr hshapes, hu]

end ReadsTo

namespace JoinsTo

/-- Values read back to given types, each of them, have the join of these types. -/
theorem of_matching (hst : st.Reachable) (hts : ∀ t ∈ ts, t.Inferred st m)
    (h : ∀ v ∈ vs, ∃ t ∈ ts, v.ReadsTo st m t) (h' : ∀ t ∈ ts, ∃ v ∈ vs, v.ReadsTo st m t) :
    JoinsTo st m vs (m.lubOf ts) := by
  have hsome : (readTys? st m vs).isSome = true := isSome_readTys?.2 fun v hv => by
    obtain ⟨t, -, u, hu, -⟩ := h v hv
    exact Option.isSome_of_eq_some hu
  obtain ⟨us, hus⟩ := Option.isSome_iff_exists.1 hsome
  have hreads := readTys?_eq_some.1 hus
  refine ⟨us, hus, Manager.shape_lubOf_congr hst (inferred_of_readTys? hst hus) hts ?_ ?_⟩
  · intro u hu
    obtain ⟨v, hv, hvu⟩ := exists_of_forall₂_right hreads u hu
    obtain ⟨t, ht, u', hu', hshape⟩ := h v hv
    obtain rfl := Option.some.inj (hvu.symm.trans hu')
    exact ⟨t, ht, hshape.symm⟩
  · intro t ht
    obtain ⟨v, hv, u, hu, hshape⟩ := h' t ht
    obtain ⟨u', hu', hvu⟩ := exists_of_forall₂_right hreads.flip v hv
    obtain rfl := Option.some.inj (hvu.symm.trans hu)
    exact ⟨u', hu', hshape.symm⟩

theorem of_forall₂ (hst : st.Reachable) (hts : ∀ t ∈ ts, t.Inferred st m)
    (h : List.Forall₂ (ReadsTo st m) vs ts) : JoinsTo st m vs (m.lubOf ts) :=
  of_matching hst hts (exists_of_forall₂_right h.flip) (exists_of_forall₂_right h)

/-- Types below the join of others do not change it. -/
theorem of_bound (hst : st.Reachable) (h : JoinsTo st m vs (m.lubOf ts)) {us : List Ty}
    (hts : ∀ t ∈ ts, t.Inferred st m) (hus : ∀ u ∈ us, u.Inferred st m) (hsub : ts ⊆ us)
    (hbound : ∀ u ∈ us, u.isSubtypeOf (m.lubOf ts) = true) : JoinsTo st m vs (m.lubOf us) := by
  obtain ⟨ws, hws, hshape⟩ := h
  refine ⟨ws, hws, hshape.trans (Manager.shape_lubOf_eq hst hts hus (fun t ht => ?_) hbound)⟩
  exact Manager.isSubtypeOf_lubOf (fun u hu => (hus u hu).wellFormed hst) t (hsub ht)

end JoinsTo

/-! ### The same values -/

/-- Values that the values of a sequence are the same as are read back to the same types. -/
theorem readsTo_of_forall₂ {R : Value → Value → Prop} (h : List.Forall₂ R vs ws)
    (ih : ∀ v ∈ vs, ∀ w ∈ ws, R v w → ∀ t, v.readTy? st m = some t → w.ReadsTo st m t)
    (hts : readTys? st m vs = some ts) : List.Forall₂ (ReadsTo st m) ws ts := by
  have hreads := readTys?_eq_some.1 hts
  clear hts
  induction h generalizing ts with
  | nil =>
    cases hreads
    exact .nil
  | cons hvw hrest ihrest =>
    cases hreads with
    | cons ht hts =>
      refine .cons (ih _ List.mem_cons_self _ List.mem_cons_self hvw _ ht) (ihrest ?_ hts)
      exact fun v hv w hw => ih v (.tail _ hv) w (.tail _ hw)

/-- The same for one side of the entries of two tables, in any order. -/
theorem joinsTo_of_matches {ν : Type} (hst : st.Reachable) {es fs : Table Value ν}
    {R : Value × ν → Value × ν → Prop} (g : Value × ν → Value) (h : es.Matches R fs)
    (ih : ∀ e ∈ es.toList, ∀ f ∈ fs.toList, R e f →
      ∀ t, (g e).readTy? st m = some t → (g f).ReadsTo st m t)
    (hts : readTys? st m (es.toList.map g) = some ts) :
    JoinsTo st m (fs.toList.map g) (m.lubOf ts) := by
  have hreads := List.forall₂_map_left_iff.1 (readTys?_eq_some.1 hts)
  refine .of_matching hst (inferred_of_readTys? hst hts) (List.forall_mem_map.2 fun f hf => ?_) ?_
  · obtain ⟨e, he, hef⟩ := h.2 f hf
    obtain ⟨t, ht, het⟩ := exists_of_forall₂_right hreads.flip e he
    exact ⟨t, ht, ih e he f hf hef t het⟩
  · intro t ht
    obtain ⟨e, he, het⟩ := exists_of_forall₂_right hreads t ht
    obtain ⟨f, hf, hef⟩ := h.1 e he
    exact ⟨g f, List.mem_map_of_mem hf, ih e he f hf hef t het⟩

/-- The same values are read back with types of one structure. -/
theorem readsTo_of_same (hst : st.Reachable) {v w : Value} (hv : v.Sound) (hw : w.Sound)
    (h : v.same w = true) (ht : v.readTy? st m = some t) : w.ReadsTo st m t := by
  induction v using parts_induction generalizing w t with
  | h v ih =>
    have ih : ∀ p ∈ v.parts, ∀ q ∈ w.parts, p.same q = true →
        ∀ t, p.readTy? st m = some t → q.ReadsTo st m t := fun p hp q hq hpq t ht =>
      ih p hp (hv.part hp) (hw.part hq) hpq ht
    have hagrees := (same_iff_agrees hv hw).1 h
    unfold Agrees at hagrees
    split at hagrees
    · exact ⟨t, ht, rfl⟩
    · exact ⟨t, ht, rfl⟩
    · exact ⟨t, ht, rfl⟩
    · exact ⟨t, ht, rfl⟩
    · exact ⟨t, ht, rfl⟩
    · rw [readTy?] at ht
      obtain ⟨ts, hts, rfl⟩ := Option.map_eq_some_iff.1 ht
      exact .tuple (readsTo_of_forall₂ hagrees ih hts)
    · rw [readTy?] at ht
      obtain ⟨ts, hts, rfl⟩ := Option.map_eq_some_iff.1 ht
      exact .list (.of_forall₂ hst (inferred_of_readTys? hst hts)
        (readsTo_of_forall₂ hagrees ih hts))
    · rw [readTy?_set] at ht
      obtain ⟨ts, hts, rfl⟩ := Option.map_eq_some_iff.1 ht
      refine .set (joinsTo_of_matches hst Prod.fst hagrees (fun e he f hf => ?_) hts)
      exact ih _ (List.mem_map_of_mem he) _ (List.mem_map_of_mem hf)
    · rw [readTy?_map] at ht
      obtain ⟨ks, hks, ht⟩ := Option.bind_eq_some_iff.1 ht
      obtain ⟨xs, hxs, rfl⟩ := Option.map_eq_some_iff.1 ht
      refine .map (joinsTo_of_matches hst Prod.fst hagrees (fun e he f hf hef => ?_) hks)
        (joinsTo_of_matches hst Prod.snd hagrees (fun e he f hf hef => ?_) hxs)
      · exact ih _ (parts_of_entry he).1 _ (parts_of_entry hf).1 hef.1
      · exact ih _ (parts_of_entry he).2 _ (parts_of_entry hf).2 hef.2
    · rw [readTy?] at ht
      obtain ⟨ts, hts, rfl⟩ := Option.map_eq_some_iff.1 ht
      exact .node (readsTo_of_forall₂ hagrees.2 ih hts)
    · rw [readTy?] at ht
      obtain ⟨ts, hts, hu⟩ := Option.bind_eq_some_iff.1 ht
      obtain ⟨ha, hn, hvs⟩ := hagrees
      refine .constructor (readsTo_of_forall₂ hvs ih hts) ?_
      rw [← hu, overload?, overload?, ha, hn]
    · exact hagrees.elim

end Value

end ValueAlgebra
