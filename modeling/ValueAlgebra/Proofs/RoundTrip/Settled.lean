import ValueAlgebra.Proofs.RoundTrip.Alike
import ValueAlgebra.Proofs.RoundTrip.Built

/-!
# Texts that keep the types of what they lose

The type of a value that is read bounds everything written in its text, also elements and keys
that are equal to earlier ones and the values of keys that are repeated later. Elements and keys
that are lost are the same as ones that stay, and so are read to types of the same structures. Only
a value that a later one replaces may have a type of its own. A text is settled if no map in it
loses the type of a value, and what a settled text is read as keeps its type when it is read back.

## Main definitions

- `Derivation.Settled`: what maps lose is below the join of what they keep
-/

namespace ValueAlgebra

namespace Table

variable {ν : Type} {t : Table Value ν} {k k' : Value} {x : ν}

theorem mem_keys_put_of_mem (h : k' ∈ t.keys) : k' ∈ (t.put k x).keys := by
  unfold put
  cases hp : t.position? k.hash (k == ·) with
  | some i => rwa [keys_insert_of_some hp]
  | none =>
    rw [keys_insert_of_none hp]
    exact List.mem_append_left _ h

/-- A key is put into a table or has an equal one there. -/
theorem exists_mem_keys_put (ht : t.Indexed Value.hash) :
    ∃ k' ∈ (t.put k x).keys, k' = k ∨ (k == k') = true := by
  unfold put
  cases hp : t.position? k.hash (k == ·) with
  | some i =>
    obtain ⟨e, he, -, hk⟩ := ht.of_position?_eq_some hp
    rw [keys_insert_of_some hp]
    exact ⟨e.1, List.mem_map_of_mem (Array.mem_toList_iff.2 (Array.mem_of_getElem? he)), .inr hk⟩
  | none =>
    rw [keys_insert_of_none hp]
    exact ⟨k, List.mem_append_right _ (List.mem_singleton_self k), .inl rfl⟩

theorem mem_keys_foldl_put {es : List (Value × ν)} : ∀ {t : Table Value ν}, k ∈ t.keys →
    k ∈ (es.foldl (fun t e => t.put e.1 e.2) t).keys := by
  induction es with
  | nil => exact id
  | cons e es ih => exact fun h => ih (mem_keys_put_of_mem h)

theorem exists_mem_keys_foldl_put {es : List (Value × ν)} : ∀ {t : Table Value ν},
    t.Indexed Value.hash → ∀ e ∈ es, ∃ k ∈ (es.foldl (fun t e => t.put e.1 e.2) t).keys,
      k = e.1 ∨ (e.1 == k) = true := by
  induction es with
  | nil => exact fun _ => List.forall_mem_nil _
  | cons e es ih =>
    intro t ht
    refine List.forall_mem_cons.2 ⟨?_, ih (t := t.put e.1 e.2) (ht.insert e.1 e.2)⟩
    obtain ⟨k, hk, heq⟩ := exists_mem_keys_put ht
    exact ⟨k, mem_keys_foldl_put (t := t.put e.1 e.2) hk, heq⟩

end Table

namespace Session.Coherent

variable {s : Session} {ws : List Value} {xs : List (Value × Value)}

/-- A key found in place of another is the same. -/
theorem same_of_key (hc : s.Coherent) {v k : Value} (hv : s.Has v) (hk : s.Has k)
    (h : k = v ∨ (v == k) = true) : v.same k = true := by
  rcases h with rfl | h
  · exact Value.same_refl (hc.sound hk)
  · exact (hc.beq_iff_same hv hk).1 h

/-- Every element goes into the set, or the same one is there. -/
theorem exists_key_ofValues (hc : s.Coherent) (hws : ∀ w ∈ ws, s.Has w) :
    ∀ w ∈ ws, ∃ k ∈ (Table.ofValues ws).keys, w.same k = true := by
  intro w hw
  have hfold : Table.ofValues ws = (ws.map (·, ())).foldl (fun t e => t.put e.1 e.2) ∅ := by
    rw [List.foldl_map]
    rfl
  obtain ⟨k, hk, heq⟩ := Table.exists_mem_keys_foldl_put (Table.indexed_empty _) (w, ())
    (List.mem_map_of_mem (f := (·, ())) hw)
  rw [← hfold] at hk
  exact ⟨k, hk, hc.same_of_key (hws w hw) (hws k (Table.mem_of_mem_keys_ofValues hk)) heq⟩

theorem exists_key_ofEntries (hc : s.Coherent) (hxs : ∀ x ∈ xs, s.HasEntry x) :
    ∀ k ∈ xs.map Prod.fst, ∃ k' ∈ (Table.ofEntries xs).keys, k.same k' = true := by
  refine List.forall_mem_map.2 fun x hx => ?_
  obtain ⟨k, hk, heq⟩ := Table.exists_mem_keys_foldl_put (Table.indexed_empty _) x hx
  obtain ⟨y, hy, hyk⟩ := List.mem_map.1 (Table.mem_of_mem_keys_ofEntries hk)
  exact ⟨k, hk, hc.same_of_key (hxs x hx).1 (hyk ▸ (hxs y hy).1) heq⟩

end Session.Coherent

/-- No map in the text gets its type from a value that a later one replaces. -/
inductive Derivation.Settled (r : Reader) (m : Manager) : Derivation → Prop
  | scalar (sc : Scalar) : Settled r m (.scalar sc)
  | bracket (b : Bracket) {ds : List Derivation} (h : ∀ d ∈ ds, Settled r m d) :
    Settled r m (.bracket b ds)
  | map {es : List (Derivation × Derivation)} (hk : ∀ e ∈ es, Settled r m e.1)
    (hx : ∀ e ∈ es, Settled r m e.2)
    (h : ∀ c xs n, buildEntries r m es c = .ok (xs, n) → ∀ x ∈ xs,
      x.2.ty.isSubtypeOf (m.lubOf ((Table.ofEntries xs).values.map Value.ty)) = true) :
    Settled r m (.map es)

namespace Value

variable {st : Store} {m : Manager} {s : Session} {v : Value} {ws : List Value} {c : Cell}

/-- The value is read back with a type of the structure of its own, which a reader infers. -/
structure KeepsType (st : Store) (m : Manager) (v : Value) : Prop where
  inferred : v.ty.Inferred st m
  reads : v.ReadsTo st m v.ty

namespace KeepsType

theorem inferred_types (h : ∀ w ∈ ws, w.KeepsType st m) :
    ∀ t ∈ ws.map Value.ty, t.Inferred st m :=
  List.forall_mem_map.2 fun w hw => (h w hw).inferred

theorem readsTo_types (h : ∀ w ∈ ws, w.KeepsType st m) :
    List.Forall₂ (ReadsTo st m) ws (ws.map Value.ty) := by
  rw [List.forall₂_map_right_iff, List.forall₂_same]
  exact fun w hw => (h w hw).reads

/-- Elements that are the same as others do not change the join. -/
theorem joinsTo (hst : st.Reachable) (hc : s.Coherent) (hws : ∀ w ∈ ws, s.Has w)
    (h : ∀ w ∈ ws, w.KeepsType st m) {ks : List Value} (hks : ks ⊆ ws)
    (hkept : ∀ w ∈ ws, ∃ k ∈ ks, w.same k = true) :
    JoinsTo st m ks (m.lubOf (ws.map Value.ty)) := by
  refine .of_matching hst (inferred_types h) (fun k hk => ?_) (List.forall_mem_map.2 fun w hw => ?_)
  · exact ⟨k.ty, List.mem_map_of_mem (hks hk), (h k (hks hk)).reads⟩
  · obtain ⟨k, hk, hsame⟩ := hkept w hw
    obtain ⟨t, ht, hshape⟩ := (h w hw).reads
    have hread := readsTo_of_same hst (hc.sound (hws w hw)) (hc.sound (hws k (hks hk))) hsame ht
    exact ⟨k, hk, hread.of_shape_eq hshape⟩

theorem scalar {sc : Scalar} (h : sc.value m c = .ok v) : v.KeepsType st m := by
  rcases sc.value_cases h with ⟨i, rfl⟩ | ⟨x, rfl⟩ | ⟨b, rfl⟩ | ⟨t, rfl⟩ | ⟨p, x, rfl⟩
  all_goals exact ⟨.basic _, _, rfl, rfl⟩

theorem bracket (hst : st.Reachable) (hc : s.Coherent) (hws : ∀ w ∈ ws, s.Has w)
    (h : ∀ w ∈ ws, w.KeepsType st m) {b : Bracket} (hb : b.Closes st m s.next ws v) :
    v.KeepsType st m := by
  have hinf := inferred_types h
  cases hb with
  | tuple => exact ⟨.tupleOf hinf, .tuple (readsTo_types h)⟩
  | list =>
    exact ⟨.list (Manager.inferred_lubOf hst hinf), .list (.of_forall₂ hst hinf (readsTo_types h))⟩
  | set =>
    refine ⟨.setOf (Manager.inferred_lubOf hst hinf), .set ?_⟩
    exact joinsTo hst hc hws h (fun _ => Table.mem_of_mem_keys_ofValues)
      (hc.exists_key_ofValues hws)
  | node n => exact ⟨.basic _, .node (readsTo_types h)⟩
  | @constructor a n adt t hadt ht =>
    refine ⟨.of_constructorFor? hst ht, .constructor (readsTo_types h) ?_⟩
    obtain ⟨ha, hn⟩ := hst.consistent.names_of_constructorFor? hadt ht
    rw [overload?, ha, hn, Option.getD_some, Option.getD_some, hadt, Option.bind_some, ht]
    rfl

theorem map (hst : st.Reachable) (hc : s.Coherent) {xs : List (Value × Value)}
    (hhas : ∀ x ∈ xs, s.HasEntry x) (hk : ∀ k ∈ xs.map Prod.fst, k.KeepsType st m)
    (hx : ∀ x ∈ xs.map Prod.snd, x.KeepsType st m)
    (hbound : ∀ x ∈ xs, x.2.ty.isSubtypeOf
      (m.lubOf ((Table.ofEntries xs).values.map Value.ty)) = true) :
    (Build.map m c xs).KeepsType st m := by
  have hkty : xs.map (fun e => e.1.ty) = (xs.map Prod.fst).map Value.ty := by simp
  have hxty : xs.map (fun e => e.2.ty) = (xs.map Prod.snd).map Value.ty := by simp
  have hkept : ∀ x ∈ (Table.ofEntries xs).values, x.KeepsType st m := fun x h =>
    hx x (Table.mem_of_mem_values_ofEntries h)
  have hjoin := JoinsTo.of_forall₂ hst (inferred_types hkept) (readsTo_types hkept)
  unfold Build.map
  rw [hkty, hxty]
  refine ⟨.map (Manager.inferred_lubOf hst (inferred_types hk))
    (Manager.inferred_lubOf hst (inferred_types hx)), .map ?_ ?_⟩
  · exact joinsTo hst hc (List.forall_mem_map.2 fun x h => (hhas x h).1) hk
      (fun _ => Table.mem_of_mem_keys_ofEntries) (hc.exists_key_ofEntries hhas)
  · refine hjoin.of_bound hst (inferred_types hkept) (inferred_types hx) ?_
      (List.forall_mem_map.2 (List.forall_mem_map.2 hbound))
    exact List.map_subset _ fun _ => Table.mem_of_mem_values_ofEntries

end KeepsType

/-- What a settled text is read as keeps its type. -/
theorem inherits_keepsType (r : Reader) (hst : st.Reachable) :
    Derivation.Inherits r st m fun d v => d.Settled r m → v.KeepsType st m where
  scalar h _ := .scalar h
  bracket hc hhas hws hclose hsettled := by
    cases hsettled with
    | bracket _ hds =>
      refine .bracket hst hc hhas (fun w hw => ?_) hclose
      obtain ⟨d, hd, h⟩ := exists_of_forall₂_right hws w hw
      exact h (hds d hd)
  map hc hhas hbuild hxs hsettled := by
    cases hsettled with
    | map hk hx hbound =>
      refine .map hst hc hhas (List.forall_mem_map.2 fun x h => ?_)
        (List.forall_mem_map.2 fun x h => ?_) (hbound _ _ _ hbuild)
      · obtain ⟨e, he, hex⟩ := exists_of_forall₂_right hxs x h
        exact hex.1 (hk e he)
      · obtain ⟨e, he, hex⟩ := exists_of_forall₂_right hxs x h
        exact hex.2 (hx e he)

end Value

end ValueAlgebra
