import ValueAlgebra.Proofs.Session.Admits
import ValueAlgebra.Proofs.Store.Construction

/-!
# What builders make

Each builder that types a value at once makes a value that the session admits. Inferred types
bound the elements since `Manager.lubOf` is an upper bound, and declared ones since they were
checked.
-/

namespace ValueAlgebra

namespace Ty

theorem wellFormed_tupleOf (m : Manager) {types : List Ty} (h : ∀ t ∈ types, t.WellFormed) :
    (m.tuple types).WellFormed := by
  refine .tuple _ fun f hf => ?_
  obtain ⟨t, ht, rfl⟩ := List.mem_map.1 hf
  exact h t ht

/-- Sets of a type, where sets of tuples are relations. -/
theorem setOf_eq (m : Manager) (e : Ty) : ∃ o, (m.set e = .set o e ∧ e.isTuple = false) ∨
    (m.set e = .relation o e ∧ e.isTuple = true) := by
  refine ⟨m.origin, ?_⟩
  unfold Manager.set
  split
  · next h => exact .inr ⟨rfl, h⟩
  · next h => exact .inl ⟨rfl, by simpa using h⟩

end Ty

namespace Session

variable {s : Session} {m : Manager} {items : List Value}

/-- Typed by the forms that a set may have. -/
theorem wellTyped_set {t e : Ty} {c : Cell} {es : Table Value Unit} {o : Origin}
    (ht : t.unalias = .set o e ∧ e.isTuple = false ∨ t.unalias = .relation o e ∧ e.isTuple = true)
    (h : ∀ v ∈ es.keys, v.ty.isSubtypeOf e = true) : (Value.set t c es).WellTyped :=
  ⟨o, e, ht, h⟩

theorem wellTyped_setOf {e : Ty} {c : Cell} {es : Table Value Unit}
    (h : ∀ v ∈ es.keys, v.ty.isSubtypeOf e = true) : (Value.set (m.set e) c es).WellTyped := by
  obtain ⟨o, ⟨he, ht⟩ | ⟨he, ht⟩⟩ := Ty.setOf_eq m e
  · exact wellTyped_set (.inl ⟨by rw [he]; rfl, ht⟩) h
  · exact wellTyped_set (.inr ⟨by rw [he]; rfl, ht⟩) h

section Joined

variable (hs : s.TypedValues) (h : ∀ v ∈ items, s.Has v)

include hs h

theorem wellFormed_types : ∀ t ∈ items.map Value.ty, t.WellFormed :=
  List.forall_mem_map.2 fun v hv => (hs v (h v hv)).2

theorem isSubtypeOf_lubOf_types :
    ∀ v ∈ items, v.ty.isSubtypeOf (m.lubOf (items.map Value.ty)) = true := fun _ hv =>
  Manager.isSubtypeOf_lubOf (wellFormed_types hs h) _ (List.mem_map_of_mem hv)

theorem wellFormed_lubOf_types : (m.lubOf (items.map Value.ty)).WellFormed :=
  Manager.lubOf_wellFormed (wellFormed_types hs h)

theorem admits_tuple : s.Admits (Build.tuple m s.next items) where
  typed := by
    refine ⟨m.origin, _, rfl, ?_⟩
    rw [List.map_map]
    exact Value.fits_self items
  wellFormed := Ty.wellFormed_tupleOf m (wellFormed_types hs h)
  parts := h
  filled := trivial
  stored _ hc := .inl (Option.some.inj hc).symm

theorem admits_list : s.Admits (Build.list m s.next items) where
  typed := ⟨m.origin, _, rfl, isSubtypeOf_lubOf_types hs h⟩
  wellFormed := .list _ (wellFormed_lubOf_types hs h)
  parts := h
  filled := trivial
  stored _ hc := .inl (Option.some.inj hc).symm

theorem admits_set : s.Admits (Build.set m s.next items) where
  typed := wellTyped_setOf fun v hv =>
    isSubtypeOf_lubOf_types hs h v (Table.mem_of_mem_keys_ofValues hv)
  wellFormed := .setOf m (wellFormed_lubOf_types hs h)
  parts v hv := h v (Table.mem_of_mem_keys_ofValues hv)
  filled := Table.grown_ofValues _ h
  stored _ hc := .inl (Option.some.inj hc).symm

/-- A relation type over elements below `elem`. If nothing can be below it there are none. -/
theorem relationType_eq_ok {elem t : Ty} (he : elem.WellFormed)
    (ht : Build.relationType m elem = .ok t) (hvs : ∀ v ∈ items, v.ty.isSubtypeOf elem = true) :
    t.WellFormed ∧ ∃ o e, t = .relation o e ∧ e.isTuple = true ∧
      ∀ v ∈ items, v.ty.isSubtypeOf e = true := by
  unfold Build.relationType at ht
  split at ht
  · next hvoid =>
    obtain rfl := Except.ok.inj ht
    -- Over `void` the row becomes the empty tuple, and no value is below `void`.
    refine ⟨.relation _ rfl (.tuple _ nofun), m.origin, m.tuple [], rfl, rfl, fun v hv => ?_⟩
    have hnone := (hs v (h v hv)).1.not_isSubtypeOf_void hvoid
    exact nomatch hnone.symm.trans (hvs v hv)
  · obtain ⟨htuple, rfl⟩ := Ty.relationOver_eq_ok.1 ht
    exact ⟨.relation _ htuple he, m.origin, elem, rfl, htuple, hvs⟩

theorem admits_relation {v : Value} (hv : Build.relation m s.next items = .ok v) :
    s.Admits v := by
  unfold Build.relation at hv
  split at hv
  · cases hv
  obtain ⟨t, ht, hv⟩ := bind_eq_ok.1 hv
  obtain rfl := pure_eq_ok.1 hv
  obtain ⟨hwf, o, e, rfl, he, hvs⟩ := relationType_eq_ok hs h (wellFormed_lubOf_types hs h) ht
    (isSubtypeOf_lubOf_types hs h)
  refine ⟨?_, hwf, fun v hv => h v (Table.mem_of_mem_keys_ofValues hv), Table.grown_ofValues _ h,
    fun _ hc => .inl (Option.some.inj hc).symm⟩
  exact wellTyped_set (.inr ⟨rfl, he⟩) fun v hv => hvs v (Table.mem_of_mem_keys_ofValues hv)

end Joined

theorem admits_node (h : ∀ v ∈ items, s.Has v) (name : String) :
    s.Admits (Build.node m s.next name items) where
  typed := rfl
  wellFormed := .basic _ _
  parts := h
  filled := trivial
  stored _ hc := .inl (Option.some.inj hc).symm

theorem admits_map {entries : List (Value × Value)} (hs : s.TypedValues)
    (h : ∀ e ∈ entries, s.HasEntry e) : s.Admits (Build.map m s.next entries) := by
  have hks : ∀ k ∈ entries.map Prod.fst, s.Has k := List.forall_mem_map.2 fun e he => (h e he).1
  have hxs : ∀ x ∈ entries.map Prod.snd, s.Has x := List.forall_mem_map.2 fun e he => (h e he).2
  have hkty : entries.map (fun e => e.1.ty) = (entries.map Prod.fst).map Value.ty := by simp
  have hxty : entries.map (fun e => e.2.ty) = (entries.map Prod.snd).map Value.ty := by simp
  unfold Build.map
  rw [hkty, hxty]
  refine ⟨⟨m.origin, _, _, rfl, fun k hk => ?_, fun x hx => ?_⟩, ?_, fun p hp => ?_,
    Table.grown_ofEntries _ h, fun _ hc => .inl (Option.some.inj hc).symm⟩
  · exact isSubtypeOf_lubOf_types hs hks k (Table.mem_of_mem_keys_ofEntries hk)
  · exact isSubtypeOf_lubOf_types hs hxs x (Table.mem_of_mem_values_ofEntries hx)
  · exact .map _ (wellFormed_lubOf_types hs hks) (wellFormed_lubOf_types hs hxs)
  · rcases List.mem_append.1 hp with hp | hp
    · exact hks p (Table.mem_of_mem_keys_ofEntries hp)
    · exact hxs p (Table.mem_of_mem_values_ofEntries hp)

/-! ### Constructors -/

theorem checkFields_eq_ok {ty : Ty} {fs : List (Field Ty)} :
    Build.checkFields ty fs items = .ok () ↔ Value.Fits items fs := by
  -- The check runs over fields and values, `Fits` relates values and fields.
  have hflip : Value.Fits items fs ↔
      List.Forall₂ (fun f v => v.ty.isSubtypeOf f.ty = true) fs items :=
    ⟨List.Forall₂.flip, List.Forall₂.flip⟩
  rw [hflip, List.forall₂_iff_zip]
  unfold Build.checkFields
  split
  · next hlen => exact ⟨nofun, fun h => (hlen h.1).elim⟩
  · next hlen =>
    split
    · next f c hfind =>
      refine ⟨nofun, fun h => ?_⟩
      have hbad := List.find?_some hfind
      rw [h.2 (List.mem_of_find?_eq_some hfind)] at hbad
      cases hbad
    · next hfind =>
      refine ⟨fun _ => ⟨Decidable.not_not.1 hlen, fun {f c} hfc => ?_⟩, fun _ => rfl⟩
      simpa using List.find?_eq_none.1 hfind (f, c) hfc

/-- A constructor type is applied exactly to the children that fit its fields. -/
theorem constructor_eq_ok {ty : Ty} {c : Cell} {v : Value} :
    Build.constructor c ty items = .ok v ↔
      (∃ o a n fs, ty.unalias = .constructor o a n fs ∧ Value.Fits items fs) ∧
        .constructor ty c items = v := by
  unfold Build.constructor
  split
  · next o a n fs hty =>
    constructor
    · intro hv
      obtain ⟨⟨⟩, hfs, hv⟩ := bind_eq_ok.1 hv
      exact ⟨⟨o, a, n, fs, hty, checkFields_eq_ok.1 hfs⟩, pure_eq_ok.1 hv⟩
    · rintro ⟨⟨_, _, _, _, hty', hfs⟩, rfl⟩
      obtain ⟨-, -, -, rfl⟩ := Ty.constructor.inj (hty.symm.trans hty')
      exact bind_eq_ok.2 ⟨(), checkFields_eq_ok.2 hfs, rfl⟩
  · next hne =>
    refine ⟨nofun, ?_⟩
    rintro ⟨⟨o, a, n, fs, hty, -⟩, -⟩
    exact (hne o a n fs hty).elim

theorem admits_constructor {ty : Ty} {v : Value} (ht : ty.WellFormed) (h : ∀ v ∈ items, s.Has v)
    (hv : Build.constructor s.next ty items = .ok v) : s.Admits v := by
  obtain ⟨hfits, rfl⟩ := constructor_eq_ok.1 hv
  exact ⟨hfits, ht, h, trivial, fun _ hc => .inl (Option.some.inj hc).symm⟩

theorem admits_construct {st : Store} {adt : Ty} {name : String} {v : Value} (hst : st.Reachable)
    (h : ∀ v ∈ items, s.Has v) (hv : Build.construct st s.next adt name items = .ok v) :
    s.Admits v := by
  obtain ⟨c, hc, rfl⟩ := Build.construct_eq_ok.1 hv
  obtain ⟨hmem, o, a, fs, rfl, hargs⟩ := Store.constructorFor?_eq_some hc
  exact ⟨⟨o, a, name, fs, rfl, Value.fits_iff_allBelow.2 hargs⟩,
    hst.wellFormed_of_mem_constructorsOf hmem, h, trivial,
    fun _ hc => .inl (Option.some.inj hc).symm⟩

/-! ### Empty collections and maps with a new entry -/

theorem admits_emptyList {elem : Ty} (h : elem.WellFormed) :
    s.Admits (Build.emptyList m s.next elem) where
  typed := ⟨m.origin, elem, rfl, nofun⟩
  wellFormed := .list _ h
  parts := nofun
  filled := trivial
  stored _ hc := .inl (Option.some.inj hc).symm

theorem admits_emptySet {elem : Ty} (h : elem.WellFormed) :
    s.Admits (Build.emptySet m s.next elem) where
  typed := wellTyped_setOf nofun
  wellFormed := .setOf m h
  parts := nofun
  filled := .empty
  stored _ hc := .inl (Option.some.inj hc).symm

theorem admits_emptyMap {key val : Ty} (hk : key.WellFormed) (hv : val.WellFormed) :
    s.Admits (Build.emptyMap m s.next key val) where
  typed := ⟨m.origin, key, val, rfl, nofun, nofun⟩
  wellFormed := .map _ hk hv
  parts := nofun
  filled := .empty
  stored _ hc := .inl (Option.some.inj hc).symm

theorem admits_emptyRelation {row : Ty} {v : Value} (h : row.WellFormed)
    (hv : Build.emptyRelation m s.next row = .ok v) : s.Admits v := by
  obtain ⟨_, -, hv⟩ := bind_eq_ok.1 hv
  exact pure_eq_ok.1 hv ▸ admits_emptySet h

theorem widen_spec {t u : Ty} (ht : t.WellFormed) (hu : u.WellFormed) :
    (Build.widen m t u).WellFormed ∧ t.isSubtypeOf (Build.widen m t u) = true ∧
      u.isSubtypeOf (Build.widen m t u) = true := by
  unfold Build.widen
  split
  · next h => exact ⟨ht, Ty.isSubtypeOf_refl t, h⟩
  · have hj := Ty.lub_isJoin m t u ht hu
    exact ⟨hj.wellFormed, hj.left, hj.right⟩

theorem admits_put {v key val w : Value} (hs : s.TypedValues) (hv : s.Has v) (hk : s.Has key)
    (hx : s.Has val) (hw : Build.put m s.next v key val = .ok w) : s.Admits w := by
  cases v with
  | map t c entries =>
    obtain ⟨⟨o, k, x, ht, hks, hxs⟩, hwf⟩ := hs _ hv
    have hwf' := hwf.unalias
    rw [Value.ty, ht] at hwf'
    obtain ⟨hwk, hkk, hkey⟩ := widen_spec (m := m) hwf'.key_of_map (hs key hk).2
    obtain ⟨hwx, hxx, hval⟩ := widen_spec (m := m) hwf'.val_of_map (hs val hx).2
    have hkty : t.key?.getD m.void = k := by simp [Ty.key?, ht]
    have hxty : t.val?.getD m.void = x := by simp [Ty.val?, ht]
    simp only [Build.put, hkty, hxty] at hw
    obtain rfl := Except.ok.inj hw
    have hgrown : s.GrownMap (entries.put key val) := (Table.Grown.old ⟨t, c, hv⟩).put hk hx
    refine ⟨?_, ?_, fun p hp => ?_, hgrown, fun _ hc => .inl (Option.some.inj hc).symm⟩
    -- The type of the old map is kept only if neither side of it had to be widened.
    · have hty : ∃ o', Ty.unalias (if Build.widen m k key.ty = k ∧ Build.widen m x val.ty = x then t
          else m.map (Build.widen m k key.ty) (Build.widen m x val.ty)) =
          .map o' (Build.widen m k key.ty) (Build.widen m x val.ty) := by
        split
        · next h => exact ⟨o, by rw [h.1, h.2, ht]⟩
        · exact ⟨m.origin, rfl⟩
      obtain ⟨o', hty⟩ := hty
      refine ⟨o', _, _, hty, fun k' hk' => ?_, fun x' hx' => ?_⟩
      · rcases Table.mem_keys_put hk' with rfl | hk'
        · exact hkey
        · exact Ty.isSubtypeOf_trans (hks k' hk') hkk
      · rcases Table.mem_values_put hx' with rfl | hx'
        · exact hval
        · exact Ty.isSubtypeOf_trans (hxs x' hx') hxx
    · show Ty.WellFormed (if _ then _ else _)
      split
      · exact hwf
      · exact .map _ hwk hwx
    · rcases List.mem_append.1 hp with hp | hp
      · exact hgrown.keys p hp
      · exact hgrown.values p hp
  | _ => cases hw

end Session

end ValueAlgebra
