import ValueAlgebra.Proofs.Grammar.Texts
import ValueAlgebra.Proofs.RoundTrip.Rebuilding

/-!
# Reading the text of a value

The text of a value is read exactly if an overload is found for every constructor application in
it, and then what is read has the contents of the value.

## Main definitions

- `Value.Builds`: the derivation of a value can be built once all its overloads are found
-/

namespace ValueAlgebra

namespace Value

/-- The derivation of `v` can be built if `v` has a type to be read back with. -/
def Builds (r : Reader) (st : Store) (m : Manager) (v : Value) : Prop :=
  ∀ {s : Session}, s.TypedValues → s.Coherent → (v.readTy? st m).isSome = true →
    ∃ w n, v.derivation.build r m s.next = .ok (w, n)

variable {r : Reader} {st : Store} {m : Manager}

theorem exists_buildAll (hr : ∀ st ∈ r.store, st.Reachable) : ∀ {vs : List Value} {s : Session},
    (∀ v ∈ vs, Builds r st m v) → s.TypedValues → s.Coherent →
    (∀ v ∈ vs, (v.readTy? st m).isSome = true) →
    ∃ ws n, Derivation.buildAll r m (vs.map derivation) s.next = .ok (ws, n)
  | [], s, _, _, _, _ => ⟨[], s.next, rfl⟩
  | v :: vs, s, hvs, ht, hc, h => by
    obtain ⟨hv, hvs⟩ := List.forall_mem_cons.1 hvs
    obtain ⟨h, hs⟩ := List.forall_mem_cons.1 h
    obtain ⟨w, c, hw⟩ := hv ht hc h
    obtain ⟨s', hgrows, rfl, -⟩ := Session.build_grows hr _ ht hw
    obtain ⟨ws, n, hws⟩ := exists_buildAll hr hvs (hgrows.typedValues ht) (hgrows.coherent hc) hs
    exact ⟨w :: ws, n, Derivation.buildAll_cons_eq_ok.2 ⟨w, _, ws, hw, hws, rfl⟩⟩

theorem exists_buildEntries (hr : ∀ st ∈ r.store, st.Reachable) :
    ∀ {es : List (Value × Value)} {s : Session},
    (∀ e ∈ es, Builds r st m e.1 ∧ Builds r st m e.2) → s.TypedValues → s.Coherent →
    (∀ e ∈ es, (e.1.readTy? st m).isSome = true ∧ (e.2.readTy? st m).isSome = true) →
    ∃ xs n, Derivation.buildEntries r m (es.map fun e => (e.1.derivation, e.2.derivation)) s.next =
      .ok (xs, n)
  | [], s, _, _, _, _ => ⟨[], s.next, rfl⟩
  | (k, v) :: es, s, hes, ht, hc, h => by
    obtain ⟨⟨hk, hv⟩, hes⟩ := List.forall_mem_cons.1 hes
    obtain ⟨⟨hsk, hsv⟩, hs⟩ := List.forall_mem_cons.1 h
    obtain ⟨key, _, hkey⟩ := hk ht hc hsk
    obtain ⟨s₁, hg₁, rfl, -⟩ := Session.build_grows hr _ ht hkey
    have ht₁ := hg₁.typedValues ht
    have hc₁ := hg₁.coherent hc
    obtain ⟨val, _, hval⟩ := hv ht₁ hc₁ hsv
    obtain ⟨s₂, hg₂, rfl, -⟩ := Session.build_grows hr _ ht₁ hval
    obtain ⟨xs, n, hxs⟩ := exists_buildEntries hr hes (hg₂.typedValues ht₁) (hg₂.coherent hc₁) hs
    exact ⟨(key, val) :: xs, n,
      Derivation.buildEntries_cons_eq_ok.2 ⟨key, _, val, _, xs, hkey, hval, hxs, rfl⟩⟩

theorem exists_build_scalar {v : Value} {sc : Scalar} {c : Cell}
    (hv : v.derivation = .scalar sc) : ∃ w n, v.derivation.build r m c = .ok (w, n) := by
  obtain ⟨x, hx, -⟩ : ∃ x, sc.value m c = .ok x ∧ v.ReadsAs ∅ m x := exists_readsAs_of_scalar hv c
  rw [hv]
  exact ⟨x, _, Derivation.build_scalar_eq_ok.2 ⟨hx, rfl⟩⟩

/-- A bracket whose children can be built, whose name is known and that takes the children. -/
theorem exists_build_bracket {v w : Value} {b : Bracket} {vs ws : List Value} {o : Opening}
    {c c' : Cell} (hv : v.derivation = .bracket b (vs.map derivation))
    (hws : Derivation.buildAll r m (vs.map derivation) c = .ok (ws, c'))
    (ho : b.resolve r = .ok o) (hw : o.close m c' ws = .ok w) :
    ∃ w n, v.derivation.build r m c = .ok (w, n) := by
  rw [hv]
  exact ⟨w, _, Derivation.build_bracket_eq_ok.2 ⟨o, ws, c', ho, hws, hw, rfl⟩⟩

/-- The same for a map, once its keys and its values have types. -/
theorem exists_build_map (hr : ∀ st ∈ r.store, st.Reachable) {t : Ty} {c : Cell}
    {es : Table Value Value} (ih : ∀ p ∈ (map t c es).parts, Builds r st m p) {s : Session}
    (ht : s.TypedValues) (hc : s.Coherent) (h : ((map t c es).readTy? st m).isSome = true) :
    ∃ w n, (map t c es).derivation.build r m s.next = .ok (w, n) := by
  obtain ⟨u, hu⟩ := Option.isSome_iff_exists.1 h
  rw [readTy?_map] at hu
  obtain ⟨ks, hks, hu⟩ := Option.bind_eq_some_iff.1 hu
  obtain ⟨xs, hxs, -⟩ := Option.map_eq_some_iff.1 hu
  have hkeys := isSome_readTys?.1 (Option.isSome_of_eq_some hks)
  have hvals := isSome_readTys?.1 (Option.isSome_of_eq_some hxs)
  have hes : ∀ e ∈ es.toList, (e.1.readTy? st m).isSome = true ∧
      (e.2.readTy? st m).isSome = true := fun e he =>
    ⟨hkeys _ (List.mem_map_of_mem he), hvals _ (List.mem_map_of_mem he)⟩
  have hbuilds : ∀ e ∈ es.toList, Builds r st m e.1 ∧ Builds r st m e.2 := fun e he =>
    ⟨ih _ (parts_of_entry he).1, ih _ (parts_of_entry he).2⟩
  obtain ⟨xs, n, hxs⟩ := exists_buildEntries hr hbuilds ht hc hes
  rw [derivation_map]
  exact ⟨_, _, Derivation.build_map_eq_ok.2 ⟨xs, n, hxs, rfl, rfl⟩⟩

/-- The overload that gave an application its type is found again for the arguments as built. -/
theorem exists_build_constructor (hstore : r.store = some st) {t : Ty} {c c' : Cell} {d : Cell}
    {vs ws : List Value} (h : ((constructor t c vs).readTy? st m).isSome = true)
    (hws : Derivation.buildAll r m (vs.map derivation) d = .ok (ws, c'))
    (hreads : List.Forall₂ (ReadsAs st m) vs ws) :
    ∃ w n, (constructor t c vs).derivation.build r m d = .ok (w, n) := by
  obtain ⟨u, hu⟩ := Option.isSome_iff_exists.1 h
  rw [readTy?, ReadsAs.tys hreads, Option.bind_some] at hu
  obtain ⟨adt, hadt, hcons⟩ := Option.bind_eq_some_iff.1 hu
  have hresolve : (Bracket.constructor (t.ownerName?.getD "").toList
      (t.constructorName?.getD "").toList).resolve r = .ok _ :=
    (resolve_constructor hstore).2 ⟨adt, by rw [String.ofList_toList]; exact hadt, rfl⟩
  have hclose : (Opening.constructor st adt (t.constructorName?.getD "").toList).close m c' ws =
      .ok (.constructor u c' ws) := by
    rw [Opening.close, String.ofList_toList]
    exact Build.construct_eq_ok.2 ⟨u, hcons, rfl⟩
  exact exists_build_bracket (derivation_constructor t c vs) hws hresolve hclose

theorem builds (hst : st.Reachable) (hstore : r.store = some st) {v : Value} (hv : v.Sound)
    (hname : v.Spelled) : Builds r st m v := by
  have hr := reachable_of_store hst hstore
  induction v using parts_induction with
  | h v ih =>
    have ih : ∀ p ∈ v.parts, Builds r st m p := fun p hp => ih p hp (hv.part hp) (hname.part hp)
    intro s ht hc h
    cases v with
    | int | double | bool | str | loc =>
      exact exists_build_scalar rfl
    | tuple t c vs =>
      rw [readTy?, Option.isSome_map, isSome_readTys?] at h
      obtain ⟨ws, c', hws⟩ := exists_buildAll hr ih ht hc h
      exact exists_build_bracket (derivation_tuple t c vs) hws rfl rfl
    | list t c vs =>
      rw [readTy?, Option.isSome_map, isSome_readTys?] at h
      obtain ⟨ws, c', hws⟩ := exists_buildAll hr ih ht hc h
      exact exists_build_bracket (derivation_list t c vs) hws rfl rfl
    | node t c name vs =>
      rw [readTy?, Option.isSome_map, isSome_readTys?] at h
      obtain ⟨ws, c', hws⟩ := exists_buildAll hr ih ht hc h
      exact exists_build_bracket (derivation_node t c name vs) hws (resolve_nodeBracket r name) rfl
    | set t c es =>
      rw [readTy?_set, Option.isSome_map, isSome_readTys?] at h
      obtain ⟨ws, c', hws⟩ := exists_buildAll hr ih ht hc h
      exact exists_build_bracket (derivation_set t c es) hws rfl rfl
    | map t c es => exact exists_build_map hr ih ht hc h
    | constructor t c vs =>
      have hsome : (readTys? st m vs).isSome = true := by
        rw [readTy?] at h
        exact Option.isSome_of_isSome_bind h
      obtain ⟨ws, c', hws⟩ := exists_buildAll hr ih ht hc (isSome_readTys?.1 hsome)
      -- What the arguments are built as has the types that the overload was chosen for.
      have hreads : List.Forall₂ (ReadsAs st m) vs ws := readsAs_of_buildAll hr
        (fun p hp => returns hst hstore (hv.part hp) (hname.part hp)) ht hc hws
      exact exists_build_constructor hstore h hws hreads

/-! ### From the derivation to the text -/

/-- Reading the text of a value is building its derivation. -/
theorem read_text_eq_ok {v w : Value} {c n : Cell} (hname : v.Spelled) (hd : v.depth ≤ r.maxDepth) :
    r.read m c v.text = .ok (w, n) ↔ v.derivation.build r m c = .ok (w, n) := by
  rw [text_eq, Reader.read_written_eq_ok (canonical_derivation v hname)]
  rw [depth_derivation]
  exact hd

end Value

end ValueAlgebra
