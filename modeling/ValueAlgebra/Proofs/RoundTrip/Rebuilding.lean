import ValueAlgebra.Proofs.RoundTrip.ReadType
import ValueAlgebra.Proofs.Session.Coherent
import ValueAlgebra.Proofs.Value.Contents
import ValueAlgebra.Proofs.Value.Written

/-!
# Rebuilding a value from its derivation

Whatever is built from the derivation of a value has the contents of that value and the type that
reading gives it. The values built are at hand in a session that grew with them, which is coherent,
so that a table filled with elements that were distinct before loses none of them.

## Main definitions

- `Value.ReadsAs`: what a value is read back as
- `Value.Returns`: whatever a value's derivation builds is what the value is read back as
-/

namespace ValueAlgebra

/-! ### Tables of distinct keys -/

namespace Table

variable {ν : Type}

/-- Entries with new keys go last. -/
theorem toList_foldl_put {es : List (Value × ν)} : ∀ {t : Table Value ν}, t.Indexed Value.hash →
    (t.toList ++ es).Pairwise (fun e e' => (e'.1 == e.1) = false) →
    (es.foldl (fun t e => t.put e.1 e.2) t).toList = t.toList ++ es := by
  induction es with
  | nil => exact fun _ _ => (List.append_nil _).symm
  | cons e es ih =>
    intro t ht hdistinct
    have hnew : ∀ e' ∈ t.toList, (e.1 == e'.1) = false := fun e' he' =>
      (List.pairwise_append.1 hdistinct).2.2 e' he' e List.mem_cons_self
    have hput : (t.put e.1 e.2).toList = t.toList ++ [e] :=
      toList_insert_of_none (ht.position?_eq_none_iff.2 fun e' he' _ => hnew e' he')
    have hassoc : t.toList ++ e :: es = (t.put e.1 e.2).toList ++ es := by
      rw [hput, List.append_assoc, List.singleton_append]
    rw [hassoc] at hdistinct ⊢
    exact ih (ht.insert e.1 e.2) hdistinct

theorem toList_ofEntries {es : List (Value × Value)}
    (h : es.Pairwise fun e e' => (e'.1 == e.1) = false) : (ofEntries es).toList = es :=
  toList_foldl_put (indexed_empty _) h

theorem keys_ofValues {vs : List Value} (h : vs.Pairwise fun v w => (w == v) = false) :
    (ofValues vs).keys = vs := by
  rw [ofValues_eq_foldl, keys, toList_foldl_put (indexed_empty _) (List.pairwise_map.2 h)]
  show (vs.map (·, ())).map Prod.fst = vs
  rw [List.map_map]
  exact List.map_id vs

end Table

/-- What holds of any two members of a list holds of their counterparts. -/
theorem pairwise_of_forall₂ {α β : Type} {R : α → β → Prop} {S : α → α → Prop} {T : β → β → Prop}
    {as : List α} {bs : List β} (h : List.Forall₂ R as bs) (hS : as.Pairwise S)
    (hT : ∀ a ∈ as, ∀ a' ∈ as, ∀ b ∈ bs, ∀ b' ∈ bs, R a b → R a' b' → S a a' → T b b') :
    bs.Pairwise T := by
  induction h with
  | nil => exact .nil
  | cons hab hrest ih =>
    obtain ⟨ha, has⟩ := List.pairwise_cons.1 hS
    refine List.pairwise_cons.2 ⟨fun b' hb' => ?_, ih has fun a ha a' ha' b hb b' hb' => ?_⟩
    · obtain ⟨a', ha', hab'⟩ := exists_of_forall₂_right hrest b' hb'
      exact hT _ List.mem_cons_self a' (.tail _ ha') _ List.mem_cons_self b' (.tail _ hb') hab hab'
        (ha a' ha')
    · exact hT a (.tail _ ha) a' (.tail _ ha') b (.tail _ hb) b' (.tail _ hb')

namespace Value

section Same

variable {t u : Ty} {c c' : Cell}

/-- Sets with the same elements in the same order are the same. -/
theorem same_set_of_forall₂ {es fs : Table Value Unit} (hv : (set t c es).Sound)
    (hw : (set u c' fs).Sound)
    (h : List.Forall₂ (fun k k' => k.same k' = true) es.keys fs.keys) :
    (set t c es).same (set u c' fs) = true := by
  rw [Table.keys, Table.keys, List.forall₂_map_left_iff, List.forall₂_map_right_iff] at h
  exact (same_set_iff_matches hv hw).2 (Table.matches_of_forall₂ h)

/-- Maps with the same entries in the same order are the same. -/
theorem same_map_of_forall₂ {es fs : Table Value Value} (hv : (map t c es).Sound)
    (hw : (map u c' fs).Sound)
    (h : List.Forall₂ (fun e f => e.1.same f.1 = true ∧ e.2.same f.2 = true)
      es.toList fs.toList) : (map t c es).same (map u c' fs) = true :=
  (same_map_iff_matches hv hw).2 (Table.matches_of_forall₂ h)

end Same

/-- The value `w` is what `v` is read back as with the overloads of `st`. -/
structure ReadsAs (st : Store) (m : Manager) (v w : Value) : Prop where
  derivation : w.derivation = v.derivation
  same : v.same w = true
  ty : v.readTy? st m = some w.ty

/-- Whatever the derivation of `v` builds is what `v` is read back as. -/
def Returns (r : Reader) (st : Store) (m : Manager) (v : Value) : Prop :=
  ∀ {s : Session} {w : Value} {n : Cell}, s.TypedValues → s.Coherent →
    v.derivation.build r m s.next = .ok (w, n) → v.ReadsAs st m w

section

variable {r : Reader} {st : Store} {m : Manager}

theorem ReadsAs.derivations {vs ws : List Value} (h : List.Forall₂ (ReadsAs st m) vs ws) :
    ws.map Value.derivation = vs.map Value.derivation := by
  induction h with
  | nil => rfl
  | cons hvw _ ih => rw [List.map_cons, List.map_cons, hvw.derivation, ih]

theorem ReadsAs.entry_derivations {es xs : List (Value × Value)}
    (h : List.Forall₂ (fun e x => e.1.ReadsAs st m x.1 ∧ e.2.ReadsAs st m x.2) es xs) :
    (xs.map fun x => (x.1.derivation, x.2.derivation)) =
      es.map fun e => (e.1.derivation, e.2.derivation) := by
  induction h with
  | nil => rfl
  | cons hex _ ih => rw [List.map_cons, List.map_cons, hex.1.derivation, hex.2.derivation, ih]

theorem ReadsAs.tys {vs ws : List Value} (h : List.Forall₂ (ReadsAs st m) vs ws) :
    readTys? st m vs = some (ws.map Value.ty) :=
  readTys?_eq_some.2 (List.forall₂_map_right_iff.2 (h.imp fun _ _ h => h.ty))

theorem ReadsAs.all_same {vs ws : List Value} (h : List.Forall₂ (ReadsAs st m) vs ws) :
    List.Forall₂ (fun v w => v.same w = true) vs ws := h.imp fun _ _ h => h.same

/-- The values of a sequence are read back one by one. -/
theorem readsAs_of_buildAll (hr : ∀ st ∈ r.store, st.Reachable) : ∀ {vs ws : List Value}
    {s : Session} {n : Cell}, (∀ v ∈ vs, Returns r st m v) → s.TypedValues → s.Coherent →
    Derivation.buildAll r m (vs.map derivation) s.next = .ok (ws, n) →
    List.Forall₂ (ReadsAs st m) vs ws
  | [], ws, s, n, _, _, _, h => by
    obtain ⟨rfl, -⟩ := Derivation.buildAll_nil_eq_ok.1 h
    exact .nil
  | v :: vs, ws, s, n, hvs, ht, hc, h => by
    obtain ⟨hv, hvs⟩ := List.forall_mem_cons.1 hvs
    obtain ⟨w, c, ws, hw, hws, rfl⟩ := Derivation.buildAll_cons_eq_ok.1 h
    obtain ⟨s', hgrows, rfl, -⟩ := Session.build_grows hr _ ht hw
    exact .cons (hv ht hc hw)
      (readsAs_of_buildAll hr hvs (hgrows.typedValues ht) (hgrows.coherent hc) hws)

theorem readsAs_of_buildEntries (hr : ∀ st ∈ r.store, st.Reachable) :
    ∀ {es xs : List (Value × Value)} {s : Session} {n : Cell},
    (∀ e ∈ es, Returns r st m e.1 ∧ Returns r st m e.2) → s.TypedValues → s.Coherent →
    Derivation.buildEntries r m (es.map fun e => (e.1.derivation, e.2.derivation)) s.next =
      .ok (xs, n) →
    List.Forall₂ (fun e x => e.1.ReadsAs st m x.1 ∧ e.2.ReadsAs st m x.2) es xs
  | [], xs, s, n, _, _, _, h => by
    obtain ⟨rfl, -⟩ := Derivation.buildEntries_nil_eq_ok.1 h
    exact .nil
  | (k, v) :: es, xs, s, n, hes, ht, hc, h => by
    obtain ⟨⟨hk, hv⟩, hes⟩ := List.forall_mem_cons.1 hes
    obtain ⟨key, c, val, c', ys, hkey, hval, hys, rfl⟩ := Derivation.buildEntries_cons_eq_ok.1 h
    obtain ⟨s₁, hg₁, rfl, -⟩ := Session.build_grows hr _ ht hkey
    have ht₁ := hg₁.typedValues ht
    obtain ⟨s₂, hg₂, rfl, -⟩ := Session.build_grows hr _ ht₁ hval
    exact .cons ⟨hk ht hc hkey, hv ht₁ (hg₁.coherent hc) hval⟩
      (readsAs_of_buildEntries hr hes (hg₂.typedValues ht₁) (hg₂.coherent (hg₁.coherent hc)) hys)

/-- Values read back from distinct values are distinct. -/
theorem beq_eq_false_of_same {s : Session} (hc : s.Coherent) {v v' w w' : Value} (hv : v.Sound)
    (hv' : v'.Sound) (hw : s.Has w) (hw' : s.Has w') (h : v.same w = true)
    (h' : v'.same w' = true) (hdistinct : v'.same v = false) : (w' == w) = false := by
  rw [Bool.eq_false_iff]
  intro heq
  -- Were they equal, the values that they are read from would be the same.
  have hww : w'.same w = true := (hc.beq_iff_same hw' hw).1 heq
  have hwv : w.same v = true := same_symm hv (hc.sound hw) h
  have hvw : v'.same w = true := same_trans hv' (hc.sound hw') (hc.sound hw) h' hww
  rw [same_trans hv' (hc.sound hw) hv hvw hwv] at hdistinct
  cases hdistinct

/-- Reading loses no element of a set. -/
theorem keys_ofValues_of_readsAs {s : Session} (hc : s.Coherent) {t : Ty} {c : Cell}
    {es : Table Value Unit} {ws : List Value} (hv : (set t c es).Sound) (hws : ∀ w ∈ ws, s.Has w)
    (h : List.Forall₂ (ReadsAs st m) es.keys ws) : (Table.ofValues ws).keys = ws := by
  -- Distinct elements are read as distinct ones, so filling the table drops none.
  refine Table.keys_ofValues (pairwise_of_forall₂ h hv.table.distinct ?_)
  intro k hk k' hk' w hw w' hw' hkw hkw' hdistinct
  exact beq_eq_false_of_same hc (hv.part hk) (hv.part hk') (hws w hw) (hws w' hw') hkw.same
    hkw'.same hdistinct

/-- Reading loses no entry of a map. -/
theorem toList_ofEntries_of_readsAs {s : Session} (hc : s.Coherent) {t : Ty} {c : Cell}
    {es : Table Value Value} {xs : List (Value × Value)} (hv : (map t c es).Sound)
    (hxs : ∀ x ∈ xs, s.HasEntry x)
    (h : List.Forall₂ (fun e x => e.1.ReadsAs st m x.1 ∧ e.2.ReadsAs st m x.2) es.toList xs) :
    (Table.ofEntries xs).toList = xs := by
  refine Table.toList_ofEntries (pairwise_of_forall₂ h hv.table.pairwise ?_)
  intro e he e' he' x hx x' hx' hex hex' hdistinct
  exact beq_eq_false_of_same hc (hv.key_of_map he) (hv.key_of_map he') (hxs x hx).1 (hxs x' hx').1
    hex.1.same hex'.1.same hdistinct

/-! ### Decoding what was written -/

theorem decodeEscapes_escape (part : Encoded) (l : Literal) (cs : List Char) :
    Reader.decodeEscapes part l (l.escape cs) = .ok cs :=
  mapError_eq_ok.2 (l.unescape_escape cs)

theorem decodeInteger_numeralOf (n : Int64) :
    Reader.decodeInteger (numeralOf n.toInt) = .ok n :=
  mapError_eq_ok.2 (int64OfNumeral_numeralOf n)

theorem decodeNumber_digitsOf (x : UInt64) : Reader.decodeNumber (digitsOf x.toNat) = .ok x :=
  mapError_eq_ok.2 (uint64OfDigits_digitsOf x)

theorem decodeSpan_numerals (r : Span) : Reader.decodeSpan r.numerals = .ok r := by
  have hall : r.numerals.mapM Reader.decodeNumber = .ok r.inTextOrder := by
    simp only [Span.numerals, Span.inTextOrder, List.map_cons, List.map_nil, List.mapM_cons,
      List.mapM_nil, decodeNumber_digitsOf]
    rfl
  exact bind_eq_ok.2 ⟨_, hall, rfl⟩

theorem resolve_nodeBracket (r : Reader) (name : String) :
    (nodeBracket name).resolve r = .ok (.node name.toList) := by
  unfold nodeBracket
  split
  · rfl
  · exact bind_eq_ok.2 ⟨name.toList, decodeEscapes_escape _ _ _, rfl⟩

theorem reachable_of_store (hst : st.Reachable) (hstore : r.store = some st) :
    ∀ st ∈ r.store, st.Reachable := by
  rintro st' hst'
  rw [hstore] at hst'
  exact Option.some.inj hst' ▸ hst

theorem resolve_constructor {a n : List Char} (hstore : r.store = some st) {o : Opening} :
    (Bracket.constructor a n).resolve r = .ok o ↔
      ∃ adt, st.findAdt? (String.ofList a) = some adt ∧ .constructor st adt n = o := by
  rw [Bracket.resolve, bind_eq_ok]
  constructor
  · rintro ⟨⟨st', adt⟩, h, ho⟩
    rw [Reader.resolve, hstore, Option.bind_some] at h
    split at h
    · next found hfound =>
      obtain rfl := Except.ok.inj h
      obtain ⟨adt', hadt, heq⟩ := Option.map_eq_some_iff.1 hfound
      obtain ⟨rfl, rfl⟩ := Prod.mk.inj heq
      exact ⟨adt', hadt, pure_eq_ok.1 ho⟩
    · cases h
  · rintro ⟨adt, hadt, rfl⟩
    refine ⟨(st, adt), ?_, rfl⟩
    rw [Reader.resolve, hstore, Option.bind_some, hadt]
    rfl

/-! ### One level of a value -/

/-- Scalars are read back as they were written. -/
theorem exists_readsAs_of_scalar {v : Value} {sc : Scalar} (hv : v.derivation = .scalar sc)
    (c : Cell) : ∃ x, sc.value m c = .ok x ∧ v.ReadsAs st m x := by
  cases v with
  | int t i =>
    obtain rfl := Derivation.scalar.inj hv
    refine ⟨_, bind_eq_ok.2 ⟨i, decodeInteger_numeralOf i, rfl⟩, rfl, ?_, rfl⟩
    exact same_int_iff.2 ⟨_, rfl⟩
  | double t d =>
    obtain rfl := Derivation.scalar.inj hv
    refine ⟨_, d.value_scalar m c, congrArg Derivation.scalar d.scalar_canonical, ?_, rfl⟩
    exact same_double_iff.2 ⟨_, _, rfl, d.canonicalBits_canonical.symm⟩
  | bool t b =>
    obtain rfl := Derivation.scalar.inj hv
    refine ⟨Build.bool m b, by cases b <;> rfl, rfl, ?_, rfl⟩
    exact same_bool_iff.2 ⟨_, rfl⟩
  | str t d x =>
    obtain rfl := Derivation.scalar.inj hv
    refine ⟨_, bind_eq_ok.2 ⟨_, decodeEscapes_escape _ _ _, rfl⟩, ?_⟩
    rw [String.ofList_toList]
    exact ⟨rfl, same_str_iff.2 ⟨_, _, rfl⟩, rfl⟩
  | loc t d p x =>
    obtain rfl := Derivation.scalar.inj hv
    refine ⟨_, bind_eq_ok.2 ⟨_, decodeEscapes_escape _ _ _,
      bind_eq_ok.2 ⟨_, decodeSpan_numerals x, rfl⟩⟩, ?_⟩
    rw [String.ofList_toList]
    exact ⟨rfl, same_loc_iff.2 ⟨_, _, rfl⟩, rfl⟩
  | _ => cases hv

theorem readsAs_of_scalar {v w : Value} {sc : Scalar} {c n : Cell}
    (hv : v.derivation = .scalar sc) (h : v.derivation.build r m c = .ok (w, n)) :
    v.ReadsAs st m w := by
  obtain ⟨x, hsc, hx⟩ : ∃ x, sc.value m c = .ok x ∧ v.ReadsAs st m x :=
    exists_readsAs_of_scalar hv c
  rw [hv] at h
  obtain ⟨hw, -⟩ := Derivation.build_scalar_eq_ok.1 h
  exact Except.ok.inj (hsc.symm.trans hw) ▸ hx

section

variable {vs ws : List Value}

theorem ReadsAs.tuple {t : Ty} {c d : Cell} (h : List.Forall₂ (ReadsAs st m) vs ws) :
    (tuple t c vs).ReadsAs st m (Build.tuple m d ws) := by
  refine ⟨?_, same_tuple_iff.2 ⟨_, _, ws, rfl, all_same h⟩, ?_⟩
  · rw [Build.tuple, derivation_tuple, derivation_tuple, derivations h]
  · rw [readTy?, tys h]
    rfl

theorem ReadsAs.list {t : Ty} {c d : Cell} (h : List.Forall₂ (ReadsAs st m) vs ws) :
    (list t c vs).ReadsAs st m (Build.list m d ws) := by
  refine ⟨?_, same_list_iff.2 ⟨_, _, ws, rfl, all_same h⟩, ?_⟩
  · rw [Build.list, derivation_list, derivation_list, derivations h]
  · rw [readTy?, tys h]
    rfl

theorem ReadsAs.node {t : Ty} {c d : Cell} {name : String}
    (h : List.Forall₂ (ReadsAs st m) vs ws) :
    (node t c name vs).ReadsAs st m (Build.node m d name ws) := by
  refine ⟨?_, same_node_iff.2 ⟨_, _, ws, rfl, all_same h⟩, ?_⟩
  · rw [Build.node, derivation_node, derivation_node, derivations h]
  · rw [readTy?, tys h]
    rfl

theorem ReadsAs.set {t : Ty} {c d : Cell} {es : Table Value Unit} (hv : (set t c es).Sound)
    (hw : (Build.set m d ws).Sound) (hkeys : (Table.ofValues ws).keys = ws)
    (h : List.Forall₂ (ReadsAs st m) es.keys ws) :
    (set t c es).ReadsAs st m (Build.set m d ws) := by
  refine ⟨?_, same_set_of_forall₂ hv hw ?_, ?_⟩
  · rw [Build.set, derivation_set, derivation_set, hkeys, derivations h]
  · rw [hkeys]
    exact all_same h
  · rw [readTy?_set, tys h]
    rfl

theorem ReadsAs.map {t : Ty} {c d : Cell} {es : Table Value Value} {xs : List (Value × Value)}
    (hv : (map t c es).Sound) (hw : (Build.map m d xs).Sound)
    (hlist : (Table.ofEntries xs).toList = xs)
    (h : List.Forall₂ (fun e x => e.1.ReadsAs st m x.1 ∧ e.2.ReadsAs st m x.2) es.toList xs) :
    (map t c es).ReadsAs st m (Build.map m d xs) := by
  have hkeys : List.Forall₂ (ReadsAs st m) es.keys (xs.map Prod.fst) :=
    List.forall₂_map_left_iff.2 (List.forall₂_map_right_iff.2 (h.imp fun _ _ h => h.1))
  have hvals : List.Forall₂ (ReadsAs st m) es.values (xs.map Prod.snd) :=
    List.forall₂_map_left_iff.2 (List.forall₂_map_right_iff.2 (h.imp fun _ _ h => h.2))
  refine ⟨?_, same_map_of_forall₂ hv hw ?_, ?_⟩
  · rw [Build.map, derivation_map, derivation_map, hlist, entry_derivations h]
  · rw [hlist]
    exact h.imp fun _ _ h => ⟨h.1.same, h.2.same⟩
  · rw [readTy?_map, tys hkeys, tys hvals, List.map_map, List.map_map]
    rfl

/-- The constructor found by its names has those names, whichever overload it is. -/
theorem ReadsAs.constructor (hst : st.Reachable) {t adt u : Ty} {c d : Cell} {a n : String}
    (ha : t.ownerName? = some a) (hn : t.constructorName? = some n)
    (hadt : st.findAdt? a = some adt) (hu : st.constructorFor? adt n (ws.map Value.ty) = some u)
    (h : List.Forall₂ (ReadsAs st m) vs ws) :
    (constructor t c vs).ReadsAs st m (constructor u d ws) := by
  obtain ⟨hua, hun⟩ := hst.consistent.names_of_constructorFor? hadt hu
  refine ⟨?_, same_constructor_iff.2 ⟨_, _, ws, rfl, ha.trans hua.symm, hn.trans hun.symm,
    all_same h⟩, ?_⟩
  · rw [derivation_constructor, derivation_constructor, derivations h, ha, hua, hn, hun]
  · rw [readTy?, tys h, Option.bind_some, overload?, ha, Option.getD_some, hadt, Option.bind_some,
      hn, Option.getD_some, hu]
    rfl

end

/-! ### The whole value -/

/-- What a bracket holds is read back before the bracket itself. -/
theorem readsAs_of_bracket (hr : ∀ st ∈ r.store, st.Reachable) {v : Value} {b : Bracket}
    {vs : List Value} (hv : v.derivation = .bracket b (vs.map Value.derivation))
    (hvs : ∀ v ∈ vs, Returns r st m v) {s : Session} {w : Value} {n : Cell} (ht : s.TypedValues)
    (hc : s.Coherent) (h : v.derivation.build r m s.next = .ok (w, n)) :
    ∃ o ws s', b.resolve r = .ok o ∧ o.close m s'.next ws = .ok w ∧ s.Grows s' ∧
      (∀ w ∈ ws, s'.Has w) ∧ List.Forall₂ (ReadsAs st m) vs ws := by
  rw [hv] at h
  obtain ⟨o, ws, c, ho, hws, hw, -⟩ := Derivation.build_bracket_eq_ok.1 h
  obtain ⟨s', hgrows, rfl, hhas⟩ := Session.buildAll_grows hr _ ht hws
  exact ⟨o, ws, s', ho, hw, hgrows, hhas, readsAs_of_buildAll hr hvs ht hc hws⟩

theorem returns (hst : st.Reachable) (hstore : r.store = some st) {v : Value} (hv : v.Sound)
    (hname : v.Spelled) : Returns r st m v := by
  have hr := reachable_of_store hst hstore
  induction v using parts_induction with
  | h v ih =>
    have ih : ∀ p ∈ v.parts, Returns r st m p := fun p hp => ih p hp (hv.part hp) (hname.part hp)
    intro s w n ht hc h
    -- The value built is at hand later on, which makes it sound.
    obtain ⟨s₁, hg₁, rfl, hhas⟩ := Session.build_grows hr _ ht h
    have hw : w.Sound := (hg₁.coherent hc).sound hhas
    cases v with
    | int | double | bool | str | loc => exact readsAs_of_scalar rfl h
    | tuple t c vs =>
      obtain ⟨o, ws, s', ho, hclose, -, -, hvs⟩ :=
        readsAs_of_bracket hr (derivation_tuple t c vs) ih ht hc h
      obtain rfl := Except.ok.inj ho
      obtain rfl := Except.ok.inj hclose
      exact .tuple hvs
    | list t c vs =>
      obtain ⟨o, ws, s', ho, hclose, -, -, hvs⟩ :=
        readsAs_of_bracket hr (derivation_list t c vs) ih ht hc h
      obtain rfl := Except.ok.inj ho
      obtain rfl := Except.ok.inj hclose
      exact .list hvs
    | node t c name vs =>
      obtain ⟨o, ws, s', ho, hclose, -, -, hvs⟩ :=
        readsAs_of_bracket hr (derivation_node t c name vs) ih ht hc h
      obtain rfl := Except.ok.inj ((resolve_nodeBracket r name).symm.trans ho)
      obtain rfl := Except.ok.inj hclose
      rw [String.ofList_toList]
      exact .node hvs
    | set t c es =>
      obtain ⟨o, ws, s', ho, hclose, hg, hhas', hvs⟩ :=
        readsAs_of_bracket hr (derivation_set t c es) ih ht hc h
      obtain rfl := Except.ok.inj ho
      obtain rfl := Except.ok.inj hclose
      exact .set hv hw (keys_ofValues_of_readsAs (hg.coherent hc) hv hhas' hvs) hvs
    | map t c es =>
      rw [derivation_map] at h
      obtain ⟨xs, c', hxs, rfl, -⟩ := Derivation.build_map_eq_ok.1 h
      obtain ⟨s', hg, -, hhas'⟩ := Session.buildEntries_grows hr _ ht hxs
      have hes := readsAs_of_buildEntries hr (fun e he => ⟨ih _ (parts_of_entry he).1,
        ih _ (parts_of_entry he).2⟩) ht hc hxs
      exact .map hv hw (toList_ofEntries_of_readsAs (hg.coherent hc) hv hhas' hes) hes
    | constructor t c vs =>
      obtain ⟨o, ws, s', ho, hclose, -, -, hvs⟩ :=
        readsAs_of_bracket hr (derivation_constructor t c vs) ih ht hc h
      obtain ⟨adt, hadt, rfl⟩ := (resolve_constructor hstore).1 ho
      obtain ⟨a, n, ha, hn, -, -⟩ := hname t c vs .refl
      rw [ha, Option.getD_some, String.ofList_toList] at hadt
      rw [hn, Option.getD_some, Opening.close, String.ofList_toList] at hclose
      obtain ⟨u, hu, rfl⟩ := Build.construct_eq_ok.1 hclose
      exact .constructor hst ha hn hadt hu hvs

end

end Value

end ValueAlgebra
