import ValueAlgebra.Proofs.Session.Extensional
import ValueAlgebra.Proofs.Session.Inference
import ValueAlgebra.Proofs.Writer.Extending

/-!
# Relations are sets of tuples of one arity

No fields are counted when a relation is made: an item that is no tuple is refused when it comes,
and at the end the join of all types must be a tuple type. It is one exactly if the numbers of
fields agree. Tuple types of one arity are all below the one whose fields are of type `value`, so
that their join is below it as well; and what has a value and is below a tuple type is a tuple type
of the same arity. Once the join is no tuple type it never becomes one again, so that asking for it
at the end is enough.

## Main definitions

- `Ty.IsRow`, `Value.IsTuple`: tuple types and tuples of an arity
- `Session.IsRelationOf`: a relation holds the tuples it was made of, and is the set of them
-/

namespace ValueAlgebra

namespace Ty

/-- A tuple type of `n` fields, under a name or not. -/
def IsRow (n : Nat) (t : Ty) : Prop := ∃ o fs, t.unalias = .tuple o fs ∧ fs.length = n

variable {n : Nat} {t u : Ty}

theorem IsRow.isTuple (h : t.IsRow n) : t.isTuple = true := by
  obtain ⟨o, fs, ht, -⟩ := h
  rw [Ty.isTuple, beq_iff_eq, ← kind_unalias, ht]
  rfl

/-- What is below a tuple type has its arity, unless it has no values. -/
theorem IsRow.of_isSubtypeOf (hu : u.IsRow n) (h : t.isSubtypeOf u = true)
    (ht : t.kind ≠ .void) : t.IsRow n := by
  obtain ⟨o, fs, htuple⟩ := exists_of_isTuple (isTuple_of_isSubtypeOf hu.isTuple h ht)
  obtain ⟨o', gs, hgs, hlength⟩ := hu
  exact ⟨o, fs, htuple, (length_eq_of_isSubtypeOf htuple hgs h).trans hlength⟩

theorem isRow_tuple (m : Manager) (types : List Ty) : (m.tuple types).IsRow types.length :=
  ⟨m.origin, _, rfl, List.length_map _⟩

theorem fieldsBelow_values (m : Manager) (fs : List (Field Ty)) :
    fieldsBelow fs ((List.replicate fs.length m.value).map fun t => ⟨t, none⟩) = true := by
  induction fs with
  | nil => rw [List.length_nil, List.replicate_zero, List.map_nil, fieldsBelow]
  | cons f fs ih =>
    rw [List.length_cons, List.replicate_succ, List.map_cons, fieldsBelow, ih, Bool.and_true]
    exact isBelow_value f.ty

/-- Tuple types of one arity have a tuple type above them. -/
theorem IsRow.isSubtypeOf_values (h : t.IsRow n) (m : Manager) :
    t.isSubtypeOf (m.tuple (List.replicate n m.value)) = true := by
  obtain ⟨o, fs, ht, rfl⟩ := h
  rw [← isSubtypeOf_unalias_left, ht]
  exact isSubtypeOf_tuple.trans (fieldsBelow_values m fs)

end Ty

namespace Value

variable {n : Nat} {v : Value}

/-- A tuple of `n` fields. -/
def IsTuple (n : Nat) (v : Value) : Prop := ∃ t c items, v = .tuple t c items ∧ items.length = n

theorem eq_tuple_of_kind_eq (h : v.kind = .tuple) : ∃ t c items, v = .tuple t c items := by
  cases v with
  | tuple t c items => exact ⟨t, c, items, rfl⟩
  | set t c es =>
    rw [kind] at h
    split at h <;> cases h
  | _ => cases h

/-- The type of a value shows whether it is a tuple, and how many fields it has. -/
theorem WellTyped.isRow_iff (h : v.WellTyped) : v.ty.IsRow n ↔ v.IsTuple n := by
  constructor
  · rintro ⟨o, fs, ht, rfl⟩
    have hkind : v.kind = .tuple := by
      rw [← h.kind_ty, ← Ty.kind_unalias, ht]
      rfl
    obtain ⟨t, c, items, rfl⟩ := eq_tuple_of_kind_eq hkind
    obtain ⟨o', gs, ht', hfits⟩ := h
    obtain ⟨-, rfl⟩ := Ty.tuple.inj (ht'.symm.trans ht)
    exact ⟨t, c, items, rfl, hfits.length_eq⟩
  · rintro ⟨t, c, items, rfl, rfl⟩
    obtain ⟨o, fs, ht, hfits⟩ := h
    exact ⟨o, fs, ht, hfits.length_eq.symm⟩

/-- Where sets are stored, and under which types, does not make them different. -/
theorem set_beq_of_beq {t t' u u' : Ty} {c c' d d' : Cell} {es fs : Table Value Unit}
    (hne : c ≠ d) (h : (set t c es == set u d fs) = true) :
    (set t' c' es == set u' d' fs) = true := by
  change (set t c es).eqWith isIdenticalTo (set u d fs) = true at h
  show (set t' c' es).eqWith isIdenticalTo (set u' d' fs) = true
  obtain ⟨⟨es⟩, index⟩ := es
  rw [eqWith, Bool.or_eq_true] at h ⊢
  exact .inr (h.resolve_left fun hi => hne (beq_iff_eq.1 hi))

end Value

namespace Build

variable {m : Manager} {c : Cell} {vs : List Value} {r : Value}

/-- Making a relation goes as writing one does: every item is looked at as it comes, and the join of
the types in the end. -/
theorem relation_eq_build (m : Manager) (c : Cell) (vs : List Value) :
    relation m c vs = Buffer.build m c (SetBuffer.holding m true []) vs := by
  rw [Buffer.build, Session.foldlM_push_rows, relation]
  cases vs.find? (!·.ty.isTuple) <;> rfl

/-- There is a relation, or something is no tuple. -/
theorem relation_cases (m : Manager) (c : Cell) (vs : List Value) :
    (∃ t, relation m c vs = .ok (.set t c (.ofValues vs))) ∨
      ∃ t, t.isTuple = false ∧ relation m c vs = .error (.notATuple t) := by
  unfold relation
  split
  · next v hv => exact .inr ⟨v.ty, by simpa using List.find?_some hv, rfl⟩
  · unfold relationType Manager.relationOver
    split
    · exact .inl ⟨_, rfl⟩
    · split
      · exact .inl ⟨_, rfl⟩
      · next h => exact .inr ⟨_, Bool.eq_false_iff.2 h, rfl⟩

end Build

namespace Session

variable {s : Session} {m m' : Manager} {c c' : Cell} {vs vs' : List Value} {r : Value}

/-- A relation that contains the given tuples and nothing else, and is the set of them. Only the
type of the empty one is another than that of the empty set. -/
structure IsRelationOf (s : Session) (m : Manager) (vs : List Value) (r : Value) : Prop where
  isRelation : r.ty.isRelation = true
  meansSet : s.MeansSet r vs
  beq_set : ∀ c, (r == Build.set m c vs) = true
  ty_eq : vs ≠ [] → ∀ c, r.ty = (Build.set m c vs).ty

/-- The join of the types is a tuple type exactly if the values are tuples of one arity. -/
theorem TypedValues.isTuple_lubOf_iff (hs : s.TypedValues) (h : ∀ v ∈ vs, s.Has v) (hne : vs ≠ [])
    (m : Manager) :
    (m.lubOf (vs.map Value.ty)).isTuple = true ↔ ∃ n, ∀ v ∈ vs, v.IsTuple n := by
  have hleast := hs.isLeastAbove_lubOf h m
  have hrow {n : Nat} : (∀ v ∈ vs, v.IsTuple n) ↔ ∀ v ∈ vs, v.ty.IsRow n :=
    forall₂_congr fun v hv => (hs v (h v hv)).1.isRow_iff.symm
  constructor
  · intro htuple
    obtain ⟨o, fs, hfs⟩ := Ty.exists_of_isTuple htuple
    refine ⟨fs.length, hrow.2 fun v hv => ?_⟩
    exact Ty.IsRow.of_isSubtypeOf ⟨o, fs, hfs, rfl⟩ (hleast.above _ (List.mem_map_of_mem hv))
      (hs.kind_ty_ne_void (h v hv))
  · rintro ⟨n, hn⟩
    have hbelow := hleast.least (m.tuple (List.replicate n m.value))
      (List.forall_mem_map.2 fun v hv => (hrow.1 hn v hv).isSubtypeOf_values m)
    exact Ty.isTuple_of_isSubtypeOf (Ty.isRow_tuple m _).isTuple hbelow
      (kind_lubOf_ne_void hs h hne)

theorem TypedValues.relation_isOk_iff (hs : s.TypedValues) (h : ∀ v ∈ vs, s.Has v) (m : Manager)
    (c : Cell) : (∃ r, Build.relation m c vs = .ok r) ↔ ∃ n, ∀ v ∈ vs, v.IsTuple n := by
  by_cases hne : vs = []
  · subst hne
    exact iff_of_true ⟨_, rfl⟩ ⟨0, List.forall_mem_nil _⟩
  · rw [← hs.isTuple_lubOf_iff h hne m]
    simp only [relation_eq_ok_iff hs h hne, exists_and_left, exists_eq, and_true]

theorem Reachable.isRelationOf (hs : s.Reachable) (h : ∀ v ∈ vs, s.Has v)
    (hr : Build.relation m c vs = .ok r) : s.IsRelationOf m vs r := by
  obtain ⟨t, hok⟩ | ⟨t, -, herror⟩ := Build.relation_cases m c vs
  swap
  · cases hr.symm.trans herror
  obtain rfl := Except.ok.inj (hok.symm.trans hr)
  have hmeans := hs.coherent.meansSet (hs.coherent.records_ofValues h) t c
  have hset (c' : Cell) : (Value.set t c (.ofValues vs) == Build.set m c' vs) = true :=
    Value.set_beq_set (Table.indexed_ofValues vs)
  by_cases hne : vs = []
  · subst hne
    obtain rfl : m.relation [] = t := congrArg Value.ty (Except.ok.inj hr)
    exact ⟨rfl, hmeans, hset, fun hne => absurd rfl hne⟩
  · obtain ⟨htuple, heq⟩ := (relation_eq_ok_iff hs.typed.values h hne).1 hr
    obtain rfl : t = m.set (m.lubOf (vs.map Value.ty)) := congrArg Value.ty heq
    exact ⟨(isRelation_setOf m _).trans htuple, hmeans, hset, fun _ _ => rfl⟩

/-- Sets of the same values are equal, in whatever order and however often these come. -/
theorem Coherent.ofValues_beq (h : s.Coherent) (hvs : ∀ v ∈ vs, s.Has v)
    (hmem : ∀ v, v ∈ vs ↔ v ∈ vs') {t u : Ty} {c d : Cell} (hset : s.Has (.set t c (.ofValues vs)))
    (hset' : s.Has (.set u d (.ofValues vs'))) :
    (Value.set t c (.ofValues vs) == Value.set u d (.ofValues vs')) = true := by
  have hvs' : ∀ v ∈ vs', s.Has v := fun v hv => hvs v ((hmem v).2 hv)
  refine (h.set_beq_iff hset hset').2 fun x hx => Bool.eq_iff_iff.2 ?_
  rw [h.hasKey_iff (h.records_ofValues hvs) hx, h.hasKey_iff (h.records_ofValues hvs') hx]
  simp [hmem]

/-- It is enough that the values are at hand, since the sets can be made of them. -/
theorem Reachable.ofValues_beq (hs : s.Reachable) (h : ∀ v ∈ vs, s.Has v)
    (hmem : ∀ v, v ∈ vs ↔ v ∈ vs') (t u : Ty) (c d : Cell) :
    (Value.set t c (.ofValues vs) == Value.set u d (.ofValues vs')) = true := by
  have hs₁ := hs.make (.set ⟨0⟩ h)
  have h₁ : ∀ v ∈ vs', (s.add (Build.set ⟨0⟩ s.next vs)).Has v := fun v hv =>
    has_add_iff.2 (.inr (h v ((hmem v).2 hv)))
  have hs₂ := hs₁.make (.set ⟨0⟩ h₁)
  have hbeq := hs₂.coherent.ofValues_beq
    (fun v hv => has_add_iff.2 (.inr (h₁ v ((hmem v).1 hv)))) hmem
    (has_of_mem (.tail _ (.head _))) (has_of_mem (.head _))
  exact Value.set_beq_of_beq (Nat.ne_of_lt (Nat.lt_succ_self s.next)) hbeq

theorem relation_ty_isEquivalentTo (hs : s.TypedValues) (h : ∀ v ∈ vs, s.Has v)
    (hperm : vs.Perm vs') {r' : Value} (hr : Build.relation m c vs = .ok r)
    (hr' : Build.relation m' c' vs' = .ok r') : r.ty.isEquivalentTo r'.ty = true := by
  have h' : ∀ v ∈ vs', s.Has v := fun v hv => h v (hperm.mem_iff.2 hv)
  by_cases hne : vs = []
  · subst hne
    obtain rfl := hperm.nil_eq
    obtain rfl := Except.ok.inj hr
    obtain rfl := Except.ok.inj hr'
    have hunits : (m.tuple []).isEquivalentTo (m'.tuple []) = true :=
      Ty.isEquivalentTo_iff.2 ⟨(Ty.isRow_tuple m []).isSubtypeOf_values m',
        (Ty.isRow_tuple m' []).isSubtypeOf_values m⟩
    exact Ty.isEquivalentTo_setOf m m' hunits
  · obtain ⟨-, rfl⟩ := (relation_eq_ok_iff hs h hne).1 hr
    obtain ⟨-, rfl⟩ := (relation_eq_ok_iff hs h' fun hnil => hne (hnil ▸ hperm).eq_nil).1 hr'
    exact Ty.isEquivalentTo_setOf m m' (hs.lubOf_isEquivalentTo h hperm m m')

/-- A relation can be made of values exactly if they are tuples of one arity, none at all included,
and then it is the set of them. Otherwise the types that were found are reported as no tuples. The
order of the values changes neither the relation nor, up to equivalence, its type. -/
theorem Reachable.relation_isOk_iff_isTuple (hs : s.Reachable) :
    (∀ m c vs, (∀ v ∈ vs, s.Has v) →
      ((∃ r, Build.relation m c vs = .ok r) ↔ ∃ n, ∀ v ∈ vs, v.IsTuple n) ∧
      (∀ r, Build.relation m c vs = .ok r → s.IsRelationOf m vs r) ∧
      ((¬∃ n, ∀ v ∈ vs, v.IsTuple n) →
        ∃ t, t.isTuple = false ∧ Build.relation m c vs = .error (.notATuple t))) ∧
    ∀ m m' c c' vs vs', (∀ v ∈ vs, s.Has v) → vs.Perm vs' →
      (∃ r r', Build.relation m c vs = .ok r ∧ Build.relation m' c' vs' = .ok r' ∧
        (r == r') = true ∧ r.ty.isEquivalentTo r'.ty = true) ∨
      ∃ e e', Build.relation m c vs = .error e ∧ Build.relation m' c' vs' = .error e' := by
  have htyped := hs.typed.values
  refine ⟨fun m c vs h => ⟨htyped.relation_isOk_iff h m c, fun r hr => hs.isRelationOf h hr,
    fun hnot => ?_⟩, fun m m' c c' vs vs' h hperm => ?_⟩
  · refine (Build.relation_cases m c vs).resolve_left ?_
    rintro ⟨t, ht⟩
    exact hnot ((htyped.relation_isOk_iff h m c).1 ⟨_, ht⟩)
  · have h' : ∀ v ∈ vs', s.Has v := fun v hv => h v (hperm.mem_iff.2 hv)
    have harity : (∃ n, ∀ v ∈ vs, v.IsTuple n) ↔ ∃ n, ∀ v ∈ vs', v.IsTuple n :=
      exists_congr fun n => forall_congr' fun v => imp_congr_left hperm.mem_iff
    have hok := (htyped.relation_isOk_iff h m c).trans
      (harity.trans (htyped.relation_isOk_iff h' m' c').symm)
    obtain ⟨t, hr⟩ | ⟨t, -, he⟩ := Build.relation_cases m c vs <;>
    obtain ⟨t', hr'⟩ | ⟨t', -, he'⟩ := Build.relation_cases m' c' vs'
    · exact .inl ⟨_, _, hr, hr', hs.ofValues_beq h (fun v => hperm.mem_iff) t t' c c',
        relation_ty_isEquivalentTo htyped h hperm hr hr'⟩
    · obtain ⟨r', hr'⟩ := hok.1 ⟨_, hr⟩
      cases hr'.symm.trans he'
    · obtain ⟨r, hr⟩ := hok.2 ⟨_, hr'⟩
      cases hr.symm.trans he
    · exact .inr ⟨_, _, he, he'⟩

namespace OneRow

/-- A tuple with one field more. -/
def pair : Value := Build.tuple manager 4 [number, number]

theorem reachable_pair : ((session.add nested).add pair).Reachable :=
  .make reachable_nested (.tuple manager (has_of_subset (by simp [session, add])))

end OneRow

open OneRow in
/-- `<1>` and `<<1>>` make a relation in both orders, and with `<1, 1>` in none. -/
theorem relation_rows :
    (∃ r r', Build.relation manager 5 [row, nested] = .ok r ∧ r.contains nested = true ∧
      Build.relation manager 6 [nested, row] = .ok r' ∧ (r == r') = true) ∧
    (∃ t, Build.relation manager 5 [row, nested, pair] = .error (.notATuple t)) ∧
    ∃ r, Build.relation manager 5 [] = .ok r ∧ r.ty.isRelation = true := by
  have hheld : ∀ v ∈ [row, nested, pair], ((session.add nested).add pair).Has v :=
    has_of_subset (by simp [session, add])
  have hrows : ∀ v ∈ [row, nested], ((session.add nested).add pair).Has v := fun v hv =>
    hheld v (List.mem_append_left [pair] hv)
  obtain ⟨hrelation, hperm⟩ := reachable_pair.relation_isOk_iff_isTuple
  refine ⟨?_, ?_, ?_⟩
  · obtain ⟨hok, hmeans, -⟩ := hrelation manager 5 [row, nested] hrows
    have harity : ∃ n, ∀ v ∈ [row, nested], v.IsTuple n :=
      ⟨1, by simp [row, nested, Build.tuple, Value.IsTuple]⟩
    obtain ⟨r, hr⟩ := hok.2 harity
    have hnested : r.contains nested = true := ((hmeans r hr).meansSet.contains nested
      (hheld nested (by simp))).2 ⟨nested, by simp, by decide +kernel⟩
    obtain ⟨r₁, r', hr₁, hr', heq, -⟩ | ⟨e, -, he, -⟩ :=
      hperm manager manager 5 6 _ _ hrows (List.Perm.swap nested row [])
    · obtain rfl := Except.ok.inj (hr.symm.trans hr₁)
      exact ⟨r, r', hr, hnested, hr', heq⟩
    · cases hr.symm.trans he
  · obtain ⟨-, -, herror⟩ := hrelation manager 5 _ hheld
    have harity : ¬∃ n, ∀ v ∈ [row, nested, pair], v.IsTuple n := by
      rintro ⟨n, hn⟩
      simp [row, pair, Build.tuple, Value.IsTuple] at hn
      omega
    obtain ⟨t, -, ht⟩ := herror harity
    exact ⟨t, ht⟩
  · obtain ⟨hok, hmeans, -⟩ := hrelation manager 5 [] (List.forall_mem_nil _)
    obtain ⟨r, hr⟩ := hok.2 ⟨0, List.forall_mem_nil _⟩
    exact ⟨r, hr, (hmeans r hr).isRelation⟩

end Session

end ValueAlgebra
