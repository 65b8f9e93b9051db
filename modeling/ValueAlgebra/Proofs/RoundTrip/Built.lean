import ValueAlgebra.Proofs.Grammar.Texts
import ValueAlgebra.Proofs.RoundTrip.Inferred
import ValueAlgebra.Proofs.RoundTrip.Narrowing
import ValueAlgebra.Proofs.RoundTrip.Rebuilding

/-!
# Values that are read

What is known of a value because it was read: its type is inferred, its constructors are in the
store of the reader, their names are names of the text, and it is nested no deeper than the text.
`Derivation.Inherits` proves such facts along a derivation, with the values of the children at hand
in a coherent session.

## Main definitions

- `Bracket.Closes`: the values that a bracket makes of those in it
- `Derivation.Inherits`: facts that pass from the values in brackets to those made of them
- `Value.ReadFrom`: what is known of the value of a derivation
-/

namespace ValueAlgebra

/-- The value that a bracket makes of the values in it, with the constructors of `st`. -/
inductive Bracket.Closes (st : Store) (m : Manager) (c : Cell) (ws : List Value) :
    Bracket → Value → Prop
  | tuple : Closes st m c ws .tuple (Build.tuple m c ws)
  | list : Closes st m c ws .list (Build.list m c ws)
  | set : Closes st m c ws .set (Build.set m c ws)
  | node {b : Bracket} (n : String) : Closes st m c ws b (Build.node m c n ws)
  | constructor {a n : List Char} {adt t : Ty} (hadt : st.findAdt? (String.ofList a) = some adt)
    (ht : st.constructorFor? adt (String.ofList n) (ws.map Value.ty) = some t) :
    Closes st m c ws (.constructor a n) (.constructor t c ws)

namespace Bracket

variable {r : Reader} {st : Store} {m : Manager} {c : Cell} {ws : List Value} {b : Bracket}
  {v : Value}

theorem closes_of_close (hstore : r.store = some st) {o : Opening} (ho : b.resolve r = .ok o)
    (hv : o.close m c ws = .ok v) : b.Closes st m c ws v := by
  cases b with
  | tuple =>
    obtain rfl := Except.ok.inj ho
    exact Except.ok.inj hv ▸ .tuple
  | list =>
    obtain rfl := Except.ok.inj ho
    exact Except.ok.inj hv ▸ .list
  | set =>
    obtain rfl := Except.ok.inj ho
    exact Except.ok.inj hv ▸ .set
  | node name =>
    obtain rfl := Except.ok.inj ho
    exact Except.ok.inj hv ▸ .node _
  | quotedNode body =>
    obtain ⟨name, -, rfl⟩ := map_eq_ok.1 ho
    exact Except.ok.inj hv ▸ .node _
  | constructor a n =>
    obtain ⟨adt, hadt, rfl⟩ := (Value.resolve_constructor hstore).1 ho
    obtain ⟨t, ht, rfl⟩ := Build.construct_eq_ok.1 hv
    exact .constructor hadt ht

theorem Closes.parts_subset (h : b.Closes st m c ws v) : v.parts ⊆ ws := by
  cases h with
  | tuple | list | node | constructor => exact List.Subset.refl ws
  | set => exact fun _ => Table.mem_of_mem_keys_ofValues

end Bracket

namespace Derivation

variable {r : Reader} {st : Store} {m : Manager}

/-- What passes from the values in brackets to those that the brackets make. The values in them
are at hand in a coherent session. -/
structure Inherits (r : Reader) (st : Store) (m : Manager) (P : Derivation → Value → Prop) :
    Prop where
  scalar : ∀ {sc : Scalar} {c : Cell} {v : Value}, sc.value m c = .ok v → P (.scalar sc) v
  bracket : ∀ {s : Session} {b : Bracket} {ds : List Derivation} {ws : List Value} {v : Value},
    s.Coherent → (∀ w ∈ ws, s.Has w) → List.Forall₂ P ds ws → b.Closes st m s.next ws v →
      P (.bracket b ds) v
  map : ∀ {s : Session} {c : Cell} {es : List (Derivation × Derivation)}
    {xs : List (Value × Value)}, s.Coherent → (∀ x ∈ xs, s.HasEntry x) →
      buildEntries r m es c = .ok (xs, s.next) →
      List.Forall₂ (fun e x => P e.1 x.1 ∧ P e.2 x.2) es xs → P (.map es) (Build.map m s.next xs)

section Inherits

variable {P : Derivation → Value → Prop}

mutual

/-- What is inherited holds of every value that is built. -/
theorem Inherits.build (h : Inherits r st m P) (hst : st.Reachable) (hstore : r.store = some st) :
    ∀ {d : Derivation} {s : Session} {v : Value} {n : Cell}, s.TypedValues → s.Coherent →
    d.build r m s.next = .ok (v, n) → P d v
  | .scalar sc, s, v, n, _, _, hv => h.scalar (build_scalar_eq_ok.1 hv).1
  | .bracket b ds, s, v, n, hs, hc, hv => by
    obtain ⟨o, ws, c, ho, hws, hclose, rfl⟩ := build_bracket_eq_ok.1 hv
    have hr := Value.reachable_of_store hst hstore
    obtain ⟨s', hgrows, rfl, hhas⟩ := Session.buildAll_grows hr ds hs hws
    exact h.bracket (hgrows.coherent hc) hhas (h.buildAll hst hstore hs hc hws)
      (Bracket.closes_of_close hstore ho hclose)
  | .map es, s, v, n, hs, hc, hv => by
    obtain ⟨xs, c, hxs, rfl, rfl⟩ := build_map_eq_ok.1 hv
    have hr := Value.reachable_of_store hst hstore
    obtain ⟨s', hgrows, rfl, hhas⟩ := Session.buildEntries_grows hr es hs hxs
    exact h.map (hgrows.coherent hc) hhas hxs (h.buildEntries hst hstore hs hc hxs)

theorem Inherits.buildAll (h : Inherits r st m P) (hst : st.Reachable)
    (hstore : r.store = some st) : ∀ {ds : List Derivation} {s : Session} {ws : List Value}
    {n : Cell}, s.TypedValues → s.Coherent → buildAll r m ds s.next = .ok (ws, n) →
    List.Forall₂ P ds ws
  | [], s, ws, n, _, _, hws => by
    obtain ⟨rfl, -⟩ := buildAll_nil_eq_ok.1 hws
    exact .nil
  | d :: ds, s, ws, n, hs, hc, hws => by
    obtain ⟨w, c, ws, hw, hws, rfl⟩ := buildAll_cons_eq_ok.1 hws
    have hr := Value.reachable_of_store hst hstore
    obtain ⟨s', hgrows, rfl, -⟩ := Session.build_grows hr d hs hw
    exact .cons (h.build hst hstore hs hc hw)
      (h.buildAll hst hstore (hgrows.typedValues hs) (hgrows.coherent hc) hws)

theorem Inherits.buildEntries (h : Inherits r st m P) (hst : st.Reachable)
    (hstore : r.store = some st) : ∀ {es : List (Derivation × Derivation)} {s : Session}
    {xs : List (Value × Value)} {n : Cell}, s.TypedValues → s.Coherent →
    buildEntries r m es s.next = .ok (xs, n) →
    List.Forall₂ (fun e x => P e.1 x.1 ∧ P e.2 x.2) es xs
  | [], s, xs, n, _, _, hxs => by
    obtain ⟨rfl, -⟩ := buildEntries_nil_eq_ok.1 hxs
    exact .nil
  | (k, d) :: es, s, xs, n, hs, hc, hxs => by
    obtain ⟨key, c, val, c', ys, hkey, hval, hys, rfl⟩ := buildEntries_cons_eq_ok.1 hxs
    have hr := Value.reachable_of_store hst hstore
    obtain ⟨s₁, hg₁, rfl, -⟩ := Session.build_grows hr k hs hkey
    have hs₁ := hg₁.typedValues hs
    have hc₁ := hg₁.coherent hc
    obtain ⟨s₂, hg₂, rfl, -⟩ := Session.build_grows hr d hs₁ hval
    exact .cons ⟨h.build hst hstore hs hc hkey, h.build hst hstore hs₁ hc₁ hval⟩
      (h.buildEntries hst hstore (hg₂.typedValues hs₁) (hg₂.coherent hc₁) hys)

end

end Inherits

end Derivation

namespace Value

variable {st : Store} {m : Manager} {v : Value} {d : Derivation}

/-- What is known of the value that `d` was read as. -/
structure ReadFrom (st : Store) (m : Manager) (d : Derivation) (v : Value) : Prop where
  inferred : v.ty.Inferred st m
  declared : v.DeclaredIn st
  spelled : d.Names → v.Spelled
  depth : v.depth ≤ d.depth

/-- What holds of the types of all applications in the parts and of the value itself holds of
those in the value. -/
theorem forall_applications {Q : Ty → Prop}
    (hparts : ∀ p ∈ v.parts, ∀ t c vs, (constructor t c vs).Within p → Q t)
    (h : ∀ t c vs, v = constructor t c vs → Q t) :
    ∀ t c vs, (constructor t c vs).Within v → Q t := by
  intro t c vs hw
  cases hw with
  | refl => exact h t c vs rfl
  | part hp hw => exact hparts _ hp t c vs hw

/-- A value is nested one deeper than its parts. -/
theorem depth_le {k : Nat} (h : ∀ p ∈ v.parts, p.depth ≤ k) : v.depth ≤ k + 1 := by
  have hparts : ∀ d ∈ v.parts.map derivation, d.depth ≤ k := List.forall_mem_map.2 fun p hp => by
    rw [depth_derivation]
    exact h p hp
  have hbracket {b : Bracket} (hv : v.derivation = .bracket b (v.parts.map derivation)) :
      v.derivation.depth ≤ k + 1 := by
    rw [hv, Derivation.depth]
    exact Nat.succ_le_succ (Derivation.depthAll_le.2 hparts)
  rw [← depth_derivation]
  cases v with
  | int | double | bool | str | loc => exact Nat.zero_le _
  | tuple t c vs => exact hbracket (derivation_tuple t c vs)
  | list t c vs => exact hbracket (derivation_list t c vs)
  | set t c es => exact hbracket (derivation_set t c es)
  | node t c n vs => exact hbracket (derivation_node t c n vs)
  | constructor t c vs => exact hbracket (derivation_constructor t c vs)
  | map t c es =>
    rw [derivation_map, Derivation.depth]
    refine Nat.succ_le_succ (Derivation.depthEntries_le.2 (List.forall_mem_map.2 fun e he => ?_))
    obtain ⟨hk, hx⟩ := parts_of_entry he
    rw [depth_derivation, depth_derivation]
    exact Nat.max_le.2 ⟨h _ hk, h _ hx⟩

namespace ReadFrom

theorem scalar {sc : Scalar} {c : Cell} (h : sc.value m c = .ok v) :
    v.ReadFrom st m (.scalar sc) := by
  rcases sc.value_cases h with ⟨i, rfl⟩ | ⟨x, rfl⟩ | ⟨b, rfl⟩ | ⟨t, rfl⟩ | ⟨p, x, rfl⟩
  all_goals
    exact ⟨.basic _, forall_applications nofun nofun, fun _ => forall_applications nofun nofun,
      Nat.zero_le _⟩

theorem bracket (hst : st.Reachable) {b : Bracket} {c : Cell} {ds : List Derivation}
    {ws : List Value} (hws : List.Forall₂ (ReadFrom st m) ds ws) (h : b.Closes st m c ws v) :
    v.ReadFrom st m (.bracket b ds) := by
  have hparts : ∀ p ∈ v.parts, ∃ d ∈ ds, p.ReadFrom st m d := fun p hp =>
    exists_of_forall₂_right hws p (h.parts_subset hp)
  have htypes : ∀ t ∈ ws.map Value.ty, t.Inferred st m := List.forall_mem_map.2 fun w hw => by
    obtain ⟨d, -, hd⟩ := exists_of_forall₂_right hws w hw
    exact hd.inferred
  refine ⟨?_, forall_applications (fun p hp => ?_) ?_,
    fun hnames => forall_applications (fun p hp => ?_) ?_, depth_le fun p hp => ?_⟩
  · cases h with
    | tuple => exact .tupleOf htypes
    | list => exact .list (Manager.inferred_lubOf hst htypes)
    | set => exact .setOf (Manager.inferred_lubOf hst htypes)
    | node => exact .basic _
    | constructor _ ht => exact .of_constructorFor? hst ht
  · obtain ⟨d, -, hd⟩ := hparts p hp
    exact hd.declared
  · rintro t c vs rfl
    cases h with
    | constructor hadt ht =>
      obtain ⟨_, _, _, _, _, _, rfl, -, hmem⟩ :=
        hst.of_mem_constructorsOf_adt (Store.constructorFor?_eq_some ht).1
      exact ⟨_, _, rfl, hmem, Ty.sameShape_iff.2 rfl⟩
  · obtain ⟨d, hd, hp⟩ := hparts p hp
    exact hp.spelled (hnames.child d hd)
  · rintro t c vs rfl
    cases h with
    | constructor hadt ht =>
      obtain ⟨ha, hn⟩ := hst.consistent.names_of_constructorFor? hadt ht
      refine ⟨_, _, ha, hn, ?_, ?_⟩
      · rw [String.toList_ofList]
        exact hnames _ (by simp [Derivation.lexemes, Bracket.opening])
      · rw [String.toList_ofList]
        exact hnames _ (by simp [Derivation.lexemes, Bracket.opening])
  · obtain ⟨d, hd, hp⟩ := hparts p hp
    exact hp.depth.trans (Derivation.depthAll_le.1 (Nat.le_refl _) d hd)

theorem map (hst : st.Reachable) {c : Cell} {es : List (Derivation × Derivation)}
    {xs : List (Value × Value)}
    (h : List.Forall₂ (fun e x => x.1.ReadFrom st m e.1 ∧ x.2.ReadFrom st m e.2) es xs) :
    (Build.map m c xs).ReadFrom st m (.map es) := by
  have hparts : ∀ p ∈ (Build.map m c xs).parts, ∃ e ∈ es, p.ReadFrom st m e.1 ∨
      p.ReadFrom st m e.2 := by
    intro p hp
    rcases List.mem_append.1 hp with hp | hp
    · obtain ⟨x, hx, rfl⟩ := List.mem_map.1 (Table.mem_of_mem_keys_ofEntries hp)
      obtain ⟨e, he, hex⟩ := exists_of_forall₂_right h x hx
      exact ⟨e, he, .inl hex.1⟩
    · obtain ⟨x, hx, rfl⟩ := List.mem_map.1 (Table.mem_of_mem_values_ofEntries hp)
      obtain ⟨e, he, hex⟩ := exists_of_forall₂_right h x hx
      exact ⟨e, he, .inr hex.2⟩
  have hks : ∀ t ∈ xs.map (·.1.ty), t.Inferred st m := List.forall_mem_map.2 fun x hx => by
    obtain ⟨e, -, he⟩ := exists_of_forall₂_right h x hx
    exact he.1.inferred
  have hxs : ∀ t ∈ xs.map (·.2.ty), t.Inferred st m := List.forall_mem_map.2 fun x hx => by
    obtain ⟨e, -, he⟩ := exists_of_forall₂_right h x hx
    exact he.2.inferred
  refine ⟨.map (Manager.inferred_lubOf hst hks) (Manager.inferred_lubOf hst hxs),
    forall_applications (fun p hp => ?_) nofun,
    fun hnames => forall_applications (fun p hp => ?_) nofun, depth_le fun p hp => ?_⟩
  · obtain ⟨e, -, he | he⟩ := hparts p hp
    · exact he.declared
    · exact he.declared
  · obtain ⟨e, hmem, he | he⟩ := hparts p hp
    · exact he.spelled (hnames.entry e hmem).1
    · exact he.spelled (hnames.entry e hmem).2
  · obtain ⟨e, hmem, he⟩ := hparts p hp
    obtain ⟨hk, hx⟩ := Nat.max_le.1 (Derivation.depthEntries_le.1 (Nat.le_refl _) e hmem)
    rcases he with he | he
    · exact he.depth.trans hk
    · exact he.depth.trans hx

end ReadFrom

theorem inherits_readFrom (r : Reader) (hst : st.Reachable) :
    Derivation.Inherits r st m fun d v => v.ReadFrom st m d where
  scalar := .scalar
  bracket _ _ := .bracket hst
  map _ _ _ := .map hst

end Value

end ValueAlgebra
