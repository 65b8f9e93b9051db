import ValueAlgebra.Proofs.Completes
import ValueAlgebra.Proofs.Store.Valid

/-!
# Merging all or nothing

A merge checks first and declares afterwards. It fails exactly if a declaration of the other store
conflicts with the store, and then before anything has changed: while the other store's declarations
go in one after the other, those still to come keep agreeing with what is there, since they agree
with each other. The order of the walk does not matter for any of this.

## Main definitions

- `Store.Conflicts`: some declaration of another store disagrees with the store
- `Store.Agrees`: none does
- `Store.checkAll`: one pass of checks
-/

namespace ValueAlgebra

namespace Store

variable {s other : Store} {w : Walk}

/-- A declaration of the other store disagrees with one of the same name. -/
inductive Conflicts (s other : Store) : Prop
  | alias_adt {name : String} {a old : Ty} (ha : other.findAlias? name = some a)
    (hs : s.findAdt? name = some old) : Conflicts s other
  /-- Two aliases whose definitions, with aliases stripped, are not the same reference. -/
  | alias_alias {name : String} {a old : Ty} (ha : other.findAlias? name = some a)
    (hs : s.findAlias? name = some old) (hne : old.unalias ≠ a.unalias) : Conflicts s other
  | adt_alias {name : String} {a old : Ty} (ha : other.findAdt? name = some a)
    (hs : s.findAlias? name = some old) : Conflicts s other
  /-- Two data types of different structure. -/
  | adt_adt {name : String} {a old : Ty} (ha : other.findAdt? name = some a)
    (hs : s.findAdt? name = some old) (hne : old.sameShape a = false) : Conflicts s other

/-- Every alias and data type of the other store may be declared. -/
structure Agrees (s other : Store) : Prop where
  aliases : ∀ name a, other.findAlias? name = some a →
    s.findAdt? name = none ∧ ∀ old, s.findAlias? name = some old → old.unalias = a.unalias
  adts : ∀ name a, other.findAdt? name = some a →
    s.findAlias? name = none ∧ ∀ old, s.findAdt? name = some old → old.sameShape a = true

theorem Agrees.not_conflicts (h : s.Agrees other) : ¬s.Conflicts other := by
  rintro (⟨ha, hs⟩ | ⟨ha, hs, hne⟩ | ⟨ha, hs⟩ | ⟨ha, hs, hne⟩)
  · cases hs.symm.trans (h.aliases _ _ ha).1
  · exact hne ((h.aliases _ _ ha).2 _ hs)
  · cases hs.symm.trans (h.adts _ _ ha).1
  · cases hne.symm.trans ((h.adts _ _ ha).2 _ hs)

/-! ### The checks -/

/-- An alias is refused for a data type of its name or for another definition. -/
theorem checkAlias_eq_ok {o : Origin} {name : String} {target : Ty} :
    (∃ r, s.checkAlias (.aliased o name target) = .ok r) ↔ s.findAdt? name = none ∧
      ∀ old, s.findAlias? name = some old →
        old.unalias = (Ty.aliased o name target).unalias := by
  cases hadt : s.findAdt? name with
  | some adt => simp [checkAlias, hadt]
  | none =>
    cases halias : s.findAlias? name with
    | none => simp [checkAlias, hadt, halias]
    | some old =>
      by_cases h : old.unalias = target.unalias <;> simp [checkAlias, hadt, halias, h]

/-- A data type is refused for an alias of its name or for another structure. -/
theorem checkAdt_eq_ok {o : Origin} {name : String} {params : List Ty} :
    (∃ r, s.checkAdt (.adt o name params) = .ok r) ↔ s.findAlias? name = none ∧
      ∀ old, s.findAdt? name = some old → old.sameShape (.adt o name params) = true := by
  cases halias : s.findAlias? name with
  | some old => simp [checkAdt, halias]
  | none =>
    cases hadt : s.findAdt? name with
    | none => simp [checkAdt, halias, hadt]
    | some old =>
      by_cases h : old.sameShape (.adt o name params) = true <;> simp [checkAdt, halias, hadt, h]

/-- Checks types one after the other, in the store as it is. -/
def checkAll (check : Store → Ty → Except TypeError (Option Ty)) (types : List Ty) :
    Declaring Unit :=
  types.forM fun a => do discard (ofExcept (check (← get) a))

theorem checkWalk_eq (w : Walk) :
    checkWalk w = checkAll checkAlias w.aliases >>= fun _ => checkAll checkAdt w.adts := rfl

/-- A pass stops at the first type refused, and it changes nothing. -/
theorem checkAll_apply (check : Store → Ty → Except TypeError (Option Ty)) (types : List Ty)
    (s : Store) :
    (checkAll check types s = .ok () s ∧ ∀ a ∈ types, ∃ r, check s a = .ok r) ∨
      ∃ e, checkAll check types s = .error e s ∧ ∃ a ∈ types, ¬∃ r, check s a = .ok r := by
  induction types with
  | nil => exact .inl ⟨rfl, nofun⟩
  | cons a types ih =>
    have hcons : checkAll check (a :: types) s =
        match check s a with
        | .ok _ => checkAll check types s
        | .error e => .error e s := by
      show (discard (ofExcept (check s a)) >>= fun _ => checkAll check types : Declaring Unit) s = _
      cases check s a <;> rfl
    rw [hcons]
    cases ha : check s a with
    | error e => exact .inr ⟨e, rfl, a, List.mem_cons_self, by simp [ha]⟩
    | ok r =>
      rcases ih with ⟨hrun, hall⟩ | ⟨e, hrun, b, hb, hbad⟩
      · exact .inl ⟨hrun, List.forall_mem_cons.2 ⟨⟨r, ha⟩, hall⟩⟩
      · exact .inr ⟨e, hrun, b, List.mem_cons_of_mem a hb, hbad⟩

/-- What is refused conflicts with something of its name. -/
theorem Conflicts.of_checkAlias {name : String} {a : Ty} (ho : other.Valid)
    (ha : other.findAlias? name = some a) (h : ¬∃ r, s.checkAlias a = .ok r) :
    s.Conflicts other := by
  obtain ⟨o, target, rfl⟩ := ho.alias_eq name a ha
  rw [checkAlias_eq_ok] at h
  cases hadt : s.findAdt? name with
  | some old => exact .alias_adt ha hadt
  | none =>
    obtain ⟨old, h⟩ := Classical.not_forall.1 fun hall => h ⟨hadt, hall⟩
    obtain ⟨hold, hne⟩ := Classical.not_imp.1 h
    exact .alias_alias ha hold hne

theorem Conflicts.of_checkAdt {name : String} {a : Ty} (ho : other.Valid)
    (ha : other.findAdt? name = some a) (h : ¬∃ r, s.checkAdt a = .ok r) :
    s.Conflicts other := by
  obtain ⟨o, params, rfl⟩ := ho.adt_eq name a ha
  rw [checkAdt_eq_ok] at h
  cases halias : s.findAlias? name with
  | some old => exact .adt_alias ha halias
  | none =>
    obtain ⟨old, h⟩ := Classical.not_forall.1 fun hall => h ⟨halias, hall⟩
    obtain ⟨hold, hne⟩ := Classical.not_imp.1 h
    exact .adt_adt ha hold (Bool.eq_false_iff.2 hne)

/-- Checking succeeds or fails without a trace, and it fails exactly on conflicts. -/
theorem checkWalk_apply (ho : other.Valid) (hw : w.Covers other) (s : Store) :
    (checkWalk w s = .ok () s ∧ s.Agrees other) ∨
      ∃ e, checkWalk w s = .error e s ∧ s.Conflicts other := by
  rw [checkWalk_eq]
  show (EStateM.bind (checkAll checkAlias w.aliases) _ s = _ ∧ _) ∨ ∃ e, EStateM.bind _ _ s = _ ∧ _
  unfold EStateM.bind
  rcases checkAll_apply checkAlias w.aliases s with ⟨hrun, haliases⟩ | ⟨e, hrun, a, ha, hbad⟩
  · rw [hrun]
    rcases checkAll_apply checkAdt w.adts s with ⟨hrun', hadts⟩ | ⟨e, hrun', a, ha, hbad⟩
    · refine .inl ⟨hrun', fun name a ha => ?_, fun name a ha => ?_⟩
      · have hok := haliases a (hw.mem_aliases.2 ⟨name, ha⟩)
        obtain ⟨o, target, rfl⟩ := ho.alias_eq name a ha
        exact checkAlias_eq_ok.1 hok
      · have hok := hadts a (hw.mem_adts.2 ⟨name, ha⟩)
        obtain ⟨o, params, rfl⟩ := ho.adt_eq name a ha
        exact checkAdt_eq_ok.1 hok
    · obtain ⟨name, ha⟩ := hw.mem_adts.1 ha
      exact .inr ⟨e, hrun', .of_checkAdt ho ha hbad⟩
  · rw [hrun]
    obtain ⟨name, ha⟩ := hw.mem_aliases.1 ha
    exact .inr ⟨e, rfl, .of_checkAlias ho ha hbad⟩

/-! ### The declarations -/

/-- The data type of that name is declared, up to its origins. -/
def Declares (s : Store) (a : Ty) : Prop :=
  ∀ name, a.name? = some name → ∃ old, s.findAdt? name = some old ∧ old.sameShape a = true

/-- An alias that agrees with the store goes in, and the others of its store still agree. -/
theorem Agrees.completes_declareAlias (ho : other.Valid) {name : String} {a : Ty}
    (ha : other.findAlias? name = some a) :
    Completes (Agrees · other) (declareAlias a) (Agrees · other) := by
  intro s h
  obtain ⟨o, target, rfl⟩ := ho.alias_eq name a ha
  obtain ⟨r, hr⟩ := checkAlias_eq_ok.2 (h.aliases name _ ha)
  rw [declareAlias_apply, hr]
  cases r with
  | some old => exact ⟨old, s, rfl, h⟩
  | none =>
    refine ⟨_, _, rfl, fun n b hb => ⟨(h.aliases n b hb).1, fun old hold => ?_⟩,
      fun n b hb => ⟨?_, (h.adts n b hb).2⟩⟩
    · rw [findAlias?_addAlias] at hold
      by_cases hn : compare name n = .eq
      · -- The other store has no second alias of this name.
        obtain rfl := Std.LawfulEqCmp.eq_of_compare hn
        rw [if_pos hn] at hold
        rw [← Option.some.inj hold, Option.some.inj (ha.symm.trans hb)]
      · rw [if_neg hn] at hold
        exact (h.aliases n b hb).2 old hold
    · rw [findAlias?_addAlias]
      by_cases hn : compare name n = .eq
      · -- Nor has it a data type of this name.
        obtain rfl := Std.LawfulEqCmp.eq_of_compare hn
        rcases ho.disjoint name with hnone | hnone
        · cases hnone.symm.trans ha
        · cases hnone.symm.trans hb
      · rw [if_neg hn]
        exact (h.adts n b hb).1

/-- A data type that agrees with the store is declared afterwards. -/
theorem Agrees.completes_declareAdt (ho : other.Valid) {name : String} {a : Ty}
    (ha : other.findAdt? name = some a) :
    Completes (Agrees · other) (declareAdt a) fun s => s.Agrees other ∧ s.Declares a := by
  intro s h
  obtain ⟨o, params, rfl⟩ := ho.adt_eq name a ha
  obtain ⟨halias, hsame⟩ := h.adts name _ ha
  have hdeclares {s : Store} {old : Ty} (hold : s.findAdt? name = some old)
      (hs : old.sameShape (.adt o name params) = true) : s.Declares (.adt o name params) := by
    intro n hn
    obtain rfl : name = n := Option.some.inj hn
    exact ⟨old, hold, hs⟩
  rw [declareAdt_apply]
  cases hadt : s.findAdt? name with
  | some old =>
    have hcheck : s.checkAdt (.adt o name params) = .ok (some old) := by
      simp [checkAdt, halias, hadt, hsame old hadt]
    rw [hcheck]
    exact ⟨old, s, rfl, h, hdeclares hadt (hsame old hadt)⟩
  | none =>
    have hcheck : s.checkAdt (.adt o name params) = .ok none := by
      simp [checkAdt, halias, hadt]
    rw [hcheck]
    have hfound : (s.addAdt (.adt o name params)).findAdt? name = some (.adt o name params) := by
      rw [findAdt?_addAdt, if_pos Std.ReflCmp.compare_self]
    refine ⟨_, _, rfl, ⟨fun n b hb => ⟨?_, (h.aliases n b hb).2⟩,
      fun n b hb => ⟨(h.adts n b hb).1, fun old hold => ?_⟩⟩, hdeclares hfound (by simp)⟩
    · rw [findAdt?_addAdt]
      by_cases hn : compare name n = .eq
      · -- The other store has no alias of this name.
        obtain rfl := Std.LawfulEqCmp.eq_of_compare hn
        rcases ho.disjoint name with hnone | hnone
        · cases hnone.symm.trans hb
        · cases hnone.symm.trans ha
      · rw [if_neg hn]
        exact (h.aliases n b hb).1
    · rw [findAdt?_addAdt] at hold
      by_cases hn : compare name n = .eq
      · obtain rfl := Std.LawfulEqCmp.eq_of_compare hn
        rw [if_pos hn] at hold
        rw [← Option.some.inj hold, Option.some.inj (ha.symm.trans hb)]
        exact Ty.sameShape_self b
      · rw [if_neg hn] at hold
        exact (h.adts n b hb).2 old hold

/-- What is declared stays declared. -/
theorem keeps_declares_declareAdt (a b : Ty) : Keeps (Declares · a) (declareAdt b) := by
  intro s h
  rw [stateAfter_declareAdt]
  split
  · next hcheck =>
    obtain ⟨o, name, params, rfl, -, hnone⟩ := checkAdt_eq_none hcheck
    intro n hn
    obtain ⟨old, hold, hs⟩ := h n hn
    refine ⟨old, ?_, hs⟩
    rw [findAdt?_addAdt, if_neg, hold]
    intro hcompare
    obtain rfl := Std.LawfulEqCmp.eq_of_compare hcompare
    cases hnone.symm.trans hold
  · exact h

/-- A constructor goes in where its data type is declared. -/
theorem completes_declareConstructor (P : Store → Prop) {o : Origin} {owner adt : Ty}
    {name n : String} {fields : List (Field Ty)} (hadt : ∃ o params, adt = .adt o name params)
    (hs : adt.sameShape owner = true)
    (hP : ∀ s c, P s → P (s.addConstructor name c)) (hdecl : ∀ s, P s → s.Declares adt) :
    Completes P (declareConstructor (.constructor o owner n fields)) P := by
  intro s h
  obtain ⟨o', params, rfl⟩ := hadt
  -- The owner is a data type of the same name, since it has the structure of one.
  obtain ⟨o'', params', rfl⟩ : ∃ o params, owner = .adt o name params := by
    cases owner <;> simp [Ty.sameShape] at hs
    exact ⟨_, _, by rw [hs.1]⟩
  obtain ⟨old, hold, hs'⟩ := hdecl s h name rfl
  have hany : (s.findAdt? name).any (·.sameShape (.adt o'' name params')) = true := by
    rw [hold]
    exact Ty.sameShape_iff.2 ((Ty.sameShape_iff.1 hs').trans (Ty.sameShape_iff.1 hs))
  rw [declareConstructor_apply, if_pos hany]
  split
  · next old _ => exact ⟨old, s, rfl, h⟩
  · exact ⟨_, _, rfl, hP s _ h⟩

/-- Once a store agrees with another, none of the three passes fails. -/
theorem Agrees.completes_declareWalk (ho : other.Valid) (hw : w.Covers other) :
    Completes (Agrees · other) (declareWalk w) fun _ => True := by
  have haliases : Completes (Agrees · other) (w.aliases.forM fun a => discard (declareAlias a))
      (Agrees · other) := by
    refine .forM fun a ha => ?_
    obtain ⟨name, ha⟩ := hw.mem_aliases.1 ha
    exact (Agrees.completes_declareAlias ho ha).discard
  have hadts : Completes (Agrees · other) (w.adts.forM fun a => discard (declareAdt a))
      fun s => s.Agrees other ∧ ∀ a ∈ w.adts, s.Declares a := by
    refine .forM_each (fun a ha => ?_) fun a _ b _ => (keeps_declares_declareAdt a b).discard
    obtain ⟨name, ha⟩ := hw.mem_adts.1 ha
    exact (Agrees.completes_declareAdt ho ha).discard
  have hconstructors : Completes (fun s => s.Agrees other ∧ ∀ a ∈ w.adts, s.Declares a)
      (w.constructors.forM fun cs => cs.forM fun c => discard (declareConstructor c))
      fun s => s.Agrees other ∧ ∀ a ∈ w.adts, s.Declares a := by
    refine .forM fun cs hcs => .forM fun c hc => ?_
    obtain ⟨name, hcs⟩ := hw.mem_constructors.1 hcs
    obtain ⟨adt, hadt, howned, -⟩ := ho.constructors name cs hcs
    obtain ⟨o, owner, n, fields, rfl, hs⟩ := howned c hc
    refine (completes_declareConstructor _ (ho.adt_eq name adt hadt) hs ?_ ?_).discard
    · exact fun s c h => ⟨⟨h.1.aliases, h.1.adts⟩, h.2⟩
    · exact fun s h => h.2 adt (hw.mem_adts.2 ⟨name, hadt⟩)
  refine haliases.bind fun _ => hadts.bind fun _ s hs => ?_
  obtain ⟨u, s', hrun, -⟩ := hconstructors s hs
  exact ⟨u, s', hrun, trivial⟩

/-! ### The whole merge -/

theorem mergeWalk_apply (w : Walk) (s : Store) : mergeWalk w s =
    match checkWalk w s with
    | .ok _ s' => declareWalk w s'
    | .error e s' => .error e s' := by
  show EStateM.bind (checkWalk w) (fun _ => declareWalk w) s = _
  unfold EStateM.bind
  cases checkWalk w s <;> rfl

/-- A merge that fails has changed nothing, and it fails exactly on conflicts. What the checks let
through no pass refuses, even in another order. -/
theorem Reachable.mergeWalk_eq_error_iff (ho : other.Reachable) (hw : w.Covers other) :
    ((∃ e s', mergeWalk w s = .error e s') ↔ s.Conflicts other) ∧
      (∀ e s', mergeWalk w s = .error e s' → s' = s) ∧
      ∀ s', checkWalk w s = .ok () s' → ∀ w' : Walk, w'.Covers other →
        ∃ s'', declareWalk w' s' = .ok () s'' := by
  rcases checkWalk_apply ho.valid hw s with ⟨hcheck, hagrees⟩ | ⟨e, hcheck, hconflicts⟩
  · have hdeclare {w' : Walk} (hw' : w'.Covers other) : ∃ s'', declareWalk w' s = .ok () s'' := by
      obtain ⟨_, s'', hrun, -⟩ := Agrees.completes_declareWalk ho.valid hw' s hagrees
      exact ⟨s'', hrun⟩
    obtain ⟨s'', hrun⟩ := hdeclare hw
    rw [mergeWalk_apply, hcheck]
    refine ⟨⟨?_, fun h => absurd h hagrees.not_conflicts⟩, ?_, ?_⟩
    · rintro ⟨e, s', he⟩
      cases hrun.symm.trans he
    · intro e s' he
      cases hrun.symm.trans he
    · intro s' hs' w' hw'
      cases hs'
      exact hdeclare hw'
  · rw [mergeWalk_apply, hcheck]
    refine ⟨⟨fun _ => hconflicts, fun _ => ⟨e, s, rfl⟩⟩, ?_, ?_⟩
    · intro e' s' he
      exact (EStateM.Result.error.inj he).2.symm
    · intro s' hs'
      cases hs'

namespace Forest

/-- The alias `Label` once more, of the other manager's `str`. -/
def relabeled : Store := stateAfter (second.declareAlias "Label" second.str) ∅

theorem conflicts_relabeled : relabeled.Conflicts grafted := by
  have hlabel : grafted.findAlias? "Label" = some (first.aliased "Label" first.str) := rfl
  have hne : second.str.unalias ≠ first.str.unalias := by decide
  exact .alias_alias hlabel rfl hne

theorem checkWalk_planted : checkWalk grafted.walk planted = .ok () planted := rfl

end Forest

open Forest in
/-- The alias conflicts although both definitions are `str`; the data types agree although each
manager has its own. -/
theorem merge_grafted :
    (∃ e s', mergeWalk grafted.walk relabeled = .error e s' ∧ s' = relabeled) ∧
      ∃ s'', declareWalk grafted.walk planted = .ok () s'' := by
  have hcovers : grafted.walk.Covers grafted := ⟨.refl _, .refl _, .refl _⟩
  obtain ⟨hfails, hkeeps, -⟩ := reachable_grafted.mergeWalk_eq_error_iff (s := relabeled) hcovers
  obtain ⟨e, s', he⟩ := hfails.2 conflicts_relabeled
  obtain ⟨-, -, hcompletes⟩ := reachable_grafted.mergeWalk_eq_error_iff (s := planted) hcovers
  exact ⟨⟨e, s', he, hkeeps e s' he⟩, hcompletes planted checkWalk_planted _ hcovers⟩

end Store

end ValueAlgebra
