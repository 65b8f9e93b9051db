import ValueAlgebra.Proofs.Store.Construction

/-!
# Validity of stores

The three maps of a store agree with each other after any declarations and merges: a name stands for
an alias or for a data type, every entry is found under the name that it carries, and constructors
are listed under the declared data type that they belong to, each once. A declaration that is
refused changes nothing.

Stores are values, so that a copy of a store is the store itself, and what holds of every store that
declarations and merges lead to holds of every copy made on the way.

## Main definitions

- `Declaration`: what a manager can be asked to declare
- `Store.Valid`: what all stores that programs can hold have in common
-/

namespace ValueAlgebra

/-- A declaration, with the types in it given as `τ`. -/
inductive Declaration (τ : Type)
  | aliased (name : String) (target : τ)
  | adt (name : String) (params : List τ)
  | constructor (owner : τ) (name : String) (fields : List (Field τ))

/-- Has a manager make the declaration in a store. -/
def Declaration.declare (m : Manager) : Declaration Ty → Declaring Ty
  | aliased name target => m.declareAlias name target
  | adt name params => m.declareAdt name params
  | constructor owner name fields => m.declareConstructor owner name fields

/-- A refused declaration leaves the store as it was. -/
theorem Declaration.eq_of_declare_eq_error {m : Manager} {d : Declaration Ty} {s s' : Store}
    {e : TypeError} (h : d.declare m s = .error e s') : s' = s := by
  cases d with
  | aliased name target =>
    rw [declare, Manager.declareAlias, Store.declareAlias_apply] at h
    split at h
    · exact (EStateM.Result.error.inj h).2.symm
    · cases h
    · cases h
  | adt name params =>
    rw [declare, Manager.declareAdt, Store.declareAdt_apply] at h
    split at h
    · exact (EStateM.Result.error.inj h).2.symm
    · cases h
    · cases h
  | constructor owner name fields =>
    cases owner with
    | adt o adtName params =>
      rw [declare, Manager.declareConstructor, Manager.constructor,
        Store.declareConstructor_apply] at h
      split at h
      · split at h <;> cases h
      · exact (EStateM.Result.error.inj h).2.symm
    -- Only a data type itself may own constructors.
    | _ => exact (EStateM.Result.error.inj h).2.symm

namespace Store

variable {s s' : Store}

theorem findAlias?_addAlias {o : Origin} {name n : String} {target : Ty} :
    (s.addAlias (.aliased o name target)).findAlias? n =
      if compare name n = .eq then some (.aliased o name target) else s.findAlias? n :=
  Std.ExtTreeMap.getElem?_insert

/-! ### Names -/

/-- A name is that of an alias or of a data type, and an alias carries the name it is found by. -/
structure Named (s : Store) : Prop where
  disjoint : ∀ name, s.findAlias? name = none ∨ s.findAdt? name = none
  alias_eq : ∀ name a, s.findAlias? name = some a → ∃ o target, a = .aliased o name target

namespace Named

theorem empty : Named ∅ where
  disjoint _ := .inl Std.ExtTreeMap.getElem?_empty
  alias_eq _ _ h := nomatch h.symm.trans Std.ExtTreeMap.getElem?_empty

theorem addAlias {o : Origin} {name : String} {target : Ty} (h : s.Named)
    (hadt : s.findAdt? name = none) : (s.addAlias (.aliased o name target)).Named where
  disjoint n := by
    by_cases hn : compare name n = .eq
    · obtain rfl := Std.LawfulEqCmp.eq_of_compare hn
      exact .inr hadt
    · rw [findAlias?_addAlias, if_neg hn]
      exact h.disjoint n
  alias_eq n a ha := by
    rw [findAlias?_addAlias] at ha
    by_cases hn : compare name n = .eq
    · rw [if_pos hn] at ha
      obtain rfl := Std.LawfulEqCmp.eq_of_compare hn
      exact ⟨o, target, (Option.some.inj ha).symm⟩
    · rw [if_neg hn] at ha
      exact h.alias_eq n a ha

theorem addAdt {o : Origin} {name : String} {params : List Ty} (h : s.Named)
    (halias : s.findAlias? name = none) : (s.addAdt (.adt o name params)).Named where
  disjoint n := by
    by_cases hn : compare name n = .eq
    · obtain rfl := Std.LawfulEqCmp.eq_of_compare hn
      exact .inl halias
    · rw [findAdt?_addAdt, if_neg hn]
      exact h.disjoint n
  alias_eq := h.alias_eq

end Named

theorem Grows.named (h : s.Grows s') (hs : s.Named) : s'.Named := by
  induction h with
  | refl => exact hs
  | addAlias _ _ hadt _ ih => exact ih.addAlias hadt
  | addAdt _ _ halias _ ih => exact ih.addAdt halias
  | addConstructor _ _ _ _ _ ih => exact ⟨ih.disjoint, ih.alias_eq⟩

/-! ### Lists of constructors -/

/-- Every list of constructors holds some, no two of one structure. -/
def Listed (s : Store) : Prop := ∀ (name : String) cs, s.constructors[name]? = some cs →
  cs ≠ [] ∧ cs.Pairwise fun c c' => c.sameShape c' = false

namespace Listed

theorem empty : Listed ∅ := fun _ _ h => nomatch h.symm.trans Std.ExtTreeMap.getElem?_empty

theorem pairwise (h : s.Listed) (name : String) :
    (s.constructors.getD name []).Pairwise fun c c' => c.sameShape c' = false := by
  rw [Std.ExtTreeMap.getD_eq_getD_getElem?]
  cases hcs : s.constructors[name]? with
  | none => exact .nil
  | some cs => exact (h name cs hcs).2

theorem addConstructor {adtName : String} {c : Ty} (h : s.Listed)
    (hnew : ∀ c' ∈ s.constructors.getD adtName [], c'.sameShape c = false) :
    (s.addConstructor adtName c).Listed := by
  intro n cs hcs
  rw [Store.addConstructor, Std.ExtTreeMap.getElem?_insert] at hcs
  by_cases hn : compare adtName n = .eq
  · rw [if_pos hn] at hcs
    obtain rfl := Option.some.inj hcs
    refine ⟨List.append_ne_nil_of_right_ne_nil _ (List.cons_ne_nil c []), ?_⟩
    refine List.pairwise_append.2 ⟨h.pairwise adtName, List.pairwise_singleton _ c, ?_⟩
    intro c' hc' d hd
    rw [List.mem_singleton.1 hd]
    exact hnew c' hc'
  · rw [if_neg hn] at hcs
    exact h n cs hcs

end Listed

theorem Grows.listed (h : s.Grows s') (hs : s.Listed) : s'.Listed := by
  induction h with
  | refl => exact hs
  | addAlias _ _ _ _ ih => exact ih
  | addAdt _ _ _ _ ih => exact ih
  | addConstructor _ _ _ _ hnew ih => exact ih.addConstructor hnew

/-! ### All together -/

structure Valid (s : Store) : Prop where
  disjoint : ∀ name, s.findAlias? name = none ∨ s.findAdt? name = none
  alias_eq : ∀ name a, s.findAlias? name = some a → ∃ o target, a = .aliased o name target
  adt_eq : ∀ name a, s.findAdt? name = some a → ∃ o params, a = .adt o name params
  /-- A list of constructors belongs to a declared data type, which owns all of them up to its
  origins, and no two of them have the same structure. -/
  constructors : ∀ (name : String) cs, s.constructors[name]? = some cs →
    ∃ adt, s.findAdt? name = some adt ∧
      (∀ c ∈ cs, ∃ o owner n fields, c = .constructor o owner n fields ∧
        adt.sameShape owner = true) ∧
      cs.Pairwise fun c c' => c.sameShape c' = false

protected theorem Reachable.valid (h : s.Reachable) : s.Valid where
  disjoint := (h.grows.named .empty).disjoint
  alias_eq := (h.grows.named .empty).alias_eq
  adt_eq := h.consistent.adt_eq
  constructors name cs hcs := by
    obtain ⟨hne, hpairwise⟩ := h.grows.listed .empty name cs hcs
    have hmem : ∀ c ∈ cs, c ∈ s.constructors.getD name [] := by
      rw [Std.ExtTreeMap.getD_eq_getD_getElem?, hcs]
      exact fun c => id
    have howned := h.grows.owned .empty name
    -- Any one of the constructors leads to the data type.
    obtain ⟨c, hc⟩ := List.exists_mem_of_ne_nil cs hne
    obtain ⟨_, _, _, _, adt, -, hadt, -⟩ := howned c (hmem c hc)
    refine ⟨adt, hadt, fun c hc => ?_, hpairwise⟩
    obtain ⟨o, owner, n, fields, adt', rfl, hadt', hs⟩ := howned c (hmem c hc)
    obtain rfl := Option.some.inj (hadt.symm.trans hadt')
    exact ⟨o, owner, n, fields, rfl, hs⟩

/-- Every store that declarations and merges lead to is valid, and a declaration that it refuses
leaves it as it is. -/
theorem Reachable.valid_and_eq_of_error (h : s.Reachable) :
    s.Valid ∧ ∀ (m : Manager) (d : Declaration Ty) (e : TypeError) (s' : Store),
      d.declare m s = .error e s' → s' = s :=
  ⟨h.valid, fun _ _ _ _ => Declaration.eq_of_declare_eq_error⟩

/-! ### Stores of two managers -/

namespace Forest

def first : Manager := ⟨0⟩

def second : Manager := ⟨1⟩

/-- `Tree[int]`, of which every manager has its own. -/
def tree (m : Manager) : Ty := m.adt "Tree" [m.int]

theorem made_tree (m : Manager) : (tree m).Made :=
  .adt _ _ (List.forall_mem_singleton.2 (.basic _ _))

/-- The alias `Label` of `str`, and `Tree[int]` with its constructor `leaf(int)`. -/
def planted : Store :=
  stateAfter (first.declareConstructor (tree first) "leaf" [⟨first.int, none⟩])
    (stateAfter (first.declareAdt "Tree" [first.int])
      (stateAfter (first.declareAlias "Label" first.str) ∅))

theorem reachable_planted : planted.Reachable := by
  have hparams : ∀ t ∈ [first.int], t.Made := List.forall_mem_singleton.2 (.basic _ _)
  have halias : (stateAfter (first.declareAlias "Label" first.str) ∅).Reachable :=
    .declareAlias .empty _ _ (.basic _ _)
  exact .declareConstructor (.declareAdt halias _ _ hparams) _ _ (made_tree first)
    (List.forall_mem_singleton.2 (.basic _ _))

def branches : List (Field Ty) := [⟨tree second, some "left"⟩, ⟨tree second, some "right"⟩]

/-- The constructor `fork` of the other manager's `Tree[int]`, and all that was `planted`. -/
def grafted : Store :=
  stateAfter (mergeWalk planted.walk)
    (stateAfter (second.declareConstructor (tree second) "fork" branches)
      (stateAfter (second.declareAdt "Tree" [second.int]) ∅))

theorem reachable_grafted : grafted.Reachable := by
  have hparams : ∀ t ∈ [second.int], t.Made := List.forall_mem_singleton.2 (.basic _ _)
  have hbranches : ∀ f ∈ branches, f.ty.Made :=
    List.forall_mem_cons.2 ⟨made_tree second, List.forall_mem_singleton.2 (made_tree second)⟩
  have hadt : (stateAfter (second.declareAdt "Tree" [second.int]) ∅).Reachable :=
    .declareAdt .empty _ _ hparams
  exact .merge (.declareConstructor hadt _ _ (made_tree second) hbranches) reachable_planted
    ⟨.refl _, .refl _, .refl _⟩

/-- The name of an alias is not free for a data type. -/
theorem declare_label : ∃ e, (Declaration.adt "Label" []).declare second grafted =
    .error e grafted :=
  ⟨_, rfl⟩

end Forest

open Forest in
theorem grafted_valid : grafted.Valid ∧ grafted.findAdt? "Tree" = some (tree second) ∧
    (grafted.constructorsOf (tree second)).length = 2 ∧
    ∃ e s', (Declaration.adt "Label" []).declare second grafted = .error e s' ∧ s' = grafted := by
  obtain ⟨hvalid, herror⟩ := reachable_grafted.valid_and_eq_of_error
  obtain ⟨e, he⟩ := declare_label
  exact ⟨hvalid, rfl, rfl, e, grafted, he, herror second _ e grafted he⟩

end Store

end ValueAlgebra
