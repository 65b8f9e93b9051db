import Mathlib.Logic.Relation
import ValueAlgebra.Proofs.Store.Valid

/-!
# Lookups that succeeded

A lookup that succeeded keeps its result, whatever is declared or merged afterwards. Lists of
constructors grow at the end only, so that the first overload to accept some arguments stays the
first.

## Main definitions

- `Store.Changes`: one declaration or merge, also one that fails
-/

namespace ValueAlgebra

namespace Store

/-- One declaration or merge, also one that fails. -/
inductive Changes (s : Store) : Store → Prop
  | declareAlias (m : Manager) (name : String) {target : Ty} (ht : target.Made) :
    Changes s (stateAfter (m.declareAlias name target) s)
  | declareAdt (m : Manager) (name : String) {params : List Ty} (hp : ∀ t ∈ params, t.Made) :
    Changes s (stateAfter (m.declareAdt name params) s)
  | declareConstructor (m : Manager) {owner : Ty} (name : String) {fields : List (Field Ty)}
    (ho : owner.Made) (hf : ∀ f ∈ fields, f.ty.Made) :
    Changes s (stateAfter (m.declareConstructor owner name fields) s)
  | merge {other : Store} (ho : other.Reachable) {w : Walk} (hw : w.Covers other) :
    Changes s (stateAfter (mergeWalk w) s)

variable {s s' : Store}

theorem Changes.reachable (h : s.Changes s') (hs : s.Reachable) : s'.Reachable := by
  cases h with
  | declareAlias m name ht => exact hs.declareAlias m name ht
  | declareAdt m name hp => exact hs.declareAdt m name hp
  | declareConstructor m name ho hf => exact hs.declareConstructor m name ho hf
  | merge ho hw => exact hs.merge ho hw

/-- Stores that programs hold are those that changes to the empty store lead to. -/
theorem reachable_iff_changes : s.Reachable ↔ Relation.ReflTransGen Changes ∅ s := by
  constructor
  · intro h
    induction h with
    | empty => exact .refl
    | declareAlias _ m name ht ih => exact ih.tail (.declareAlias m name ht)
    | declareAdt _ m name hp ih => exact ih.tail (.declareAdt m name hp)
    | declareConstructor _ m name ho hf ih => exact ih.tail (.declareConstructor m name ho hf)
    | merge _ ho hw ih => exact ih.tail (.merge ho hw)
  · intro h
    induction h with
    | refl => exact .empty
    | tail _ hstep ih => exact hstep.reachable ih

/-- A change only adds declarations. -/
theorem Changes.grows (h : s.Changes s') : s.Grows s' := by
  cases h with
  | declareAlias m name ht => exact Grows.keeps_declareAlias (.aliased _ name ht.wellFormed) _ .refl
  | declareAdt m name hp =>
    exact Grows.keeps_declareAdt (.adt _ name fun t ht => (hp t ht).wellFormed) _ .refl
  | @declareConstructor m owner name fields ho hf =>
    have hf (f : Field Ty) (h : f ∈ fields) : f.ty.WellFormed := (hf f h).wellFormed
    cases owner with
    | adt => exact Grows.keeps_declareConstructor (.constructor _ name ho.wellFormed hf) _ .refl
    | _ => exact .refl
  | merge ho hw => exact Grows.keeps_mergeWalk ho.consistent hw _ .refl

/-! ### One declaration -/

theorem findAlias?_addAlias_of_some {o : Origin} {name n : String} {target a : Ty}
    (hnew : s.findAlias? name = none) (h : s.findAlias? n = some a) :
    (s.addAlias (.aliased o name target)).findAlias? n = some a := by
  rw [findAlias?_addAlias, if_neg, h]
  intro heq
  obtain rfl := Std.LawfulEqCmp.eq_of_compare heq
  cases hnew.symm.trans h

theorem findAdt?_addAdt_of_some {o : Origin} {name n : String} {params : List Ty} {a : Ty}
    (hnew : s.findAdt? name = none) (h : s.findAdt? n = some a) :
    (s.addAdt (.adt o name params)).findAdt? n = some a := by
  rw [findAdt?_addAdt, if_neg, h]
  intro heq
  obtain rfl := Std.LawfulEqCmp.eq_of_compare heq
  cases hnew.symm.trans h

theorem constructorsOf_prefix_addConstructor (s : Store) (adtName : String) (c adt : Ty) :
    s.constructorsOf adt <+: (s.addConstructor adtName c).constructorsOf adt := by
  unfold constructorsOf
  cases adt.name? with
  | none => exact List.prefix_rfl
  | some n =>
    rw [Option.bind_some, Option.bind_some, addConstructor, Std.ExtTreeMap.getElem?_insert]
    split
    · next heq =>
      obtain rfl := Std.LawfulEqCmp.eq_of_compare heq
      rw [Option.getD_some, Std.ExtTreeMap.getD_eq_getD_getElem?]
      exact List.prefix_append _ _
    · exact List.prefix_rfl

/-! ### Any number of them -/

namespace Grows

theorem findAlias? (h : s.Grows s') {name : String} {a : Ty} (ha : s.findAlias? name = some a) :
    s'.findAlias? name = some a := by
  induction h with
  | refl => exact ha
  | addAlias _ _ _ hnew ih => exact findAlias?_addAlias_of_some hnew ih
  | addAdt _ _ _ _ ih => exact ih
  | addConstructor _ _ _ _ _ ih => exact ih

theorem findAdt? (h : s.Grows s') {name : String} {a : Ty} (ha : s.findAdt? name = some a) :
    s'.findAdt? name = some a := by
  induction h with
  | refl => exact ha
  | addAlias _ _ _ _ ih => exact ih
  | addAdt _ _ _ hnew ih => exact findAdt?_addAdt_of_some hnew ih
  | addConstructor _ _ _ _ _ ih => exact ih

theorem constructorsOf_prefix (h : s.Grows s') (adt : Ty) :
    s.constructorsOf adt <+: s'.constructorsOf adt := by
  induction h with
  | refl => exact List.prefix_rfl
  | addAlias _ _ _ _ ih => exact ih
  | addAdt _ _ _ _ ih => exact ih
  | addConstructor _ _ _ _ _ ih => exact ih.trans (constructorsOf_prefix_addConstructor _ _ _ _)

/-- The first overload that accepts the arguments is still the first. -/
theorem constructorFor? (h : s.Grows s') {adt c : Ty} {name : String} {args : List Ty}
    (hc : s.constructorFor? adt name args = some c) :
    s'.constructorFor? adt name args = some c := by
  obtain ⟨later, hlater⟩ := h.constructorsOf_prefix adt
  have hc : (s.constructorsOf adt).find? (applies name args) = some c := hc
  rw [Store.constructorFor?, ← hlater, List.find?_append, hc, Option.some_or]

end Grows

/-- Whatever is declared in a store and merged into it, whether it succeeds or fails: aliases and
data types that were found are found again, a list of constructors is extended at its end only, and
arguments that a constructor was found for find the same one. -/
theorem lookups_kept (h : Relation.ReflTransGen Changes s s') :
    (∀ name a, s.findAlias? name = some a → s'.findAlias? name = some a) ∧
    (∀ name a, s.findAdt? name = some a → s'.findAdt? name = some a) ∧
    (∀ adt, s.constructorsOf adt <+: s'.constructorsOf adt) ∧
    ∀ adt name args c, s.constructorFor? adt name args = some c →
      s'.constructorFor? adt name args = some c := by
  induction h with
  | refl => exact ⟨fun _ _ => id, fun _ _ => id, fun _ => List.prefix_rfl, fun _ _ _ _ => id⟩
  | tail _ hstep ih =>
    obtain ⟨haliases, hadts, hlists, hconstructors⟩ := ih
    have hgrows := hstep.grows
    exact ⟨fun name a ha => hgrows.findAlias? (haliases name a ha),
      fun name a ha => hgrows.findAdt? (hadts name a ha),
      fun adt => (hlists adt).trans (hgrows.constructorsOf_prefix adt),
      fun adt name args c hc => hgrows.constructorFor? (hconstructors adt name args c hc)⟩

namespace Forest

/-- What `planted` becomes by merging the trees of the other manager, by an attempt to declare a
data type under the name of its alias and by an overload of `leaf` that accepts any value. -/
def overgrown : Store :=
  stateAfter (second.declareConstructor (tree second) "leaf" [⟨second.value, none⟩])
    (stateAfter (second.declareAdt "Label" []) (stateAfter (mergeWalk grafted.walk) planted))

theorem changes_planted : Relation.ReflTransGen Changes planted overgrown := by
  have hmerge : planted.Changes (stateAfter (mergeWalk grafted.walk) planted) :=
    .merge reachable_grafted ⟨.refl _, .refl _, .refl _⟩
  exact .tail (.tail (.single hmerge) (.declareAdt second "Label" (List.forall_mem_nil _)))
    (.declareConstructor second "leaf" (made_tree second)
      (List.forall_mem_singleton.2 (.basic _ _)))

/-- The constructor `leaf(int)`. -/
def leaf : Ty := first.constructor (tree first) "leaf" [⟨first.int, none⟩]

end Forest

open Forest in
/-- `leaf` of a number is what it was, although a third constructor accepts numbers too. -/
theorem lookups_kept_overgrown :
    overgrown.findAlias? "Label" = some (first.aliased "Label" first.str) ∧
    overgrown.findAdt? "Tree" = some (tree first) ∧
    planted.constructorsOf (tree first) <+: overgrown.constructorsOf (tree first) ∧
    (overgrown.constructorsOf (tree first)).length = 3 ∧
    overgrown.constructorFor? (tree first) "leaf" [second.int] = some leaf := by
  obtain ⟨haliases, hadts, hlists, hconstructors⟩ := lookups_kept changes_planted
  exact ⟨haliases _ _ rfl, hadts _ _ rfl, hlists _, rfl, hconstructors _ _ _ _ rfl⟩

end Store

end ValueAlgebra
