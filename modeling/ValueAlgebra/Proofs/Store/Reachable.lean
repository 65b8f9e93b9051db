import ValueAlgebra.Proofs.Keeps
import ValueAlgebra.Proofs.Ty.Made
import ValueAlgebra.Store.Merge

/-!
# Stores that declarations reach

A store grows from the empty one by declarations and merges, some of which fail. Whatever a
program does to a store, it adds to it one declaration after the other, each of them new and in
agreement with those before: `Store.Grows` says so once, and invariants of stores are derived from
it. Every name leads to a declaration of that name, every constructor is filed under its data type,
which is declared, and every type is well formed.

## Main definitions

- `Store.Reachable`: the stores that programs can hold
- `Store.Grows`: additions to a store
- `Store.Consistent`: what holds of all stores that programs can hold
-/

namespace ValueAlgebra

/-- A walk through all declarations of a store, in any order. -/
structure Walk.Covers (w : Walk) (s : Store) : Prop where
  aliases : w.aliases.Perm s.walk.aliases
  adts : w.adts.Perm s.walk.adts
  constructors : w.constructors.Perm s.walk.constructors

theorem mem_values_toList {ν : Type} {t : Std.ExtTreeMap String ν} {x : ν} :
    x ∈ t.toList.map Prod.snd ↔ ∃ name : String, t[name]? = some x := by
  constructor
  · intro hx
    obtain ⟨⟨name, x⟩, he, rfl⟩ := List.mem_map.1 hx
    exact ⟨name, Std.ExtTreeMap.mem_toList_iff_getElem?_eq_some.1 he⟩
  · rintro ⟨name, hx⟩
    exact List.mem_map.2 ⟨(name, x), Std.ExtTreeMap.mem_toList_iff_getElem?_eq_some.2 hx, rfl⟩

namespace Walk.Covers

variable {w : Walk} {s : Store}

theorem mem_aliases (hw : w.Covers s) {a : Ty} :
    a ∈ w.aliases ↔ ∃ name, s.findAlias? name = some a :=
  hw.aliases.mem_iff.trans mem_values_toList

theorem mem_adts (hw : w.Covers s) {a : Ty} :
    a ∈ w.adts ↔ ∃ name, s.findAdt? name = some a :=
  hw.adts.mem_iff.trans mem_values_toList

theorem mem_constructors (hw : w.Covers s) {cs : List Ty} :
    cs ∈ w.constructors ↔ ∃ name : String, s.constructors[name]? = some cs :=
  hw.constructors.mem_iff.trans mem_values_toList

end Walk.Covers

namespace Store

/-- The stores that declarations and merges lead to, also where one of them fails. -/
inductive Reachable : Store → Prop
  | empty : Reachable ∅
  | declareAlias {s : Store} (h : Reachable s) (m : Manager) (name : String) {target : Ty}
    (ht : target.Made) : Reachable (stateAfter (m.declareAlias name target) s)
  | declareAdt {s : Store} (h : Reachable s) (m : Manager) (name : String) {params : List Ty}
    (hp : ∀ t ∈ params, t.Made) : Reachable (stateAfter (m.declareAdt name params) s)
  | declareConstructor {s : Store} (h : Reachable s) (m : Manager) {owner : Ty} (name : String)
    {fields : List (Field Ty)} (ho : owner.Made) (hf : ∀ f ∈ fields, f.ty.Made) :
    Reachable (stateAfter (m.declareConstructor owner name fields) s)
  | merge {s other : Store} (h : Reachable s) (ho : Reachable other) {w : Walk}
    (hw : w.Covers other) : Reachable (stateAfter (mergeWalk w) s)

/-- Declarations were added one after the other, none under a name that was taken, and no
constructor of another data type than the one declared. -/
inductive Grows (s : Store) : Store → Prop
  | refl : Grows s s
  | addAlias {s' : Store} {o : Origin} {name : String} {target : Ty} (h : Grows s s')
    (ht : (Ty.aliased o name target).WellFormed) (hadt : s'.findAdt? name = none)
    (halias : s'.findAlias? name = none) : Grows s (s'.addAlias (.aliased o name target))
  | addAdt {s' : Store} {o : Origin} {name : String} {params : List Ty} (h : Grows s s')
    (ha : (Ty.adt o name params).WellFormed) (halias : s'.findAlias? name = none)
    (hadt : s'.findAdt? name = none) : Grows s (s'.addAdt (.adt o name params))
  | addConstructor {s' : Store} {o o' : Origin} {adtName n : String} {ps : List Ty}
    {fs : List (Field Ty)} {adt : Ty} (h : Grows s s')
    (hc : (Ty.constructor o (.adt o' adtName ps) n fs).WellFormed)
    (hadt : s'.findAdt? adtName = some adt) (hs : adt.sameShape (.adt o' adtName ps) = true)
    (hnew : ∀ c ∈ s'.constructors.getD adtName [],
      c.sameShape (.constructor o (.adt o' adtName ps) n fs) = false) :
    Grows s (s'.addConstructor adtName (.constructor o (.adt o' adtName ps) n fs))

/-- Declarations are found under their own names, and constructors where their data type is. -/
structure Consistent (s : Store) : Prop where
  alias_wellFormed : ∀ name a, s.findAlias? name = some a → a.WellFormed
  adt_eq : ∀ name a, s.findAdt? name = some a → ∃ o ps, a = .adt o name ps
  adt_wellFormed : ∀ name a, s.findAdt? name = some a → a.WellFormed
  constructor_eq : ∀ name, ∀ c ∈ s.constructors.getD name [],
    ∃ o o' ps n fs, c = .constructor o (.adt o' name ps) n fs
  constructor_wellFormed : ∀ name, ∀ c ∈ s.constructors.getD name [], c.WellFormed
  constructor_declared : ∀ name, ∀ c ∈ s.constructors.getD name [], (s.findAdt? name).isSome = true

variable {s : Store}

/-! ### What declarations do to a store -/

theorem declareAlias_apply (a : Ty) (s : Store) : declareAlias a s =
    match s.checkAlias a with
    | .error e => .error e s
    | .ok (some old) => .ok old s
    | .ok none => .ok a (s.addAlias a) := by
  show (ofExcept (s.checkAlias a) >>= _ : Declaring Ty) s = _
  cases s.checkAlias a with
  | error e => rfl
  | ok old => cases old <;> rfl

theorem declareAdt_apply (a : Ty) (s : Store) : declareAdt a s =
    match s.checkAdt a with
    | .error e => .error e s
    | .ok (some old) => .ok old s
    | .ok none => .ok a (s.addAdt a) := by
  show (ofExcept (s.checkAdt a) >>= _ : Declaring Ty) s = _
  cases s.checkAdt a with
  | error e => rfl
  | ok old => cases old <;> rfl

theorem stateAfter_declareAlias (a : Ty) :
    stateAfter (declareAlias a) s = match s.checkAlias a with
      | .ok none => s.addAlias a
      | _ => s := by
  rw [stateAfter, declareAlias_apply]
  cases s.checkAlias a with
  | error e => rfl
  | ok old => cases old <;> rfl

theorem stateAfter_declareAdt (a : Ty) :
    stateAfter (declareAdt a) s = match s.checkAdt a with
      | .ok none => s.addAdt a
      | _ => s := by
  rw [stateAfter, declareAdt_apply]
  cases s.checkAdt a with
  | error e => rfl
  | ok old => cases old <;> rfl

theorem findAdt?_addAdt {o : Origin} {name n : String} {params : List Ty} :
    (s.addAdt (.adt o name params)).findAdt? n =
      if compare name n = .eq then some (.adt o name params) else s.findAdt? n :=
  Std.ExtTreeMap.getElem?_insert

/-- A constructor found afterwards was there before or is the new one. -/
theorem of_mem_addConstructor {adtName n : String} {c c' : Ty}
    (h : c' ∈ (s.addConstructor adtName c).constructors.getD n []) :
    c' ∈ s.constructors.getD n [] ∨ n = adtName ∧ c' = c := by
  rw [addConstructor, Std.ExtTreeMap.getD_insert] at h
  split at h
  · next heq =>
    obtain rfl := Std.LawfulEqCmp.eq_of_compare heq
    rcases List.mem_append.1 h with h | h
    · exact .inl h
    · exact .inr ⟨rfl, List.mem_singleton.1 h⟩
  · exact .inl h

/-- An alias is new if its name is not in use. -/
theorem checkAlias_eq_none {a : Ty} (h : s.checkAlias a = .ok none) :
    ∃ o name target, a = .aliased o name target ∧ s.findAdt? name = none ∧
      s.findAlias? name = none := by
  unfold checkAlias at h
  split at h
  · next o name target =>
    split at h
    · cases h
    · next hadt halias => exact ⟨o, name, target, rfl, hadt, halias⟩
    · split at h <;> cases h
  · cases h

/-- A data type is new if its name is not in use. -/
theorem checkAdt_eq_none {a : Ty} (h : s.checkAdt a = .ok none) :
    ∃ o name params, a = .adt o name params ∧ s.findAlias? name = none ∧
      s.findAdt? name = none := by
  unfold checkAdt at h
  split at h
  · next o name params =>
    split at h
    · cases h
    · next halias hadt => exact ⟨o, name, params, rfl, halias, hadt⟩
    · split at h <;> cases h
  · cases h

theorem declareConstructor_apply (o o' : Origin) (adtName n : String) (ps : List Ty)
    (fs : List (Field Ty)) (s : Store) :
    declareConstructor (.constructor o (.adt o' adtName ps) n fs) s =
      if (s.findAdt? adtName).any (·.sameShape (.adt o' adtName ps)) then
        match (s.constructors.getD adtName []).find?
          (·.sameShape (.constructor o (.adt o' adtName ps) n fs)) with
        | some old => .ok old s
        | none => .ok (.constructor o (.adt o' adtName ps) n fs)
            (s.addConstructor adtName (.constructor o (.adt o' adtName ps) n fs))
      else .error (.undeclaredAdt (Ty.adt o' adtName ps).text) s := by
  show (if (s.findAdt? adtName).any (·.sameShape (.adt o' adtName ps)) then
    match (s.constructors.getD adtName []).find?
      (·.sameShape (.constructor o (.adt o' adtName ps) n fs)) with
    | some _ => _
    | none => _
    else _ : Declaring Ty) s = _
  split
  · cases (s.constructors.getD adtName []).find?
      (·.sameShape (.constructor o (.adt o' adtName ps) n fs)) <;> rfl
  · rfl

theorem stateAfter_declareConstructor {o o' : Origin} {adtName n : String} {ps : List Ty}
    {fs : List (Field Ty)} :
    stateAfter (declareConstructor (.constructor o (.adt o' adtName ps) n fs)) s =
      if (s.findAdt? adtName).any (·.sameShape (.adt o' adtName ps)) then
        match (s.constructors.getD adtName []).find?
          (·.sameShape (.constructor o (.adt o' adtName ps) n fs)) with
        | some _ => s
        | none => s.addConstructor adtName (.constructor o (.adt o' adtName ps) n fs)
      else s := by
  rw [stateAfter, declareConstructor_apply]
  cases (s.findAdt? adtName).any (·.sameShape (.adt o' adtName ps)) with
  | false => rfl
  | true =>
    cases (s.constructors.getD adtName []).find?
      (·.sameShape (.constructor o (.adt o' adtName ps) n fs)) <;> rfl

namespace Consistent

theorem getD_constructors_empty (n : String) : (∅ : Store).constructors.getD n [] = [] :=
  Std.ExtTreeMap.getD_empty

theorem empty : Consistent ∅ where
  alias_wellFormed _ _ h := nomatch h.symm.trans Std.ExtTreeMap.getElem?_empty
  adt_eq _ _ h := nomatch h.symm.trans Std.ExtTreeMap.getElem?_empty
  adt_wellFormed _ _ h := nomatch h.symm.trans Std.ExtTreeMap.getElem?_empty
  constructor_eq n _ h := nomatch (getD_constructors_empty n) ▸ h
  constructor_wellFormed n _ h := nomatch (getD_constructors_empty n) ▸ h
  constructor_declared n _ h := nomatch (getD_constructors_empty n) ▸ h

/-! ### One declaration -/

theorem addAlias {o : Origin} {name : String} {target : Ty} (h : s.Consistent)
    (ht : (Ty.aliased o name target).WellFormed) :
    (s.addAlias (.aliased o name target)).Consistent where
  alias_wellFormed n a ha := by
    have ha : (s.aliases.insert name (.aliased o name target))[n]? = some a := ha
    rw [Std.ExtTreeMap.getElem?_insert] at ha
    split at ha
    · exact Option.some.inj ha ▸ ht
    · exact h.alias_wellFormed n a ha
  adt_eq := h.adt_eq
  adt_wellFormed := h.adt_wellFormed
  constructor_eq := h.constructor_eq
  constructor_wellFormed := h.constructor_wellFormed
  constructor_declared := h.constructor_declared

theorem addAdt {o : Origin} {name : String} {params : List Ty} (h : s.Consistent)
    (ha : (Ty.adt o name params).WellFormed) : (s.addAdt (.adt o name params)).Consistent := by
  refine { h with adt_eq := ?_, adt_wellFormed := ?_, constructor_declared := ?_ }
  · intro n a hn
    rw [findAdt?_addAdt] at hn
    split at hn
    · next heq =>
      obtain rfl := Std.LawfulEqCmp.eq_of_compare heq
      exact ⟨o, params, (Option.some.inj hn).symm⟩
    · exact h.adt_eq n a hn
  · intro n a hn
    rw [findAdt?_addAdt] at hn
    split at hn
    · exact Option.some.inj hn ▸ ha
    · exact h.adt_wellFormed n a hn
  · intro n c hc
    rw [findAdt?_addAdt]
    split
    · rfl
    · exact h.constructor_declared n c hc

theorem addConstructor {o o' : Origin} {adtName n : String} {ps : List Ty} {fs : List (Field Ty)}
    (h : s.Consistent) (hdecl : (s.findAdt? adtName).isSome = true)
    (hc : (Ty.constructor o (.adt o' adtName ps) n fs).WellFormed) :
    (s.addConstructor adtName (.constructor o (.adt o' adtName ps) n fs)).Consistent := by
  refine { h with constructor_eq := ?_, constructor_wellFormed := ?_, constructor_declared := ?_ }
  · intro m c hm
    rcases of_mem_addConstructor hm with hm | ⟨rfl, rfl⟩
    · exact h.constructor_eq m c hm
    · exact ⟨_, _, _, _, _, rfl⟩
  · intro m c hm
    rcases of_mem_addConstructor hm with hm | ⟨rfl, rfl⟩
    · exact h.constructor_wellFormed m c hm
    · exact hc
  · intro m c hm
    rcases of_mem_addConstructor hm with hm | ⟨rfl, rfl⟩
    · exact h.constructor_declared m c hm
    · exact hdecl

end Consistent

theorem Grows.consistent {s' : Store} (h : s.Grows s') (hs : s.Consistent) : s'.Consistent := by
  induction h with
  | refl => exact hs
  | addAlias _ ht _ _ ih => exact ih.addAlias ht
  | addAdt _ ha _ _ ih => exact ih.addAdt ha
  | addConstructor _ hc hadt _ _ ih => exact ih.addConstructor (Option.isSome_of_eq_some hadt) hc

namespace Grows

theorem keeps_declareAlias {a : Ty} (ha : a.WellFormed) : Keeps s.Grows (declareAlias a) := by
  intro s' h
  rw [stateAfter_declareAlias]
  split
  · next hnone =>
    obtain ⟨o, name, target, rfl, hadt, halias⟩ := checkAlias_eq_none hnone
    exact h.addAlias ha hadt halias
  · exact h

theorem keeps_declareAdt {a : Ty} (ha : a.WellFormed) : Keeps s.Grows (declareAdt a) := by
  intro s' h
  rw [stateAfter_declareAdt]
  split
  · next hnone =>
    obtain ⟨o, name, params, rfl, halias, hadt⟩ := checkAdt_eq_none hnone
    exact h.addAdt ha halias hadt
  · exact h

theorem keeps_declareConstructor {c : Ty} (hc : c.WellFormed) :
    Keeps s.Grows (declareConstructor c) := by
  cases hc with
  | constructor _ _ ha hf =>
    intro s' h
    rw [stateAfter_declareConstructor]
    split
    · next hdecl =>
      split
      · exact h
      · next hnone =>
        obtain ⟨a, hfind, hs⟩ := (Option.any_eq_true _ _).1 hdecl
        refine h.addConstructor (.constructor _ _ ha hf) hfind hs fun c hc => ?_
        simpa using List.find?_eq_none.1 hnone c hc
    · exact h
  | _ => exact .throw _

/-! ### Whole walks -/

theorem keeps_checkWalk (w : Walk) : Keeps s.Grows (checkWalk w) := by
  have hcheck {α : Type} (check : Store → Except TypeError α) :
      Keeps s.Grows (get >>= fun s => discard (ofExcept (check s)) : Declaring Unit) := by
    refine Keeps.bind_get fun s' h => ?_
    have hs : stateAfter (discard (ofExcept (check s')) : Declaring Unit) s' = s' := by
      cases check s' <;> rfl
    rwa [hs]
  exact (Keeps.forM fun a _ => hcheck (·.checkAlias a)).bind fun _ =>
    Keeps.forM fun a _ => hcheck (·.checkAdt a)

end Grows

/-- The declarations of a consistent store are well formed, in whatever order they come. -/
theorem Consistent.wellFormed_of_covers (h : s.Consistent) {w : Walk} (hw : w.Covers s) :
    (∀ a ∈ w.aliases, a.WellFormed) ∧ (∀ a ∈ w.adts, a.WellFormed) ∧
      ∀ cs ∈ w.constructors, ∀ c ∈ cs, c.WellFormed := by
  refine ⟨fun a ha => ?_, fun a ha => ?_, fun cs hcs c hc => ?_⟩
  · obtain ⟨n, ha⟩ := hw.mem_aliases.1 ha
    exact h.alias_wellFormed n a ha
  · obtain ⟨n, ha⟩ := hw.mem_adts.1 ha
    exact h.adt_wellFormed n a ha
  · obtain ⟨n, hcs⟩ := hw.mem_constructors.1 hcs
    refine h.constructor_wellFormed n c ?_
    rw [Std.ExtTreeMap.getD_eq_getD_getElem?, hcs]
    exact hc

theorem Grows.keeps_mergeWalk {other : Store} (ho : other.Consistent) {w : Walk}
    (hw : w.Covers other) : Keeps s.Grows (mergeWalk w) := by
  obtain ⟨haliases, hadts, hconstructors⟩ := ho.wellFormed_of_covers hw
  refine (keeps_checkWalk w).bind fun _ => ?_
  refine (Keeps.forM fun a ha => (keeps_declareAlias (haliases a ha)).discard).bind fun _ => ?_
  refine (Keeps.forM fun a ha => (keeps_declareAdt (hadts a ha)).discard).bind fun _ => ?_
  exact Keeps.forM fun cs hcs => Keeps.forM fun c hc =>
    (keeps_declareConstructor (hconstructors cs hcs c hc)).discard

/-- Every store that a program holds was filled declaration by declaration. -/
protected theorem Reachable.grows (h : s.Reachable) : Grows ∅ s := by
  induction h with
  | empty => exact .refl
  | declareAlias _ m name ht ih =>
    exact Grows.keeps_declareAlias (.aliased _ name ht.wellFormed) _ ih
  | declareAdt _ m name hp ih =>
    exact Grows.keeps_declareAdt (.adt _ name fun t ht => (hp t ht).wellFormed) _ ih
  | @declareConstructor s _ m owner name fields ho hf ih =>
    have hf (f : Field Ty) (h : f ∈ fields) : f.ty.WellFormed := (hf f h).wellFormed
    cases owner with
    | adt => exact Grows.keeps_declareConstructor (.constructor _ name ho.wellFormed hf) _ ih
    | _ => exact ih
  | merge _ _ hw ih iho => exact Grows.keeps_mergeWalk (iho.consistent .empty) hw _ ih

protected theorem Reachable.consistent (h : s.Reachable) : s.Consistent :=
  h.grows.consistent .empty

/-! ### Constructors by data type -/

/-- Constructors are found under the name of a data type. -/
theorem of_mem_constructorsOf {owner c : Ty} (h : c ∈ s.constructorsOf owner) :
    ∃ a, owner.name? = some a ∧ c ∈ s.constructors.getD a [] := by
  unfold constructorsOf at h
  cases ha : owner.name? with
  | none =>
    rw [ha] at h
    cases h
  | some a =>
    refine ⟨a, rfl, ?_⟩
    rw [ha] at h
    rwa [Std.ExtTreeMap.getD_eq_getD_getElem?]

theorem Reachable.wellFormed_of_mem_constructorsOf {owner c : Ty} (h : s.Reachable)
    (hc : c ∈ s.constructorsOf owner) : c.WellFormed := by
  obtain ⟨a, -, hmem⟩ := of_mem_constructorsOf hc
  exact h.consistent.constructor_wellFormed a c hmem

/-- A data type is found under its name, and so are its constructors. -/
theorem Consistent.constructorsOf_eq (h : s.Consistent) {a : String} {adt : Ty}
    (ha : s.findAdt? a = some adt) : s.constructorsOf adt = s.constructors.getD a [] := by
  obtain ⟨o, ps, rfl⟩ := h.adt_eq a adt ha
  rw [Std.ExtTreeMap.getD_eq_getD_getElem?]
  rfl

/-- The constructor that a store resolves to is one that it holds and that takes the arguments. -/
theorem constructorFor?_eq_some {adt c : Ty} {name : String} {args : List Ty}
    (h : s.constructorFor? adt name args = some c) :
    c ∈ s.constructorsOf adt ∧ ∃ o a fs, c = .constructor o a name fs ∧
      Ty.allBelow args (fs.map Field.ty) = true := by
  refine ⟨List.mem_of_find?_eq_some h, ?_⟩
  have happ := List.find?_some h
  unfold applies at happ
  split at happ
  · next o a n fs =>
    rw [Bool.and_eq_true, beq_iff_eq] at happ
    obtain ⟨rfl, happ⟩ := happ
    exact ⟨o, a, fs, rfl, happ⟩
  · cases happ

/-- The constructor found has the names it was looked for by. -/
theorem Consistent.names_of_constructorFor? (h : s.Consistent) {a name : String} {adt c : Ty}
    {args : List Ty} (ha : s.findAdt? a = some adt)
    (hc : s.constructorFor? adt name args = some c) :
    c.ownerName? = some a ∧ c.constructorName? = some name := by
  obtain ⟨hmem, o, owner, fs, rfl, -⟩ := constructorFor?_eq_some hc
  rw [h.constructorsOf_eq ha] at hmem
  obtain ⟨_, _, _, _, _, heq⟩ := h.constructor_eq a _ hmem
  obtain ⟨-, rfl, -, -⟩ := Ty.constructor.inj heq
  exact ⟨rfl, rfl⟩

end Store

end ValueAlgebra
