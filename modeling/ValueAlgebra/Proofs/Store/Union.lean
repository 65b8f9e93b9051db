import ValueAlgebra.Proofs.Store.Merging

/-!
# Merges as unions

A merge that succeeds leaves the union of the two stores: under every name what the store had or
else what the other one has, and of every data type its constructors followed by those of the other
store that are new. This fixes the store, so that neither the order of the walk nor a second merge
makes a difference.

Each of the three passes is read off name by name. What a pass has walked so far counts for a name
through the entry that carries it, and a store has one entry of a name at most.

## Main definitions

- `Store.joinConstructors`: constructors and those of another list that are new
- `Store.IsUnion`: what a merge leaves
-/

namespace ValueAlgebra

/-- The first of the entries that carries the name. -/
def findKeyed? {α : Type} (key : α → Option String) (entries : List α) (name : String) :
    Option α :=
  entries.find? (key · == some name)

section Keyed

variable {α : Type} {key : α → Option String}

theorem findKeyed?_append (entries entries' : List α) (name : String) :
    findKeyed? key (entries ++ entries') name =
      (findKeyed? key entries name).or (findKeyed? key entries' name) :=
  List.find?_append

theorem findKeyed?_singleton_of_eq {a : α} {name : String} (h : key a = some name) :
    findKeyed? key [a] name = some a := by
  simp [findKeyed?, h]

theorem findKeyed?_singleton_of_ne {a : α} {name n : String} (h : key a = some name)
    (hn : name ≠ n) : findKeyed? key [a] n = none := by
  simp [findKeyed?, h, hn]

theorem mem_of_findKeyed? {entries : List α} {name : String} {a : α}
    (h : findKeyed? key entries name = some a) : a ∈ entries ∧ key a = some name :=
  ⟨List.mem_of_find?_eq_some h, by simpa using List.find?_some h⟩

/-- In a list of all entries there is the one entry of the name. -/
theorem findKeyed?_eq {entries : List α} {entry : String → Option α}
    (hmem : ∀ a, a ∈ entries ↔ ∃ name, entry name = some a)
    (hkey : ∀ name a, entry name = some a → key a = some name) (name : String) :
    findKeyed? key entries name = entry name := by
  refine Option.ext fun a => ⟨fun h => ?_, fun h => ?_⟩
  · obtain ⟨ha, hname⟩ := mem_of_findKeyed? h
    obtain ⟨name', ha⟩ := (hmem a).1 ha
    rwa [← Option.some.inj ((hkey name' a ha).symm.trans hname)]
  · -- Whatever is found carries the name, and so is the entry.
    have hfound : (findKeyed? key entries name).isSome = true :=
      List.find?_isSome.2 ⟨a, (hmem a).2 ⟨name, h⟩, by simp [hkey name a h]⟩
    obtain ⟨b, hb⟩ := Option.isSome_iff_exists.1 hfound
    obtain ⟨hmemb, hname⟩ := mem_of_findKeyed? hb
    obtain ⟨name', hb'⟩ := (hmem b).1 hmemb
    rw [Option.some.inj ((hkey name' b hb').symm.trans hname), h] at hb'
    rw [hb, hb']

end Keyed

namespace Store

variable {s other u : Store} {w : Walk}

/-! ### Constructors of two stores -/

/-- The constructors `old` and after them those of `new` that have the structure of none of them. -/
def joinConstructors (old new : List Ty) : List Ty :=
  old ++ new.filter fun c => !old.any (·.sameShape c)

theorem joinConstructors_nil (old : List Ty) : joinConstructors old [] = old :=
  List.append_nil old

theorem joinConstructors_singleton_of_any {old : List Ty} {c : Ty}
    (h : old.any (·.sameShape c) = true) : joinConstructors old [c] = old := by
  simp [joinConstructors, h]

theorem joinConstructors_singleton_of_not_any {old : List Ty} {c : Ty}
    (h : old.any (·.sameShape c) = false) : joinConstructors old [c] = old ++ [c] := by
  simp [joinConstructors, h]

/-- Constructors of different structures may be joined one by one. -/
theorem joinConstructors_append_singleton {old new : List Ty} {c : Ty}
    (h : ∀ d ∈ new, d.sameShape c = false) :
    joinConstructors old (new ++ [c]) = joinConstructors (joinConstructors old new) [c] := by
  have hnew : (new.filter fun d => !old.any (·.sameShape d)).any (·.sameShape c) = false :=
    List.any_eq_false.2 fun d hd => Bool.eq_false_iff.1 (h d (List.mem_filter.1 hd).1)
  have hjoin : (joinConstructors old new).any (·.sameShape c) = old.any (·.sameShape c) := by
    rw [joinConstructors, List.any_append, hnew, Bool.or_false]
  have hlast : [c].filter (fun d => !(joinConstructors old new).any (·.sameShape d)) =
      [c].filter fun d => !old.any (·.sameShape d) := by
    simp only [List.filter_cons, hjoin, List.filter_nil]
  calc joinConstructors old (new ++ [c])
      = joinConstructors old new ++ [c].filter fun d => !old.any (·.sameShape d) := by
        rw [joinConstructors, List.filter_append, ← List.append_assoc, joinConstructors]
    _ = joinConstructors (joinConstructors old new) [c] := by rw [← hlast]; rfl

/-- Every constructor of the second list has the structure of one in the join. -/
theorem any_joinConstructors {old new : List Ty} {c : Ty} (hc : c ∈ new) :
    (joinConstructors old new).any (·.sameShape c) = true := by
  rw [joinConstructors, List.any_append, Bool.or_eq_true]
  cases hold : old.any (·.sameShape c) with
  | true => exact .inl rfl
  | false =>
    refine .inr (List.any_eq_true.2 ⟨c, List.mem_filter.2 ⟨hc, ?_⟩, Ty.sameShape_self c⟩)
    rw [hold]
    rfl

/-- Joining the same constructors once more adds none. -/
theorem joinConstructors_joinConstructors (old new : List Ty) :
    joinConstructors (joinConstructors old new) new = joinConstructors old new := by
  have hnone : new.filter (fun c => !(joinConstructors old new).any (·.sameShape c)) = [] := by
    refine List.filter_eq_nil_iff.2 fun c hc => ?_
    rw [any_joinConstructors hc]
    exact Bool.false_ne_true
  rw [joinConstructors, hnone, List.append_nil]

/-! ### Unions -/

/-- The union of a store with another, whose entries count where the store has none. -/
structure IsUnion (u s other : Store) : Prop where
  aliases : ∀ name, u.findAlias? name = (s.findAlias? name).or (other.findAlias? name)
  adts : ∀ name, u.findAdt? name = (s.findAdt? name).or (other.findAdt? name)
  constructors : ∀ adt, u.constructorsOf adt =
    joinConstructors (s.constructorsOf adt) (other.constructorsOf adt)
  /-- No structure is listed twice. -/
  distinct : ∀ adt, (u.constructorsOf adt).Pairwise fun c c' => c.sameShape c' = false

theorem constructorsOf_of_name? {adt : Ty} {name : String} (h : adt.name? = some name) :
    s.constructorsOf adt = s.constructors.getD name [] := by
  rw [Std.ExtTreeMap.getD_eq_getD_getElem?, constructorsOf, h]
  rfl

theorem constructorsOf_of_name?_eq_none {adt : Ty} (h : adt.name? = none) :
    s.constructorsOf adt = [] := by
  rw [constructorsOf, h]
  rfl

/-- Stores are told apart by looking things up. -/
theorem Listed.ext {s' : Store} (hs : s.Listed) (hs' : s'.Listed)
    (haliases : ∀ name, s.findAlias? name = s'.findAlias? name)
    (hadts : ∀ name, s.findAdt? name = s'.findAdt? name)
    (hconstructors : ∀ adt, s.constructorsOf adt = s'.constructorsOf adt) : s = s' := by
  -- An empty list is never stored, so that a list says whether there is an entry.
  have hentry {s : Store} (hs : s.Listed) (name : String) : s.constructors[name]? =
      if s.constructors.getD name [] = [] then none else some (s.constructors.getD name []) := by
    rw [Std.ExtTreeMap.getD_eq_getD_getElem?]
    cases hcs : s.constructors[name]? with
    | none => rfl
    | some cs => rw [Option.getD_some, if_neg (hs name cs hcs).1]
  have hlists (name : String) : s.constructors[name]? = s'.constructors[name]? := by
    have h := hconstructors (.adt default name [])
    rw [constructorsOf_of_name? rfl, constructorsOf_of_name? rfl] at h
    rw [hentry hs, hentry hs', h]
  cases s
  cases s'
  congr
  · exact Std.ExtTreeMap.ext_getElem? haliases
  · exact Std.ExtTreeMap.ext_getElem? hadts
  · exact Std.ExtTreeMap.ext_getElem? hlists

namespace IsUnion

/-- Of two stores there is one union. -/
theorem eq {u' : Store} (h : u.IsUnion s other) (h' : u'.IsUnion s other) (hu : u.Listed)
    (hu' : u'.Listed) : u = u' :=
  hu.ext hu' (fun name => (h.aliases name).trans (h'.aliases name).symm)
    (fun name => (h.adts name).trans (h'.adts name).symm)
    fun adt => (h.constructors adt).trans (h'.constructors adt).symm

/-- A union with one of its two stores adds nothing. -/
theorem eq_of_isUnion {u' : Store} (h : u.IsUnion s other) (h' : u'.IsUnion u other)
    (hu : u.Listed) (hu' : u'.Listed) : u' = u := by
  refine hu'.ext hu (fun name => ?_) (fun name => ?_) fun adt => ?_
  · rw [h'.aliases, h.aliases, Option.or_assoc, Option.or_self]
  · rw [h'.adts, h.adts, Option.or_assoc, Option.or_self]
  · rw [h'.constructors, h.constructors, joinConstructors_joinConstructors]

/-- A store that agrees with another still does when both are one. -/
theorem agrees (h : u.IsUnion s other) (ho : other.Valid) (hs : s.Agrees other) :
    u.Agrees other where
  aliases name a ha := by
    obtain ⟨hadt, hsame⟩ := hs.aliases name a ha
    rw [h.adts, h.aliases, hadt, ha]
    refine ⟨(ho.disjoint name).resolve_left (by simp [ha]), ?_⟩
    intro old hold
    rcases Option.or_eq_some_iff.1 hold with hold | ⟨-, hold⟩
    · exact hsame old hold
    · rw [Option.some.inj hold]
  adts name a ha := by
    obtain ⟨halias, hsame⟩ := hs.adts name a ha
    rw [h.adts, h.aliases, halias, ha]
    refine ⟨(ho.disjoint name).resolve_right (by simp [ha]), ?_⟩
    intro old hold
    rcases Option.or_eq_some_iff.1 hold with hold | ⟨-, hold⟩
    · exact hsame old hold
    · rw [← Option.some.inj hold]
      exact Ty.sameShape_self a

end IsUnion

/-! ### What declarations add -/

/-- Types of one sort are declared: a name that `find` does not find in `s` leads to the one of
`types` that carries it, and the rest of the store is as it was. -/
structure Adds {γ : Type} (find : Store → String → Option Ty) (rest : Store → γ)
    (types : List Ty) (s s' : Store) : Prop where
  find_eq : ∀ n, find s' n = (find s n).or (findKeyed? Ty.name? types n)
  rest_eq : rest s' = rest s

/-- Only aliases are declared. -/
def AddsAliases : List Ty → Store → Store → Prop :=
  Adds findAlias? fun s => (s.findAdt?, s.constructors)

/-- Only data types are declared. -/
def AddsAdts : List Ty → Store → Store → Prop :=
  Adds findAdt? fun s => (s.findAlias?, s.constructors)

/-- Only constructors are declared: those `added` by name are joined to those there are. -/
structure AddsConstructors (added : String → List Ty) (s s' : Store) : Prop where
  rest_eq : (s'.findAlias?, s'.findAdt?) = (s.findAlias?, s.findAdt?)
  lists : ∀ n, s'.constructors.getD n [] =
    joinConstructors (s.constructors.getD n []) (added n)

namespace Adds

variable {γ : Type} {find : Store → String → Option Ty} {rest : Store → γ} {types types' : List Ty}
  {a : Ty} {name : String} {s' s'' : Store}

protected theorem refl (s : Store) : Adds find rest [] s s :=
  ⟨fun _ => Option.or_none.symm, rfl⟩

theorem append (h : Adds find rest types s s') (h' : Adds find rest types' s' s'') :
    Adds find rest (types ++ types') s s'' where
  find_eq n := by rw [h'.find_eq, h.find_eq, findKeyed?_append, Option.or_assoc]
  rest_eq := h'.rest_eq.trans h.rest_eq

/-- A type adds nothing where its name is taken. -/
theorem of_taken (ha : a.name? = some name) (h : (find s name).isSome = true) :
    Adds find rest [a] s s := by
  refine ⟨fun n => ?_, rfl⟩
  by_cases hn : name = n
  · obtain ⟨old, hold⟩ := Option.isSome_iff_exists.1 (hn ▸ h)
    rw [hold, Option.some_or]
  · rw [findKeyed?_singleton_of_ne ha hn, Option.or_none]

/-- It is entered where its name is free. -/
theorem of_free (ha : a.name? = some name) (h : find s name = none) (hrest : rest s' = rest s)
    (hfind : ∀ n, find s' n = if compare name n = .eq then some a else find s n) :
    Adds find rest [a] s s' := by
  refine ⟨fun n => ?_, hrest⟩
  simp only [hfind, Std.LawfulEqCmp.compare_eq_iff_eq]
  by_cases hn : name = n
  · rw [if_pos hn, findKeyed?_singleton_of_eq (hn ▸ ha), ← hn, h, Option.none_or]
  · rw [if_neg hn, findKeyed?_singleton_of_ne ha hn, Option.or_none]

/-- A pass adds what its declarations add. -/
theorem of_forM {declare : Ty → Declaring Ty}
    (hdeclare : ∀ a b s s', declare a s = .ok b s' → Adds find rest [a] s s')
    (h : (types.forM fun a => discard (declare a)) s = .ok () s') : Adds find rest types s s' := by
  refine forM_eq_ok (I := (Adds find rest · s ·)) (fun pre a _ t t' _ hpre hrun => ?_) (.refl s) h
  obtain ⟨b, hrun⟩ := discard_eq_ok.1 hrun
  exact hpre.append (hdeclare a b t t' hrun)

end Adds

/-! ### Aliases and data types -/

variable {a b : Ty} {s' : Store}

/-- An alias found by a check is one of the same name. -/
theorem checkAlias_eq_some (h : s.checkAlias a = .ok (some b)) :
    ∃ name, a.name? = some name ∧ s.findAlias? name = some b := by
  unfold checkAlias at h
  split at h
  · next o name target =>
    split at h
    · cases h
    · cases h
    · next old _ hold =>
      split at h
      · exact ⟨name, rfl, Option.some.inj (Except.ok.inj h) ▸ hold⟩
      · cases h
  · cases h

theorem checkAdt_eq_some (h : s.checkAdt a = .ok (some b)) :
    ∃ name, a.name? = some name ∧ s.findAdt? name = some b := by
  unfold checkAdt at h
  split at h
  · next o name params =>
    split at h
    · cases h
    · cases h
    · next old _ hold =>
      split at h
      · exact ⟨name, rfl, Option.some.inj (Except.ok.inj h) ▸ hold⟩
      · cases h
  · cases h

/-- An alias declared is found, unless there was one of its name. -/
theorem AddsAliases.of_declareAlias (h : declareAlias a s = .ok b s') : AddsAliases [a] s s' := by
  rw [declareAlias_apply] at h
  split at h
  · cases h
  · next hcheck =>
    obtain ⟨-, rfl⟩ := EStateM.Result.ok.inj h
    obtain ⟨name, hname, hold⟩ := checkAlias_eq_some hcheck
    exact .of_taken hname (Option.isSome_of_eq_some hold)
  · next hcheck =>
    obtain ⟨-, rfl⟩ := EStateM.Result.ok.inj h
    obtain ⟨o, name, target, rfl, -, hnone⟩ := checkAlias_eq_none hcheck
    exact .of_free rfl hnone rfl fun n => findAlias?_addAlias

/-- A data type declared is found, unless there was one of its name. -/
theorem AddsAdts.of_declareAdt (h : declareAdt a s = .ok b s') : AddsAdts [a] s s' := by
  rw [declareAdt_apply] at h
  split at h
  · cases h
  · next hcheck =>
    obtain ⟨-, rfl⟩ := EStateM.Result.ok.inj h
    obtain ⟨name, hname, hold⟩ := checkAdt_eq_some hcheck
    exact .of_taken hname (Option.isSome_of_eq_some hold)
  · next hcheck =>
    obtain ⟨-, rfl⟩ := EStateM.Result.ok.inj h
    obtain ⟨o, name, params, rfl, -, hnone⟩ := checkAdt_eq_none hcheck
    exact .of_free rfl hnone rfl fun n => findAdt?_addAdt

/-! ### Constructors -/

/-- A constructor declared comes last among those of its data type, unless it has the structure of
one of them. -/
theorem AddsConstructors.of_declareConstructor {o o' : Origin} {adtName n : String} {ps : List Ty}
    {fs : List (Field Ty)} {c : Ty} (hc : c = .constructor o (.adt o' adtName ps) n fs)
    (h : declareConstructor c s = .ok b s') :
    AddsConstructors (fun m => if adtName = m then [c] else []) s s' := by
  subst hc
  rw [declareConstructor_apply] at h
  split at h
  · split at h
    · next old hold =>
      obtain ⟨-, rfl⟩ := EStateM.Result.ok.inj h
      refine ⟨rfl, fun m => ?_⟩
      by_cases hm : adtName = m
      · have hany := List.any_eq_true.2 ⟨old, List.mem_of_find?_eq_some hold, List.find?_some hold⟩
        rw [if_pos hm, joinConstructors_singleton_of_any (hm ▸ hany)]
      · rw [if_neg hm, joinConstructors_nil]
    · next hnone =>
      obtain ⟨-, rfl⟩ := EStateM.Result.ok.inj h
      refine ⟨rfl, fun m => ?_⟩
      simp only [addConstructor, Std.ExtTreeMap.getD_insert, Std.LawfulEqCmp.compare_eq_iff_eq]
      by_cases hm : adtName = m
      · have hany := List.any_eq_false.2 (List.find?_eq_none.1 hnone)
        rw [if_pos hm, if_pos hm, joinConstructors_singleton_of_not_any (hm ▸ hany), hm]
      · rw [if_neg hm, if_neg hm, joinConstructors_nil]
  · cases h

/-- The constructors of a data type of the name, no two of one structure. -/
structure ListedUnder (name : String) (cs : List Ty) : Prop where
  constructor_eq : ∀ c ∈ cs, ∃ o o' ps n fs, c = .constructor o (.adt o' name ps) n fs
  distinct : cs.Pairwise fun c c' => c.sameShape c' = false

/-- The constructors of one data type are joined to those it has. -/
theorem AddsConstructors.of_forM {name : String} {cs : List Ty} (hcs : ListedUnder name cs)
    (h : (cs.forM fun c => discard (declareConstructor c)) s = .ok () s') :
    AddsConstructors (fun m => if name = m then cs else []) s s' := by
  refine forM_eq_ok (I := fun pre => AddsConstructors (fun m => if name = m then pre else []) s)
    (fun pre c post t t' hsplit hpre hrun => ?_) ?_ h
  · obtain ⟨b, hrun⟩ := discard_eq_ok.1 hrun
    obtain ⟨o, o', ps, n, fs, hc⟩ := hcs.constructor_eq c (by simp [hsplit])
    have hround := of_declareConstructor hc hrun
    have hnew : ∀ d ∈ pre, d.sameShape c = false := fun d hd =>
      (List.pairwise_append.1 (hsplit ▸ hcs.distinct)).2.2 d hd c List.mem_cons_self
    refine ⟨hround.rest_eq.trans hpre.rest_eq, fun m => ?_⟩
    rw [hround.lists, hpre.lists]
    by_cases hm : name = m
    · simp only [if_pos hm, joinConstructors_append_singleton hnew]
    · simp only [if_neg hm, joinConstructors_nil]
  · refine ⟨rfl, fun m => ?_⟩
    rw [ite_self, joinConstructors_nil]

/-- The data type that a list of constructors belongs to. -/
def listName? (cs : List Ty) : Option String := cs.head?.bind Ty.ownerName?

theorem ListedUnder.listName?_eq {name : String} {cs : List Ty} (h : ListedUnder name cs)
    (hne : cs ≠ []) : listName? cs = some name := by
  cases cs with
  | nil => exact absurd rfl hne
  | cons c cs =>
    obtain ⟨o, o', ps, n, fs, rfl⟩ := h.constructor_eq c List.mem_cons_self
    rfl

/-- The lists of all data types are joined to those there are. A list met twice adds nothing the
second time. -/
theorem AddsConstructors.of_forM_forM {lists : List (List Ty)}
    (hlists : ∀ cs ∈ lists, ∃ name, listName? cs = some name ∧ ListedUnder name cs)
    (hunique : ∀ cs ∈ lists, ∀ cs' ∈ lists, listName? cs = listName? cs' → cs = cs')
    (h : (lists.forM fun cs => cs.forM fun c => discard (declareConstructor c)) s = .ok () s') :
    AddsConstructors (fun n => (findKeyed? listName? lists n).getD []) s s' := by
  refine forM_eq_ok (I := fun pre => AddsConstructors (fun n =>
    (findKeyed? listName? pre n).getD []) s) (fun pre cs post t t' hsplit hpre hrun => ?_) ?_ h
  · have hcs : cs ∈ lists := by simp [hsplit]
    obtain ⟨name, hname, hlisted⟩ := hlists cs hcs
    have hround := of_forM hlisted hrun
    refine ⟨hround.rest_eq.trans hpre.rest_eq, fun n => ?_⟩
    rw [hround.lists, hpre.lists, findKeyed?_append]
    by_cases hn : name = n
    · rw [if_pos hn, findKeyed?_singleton_of_eq (hn ▸ hname)]
      cases hfound : findKeyed? listName? pre n with
      | none => rw [Option.none_or, Option.getD_none, joinConstructors_nil, Option.getD_some]
      | some cs' =>
        obtain ⟨hmem, hname'⟩ := mem_of_findKeyed? hfound
        obtain rfl := hunique cs hcs cs' (by simp [hsplit, hmem]) (hname.trans (hn ▸ hname'.symm))
        exact joinConstructors_joinConstructors _ cs
    · rw [if_neg hn, findKeyed?_singleton_of_ne hname hn, Option.or_none, joinConstructors_nil]
  · exact ⟨rfl, fun n => (joinConstructors_nil _).symm⟩

/-! ### The whole merge -/

/-- A reachable store files its constructors by data type. -/
theorem Reachable.listedUnder (h : s.Reachable) {name : String} {cs : List Ty}
    (hcs : s.constructors[name]? = some cs) : listName? cs = some name ∧ ListedUnder name cs := by
  obtain ⟨hne, hdistinct⟩ := h.grows.listed .empty name cs hcs
  have hlisted : ListedUnder name cs := by
    refine ⟨fun c hc => h.consistent.constructor_eq name c ?_, hdistinct⟩
    rwa [Std.ExtTreeMap.getD_eq_getD_getElem?, hcs]
  exact ⟨hlisted.listName?_eq hne, hlisted⟩

/-- The passes that declare leave the union. -/
theorem Reachable.isUnion_of_declareWalk (ho : other.Reachable) (hw : w.Covers other)
    (hlisted : s'.Listed) (h : declareWalk w s = .ok () s') : s'.IsUnion s other := by
  obtain ⟨_, t, haliases, h⟩ := bind_apply_eq_ok.1 h
  obtain ⟨_, t', hadts, hconstructors⟩ := bind_apply_eq_ok.1 h
  have hname (name : String) (cs : List Ty) (hcs : other.constructors[name]? = some cs) :
      listName? cs = some name := (ho.listedUnder hcs).1
  have hlists : ∀ cs ∈ w.constructors, ∃ name, listName? cs = some name ∧ ListedUnder name cs := by
    intro cs hcs
    obtain ⟨name, hcs⟩ := hw.mem_constructors.1 hcs
    exact ⟨name, ho.listedUnder hcs⟩
  have hunique : ∀ cs ∈ w.constructors, ∀ cs' ∈ w.constructors, listName? cs = listName? cs' →
      cs = cs' := by
    intro cs hcs cs' hcs' hsame
    obtain ⟨name, hcs⟩ := hw.mem_constructors.1 hcs
    obtain ⟨name', hcs'⟩ := hw.mem_constructors.1 hcs'
    rw [hname name cs hcs, hname name' cs' hcs', Option.some.injEq] at hsame
    exact Option.some.inj (hcs.symm.trans (hsame ▸ hcs'))
  have hfirst := Adds.of_forM (fun _ _ _ _ => AddsAliases.of_declareAlias) haliases
  have hsecond := Adds.of_forM (fun _ _ _ _ => AddsAdts.of_declareAdt) hadts
  have hthird := AddsConstructors.of_forM_forM hlists hunique hconstructors
  obtain ⟨hadts₁, hconstructors₁⟩ := Prod.mk.inj hfirst.rest_eq
  obtain ⟨haliases₂, hconstructors₂⟩ := Prod.mk.inj hsecond.rest_eq
  obtain ⟨haliases₃, hadts₃⟩ := Prod.mk.inj hthird.rest_eq
  refine ⟨fun name => ?_, fun name => ?_, fun adt => ?_, fun adt => ?_⟩
  · have halias (n : String) (a : Ty) (ha : other.findAlias? n = some a) : a.name? = some n := by
      obtain ⟨_, _, rfl⟩ := ho.valid.alias_eq n a ha
      rfl
    rw [haliases₃, haliases₂, hfirst.find_eq, findKeyed?_eq (fun _ => hw.mem_aliases) halias]
  · have hadt (n : String) (a : Ty) (ha : other.findAdt? n = some a) : a.name? = some n := by
      obtain ⟨_, _, rfl⟩ := ho.valid.adt_eq n a ha
      rfl
    rw [hadts₃, hsecond.find_eq, hadts₁, findKeyed?_eq (fun _ => hw.mem_adts) hadt]
  · cases hadt : adt.name? with
    | none => simp only [constructorsOf_of_name?_eq_none hadt, joinConstructors_nil]
    | some name =>
      simp only [constructorsOf_of_name? hadt]
      rw [hthird.lists, hconstructors₂, hconstructors₁,
        findKeyed?_eq (fun _ => hw.mem_constructors) hname,
        Std.ExtTreeMap.getD_eq_getD_getElem? (t := other.constructors)]
  · cases hadt : adt.name? with
    | none => exact constructorsOf_of_name?_eq_none hadt ▸ .nil
    | some name => exact constructorsOf_of_name? hadt ▸ hlisted.pairwise name

/-- A merge into a store that agrees succeeds, whatever its walk. -/
theorem Agrees.exists_mergeWalk (h : s.Agrees other) (ho : other.Valid) (hw : w.Covers other) :
    ∃ s', mergeWalk w s = .ok () s' := by
  obtain ⟨_, s', hrun, -⟩ := Agrees.completes_declareWalk ho hw s h
  rcases checkWalk_apply ho hw s with ⟨hcheck, -⟩ | ⟨_, -, hconflicts⟩
  · refine ⟨s', ?_⟩
    rw [mergeWalk_apply, hcheck]
    exact hrun
  · exact absurd hconflicts h.not_conflicts

/-- Only into such a store, and what it leaves is the union. -/
theorem Reachable.isUnion_of_mergeWalk (hs : s.Reachable) (ho : other.Reachable)
    (hw : w.Covers other) (h : mergeWalk w s = .ok () s') :
    s.Agrees other ∧ s'.IsUnion s other ∧ s'.Reachable := by
  have hreachable : s'.Reachable := by
    have hmerge := Reachable.merge hs ho hw
    rwa [stateAfter, h] at hmerge
  obtain ⟨_, t, hcheck, hdeclare⟩ := bind_apply_eq_ok.1 h
  rcases checkWalk_apply ho.valid hw s with ⟨hok, hagrees⟩ | ⟨e, herror, -⟩
  · obtain ⟨-, rfl⟩ := EStateM.Result.ok.inj (hok.symm.trans hcheck)
    exact ⟨hagrees, ho.isUnion_of_declareWalk hw (hreachable.grows.listed .empty) hdeclare,
      hreachable⟩
  · cases herror.symm.trans hcheck

/-- A merge that succeeds leaves the union of both stores. Any other walk leads to the same store,
and so does merging once more. -/
theorem Reachable.mergeWalk_isUnion (hs : s.Reachable) (ho : other.Reachable)
    (hw : w.Covers other) (h : mergeWalk w s = .ok () s') :
    s'.IsUnion s other ∧ ∀ w' : Walk, w'.Covers other →
      mergeWalk w' s = .ok () s' ∧ mergeWalk w' s' = .ok () s' := by
  obtain ⟨hagrees, hunion, hreachable⟩ := hs.isUnion_of_mergeWalk ho hw h
  have hlisted := hreachable.grows.listed .empty
  refine ⟨hunion, fun w' hw' => ⟨?_, ?_⟩⟩
  · obtain ⟨t, ht⟩ := hagrees.exists_mergeWalk ho.valid hw'
    obtain ⟨-, hunion', hreachable'⟩ := hs.isUnion_of_mergeWalk ho hw' ht
    rw [ht, hunion.eq hunion' hlisted (hreachable'.grows.listed .empty)]
  · obtain ⟨t, ht⟩ := (hunion.agrees ho.valid hagrees).exists_mergeWalk ho.valid hw'
    obtain ⟨-, hunion', hreachable'⟩ := hreachable.isUnion_of_mergeWalk ho hw' ht
    rw [ht, hunion.eq_of_isUnion hunion' hlisted (hreachable'.grows.listed .empty)]

open Forest in
/-- `Tree[int]` stays that of the first manager, and its constructors are `leaf` and then `fork`,
although the other store has them the other way round. -/
theorem merge_grafted_planted : ∃ s', mergeWalk grafted.walk planted = .ok () s' ∧
    s'.findAdt? "Tree" = some (tree first) ∧
    (s'.constructorsOf (tree first)).map Ty.name? = [some "leaf", some "fork"] ∧
    (grafted.constructorsOf (tree second)).map Ty.name? = [some "fork", some "leaf"] ∧
    mergeWalk grafted.walk s' = .ok () s' := by
  have hcovers : grafted.walk.Covers grafted := ⟨.refl _, .refl _, .refl _⟩
  have hok : mergeWalk grafted.walk planted =
      .ok () (stateAfter (mergeWalk grafted.walk) planted) := rfl
  obtain ⟨hunion, hwalks⟩ := reachable_planted.mergeWalk_isUnion reachable_grafted hcovers hok
  refine ⟨_, hok, ?_, ?_, rfl, (hwalks _ hcovers).2⟩
  · rw [hunion.adts]
    rfl
  · rw [hunion.constructors]
    rfl

end Store

end ValueAlgebra
