import ValueAlgebra.Proofs.Interning.Calls
import ValueAlgebra.Proofs.Store.Valid

/-!
# Declaring in an arena

A manager keeps the types of a store by reference. It compares the definitions of aliases by
identity and other types by structure, and hands out the reference that is declared already where
there is one. By reference a declaration does to a store what it does on types; one that fails has
interned the declared type all the same.

## Main definitions

- `RefStore`: stores of references
- `RefStore.read`: the store of types that it stands for
- `Declaration.run`: declaring by reference
- `Arena.Declares`: a declaration by reference comes to the same as one on types
-/

open Std (ExtTreeMap)

namespace ValueAlgebra

/-- A store whose types are given by reference. -/
structure RefStore where
  aliases : ExtTreeMap String Ref := ∅
  adts : ExtTreeMap String Ref := ∅
  constructors : ExtTreeMap String (List Ref) := ∅

namespace RefStore

instance : EmptyCollection RefStore := ⟨{}⟩

/-- Every reference in the store is one of those. -/
structure Within (s : RefStore) (P : Ref → Prop) : Prop where
  aliases : ∀ (name : String) r, s.aliases[name]? = some r → P r
  adts : ∀ (name : String) r, s.adts[name]? = some r → P r
  constructors : ∀ (name : String) rs, s.constructors[name]? = some rs → ∀ r ∈ rs, P r

def read (a : Arena) (s : RefStore) : Store where
  aliases := s.aliases.map fun _ r => a.read r
  adts := s.adts.map fun _ r => a.read r
  constructors := s.constructors.map fun _ rs => rs.map a.read

def addAlias (s : RefStore) (name : String) (r : Ref) : RefStore :=
  { s with aliases := s.aliases.insert name r }

def addAdt (s : RefStore) (name : String) (r : Ref) : RefStore :=
  { s with adts := s.adts.insert name r }

def addConstructor (s : RefStore) (adtName : String) (r : Ref) : RefStore :=
  { s with constructors := s.constructors.insert adtName (s.constructors.getD adtName [] ++ [r]) }

/-- Declares `r` as an alias of `target`. Definitions are compared by identity. -/
def declareAlias (a : Arena) (s : RefStore) (name : String) (target r : Ref) :
    Except TypeError (Ref × RefStore) :=
  match s.adts[name]?, s.aliases[name]? with
  | some adt, _ => .error (.nameClash name (a.read adt))
  | none, none => .ok (r, s.addAlias name r)
  | none, some old =>
    if a.unalias old = a.unalias target then .ok (old, s)
    else .error (.aliasRedeclared name (a.read (a.unalias old)) (a.read target))

/-- Declares `r` as a data type. -/
def declareAdt (a : Arena) (s : RefStore) (name : String) (r : Ref) :
    Except TypeError (Ref × RefStore) :=
  match s.aliases[name]?, s.adts[name]? with
  | some old, _ => .error (.nameClash name (a.read (a.unalias old)))
  | none, none => .ok (r, s.addAdt name r)
  | none, some old =>
    if (a.read old).sameShape (a.read r) then .ok (old, s)
    else .error (.adtRedeclared name (a.read old) (a.read r))

/-- Declares `r` as a constructor of the data type `owner`. -/
def declareConstructor (a : Arena) (s : RefStore) (adtName : String) (owner r : Ref) :
    Except TypeError (Ref × RefStore) :=
  if s.adts[adtName]?.any fun adt => (a.read adt).sameShape (a.read owner) then
    match (s.constructors.getD adtName []).find? fun c => (a.read c).sameShape (a.read r) with
    | some old => .ok (old, s)
    | none => .ok (r, s.addConstructor adtName r)
  else .error (.undeclaredAdt (a.read owner).text)

end RefStore

namespace Declaration

variable {ρ σ : Type}

def operands : Declaration ρ → List ρ
  | aliased _ target => [target]
  | adt _ params => params
  | constructor owner _ fields => owner :: fields.map Field.ty

def mapOperands (f : ρ → σ) : Declaration ρ → Declaration σ
  | aliased name target => aliased name (f target)
  | adt name params => adt name (params.map f)
  | constructor owner name fields => constructor (f owner) name (fields.map (Field.mapTy f))

open Arena in
/-- The declaration by reference, in a store of references. -/
def run (s : RefStore) : Declaration Ref → Interning (Ref × RefStore)
  | aliased name target => do
    let r ← intern (.aliased name target)
    ofExcept (s.declareAlias (← get) name target r)
  | adt name params => do
    let r ← intern (.adt name params)
    ofExcept (s.declareAdt (← get) name r)
  | constructor owner name fields => do
    match (← get).layer? owner with
    | some (.adt adtName _) =>
      let r ← intern (.constructor owner name fields)
      ofExcept (s.declareConstructor (← get) adtName owner r)
    | _ => throw (.wrongKind .dataType (.type ((← get).read owner)))

end Declaration

variable {a a' : Arena} {s : RefStore}

namespace RefStore

/-! ### Stores of types -/

theorem findAlias?_read (name : String) :
    (s.read a).findAlias? name = s.aliases[name]?.map a.read :=
  ExtTreeMap.getElem?_map

theorem findAdt?_read (name : String) : (s.read a).findAdt? name = s.adts[name]?.map a.read :=
  ExtTreeMap.getElem?_map

theorem getD_constructors_read (name : String) :
    (s.read a).constructors.getD name [] = (s.constructors.getD name []).map a.read := by
  rw [read, ExtTreeMap.getD_map, ExtTreeMap.getD_eq_getD_getElem?]
  cases s.constructors[name]? <;> rfl

theorem map_insert {α β : Type} {f : α → β} {t : ExtTreeMap String α} {name : String} {x : α} :
    ((t.insert name x).map fun _ => f) = (t.map fun _ => f).insert name (f x) := by
  refine ExtTreeMap.ext_getElem? fun k => ?_
  rw [ExtTreeMap.getElem?_map, ExtTreeMap.getElem?_insert, ExtTreeMap.getElem?_insert,
    ExtTreeMap.getElem?_map]
  split <;> rfl

/-- Adding a reference adds the type that it stands for. -/
theorem read_addAlias {name : String} {r : Ref} {o : Origin} {t : Ty}
    (hr : a.read r = .aliased o name t) :
    (s.addAlias name r).read a = (s.read a).addAlias (.aliased o name t) := by
  rw [read, addAlias, map_insert, hr]
  rfl

theorem read_addAdt {name : String} {r : Ref} {o : Origin} {ps : List Ty}
    (hr : a.read r = .adt o name ps) :
    (s.addAdt name r).read a = (s.read a).addAdt (.adt o name ps) := by
  rw [read, addAdt, map_insert, hr]
  rfl

theorem read_addConstructor {adtName : String} {r : Ref} :
    (s.addConstructor adtName r).read a = (s.read a).addConstructor adtName (a.read r) := by
  rw [Store.addConstructor, getD_constructors_read, read, addConstructor, map_insert,
    List.map_append]
  rfl

namespace Within

variable {P Q : Ref → Prop} {name : String} {r : Ref}

protected theorem empty : (∅ : RefStore).Within P where
  aliases _ _ h := nomatch h.symm.trans ExtTreeMap.getElem?_empty
  adts _ _ h := nomatch h.symm.trans ExtTreeMap.getElem?_empty
  constructors _ _ h := nomatch h.symm.trans ExtTreeMap.getElem?_empty

theorem imp (h : s.Within P) (hPQ : ∀ r, P r → Q r) : s.Within Q where
  aliases name r hr := hPQ r (h.aliases name r hr)
  adts name r hr := hPQ r (h.adts name r hr)
  constructors name rs hrs r hr := hPQ r (h.constructors name rs hrs r hr)

theorem of_mem_constructors (h : s.Within P) (hr : r ∈ s.constructors.getD name []) : P r := by
  rw [ExtTreeMap.getD_eq_getD_getElem?] at hr
  cases hrs : s.constructors[name]? with
  | none =>
    rw [hrs] at hr
    cases hr
  | some rs =>
    rw [hrs] at hr
    exact h.constructors name rs hrs r hr

theorem addAlias (h : s.Within P) (hr : P r) : (s.addAlias name r).Within P := by
  refine { h with aliases := fun n q hq => ?_ }
  rw [RefStore.addAlias, ExtTreeMap.getElem?_insert] at hq
  split at hq
  · exact Option.some.inj hq ▸ hr
  · exact h.aliases n q hq

theorem addAdt (h : s.Within P) (hr : P r) : (s.addAdt name r).Within P := by
  refine { h with adts := fun n q hq => ?_ }
  rw [RefStore.addAdt, ExtTreeMap.getElem?_insert] at hq
  split at hq
  · exact Option.some.inj hq ▸ hr
  · exact h.adts n q hq

theorem addConstructor (h : s.Within P) (hr : P r) : (s.addConstructor name r).Within P := by
  refine { h with constructors := fun n rs hrs q hq => ?_ }
  rw [RefStore.addConstructor, ExtTreeMap.getElem?_insert] at hrs
  split at hrs
  · rw [← Option.some.inj hrs] at hq
    rcases List.mem_append.1 hq with hq | hq
    · exact h.of_mem_constructors hq
    · exact List.mem_singleton.1 hq ▸ hr
  · exact h.constructors n rs hrs q hq

end Within

end RefStore

namespace Arena

/-- A store stands for the same types however many more there are. -/
theorem Grows.readStore_eq (h : a.Grows a') (hs : s.Within a.Holds) : s.read a' = s.read a := by
  have hmap {t : ExtTreeMap String Ref} (ht : ∀ (name : String) r, t[name]? = some r → a.Holds r) :
      (t.map fun _ => a'.read) = t.map fun _ => a.read := by
    refine ExtTreeMap.ext_getElem? fun name => ?_
    rw [ExtTreeMap.getElem?_map, ExtTreeMap.getElem?_map]
    exact Option.map_congr fun r hr => h.read_eq (ht name r hr)
  have hconstructors : (s.constructors.map fun _ rs => rs.map a'.read) =
      s.constructors.map fun _ rs => rs.map a.read := by
    refine ExtTreeMap.ext_getElem? fun name => ?_
    rw [ExtTreeMap.getElem?_map, ExtTreeMap.getElem?_map]
    refine Option.map_congr fun rs hrs => List.map_congr_left fun r hr => ?_
    exact h.read_eq (hs.constructors name rs hrs r hr)
  rw [RefStore.read, RefStore.read, hmap hs.aliases, hmap hs.adts, hconstructors]

/-- The outcome on references stands for the one on types. -/
def Matches (a : Arena) :
    Except TypeError (Ref × RefStore) → EStateM.Result TypeError Store Ty → Prop
  | .ok (r, s), .ok t st => a.Reads r t ∧ s.Within a.Holds ∧ s.read a = st
  | .error e, .error e' _ => e = e'
  | _, _ => False

end Arena

namespace RefStore

variable {name : String} {r : Ref} {o : Origin}

theorem declareAlias_matches {target : Ref} (h : a.Canonical) (hs : s.Within a.Holds)
    (ht : a.Holds target) (hr : a.Reads r (.aliased o name (a.read target))) :
    a.Matches (s.declareAlias a name target r)
      (Store.declareAlias (.aliased o name (a.read target)) (s.read a)) := by
  rw [Store.declareAlias_apply, Store.checkAlias, findAdt?_read, findAlias?_read, declareAlias]
  cases hadt : s.adts[name]? with
  | some adt => exact rfl
  | none =>
    cases halias : s.aliases[name]? with
    | none => exact ⟨hr, hs.addAlias hr.holds, read_addAlias hr.read_eq⟩
    | some old =>
      have hold := hs.aliases name old halias
      have hiff : a.unalias old = a.unalias target ↔
          (a.read old).unalias = (a.read target).unalias := by
        rw [← (h.reads_unalias hold).read_eq, ← (h.reads_unalias ht).read_eq,
          h.read_inj (h.reads_unalias hold).holds (h.reads_unalias ht).holds]
      by_cases heq : a.unalias old = a.unalias target
      · simp only [Option.map, if_pos heq, if_pos (hiff.1 heq)]
        exact ⟨⟨hold, rfl⟩, hs, rfl⟩
      · simp only [Option.map, if_neg heq, if_neg (mt hiff.2 heq)]
        rw [(h.reads_unalias hold).read_eq]
        rfl

theorem declareAdt_matches {ps : List Ty} (h : a.Canonical) (hs : s.Within a.Holds)
    (hr : a.Reads r (.adt o name ps)) :
    a.Matches (s.declareAdt a name r) (Store.declareAdt (.adt o name ps) (s.read a)) := by
  rw [Store.declareAdt_apply, Store.checkAdt, findAdt?_read, findAlias?_read, declareAdt]
  cases halias : s.aliases[name]? with
  | some old =>
    have hread := (h.reads_unalias (hs.aliases name old halias)).read_eq
    exact congrArg (TypeError.nameClash name) hread
  | none =>
    cases hadt : s.adts[name]? with
    | none => exact ⟨hr, hs.addAdt hr.holds, read_addAdt hr.read_eq⟩
    | some old =>
      simp only [Option.map, hr.read_eq]
      by_cases hsame : (a.read old).sameShape (.adt o name ps) = true
      · rw [if_pos hsame, if_pos hsame]
        exact ⟨⟨hs.adts name old hadt, rfl⟩, hs, rfl⟩
      · rw [if_neg hsame, if_neg hsame]
        rfl

theorem declareConstructor_matches {adtName : String} {owner : Ref} {o' : Origin} {ps : List Ty}
    {fs : List (Field Ty)} (hs : s.Within a.Holds) (howner : a.read owner = .adt o' adtName ps)
    (hr : a.Reads r (.constructor o (.adt o' adtName ps) name fs)) :
    a.Matches (s.declareConstructor a adtName owner r)
      (Store.declareConstructor (.constructor o (.adt o' adtName ps) name fs) (s.read a)) := by
  rw [Store.declareConstructor_apply, findAdt?_read, getD_constructors_read, declareConstructor,
    howner, hr.read_eq, List.find?_map, Option.any_map]
  simp only [Function.comp_def]
  split
  · cases hfind : (s.constructors.getD adtName []).find?
      fun c => (a.read c).sameShape (.constructor o (.adt o' adtName ps) name fs) with
    | some old =>
      exact ⟨⟨hs.of_mem_constructors (List.mem_of_find?_eq_some hfind), rfl⟩, hs, rfl⟩
    | none =>
      refine ⟨hr, hs.addConstructor hr.holds, ?_⟩
      rw [read_addConstructor, hr.read_eq]
  · rfl

end RefStore

namespace Arena

/-- By reference the declaration comes to the given outcome on types, and what it interned stays,
also if it fails. -/
def Declares (a : Arena) (x : Interning (Ref × RefStore)) :
    EStateM.Result TypeError Store Ty → Prop
  | .ok t st => a.Leads x fun d a' => a'.Reads d.1 t ∧ d.2.Within a'.Holds ∧ d.2.read a' = st
  | .error e _ => ∃ a', x a = .error e a' ∧ a.Grows a'

theorem Declares.get_bind {f : Arena → Interning (Ref × RefStore)}
    {outcome : EStateM.Result TypeError Store Ty} (h : a.Declares (f a) outcome) :
    a.Declares (get >>= f) outcome := by
  cases outcome <;> exact h

/-- A declaration interns a layer and enters it into the store. -/
theorem declares_of_intern {n : Layer Ref} {f : Arena → Ref → Except TypeError (Ref × RefStore)}
    {outcome : EStateM.Result TypeError Store Ty} (h : a.Canonical) (hn : ∀ p ∈ n.parts, a.Holds p)
    (hmatches : ∀ r a', a.Grows a' → a'.Reads r ((n.mapParts a.read).build a.manager.origin) →
      a'.Matches (f a' r) outcome) :
    a.Declares (do
      let r ← intern n
      ofExcept (f (← get) r)) outcome := by
  obtain ⟨r, a', hrun, hgrows, hr⟩ := leads_intern h hn
  have hmatches := hmatches r a' hgrows hr
  have happly : (do
      let r ← intern n
      ofExcept (f (← get) r) : Interning (Ref × RefStore)) a = match f a' r with
        | .ok d => .ok d a'
        | .error e => .error e a' := by
    rw [bind_apply_of_ok hrun]
    show (ofExcept (f a' r) : Interning (Ref × RefStore)) a' = _
    cases f a' r <;> rfl
  cases hf : f a' r with
  | ok d =>
    rw [hf] at happly hmatches
    cases outcome with
    | ok t st => exact ⟨d, a', happly, hgrows, hmatches⟩
    | error e st => exact hmatches.elim
  | error e =>
    rw [hf] at happly hmatches
    cases outcome with
    | ok t st => exact hmatches.elim
    | error e' st => exact ⟨a', hmatches ▸ happly, hgrows⟩

end Arena

/-- Declarations by reference come to what the manager's do. -/
theorem Declaration.declares_run (h : a.Canonical) (hs : s.Within a.Holds) (d : Declaration Ref)
    (hd : ∀ r ∈ d.operands, a.Holds r) :
    a.Declares (d.run s) ((d.mapOperands a.read).declare a.manager (s.read a)) := by
  cases d with
  | aliased name target =>
    have ht : a.Holds target := hd target (.head _)
    refine Arena.declares_of_intern (n := .aliased name target) h hd fun r a' hg hr => ?_
    have hmatches := RefStore.declareAlias_matches (o := a.manager.origin) hg.canonical
      (hs.imp fun _ => hg.holds) (hg.holds ht) (by rwa [hg.read_eq ht])
    rwa [hg.read_eq ht, hg.readStore_eq hs] at hmatches
  | adt name params =>
    refine Arena.declares_of_intern (n := .adt name params) h hd fun r a' hg hr => ?_
    have hmatches := RefStore.declareAdt_matches hg.canonical (hs.imp fun _ => hg.holds) hr
    rwa [hg.readStore_eq hs] at hmatches
  | constructor owner name fields =>
    have howner : a.Holds owner := hd owner (.head _)
    obtain ⟨n, hn⟩ := Arena.holds_iff.1 howner
    have hread := h.read_eq hn
    refine Arena.Declares.get_bind ?_
    rw [hn, mapOperands, hread]
    cases n with
    | adt adtName ps =>
      refine Arena.declares_of_intern (n := .constructor owner name fields)
        (f := fun a r => s.declareConstructor a adtName owner r) h hd fun r a' hg hr => ?_
      rw [Layer.mapParts, hread] at hr
      have hmatches := RefStore.declareConstructor_matches (hs.imp fun _ => hg.holds)
        ((hg.read_eq howner).trans hread) hr
      rwa [hg.readStore_eq hs] at hmatches
    -- Only a data type itself may own constructors.
    | _ =>
      refine ⟨a, ?_, .refl h⟩
      rw [← hread]
      rfl

end ValueAlgebra
