import ValueAlgebra.Proofs.Session.Meaning
import ValueAlgebra.Proofs.Writer.Declared

/-!
# What `make` accepts

`Build.make` makes a value of a type from any children that are shaped as the type says and from no
others. `Build.WellShaped` is this shape, read off the type without its aliases, and
`Build.HasContents` what becomes of the children. Collections go through writers of declared types,
which are open all the time: `Build.makeWritten` runs them, and only errors of types come out.

## Main definitions

- `Build.WellShaped`: the children that a type asks for
- `Build.HasContents`: the value holds its children
- `Build.makeWritten`: making a value as a program over writers
- `Build.MakesShaped`: what is shown of every kind of type, from which the whole follows
-/

namespace ValueAlgebra

/-- The types of values that are made of a single child. -/
def BasicTy.isScalar : BasicTy → Bool
  | int | double | bool | str | loc => true
  | value | void | node => false

namespace Build

variable {α : Type} {ty : Ty} {children : List Value} {m : Manager} {c : Cell} {v : Value}

/-- The children are those that a value of the type takes: a scalar one below it, a collection any
number of elements, a map keys and values in turn, and a tuple or constructor one for each field. -/
def WellShaped (ty : Ty) (children : List Value) : Prop :=
  match ty.unalias with
  | .basic _ b =>
    b.isScalar = true ∧ ∃ child, children = [child] ∧ child.ty.isSubtypeOf ty = true
  | .list _ e | .set _ e | .relation _ e => ∀ child ∈ children, child.ty.isSubtypeOf e = true
  | .map _ k x =>
    children.length % 2 = 0 ∧ ∀ i (child : Value), children[i]? = some child →
      child.ty.isSubtypeOf (if i % 2 = 0 then k else x) = true
  | .tuple _ fs | .constructor _ _ _ fs => Value.Fits children fs
  | .adt .. | .aliased .. => False

/-- The value holds the children in order. A set keeps the first of equal elements, a map the first
of equal keys with the last of their values, and a scalar is the child itself under the type. -/
def HasContents (ty : Ty) (children : List Value) (v : Value) : Prop :=
  match ty.unalias with
  | .basic .. => ∃ child, children = [child] ∧ v = child.withTy ty
  | .set .. | .relation .. => v.elements? = some children.eraseDups
  | .map .. => v.entries? = some (latest (pairs children))
  | _ => v.children? = some children

/-- The contents of a value as they are written: child by child into a new writer, which is then
asked for the value. -/
def writtenContents (m : Manager) (c : Cell) (ty : Ty) (children : List Value) :
    Except BuildError Value :=
  match ty.unalias with
  | .list _ e => returned (Writer.collect (children.map .insert) c) (Writer.list m (some e))
  | .set _ e => returned (Writer.collect (children.map .insert) c) (Writer.set m (some e))
  | .relation _ row => do
    let w ← (Writer.relation m row).mapError .type
    returned (Writer.collect (children.map .insert) c) w
  | .map _ k x =>
    if children.length % 2 = 0 then
      returned (Writer.collect ((pairs children).map .insert) c) (Writer.map m (some k) (some x))
    else .error (.type (.arity ty (children.length + 1) children.length))
  | _ => (makeContents m c ty children).mapError .type

/-- Makes a value as a program over the writers that it opens, which may be spent. -/
def makeWritten (m : Manager) (c : Cell) (ty : Ty) (children : List Value) :
    Except BuildError Value := do
  return (← writtenContents m c ty children).withTy ty

/-! ### Writers that are never spent -/

/-- A writer that is given items one by one returns what its buffer builds. -/
theorem returned_collect_insert {β ι : Type} [Buffer β ι] (items : List ι) (b : β) :
    returned (Writer.collect (items.map .insert) c) (Writer.ofBuffer m b) =
      (Buffer.build m c b items).mapError .type := by
  have hitems : (items.map Writer.Feed.insert).flatMap Writer.Feed.items = items := by
    induction items with
    | nil => rfl
    | cons item items ih => exact congrArg (item :: ·) ih
  rw [Writer.returned_collect, hitems]

/-- Writers that are opened for one value are never spent. -/
theorem writtenContents_eq :
    writtenContents m c ty children = (makeContents m c ty children).mapError .type := by
  unfold writtenContents makeContents
  cases ty.unalias with
  | list o e => exact returned_collect_insert children (ListBuffer.of e)
  | set o e => exact returned_collect_insert children (SetBuffer.of e false)
  | relation o row =>
    simp only [Writer.relation]
    cases m.relationOver row with
    | error e => rfl
    | ok t => exact returned_collect_insert children (SetBuffer.of row true)
  | map o k x =>
    by_cases heven : children.length % 2 = 0
    · simp only [if_pos heven]
      exact returned_collect_insert (pairs children) (MapBuffer.of k x)
    · simp only [if_neg heven]
      rfl
  | basic o b => cases b <;> rfl
  | _ => rfl

theorem makeWritten_eq : makeWritten m c ty children = (make m c ty children).mapError .type := by
  rw [makeWritten, make, writtenContents_eq]
  cases makeContents m c ty children <;> rfl

/-! ### Keys and values in turn -/

/-- What holds of the keys and of the values of pairs holds at even and at odd positions. -/
theorem forall_mem_pairs_iff {p q : α → Prop} : ∀ {l : List α}, l.length % 2 = 0 →
    ((∀ e ∈ pairs l, p e.1 ∧ q e.2) ↔
      ∀ i a, l[i]? = some a → if i % 2 = 0 then p a else q a)
  | [], _ => by simp [pairs]
  | [a], h => by cases h
  | a :: b :: l, h => by
    have hlen : l.length % 2 = 0 := by
      simp only [List.length_cons] at h
      omega
    rw [pairs, List.forall_mem_cons, forall_mem_pairs_iff hlen]
    constructor
    · rintro ⟨⟨ha, hb⟩, hl⟩ i y hy
      match i with
      | 0 =>
        obtain rfl := Option.some.inj hy
        exact ha
      | 1 =>
        obtain rfl := Option.some.inj hy
        exact hb
      | i + 2 =>
        rw [Nat.add_mod_right]
        exact hl i y hy
    · intro hall
      refine ⟨⟨hall 0 a rfl, hall 1 b rfl⟩, fun i y hy => ?_⟩
      have := hall (i + 2) y hy
      rwa [Nat.add_mod_right] at this

theorem wellShaped_map_iff {o : Origin} {k x : Ty} (hty : ty.unalias = .map o k x)
    (heven : children.length % 2 = 0) : WellShaped ty children ↔
      ∀ e ∈ pairs children, e.1.ty.isSubtypeOf k = true ∧ e.2.ty.isSubtypeOf x = true := by
  rw [forall_mem_pairs_iff (p := fun child => child.ty.isSubtypeOf k = true)
    (q := fun child => child.ty.isSubtypeOf x = true) heven, WellShaped, hty]
  show _ ∧ _ ↔ _
  rw [and_iff_right heven]
  refine forall₃_congr fun i child _ => ?_
  split <;> rfl

/-! ### Contents and shapes -/

/-- `make` takes well-shaped children and no others, and it gives the very type to what holds
them. -/
structure MakesShaped (m : Manager) (c : Cell) (ty : Ty) (children : List Value) : Prop where
  isOk_iff : (∃ v, make m c ty children = .ok v) ↔ WellShaped ty children
  ty_eq : ∀ v, make m c ty children = .ok v → v.ty = ty
  contents : ∀ v, make m c ty children = .ok v → HasContents ty children v

namespace MakesShaped

theorem of_contents {w : Value} (hw : ∀ v, makeContents m c ty children = .ok v ↔
      WellShaped ty children ∧ v = w) (hcontents : HasContents ty children (w.withTy ty)) :
    MakesShaped m c ty children := by
  have hmake (v : Value) : make m c ty children = .ok v ↔
      WellShaped ty children ∧ v = w.withTy ty := by
    simp only [make, bind_eq_ok, pure_eq_ok, hw]
    constructor
    · rintro ⟨_, ⟨hshaped, rfl⟩, rfl⟩
      exact ⟨hshaped, rfl⟩
    · rintro ⟨hshaped, rfl⟩
      exact ⟨w, ⟨hshaped, rfl⟩, rfl⟩
  refine ⟨⟨?_, fun h => ⟨_, (hmake _).2 ⟨h, rfl⟩⟩⟩, ?_, ?_⟩
  · rintro ⟨v, hv⟩
    exact ((hmake v).1 hv).1
  · intro v hv
    rw [((hmake v).1 hv).2, Value.ty_withTy]
  · intro v hv
    rw [((hmake v).1 hv).2]
    exact hcontents

/-- No value has the type and these children. -/
theorem of_refused {e : TypeError} (he : makeContents m c ty children = .error e)
    (hshaped : ¬WellShaped ty children) : MakesShaped m c ty children := by
  have hmake (v : Value) : make m c ty children ≠ .ok v := by
    rw [make, he]
    exact nofun
  refine ⟨iff_of_false (fun h => ?_) hshaped, fun v hv => (hmake v hv).elim,
    fun v hv => (hmake v hv).elim⟩
  obtain ⟨v, hv⟩ := h
  exact hmake v hv

theorem scalar {o : Origin} {b : BasicTy} (hty : ty.unalias = .basic o b)
    (hcontents : makeContents m c ty children = makeScalar ty children)
    (hb : b.isScalar = true) : MakesShaped m c ty children := by
  have hshaped : WellShaped ty children ↔
      ∃ child, children = [child] ∧ child.ty.isSubtypeOf ty = true := by
    rw [WellShaped, hty]
    exact and_iff_right hb
  match children with
  | [child] =>
    refine .of_contents (w := child) (fun v => ?_) ?_
    · rw [hcontents, hshaped, makeScalar]
      by_cases hbelow : child.ty.isSubtypeOf ty = true
      · rw [if_pos hbelow]
        refine ⟨fun h => ⟨⟨child, rfl, hbelow⟩, (Except.ok.inj h).symm⟩, ?_⟩
        exact fun h => congrArg _ h.2.symm
      · rw [if_neg hbelow]
        refine ⟨nofun, ?_⟩
        rintro ⟨⟨_, hone, hbelow'⟩, -⟩
        obtain ⟨rfl, -⟩ := List.cons.inj hone
        exact absurd hbelow' hbelow
    · rw [HasContents, hty]
      exact ⟨child, rfl, rfl⟩
  | [] =>
    refine .of_refused hcontents fun h => ?_
    obtain ⟨_, hone, -⟩ := hshaped.1 h
    cases hone
  | _ :: _ :: _ =>
    refine .of_refused hcontents fun h => ?_
    obtain ⟨_, hone, -⟩ := hshaped.1 h
    cases hone

end MakesShaped

end Build

namespace Session

open Build

variable {s : Session} {m : Manager} {c : Cell} {ty : Ty} {children : List Value}

/-- Children that fit the fields are handed on. -/
theorem checkFields_bind_eq_ok_iff {fs : List (Field Ty)} {v w : Value} :
    (checkFields ty fs children >>= fun _ => pure w) = Except.ok v ↔
      Value.Fits children fs ∧ v = w := by
  simp only [bind_eq_ok, pure_eq_ok]
  constructor
  · rintro ⟨⟨⟩, hfits, rfl⟩
    exact ⟨checkFields_eq_ok.1 hfits, rfl⟩
  · rintro ⟨hfits, rfl⟩
    exact ⟨(), checkFields_eq_ok.2 hfits, rfl⟩

/-- Children at hand are taken exactly if they have the shape. -/
theorem Coherent.makesShaped (h : s.Coherent) (hs : s.TypedValues) (hty : ty.WellFormed)
    (hchildren : ∀ v ∈ children, s.Has v) : MakesShaped m c ty children := by
  have hwf := hty.unalias
  cases hu : ty.unalias with
  | basic o b =>
    have hrefused (hb : b.isScalar = false) : ¬WellShaped ty children := by
      rw [WellShaped, hu]
      intro hshaped
      rw [hshaped.1] at hb
      cases hb
    cases b with
    | value | void | node => exact .of_refused (by rw [makeContents, hu]) (hrefused rfl)
    | _ => exact .scalar hu (by rw [makeContents, hu]) rfl
  | list o e =>
    refine .of_contents (w := .list (m.list e) c children) (fun v => ?_) ?_
    · rw [makeContents, WellShaped, hu]
      exact ListBuffer.build_eq_ok_iff
    · rw [HasContents, hu]
      rfl
  | set o e =>
    refine .of_contents (w := .set (m.set e) c (.ofValues children)) (fun v => ?_) ?_
    · rw [makeContents, WellShaped, hu]
      exact SetBuffer.build_eq_ok_iff
    · rw [HasContents, hu]
      exact (h.meansSet (h.records_ofValues hchildren) ty c).elements
  | relation o row =>
    rw [hu] at hwf
    cases hwf with
    | relation _ htuple _ =>
    refine .of_contents (w := .set (m.set row) c (.ofValues children)) (fun v => ?_) ?_
    · rw [makeContents, WellShaped, hu]
      show (m.relationOver row >>= _) = _ ↔ _
      rw [Manager.relationOver, if_pos htuple]
      exact SetBuffer.build_relation_eq_ok_iff htuple fun w hw =>
        hs.kind_ty_ne_void (hchildren w hw)
    · rw [HasContents, hu]
      exact (h.meansSet (h.records_ofValues hchildren) ty c).elements
  | map o k x =>
    by_cases heven : children.length % 2 = 0
    · have hpairs : ∀ e ∈ pairs children, s.HasEntry e := fun e he =>
        ⟨hchildren _ (mem_of_mem_pairs he).1, hchildren _ (mem_of_mem_pairs he).2⟩
      refine .of_contents (w := .map (m.map k x) c (.ofEntries (pairs children))) (fun v => ?_) ?_
      · rw [wellShaped_map_iff hu heven, makeContents, hu]
        show (if children.length % 2 = 0 then _ else _) = _ ↔ _
        rw [if_pos heven]
        exact MapBuffer.build_eq_ok_iff
      · rw [HasContents, hu]
        exact (h.meansMap (h.records_ofEntries hpairs) ty c).entries
    · refine .of_refused (e := .arity ty (children.length + 1) children.length) ?_ ?_
      · rw [makeContents, hu]
        exact if_neg heven
      · rw [WellShaped, hu]
        exact fun hshaped => heven hshaped.1
  | tuple o fs =>
    refine .of_contents (w := .tuple ty c children) (fun v => ?_) ?_
    · rw [makeContents, WellShaped, hu]
      exact checkFields_bind_eq_ok_iff
    · rw [HasContents, hu]
      rfl
  | constructor o a n fs =>
    refine .of_contents (w := .constructor ty c children) (fun v => ?_) ?_
    · rw [makeContents, WellShaped, hu]
      show Build.constructor c ty children = .ok v ↔ _
      rw [Build.constructor, hu]
      exact checkFields_bind_eq_ok_iff
    · rw [HasContents, hu]
      rfl
  | adt o n ps =>
    refine .of_refused (e := .notConstructible ty) ?_ ?_
    · rw [makeContents, hu]
    · rw [WellShaped, hu]
      exact id
  | aliased o n t =>
    have halias := ty.isAlias_unalias
    rw [hu] at halias
    cases halias

/-- `make` takes well-shaped children, and then the value has the very type asked for, is of its
kind and holds the children. It refuses all others with an error of types, as do the writers it
uses. -/
theorem Reachable.make_takes_wellShaped (hs : s.Reachable) (hty : ty.Made)
    (hchildren : ∀ v ∈ children, s.Has v) (m : Manager) :
    ((∃ v, Build.make m s.next ty children = .ok v) ↔ WellShaped ty children) ∧
    (∀ v, Build.make m s.next ty children = .ok v →
      v.ty = ty ∧ v.kind = ty.kind ∧ HasContents ty children v ∧
      makeWritten m s.next ty children = .ok v) ∧
    (¬WellShaped ty children → ∃ e, Build.make m s.next ty children = .error e ∧
      makeWritten m s.next ty children = .error (.type e)) := by
  have htyped := hs.typed.values
  have hmakes : MakesShaped m s.next ty children :=
    hs.coherent.makesShaped htyped hty.wellFormed hchildren
  refine ⟨hmakes.isOk_iff, fun v hv => ?_, fun hshaped => ?_⟩
  · have hadmits : s.Admits v := admits_make htyped hty.wellFormed hchildren hv
    have htype : v.ty = ty := hmakes.ty_eq v hv
    refine ⟨htype, ?_, hmakes.contents v hv, ?_⟩
    · rw [← htype, hadmits.typed.kind_ty]
    · rw [makeWritten_eq, hv]
      rfl
  · cases hmake : Build.make m s.next ty children with
    | ok v => exact absurd (hmakes.isOk_iff.1 ⟨v, hmake⟩) hshaped
    | error e =>
      refine ⟨e, rfl, ?_⟩
      rw [makeWritten_eq, hmake]
      rfl

/-! ### A map under another name -/

namespace Nested

/-- A type of maps from doubles to anything, under a name. -/
def index : Ty := manager.aliased "Index" (manager.map manager.double manager.value)

theorem made_index : index.Made :=
  .aliased manager "Index" (.map manager (.basic manager .double) (.basic manager .value))

/-- Two entries, of which the second has the key of the first. -/
def twice : List Value := [positiveNaN, number, negativeNaN, first]

end Nested

open Nested in
/-- The map under the name has the first key with the last value. Without the last value there is no
map, nor if keys and values are swapped. -/
theorem make_index :
    (∃ v, Build.make manager session.next index twice = .ok v ∧ v.ty = index ∧
      v.entries? = some [(positiveNaN, first)]) ∧
    (∃ e, makeWritten manager session.next index (twice.take 3) = .error (.type e)) ∧
    ∃ e, makeWritten manager session.next index twice.reverse = .error (.type e) := by
  have htwice : ∀ v ∈ twice, session.Has v := by
    simp [twice, has_of_mem, session, sets, parts, scalars, add]
  have hswapped : ∀ v ∈ twice.reverse, session.Has v := fun v hv =>
    htwice v (List.mem_reverse.1 hv)
  have hdropped : ∀ v ∈ twice.take 3, session.Has v := fun v hv =>
    htwice v (List.mem_of_mem_take hv)
  have hmake := reachable_session.make_takes_wellShaped made_index htwice manager
  have hshaped : WellShaped index twice := (wellShaped_map_iff rfl rfl).2 (by decide +kernel)
  refine ⟨?_, ?_, ?_⟩
  · obtain ⟨v, hv⟩ := hmake.1.2 hshaped
    obtain ⟨hty, -, hcontents, -⟩ := hmake.2.1 v hv
    have heq : (negativeNaN == positiveNaN) = true := by decide +kernel
    have hlatest : latest (pairs twice) = [(positiveNaN, first)] := by
      simp [latest, lastFor, twice, pairs, List.eraseDups_cons, heq]
    exact ⟨v, hv, hty, hcontents.trans (congrArg some hlatest)⟩
  · obtain ⟨-, -, hrefuses⟩ := reachable_session.make_takes_wellShaped made_index hdropped manager
    obtain ⟨e, -, he⟩ := hrefuses fun hshaped => absurd hshaped.1 (by decide)
    exact ⟨e, he⟩
  · obtain ⟨-, -, hrefuses⟩ := reachable_session.make_takes_wellShaped made_index hswapped manager
    obtain ⟨e, -, he⟩ := hrefuses fun hshaped => by
      have := hshaped.2 0 first rfl
      revert this
      decide +kernel
    exact ⟨e, he⟩

end Session

end ValueAlgebra
