import ValueAlgebra.Proofs.Session.Identity
import ValueAlgebra.Proofs.Ty.Bounds
import ValueAlgebra.Proofs.Writer.Incremental

/-!
# Inferred types are exact

The element type of a list or set that infers it is a least type above the types of all that was
inserted, and so are the key and value types of a map. Elements and values that are dropped count as
well. What is a least type does not depend on the order of the insertions: they may come in another
one, and from another manager, and the collection has an equivalent type.

## Main definitions

- `Assembly.Builds`: a value is built of items, at once or by a new writer
- `Value.IsExactFor`: a type is what is inferred of some values
- `Assembly.InfersExactly`: the types of all values of one sort are exact
-/

namespace ValueAlgebra

namespace Assembly

variable {β ι : Type} [Buffer β ι] {a : Assembly β ι} {m : Manager} {items : List ι} {v : Value}

/-- The value is built of the items: at once, or by a new writer that infers its types and is given
the items in any calls. -/
inductive Builds (a : Assembly β ι) (m : Manager) (items : List ι) (v : Value) : Prop
  | atOnce (cell : Cell) (h : v = a.build m cell items)
  | written (cell : Cell) (feeds : List (Writer.Feed ι))
    (hitems : feeds.flatMap Writer.Feed.items = items)
    (h : returned (Writer.collect feeds cell) (a.writer m) = .ok v)

theorem Builds.eq_build {Reopens : Value → Prop} (ha : a.Incremental Reopens)
    (h : a.Builds m items v) : ∃ cell, v = a.build m cell items := by
  cases h with
  | atOnce cell h => exact ⟨cell, h⟩
  | written cell feeds hitems h =>
    rw [ha.new, hitems] at h
    exact ⟨cell, (Except.ok.inj h).symm⟩

/-! ### Writers that infer their types -/

theorem list_incremental : list.Incremental fun _ => False :=
  .of_holding (fun _ => ListBuffer.push_holding) (fun _ _ _ => rfl) (fun _ => rfl) nofun

theorem set_incremental : set.Incremental fun _ => False :=
  .of_holding (fun _ => SetBuffer.push_holding_set) (fun _ _ _ => rfl) (fun _ => rfl) nofun

theorem map_incremental : map.Incremental fun _ => False :=
  .of_holding (fun _ => MapBuffer.push_holding) (fun _ _ _ => rfl) (fun _ => rfl) nofun

end Assembly

namespace Value

/-- The type is the least above the types of the values, and `void` if there are none. -/
structure IsExactFor (m : Manager) (vs : List Value) (e : Ty) : Prop where
  above : ∀ v ∈ vs, v.ty.isSubtypeOf e = true
  least : ∀ t : Ty, (∀ v ∈ vs, v.ty.isSubtypeOf t = true) → e.isSubtypeOf t = true
  eq_void : vs = [] → e = m.void

end Value

/-- A part of the type of a collection, with the part of each item that it is inferred from. -/
structure Side (ι : Type) where
  ty? : Ty → Option Ty
  value : ι → Value

/-- Lists and sets have one side. -/
def Side.elements : Side Value := ⟨Ty.element?, id⟩

def Side.keys : Side (Value × Value) := ⟨Ty.key?, Prod.fst⟩

def Side.values : Side (Value × Value) := ⟨Ty.val?, Prod.snd⟩

namespace Assembly

variable {β ι : Type} [Buffer β ι]

/-- A new writer always gives its value, each side of a value that is built of items has an exact
type, and the same items in any order make values of equivalent types. -/
structure InfersExactly (a : Assembly β ι) (Held : ι → Prop) (sides : List (Side ι)) : Prop where
  returns : ∀ m cell (feeds : List (Writer.Feed ι)),
    ∃ v, returned (Writer.collect feeds cell) (a.writer m) = .ok v
  isExactFor : ∀ m items v, (∀ i ∈ items, Held i) → a.Builds m items v → ∀ side ∈ sides,
    ∃ e, side.ty? v.ty = some e ∧ Value.IsExactFor m (items.map side.value) e
  isEquivalentTo : ∀ m m' items items' v v', (∀ i ∈ items, Held i) → items.Perm items' →
    a.Builds m items v → a.Builds m' items' v' → v.ty.isEquivalentTo v'.ty = true

end Assembly

namespace Session

variable {s : Session} {vs : List Value}

theorem TypedValues.isLeastAbove_lubOf (hs : s.TypedValues) (h : ∀ v ∈ vs, s.Has v)
    (m : Manager) : Ty.IsLeastAbove (vs.map Value.ty) (m.lubOf (vs.map Value.ty)) :=
  m.isLeastAbove_lubOf (wellFormed_types hs h)

theorem TypedValues.isExactFor (hs : s.TypedValues) (h : ∀ v ∈ vs, s.Has v) (m : Manager) :
    Value.IsExactFor m vs (m.lubOf (vs.map Value.ty)) := by
  have hleast := hs.isLeastAbove_lubOf h m
  refine ⟨List.forall_mem_map.1 hleast.above, fun t ht => ?_, ?_⟩
  · exact hleast.least t (List.forall_mem_map.2 ht)
  · rintro rfl
    rfl

/-- The order of the values does not matter, nor who joins their types. -/
theorem TypedValues.lubOf_isEquivalentTo (hs : s.TypedValues) (h : ∀ v ∈ vs, s.Has v)
    {vs' : List Value} (hperm : vs.Perm vs') (m m' : Manager) :
    (m.lubOf (vs.map Value.ty)).isEquivalentTo (m'.lubOf (vs'.map Value.ty)) = true := by
  have h' : ∀ v ∈ vs', s.Has v := fun v hv => h v (hperm.mem_iff.2 hv)
  have hmap := hperm.map Value.ty
  exact (hs.isLeastAbove_lubOf h m).isEquivalentTo (hs.isLeastAbove_lubOf h' m')
    hmap.subset hmap.symm.subset

variable {β ι : Type} [Buffer β ι] {a : Assembly β ι} {Held : ι → Prop} {sides : List (Side ι)}

/-- It is enough that each side joins the types of its values, and that equivalent sides make
equivalent types. -/
theorem TypedValues.infersExactly_of_sides (hs : s.TypedValues) {Reopens : Value → Prop}
    (ha : a.Incremental Reopens) (hheld : ∀ side ∈ sides, ∀ i, Held i → s.Has (side.value i))
    (hty : ∀ m c items, ∀ side ∈ sides, side.ty? (a.build m c items).ty =
      some (m.lubOf ((items.map side.value).map Value.ty)))
    (hequiv : ∀ m m' c c' items items', (∀ side ∈ sides,
      (m.lubOf ((items.map side.value).map Value.ty)).isEquivalentTo
        (m'.lubOf ((items'.map side.value).map Value.ty)) = true) →
      (a.build m c items).ty.isEquivalentTo (a.build m' c' items').ty = true) :
    a.InfersExactly Held sides := by
  have hvalues {items : List ι} (h : ∀ i ∈ items, Held i) {side : Side ι} (hside : side ∈ sides) :
      ∀ v ∈ items.map side.value, s.Has v :=
    List.forall_mem_map.2 fun i hi => hheld side hside i (h i hi)
  refine ⟨fun m c feeds => ⟨_, ha.new m c feeds⟩, fun m items v h hv side hside => ?_,
    fun m m' items items' v v' h hperm hv hv' => ?_⟩
  · obtain ⟨c, rfl⟩ := hv.eq_build ha
    exact ⟨_, hty m c items side hside, hs.isExactFor (hvalues h hside) m⟩
  · obtain ⟨c, rfl⟩ := hv.eq_build ha
    obtain ⟨c', rfl⟩ := hv'.eq_build ha
    refine hequiv m m' c c' items items' fun side hside => ?_
    exact hs.lubOf_isEquivalentTo (hvalues h hside) (hperm.map side.value) m m'

/-- Lists, sets and maps that infer their types, built at once or by a new writer, have the most
precise types above all that was inserted, `void` for nothing, and equivalent types whatever the
order of the insertions is. -/
theorem Reachable.infersExactly (hs : s.Reachable) :
    Assembly.list.InfersExactly s.Has [.elements] ∧
    Assembly.set.InfersExactly s.Has [.elements] ∧
    Assembly.map.InfersExactly s.HasEntry [.keys, .values] := by
  have htyped := hs.typed.values
  refine ⟨?list, ?set, ?map⟩
  case list =>
    refine htyped.infersExactly_of_sides Assembly.list_incremental ?_ ?_ ?_
    · exact List.forall_mem_singleton.2 fun _ => id
    · intro m c items
      refine List.forall_mem_singleton.2 ?_
      rw [Side.elements, List.map_id]
      rfl
    · intro m m' c c' items items' h
      have h := h .elements List.mem_cons_self
      rw [Side.elements, List.map_id, List.map_id] at h
      exact Ty.isEquivalentTo_list h
  case set =>
    refine htyped.infersExactly_of_sides Assembly.set_incremental ?_ ?_ ?_
    · exact List.forall_mem_singleton.2 fun _ => id
    · intro m c items
      refine List.forall_mem_singleton.2 ?_
      rw [Side.elements, List.map_id]
      show (m.set (m.lubOf (items.map Value.ty))).element? = _
      unfold Manager.set
      split <;> rfl
    · intro m m' c c' items items' h
      have h := h .elements List.mem_cons_self
      rw [Side.elements, List.map_id, List.map_id] at h
      exact Ty.isEquivalentTo_setOf m m' h
  case map =>
    refine htyped.infersExactly_of_sides Assembly.map_incremental ?_ ?_ ?_
    · rintro side hside e ⟨hk, hx⟩
      rcases List.mem_pair.1 hside with rfl | rfl
      · exact hk
      · exact hx
    · intro m c items side hside
      rcases List.mem_pair.1 hside with rfl | rfl
      · simp only [Side.keys, List.map_map]
        rfl
      · simp only [Side.values, List.map_map]
        rfl
    · intro m m' c c' items items' h
      have hk := h .keys List.mem_cons_self
      have hx := h .values (List.mem_cons_of_mem _ List.mem_cons_self)
      simp only [Side.keys, Side.values, List.map_map] at hk hx
      exact Ty.isEquivalentTo_map hk hx

open Shared in
/-- The text and the label in both orders: the list that is built takes the name of the type from
the last of them and the one that is written in two calls does not, and both types are exact. -/
theorem infersExactly_labelled :
    (∃ e, (Build.list manager 4 [text, labelled]).ty.element? = some e ∧
      Value.IsExactFor manager [text, labelled] e) ∧
    (Build.list manager 4 [text, labelled]).ty ≠ (Build.list manager 5 [labelled, text]).ty ∧
    (Build.list manager 4 [text, labelled]).ty.isEquivalentTo
      (Build.list manager 5 [labelled, text]).ty = true ∧
    ∃ e, (Build.set manager 6 []).ty.element? = some e ∧ Value.IsExactFor manager [] e := by
  obtain ⟨hlist, hset, -⟩ := reachable_session.infersExactly
  have hheld : ∀ v ∈ [text, labelled], session.Has v := has_of_subset (by simp [session])
  have hbuilt : Assembly.list.Builds manager [text, labelled]
      (Build.list manager 4 [text, labelled]) := .atOnce 4 rfl
  have hwritten : Assembly.list.Builds manager [labelled, text]
      (Build.list manager 5 [labelled, text]) :=
    .written 5 [.insert labelled, .insertAll [text]] rfl rfl
  refine ⟨?_, by decide +kernel, ?_, ?_⟩
  · exact hlist.isExactFor manager _ _ hheld hbuilt .elements List.mem_cons_self
  · exact hlist.isEquivalentTo manager manager _ _ _ _ hheld (.swap labelled text []) hbuilt
      hwritten
  · exact hset.isExactFor manager [] _ (List.forall_mem_nil _) (.atOnce 6 rfl) .elements
      List.mem_cons_self

end Session

end ValueAlgebra
