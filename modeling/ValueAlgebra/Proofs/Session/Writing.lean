import ValueAlgebra.Proofs.Session.Building
import ValueAlgebra.Proofs.Writer.Calls

/-!
# What writers make

A writer's buffer holds values at hand below the element type that the writer has settled on so
far. `TrackedBuffer` states this for each sort of buffer, together with what adding an item and
finishing do, and everything about writers and about `Build.make`, which uses the same buffers,
follows for all sorts at once.
-/

namespace ValueAlgebra

/-- Values at hand and entries at hand are what writers take. -/
class TrackedBuffer (β : Type) (ι : outParam Type) [Buffer β ι] where
  Item : Session → ι → Prop
  /-- The contents are at hand and as the buffer's types say. -/
  Holds : Session → β → Prop
  mono {s s' : Session} {b : β} (hs : ∀ v, s.Has v → s'.Has v) (h : Holds s b) : Holds s' b
  push_holds {s : Session} {m : Manager} {b b' : β} {i : ι} (hs : s.TypedValues) (h : Holds s b)
    (hi : Item s i) (hb : Buffer.push m b i = .ok b') : Holds s b'
  finish_admits {s : Session} {m : Manager} {b : β} {v : Value} (hs : s.TypedValues)
    (h : Holds s b) (hv : Buffer.finish m s.next b = .ok v) : s.Admits v

theorem ElementType.accept_eq_ok {m : Manager} {e e' : ElementType} {t : Ty}
    (he : e.ty.WellFormed) (ht : t.WellFormed) (h : e.accept m t = .ok e') :
    e'.ty.WellFormed ∧ e.ty.isSubtypeOf e'.ty = true ∧ t.isSubtypeOf e'.ty = true := by
  cases e with
  | declared d =>
    simp only [accept] at h
    split at h
    · next hd =>
      obtain rfl := Except.ok.inj h
      exact ⟨he, Ty.isSubtypeOf_refl d, hd⟩
    · cases h
  | inferred u =>
    obtain rfl := Except.ok.inj h
    have hj := Ty.lub_isJoin m u t he ht
    exact ⟨hj.wellFormed, hj.left, hj.right⟩

/-- A declared type stays. -/
theorem ElementType.accept_declared {m : Manager} {d t : Ty} {e : ElementType}
    (h : (ElementType.declared d).accept m t = .ok e) : e = .declared d := by
  simp only [accept] at h
  split at h
  · exact (Except.ok.inj h).symm
  · cases h

theorem ElementType.ofOption_wellFormed {m : Manager} {t : Option Ty} (h : ∀ u ∈ t, u.Made) :
    (ElementType.ofOption m t).ty.WellFormed := by
  cases t with
  | none => exact .basic _ _
  | some t => exact (h t rfl).wellFormed

/-! ### The four sorts of buffer -/

structure ListBuffer.Holds (s : Session) (b : ListBuffer) : Prop where
  wellFormed : b.elem.ty.WellFormed
  has : ∀ v ∈ b.items.toList, s.Has v
  below : ∀ v ∈ b.items.toList, v.ty.isSubtypeOf b.elem.ty = true

structure SetBuffer.Holds (s : Session) (b : SetBuffer) : Prop where
  wellFormed : b.elem.ty.WellFormed
  grown : s.GrownSet b.elems
  below : ∀ v ∈ b.elems.keys, v.ty.isSubtypeOf b.elem.ty = true

structure MapBuffer.Holds (s : Session) (b : MapBuffer) : Prop where
  key_wellFormed : b.key.ty.WellFormed
  val_wellFormed : b.val.ty.WellFormed
  grown : s.GrownMap b.entries
  key_below : ∀ v ∈ b.entries.keys, v.ty.isSubtypeOf b.key.ty = true
  val_below : ∀ v ∈ b.entries.values, v.ty.isSubtypeOf b.val.ty = true

/-- Empty buffers hold nothing, whatever their element types. -/
theorem ListBuffer.holds_empty {s : Session} {elem : ElementType} (h : elem.ty.WellFormed) :
    ListBuffer.Holds s { elem } := ⟨h, nofun, nofun⟩

theorem SetBuffer.holds_empty {s : Session} {elem : ElementType} {relation : Bool}
    (h : elem.ty.WellFormed) : SetBuffer.Holds s { elem, relation } := ⟨h, .empty, nofun⟩

theorem MapBuffer.holds_empty {s : Session} {key val : ElementType} (hk : key.ty.WellFormed)
    (hv : val.ty.WellFormed) : MapBuffer.Holds s { key, val } := ⟨hk, hv, .empty, nofun, nofun⟩

instance : TrackedBuffer TupleBuffer Value where
  Item := Session.Has
  Holds s b := ∀ v ∈ b.items.toList, s.Has v
  mono hs h v hv := hs v (h v hv)
  push_holds _ h hi hb := by
    obtain rfl := Except.ok.inj hb
    intro v hv
    rw [Array.toList_push, List.mem_append, List.mem_singleton] at hv
    rcases hv with hv | rfl
    · exact h v hv
    · exact hi
  finish_admits hs h hv := Except.ok.inj hv ▸ Session.admits_tuple hs h

instance : TrackedBuffer ListBuffer Value where
  Item := Session.Has
  Holds := ListBuffer.Holds
  mono hs h := { h with has := fun v hv => hs v (h.has v hv) }
  push_holds hs h hi hb := by
    obtain ⟨e, he, hb⟩ := bind_eq_ok.1 hb
    obtain rfl := pure_eq_ok.1 hb
    obtain ⟨hwf, hold, hnew⟩ := ElementType.accept_eq_ok h.wellFormed (hs _ hi).2 he
    refine ⟨hwf, fun v hv => ?_, fun v hv => ?_⟩
    · rw [Array.toList_push, List.mem_append, List.mem_singleton] at hv
      rcases hv with hv | rfl
      · exact h.has v hv
      · exact hi
    · rw [Array.toList_push, List.mem_append, List.mem_singleton] at hv
      rcases hv with hv | rfl
      · exact Ty.isSubtypeOf_trans (h.below v hv) hold
      · exact hnew
  finish_admits hs h hv := by
    obtain rfl := Except.ok.inj hv
    exact ⟨⟨_, _, rfl, h.below⟩, .list _ h.wellFormed, h.has, trivial,
      fun _ hc => .inl (Option.some.inj hc).symm⟩

instance : TrackedBuffer SetBuffer Value where
  Item := Session.Has
  Holds := SetBuffer.Holds
  mono hs h := { h with grown := h.grown.mono hs }
  push_holds {s m b b' v} hs h hi hb := by
    simp only [Buffer.push] at hb
    split at hb
    · cases hb
    obtain ⟨e, he, hb⟩ := bind_eq_ok.1 hb
    obtain rfl := pure_eq_ok.1 hb
    obtain ⟨hwf, hold, hnew⟩ := ElementType.accept_eq_ok h.wellFormed (hs _ hi).2 he
    refine ⟨hwf, h.grown.put hi trivial, fun w hw => ?_⟩
    rcases Table.mem_keys_put hw with rfl | hw
    · exact hnew
    · exact Ty.isSubtypeOf_trans (h.below w hw) hold
  finish_admits {s m b v} hs h hv := by
    simp only [Buffer.finish] at hv
    split at hv
    · obtain ⟨t, ht, hv⟩ := bind_eq_ok.1 hv
      obtain rfl := pure_eq_ok.1 hv
      obtain ⟨hwf, o, e, rfl, he, hvs⟩ :=
        Session.relationType_eq_ok hs h.grown.keys h.wellFormed ht h.below
      exact ⟨Session.wellTyped_set (.inr ⟨rfl, he⟩) hvs, hwf, h.grown.keys, h.grown,
        fun _ hc => .inl (Option.some.inj hc).symm⟩
    · obtain rfl := Except.ok.inj hv
      exact ⟨Session.wellTyped_setOf h.below, .setOf m h.wellFormed, h.grown.keys, h.grown,
        fun _ hc => .inl (Option.some.inj hc).symm⟩

instance : TrackedBuffer MapBuffer (Value × Value) where
  Item := Session.HasEntry
  Holds := MapBuffer.Holds
  mono hs h := { h with grown := h.grown.mono hs }
  push_holds {s m b b' e} hs h hi hb := by
    obtain ⟨k, hk, hb⟩ := bind_eq_ok.1 hb
    obtain ⟨x, hx, hb⟩ := bind_eq_ok.1 hb
    obtain rfl := pure_eq_ok.1 hb
    obtain ⟨hwk, holdk, hnewk⟩ := ElementType.accept_eq_ok h.key_wellFormed (hs _ hi.1).2 hk
    obtain ⟨hwx, holdx, hnewx⟩ := ElementType.accept_eq_ok h.val_wellFormed (hs _ hi.2).2 hx
    refine ⟨hwk, hwx, h.grown.put hi.1 hi.2, fun w hw => ?_, fun w hw => ?_⟩
    · rcases Table.mem_keys_put hw with rfl | hw
      · exact hnewk
      · exact Ty.isSubtypeOf_trans (h.key_below w hw) holdk
    · rcases Table.mem_values_put hw with rfl | hw
      · exact hnewx
      · exact Ty.isSubtypeOf_trans (h.val_below w hw) holdx
  finish_admits hs h hv := by
    obtain rfl := Except.ok.inj hv
    refine ⟨⟨_, _, _, rfl, h.key_below, h.val_below⟩, .map _ h.key_wellFormed h.val_wellFormed,
      fun p hp => ?_, h.grown, fun _ hc => .inl (Option.some.inj hc).symm⟩
    rcases List.mem_append.1 hp with hp | hp
    · exact h.grown.keys p hp
    · exact h.grown.values p hp

/-! ### Writers of any sort -/

section

variable {β ι : Type} [Buffer β ι] {m : Manager} {cell : Cell}

/-- A buffer filled with items has what every item leaves intact. -/
theorem Buffer.build_eq_ok {P : β → Prop} {b : β} {items : List ι} {v : Value} (hb : P b)
    (hpush : ∀ b, ∀ i ∈ items, ∀ b', P b → Buffer.push m b i = .ok b' → P b')
    (hv : Buffer.build m cell b items = .ok v) : ∃ b', P b' ∧ Buffer.finish m cell b' = .ok v := by
  obtain ⟨b', hfold, hv⟩ := bind_eq_ok.1 hv
  exact ⟨b', foldlM_eq_ok hb hpush hfold, hv⟩

theorem Writer.done_eq_error {w w' : Writer β} {e : BuildError}
    (h : Writer.done cell w = .error e w') : w'.buffer = none := by
  obtain ⟨m, buffer⟩ := w
  cases buffer with
  | none => cases h; rfl
  | some b =>
    simp only [Writer.done] at h
    cases hb : Buffer.finish m cell b with
    | error e =>
      rw [hb] at h
      cases h
      rfl
    | ok x =>
      rw [hb] at h
      cases h

variable [TrackedBuffer β ι] {s : Session}

/-- The contents of a writer, if it is open, are as its types say. -/
def Writer.Holds (s : Session) (w : Writer β) : Prop :=
  ∀ b ∈ w.buffer, TrackedBuffer.Holds s b

theorem Writer.keeps_insertAll (hs : s.TypedValues) {items : List ι}
    (hi : ∀ i ∈ items, TrackedBuffer.Item β s i) :
    Keeps (Writer.Holds (β := β) s) (Writer.insertAll items) :=
  keeps_insertAll_of_insert fun _ hmem =>
    keeps_insert_of_push fun _ _ _ h hb => TrackedBuffer.push_holds hs h (hi _ hmem) hb

theorem Writer.done_eq_ok (hs : s.TypedValues) {w w' : Writer β} {v : Value}
    (h : Writer.Holds s w) (hv : Writer.done s.next w = .ok v w') :
    s.Admits v ∧ w'.buffer = none := by
  obtain ⟨m, buffer⟩ := w
  cases buffer with
  | none => cases hv
  | some b =>
    simp only [Writer.done] at hv
    cases hb : Buffer.finish m s.next b with
    | error e =>
      rw [hb] at hv
      cases hv
    | ok x =>
      rw [hb] at hv
      cases hv
      exact ⟨TrackedBuffer.finish_admits hs (h b rfl) hb, rfl⟩

end

end ValueAlgebra
