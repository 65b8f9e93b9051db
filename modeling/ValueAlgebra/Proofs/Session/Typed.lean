import ValueAlgebra.Proofs.Grammar.Acceptance
import ValueAlgebra.Proofs.Session.Making

/-!
# Every reachable value is well typed

Whatever a program has called, each value it holds is well typed at every depth. The invariant also
covers open writers. One call adds a value that `Session.Admits` describes; reading adds one for
each node of the derivation it follows, `Session.Grows`, of which the program keeps the last.
-/

namespace ValueAlgebra

namespace AnyWriter

/-- The contents of the writer are at hand and as its types say. -/
def Holds (s : Session) : AnyWriter → Prop
  | tuple w => w.Holds s
  | list w => w.Holds s
  | set w => w.Holds s
  | map w => w.Holds s

theorem Holds.mono {s s' : Session} {w : AnyWriter} (h : w.Holds s)
    (hs : ∀ v, s.Has v → s'.Has v) : w.Holds s' := by
  cases w <;> exact fun b hb => TrackedBuffer.mono hs (h b hb)

/-- A spent writer holds nothing. -/
theorem holds_of_buffer_eq_none {β ι : Type} [Buffer β ι] [TrackedBuffer β ι] {s : Session}
    {w : Writer β} (h : w.buffer = none) : w.Holds s := by
  intro b hb
  rw [h] at hb
  cases hb

end AnyWriter

namespace Session

variable {s s' : Session} {v w : Value}

theorem has_cons_iff {n : Cell} : Has { s with next := n, values := v :: s.values } w ↔
    w.Within v ∨ s.Has w := by
  simp [Has]

theorem has_add_iff : (s.add v).Has w ↔ w.Within v ∨ s.Has w := has_cons_iff

/-- A value made of parts at hand adds only itself. -/
theorem Admits.has_add_iff (h : s.Admits v) : (s.add v).Has w ↔ w = v ∨ s.Has w := by
  rw [Session.has_add_iff]
  constructor
  · rintro (hw | hw)
    · cases hw with
      | refl => exact .inl rfl
      | part hp hw =>
        obtain ⟨u, hu, hp⟩ := h.parts _ hp
        exact .inr ⟨u, hu, hw.trans hp⟩
    · exact .inr hw
  · rintro (rfl | hw)
    · exact .inl .refl
    · exact .inr hw

theorem TypedValues.add (hs : s.TypedValues) (h : s.Admits v) : (s.add v).TypedValues := by
  intro w hw
  rcases h.has_add_iff.1 hw with rfl | hw
  · exact ⟨h.typed, h.wellFormed⟩
  · exact hs w hw

/-- Holding less is as well typed. -/
theorem TypedValues.anti (hs : s'.TypedValues) (h : ∀ v, s.Has v → s'.Has v) : s.TypedValues :=
  fun v hv => hs v (h v hv)

/-! ### Reading grows a session value by value -/

/-- Values were added one after the other, each of them admitted. -/
inductive Grows (s : Session) : Session → Prop
  | refl : Grows s s
  | add {s' : Session} {v : Value} (h : Grows s s') (hv : s'.Admits v) : Grows s (s'.add v)

namespace Grows

theorem trans {s'' : Session} (h : s.Grows s') (h' : s'.Grows s'') : s.Grows s'' := by
  induction h' with
  | refl => exact h
  | add _ hv ih => exact ih.add hv

theorem has (h : s.Grows s') (hv : s.Has v) : s'.Has v := by
  induction h with
  | refl => exact hv
  | add _ _ ih => exact Session.has_add_iff.2 (.inr ih)

theorem typedValues (h : s.Grows s') (hs : s.TypedValues) : s'.TypedValues := by
  induction h with
  | refl => exact hs
  | add _ hv ih => exact ih.add hv

end Grows

section Reading

variable {r : Reader} {m : Manager} {n : Cell}

theorem makes_scalar {sc : Scalar} (h : sc.value m s.next = .ok v) : s.Makes v := by
  rcases sc.value_cases h with ⟨i, rfl⟩ | ⟨d, rfl⟩ | ⟨b, rfl⟩ | ⟨t, rfl⟩ | ⟨p, span, rfl⟩
  · exact .int m i
  · exact .double m d
  · exact .bool m b
  · exact .str m t
  · exact .loc m p span

theorem makes_bracket (hr : ∀ st ∈ r.store, st.Reachable) {b : Bracket} {o : Opening}
    {vs : List Value} (hvs : ∀ v ∈ vs, s.Has v) (ho : b.resolve r = .ok o)
    (h : o.close m s.next vs = .ok v) : s.Makes v := by
  cases b with
  | tuple =>
    obtain rfl := Except.ok.inj ho
    exact Except.ok.inj h ▸ .tuple m hvs
  | list =>
    obtain rfl := Except.ok.inj ho
    exact Except.ok.inj h ▸ .list m hvs
  | set =>
    obtain rfl := Except.ok.inj ho
    exact Except.ok.inj h ▸ .set m hvs
  | node name =>
    obtain rfl := Except.ok.inj ho
    exact Except.ok.inj h ▸ .node m _ hvs
  | quotedNode body =>
    obtain ⟨name, -, rfl⟩ := map_eq_ok.1 ho
    exact Except.ok.inj h ▸ .node m _ hvs
  | constructor adt name =>
    obtain ⟨⟨st, owner⟩, hfound, ho⟩ := bind_eq_ok.1 ho
    obtain rfl := Except.ok.inj ho
    refine .construct (hr st ?_) hvs h
    unfold Reader.resolve at hfound
    split at hfound
    · next found hstore =>
      obtain rfl := Except.ok.inj hfound
      obtain ⟨st', hst', hfind⟩ := Option.bind_eq_some_iff.1 hstore
      obtain ⟨_, -, heq⟩ := Option.map_eq_some_iff.1 hfind
      obtain ⟨rfl, -⟩ := Prod.mk.inj heq
      exact hst'
    · cases hfound

mutual

/-- Building a derivation adds the values of its nodes from the leaves up. -/
theorem build_grows (hr : ∀ st ∈ r.store, st.Reachable) : ∀ (d : Derivation) {s : Session}
    {v : Value} {n : Cell}, s.TypedValues → d.build r m s.next = .ok (v, n) →
    ∃ s', s.Grows s' ∧ s'.next = n ∧ s'.Has v
  | .scalar sc, s, v, n, hs, h => by
    obtain ⟨hv, rfl⟩ := Derivation.build_scalar_eq_ok.1 h
    exact ⟨s.add v, .add .refl ((makes_scalar hv).admits hs), rfl, has_of_mem List.mem_cons_self⟩
  | .bracket b ts, s, v, n, hs, h => by
    obtain ⟨o, vs, c, ho, hvs, hv, rfl⟩ := Derivation.build_bracket_eq_ok.1 h
    -- The children are at hand before the bracket, which is what its parts must be.
    obtain ⟨s', hgrows, rfl, hhas⟩ := buildAll_grows hr ts hs hvs
    refine ⟨s'.add v, hgrows.add ?_, rfl, has_of_mem List.mem_cons_self⟩
    exact (makes_bracket hr hhas ho hv).admits (hgrows.typedValues hs)
  | .map es, s, v, n, hs, h => by
    obtain ⟨xs, c, hxs, rfl, rfl⟩ := Derivation.build_map_eq_ok.1 h
    obtain ⟨s', hgrows, rfl, hhas⟩ := buildEntries_grows hr es hs hxs
    refine ⟨s'.add _, hgrows.add ?_, rfl, has_of_mem List.mem_cons_self⟩
    exact (Makes.map m hhas).admits (hgrows.typedValues hs)

theorem buildAll_grows (hr : ∀ st ∈ r.store, st.Reachable) : ∀ (ts : List Derivation)
    {s : Session} {vs : List Value} {n : Cell}, s.TypedValues →
    Derivation.buildAll r m ts s.next = .ok (vs, n) →
    ∃ s', s.Grows s' ∧ s'.next = n ∧ ∀ v ∈ vs, s'.Has v
  | [], s, vs, n, hs, h => by
    obtain ⟨rfl, rfl⟩ := Derivation.buildAll_nil_eq_ok.1 h
    exact ⟨s, .refl, rfl, nofun⟩
  | t :: ts, s, vs, n, hs, h => by
    obtain ⟨v, c, ws, hv, hws, rfl⟩ := Derivation.buildAll_cons_eq_ok.1 h
    obtain ⟨s', hgrows, rfl, hhas⟩ := build_grows hr t hs hv
    obtain ⟨s'', hgrows', rfl, hhas'⟩ := buildAll_grows hr ts (hgrows.typedValues hs) hws
    exact ⟨s'', hgrows.trans hgrows', rfl,
      List.forall_mem_cons.2 ⟨hgrows'.has hhas, hhas'⟩⟩

theorem buildEntries_grows (hr : ∀ st ∈ r.store, st.Reachable) :
    ∀ (es : List (Derivation × Derivation)) {s : Session} {xs : List (Value × Value)}
    {n : Cell}, s.TypedValues → Derivation.buildEntries r m es s.next = .ok (xs, n) →
    ∃ s', s.Grows s' ∧ s'.next = n ∧ ∀ e ∈ xs, s'.HasEntry e
  | [], s, xs, n, hs, h => by
    obtain ⟨rfl, rfl⟩ := Derivation.buildEntries_nil_eq_ok.1 h
    exact ⟨s, .refl, rfl, nofun⟩
  | (k, t) :: es, s, xs, n, hs, h => by
    obtain ⟨key, c, val, c', ys, hk, hv, hys, rfl⟩ := Derivation.buildEntries_cons_eq_ok.1 h
    obtain ⟨s₁, hg₁, rfl, hkey⟩ := build_grows hr k hs hk
    obtain ⟨s₂, hg₂, rfl, hval⟩ := build_grows hr t (hg₁.typedValues hs) hv
    obtain ⟨s₃, hg₃, rfl, hrest⟩ :=
      buildEntries_grows hr es (hg₂.typedValues (hg₁.typedValues hs)) hys
    exact ⟨s₃, hg₁.trans (hg₂.trans hg₃), rfl,
      List.forall_mem_cons.2 ⟨⟨hg₃.has (hg₂.has hkey), hg₃.has hval⟩, hrest⟩⟩

end

/-- What is read was built value by value. -/
theorem read_grows {text : String} (hr : ∀ st ∈ r.store, st.Reachable) (hs : s.TypedValues)
    (h : r.read m s.next text = .ok (v, n)) : ∃ s', s.Grows s' ∧ s'.next = n ∧ s'.Has v := by
  unfold Reader.read at h
  split at h
  · cases h
  · obtain ⟨d, -, -, hd⟩ := Reader.parse_sound h
    exact build_grows hr d hs hd

end Reading

/-- The session after reading holds no more than the one that reading grew. -/
theorem Grows.has_of_has_cons {n : Cell} (h : s.Grows s') (hv : s'.Has v)
    (hw : Has { s with next := n, values := v :: s.values } w) : s'.Has w := by
  rcases has_cons_iff.1 hw with hw | hw
  · obtain ⟨u, hu, hv⟩ := hv
    exact ⟨u, hu, hw.trans hv⟩
  · exact h.has hw

/-! ### The invariant -/

/-- Values at hand and open writers are well typed. -/
structure Typed (s : Session) : Prop where
  values : s.TypedValues
  writers : ∀ w ∈ s.writers, w.Holds s

/-- A new writer is open with the given contents. -/
theorem holds_ofBuffer {β ι : Type} [Buffer β ι] [TrackedBuffer β ι] {m : Manager} {b : β}
    (h : TrackedBuffer.Holds s b) : (Writer.ofBuffer m b).Holds s := by
  intro c hc
  exact Option.some.inj hc ▸ h

theorem Opens.holds {w : AnyWriter} (hs : s.TypedValues) (h : s.Opens w) : w.Holds s := by
  cases h with
  | tuple m => exact holds_ofBuffer (β := TupleBuffer) fun _ hv => nomatch hv
  | list m h => exact holds_ofBuffer (ListBuffer.holds_empty (ElementType.ofOption_wellFormed h))
  | set m h => exact holds_ofBuffer (SetBuffer.holds_empty (ElementType.ofOption_wellFormed h))
  | relation m h hw =>
    obtain ⟨_, -, hw⟩ := bind_eq_ok.1 hw
    obtain rfl := pure_eq_ok.1 hw
    exact holds_ofBuffer (SetBuffer.holds_empty h.wellFormed)
  | map m hk hv =>
    exact holds_ofBuffer (MapBuffer.holds_empty (ElementType.ofOption_wellFormed hk)
      (ElementType.ofOption_wellFormed hv))
  | @ofTuple m v w h hw =>
    cases v with
    | tuple t c vs =>
      obtain rfl := Option.some.inj hw
      exact holds_ofBuffer (β := TupleBuffer) fun u hu => h.part hu
    | _ => cases hw
  | @ofList m v w h hw =>
    cases v with
    | list t c vs =>
      obtain ⟨⟨o, e, ht, hvs⟩, hwf⟩ := hs _ h
      have hwf := hwf.unalias
      rw [Value.ty, ht] at hwf
      obtain rfl := Option.some.inj hw
      -- A writer that continues a value may widen the type that the value had.
      have he : Value.elementType m t.element? = .inferred e := by
        simp [Value.elementType, Ty.element?, ht]
      rw [he]
      exact holds_ofBuffer (ListBuffer.Holds.mk hwf.elem_of_list (fun u hu => h.part hu) hvs)
    | _ => cases hw
  | @ofSet m v w h hw =>
    cases v with
    | set t c es =>
      obtain ⟨⟨o, e, ht, hvs⟩, hwf⟩ := hs _ h
      have hwf := hwf.unalias
      obtain rfl := Option.some.inj hw
      have he : Value.elementType m t.element? = .inferred e := by
        rcases ht with ⟨ht, -⟩ | ⟨ht, -⟩ <;> simp [Value.elementType, Ty.element?, ht]
      have hew : e.WellFormed := by
        rcases ht with ⟨ht, -⟩ | ⟨ht, -⟩
        · exact (ht ▸ hwf : (Ty.set o e).WellFormed).elem_of_set
        · exact (ht ▸ hwf : (Ty.relation o e).WellFormed).row_of_relation
      rw [he]
      exact holds_ofBuffer (SetBuffer.Holds.mk hew (.old ⟨t, c, h⟩) hvs)
    | _ => cases hw
  | @ofMap m v w h hw =>
    cases v with
    | map t c es =>
      obtain ⟨⟨o, k, x, ht, hks, hxs⟩, hwf⟩ := hs _ h
      have hwf := hwf.unalias
      rw [Value.ty, ht] at hwf
      obtain rfl := Option.some.inj hw
      have hk : Value.elementType m t.key? = .inferred k := by
        simp [Value.elementType, Ty.key?, ht]
      have hx : Value.elementType m t.val? = .inferred x := by
        simp [Value.elementType, Ty.val?, ht]
      rw [hk, hx]
      exact holds_ofBuffer
        (MapBuffer.Holds.mk hwf.key_of_map hwf.val_of_map (.old ⟨t, c, h⟩) hks hxs)
    | _ => cases hw

theorem Inserts.holds {w w' : AnyWriter} (hs : s.TypedValues) (hw : w.Holds s)
    (h : s.Inserts w w') : w'.Holds s := by
  cases h with
  | tuple w h => exact Writer.keeps_insertAll hs h _ hw
  | list w h => exact Writer.keeps_insertAll hs h _ hw
  | set w h => exact Writer.keeps_insertAll hs h _ hw
  | map w h => exact Writer.keeps_insertAll hs h _ hw

/-- A writer that gives its value gives a good one and is spent. -/
theorem Finishes.admits {w w' : AnyWriter} (hs : s.TypedValues) (hw : w.Holds s)
    (h : s.Finishes w (some v) w') : s.Admits v ∧ w'.Holds (s.add v) := by
  cases h with
  | tuple h =>
    obtain ⟨hv, hspent⟩ := Writer.done_eq_ok hs hw h
    exact ⟨hv, AnyWriter.holds_of_buffer_eq_none hspent⟩
  | list h =>
    obtain ⟨hv, hspent⟩ := Writer.done_eq_ok hs hw h
    exact ⟨hv, AnyWriter.holds_of_buffer_eq_none hspent⟩
  | set h =>
    obtain ⟨hv, hspent⟩ := Writer.done_eq_ok hs hw h
    exact ⟨hv, AnyWriter.holds_of_buffer_eq_none hspent⟩
  | map h =>
    obtain ⟨hv, hspent⟩ := Writer.done_eq_ok hs hw h
    exact ⟨hv, AnyWriter.holds_of_buffer_eq_none hspent⟩

/-- A writer that refuses is spent as well. -/
theorem Finishes.holds_of_none {w w' : AnyWriter} (h : s.Finishes w none w') : w'.Holds s := by
  cases h with
  | failed h => exact AnyWriter.holds_of_buffer_eq_none (Writer.done_eq_error h)

/-- One writer of a session is replaced. -/
theorem forall_mem_replaced {before after : List AnyWriter} {w w' : AnyWriter}
    {P P' : AnyWriter → Prop} (h : ∀ u ∈ before ++ w :: after, P u) (hP : ∀ u, P u → P' u)
    (hw' : P' w') : ∀ u ∈ before ++ w' :: after, P' u := by
  intro u hu
  rcases List.mem_append.1 hu with hu | hu
  · exact hP u (h u (List.mem_append_left _ hu))
  rcases List.mem_cons.1 hu with rfl | hu
  · exact hw'
  · exact hP u (h u (List.mem_append_right _ (List.mem_cons_of_mem _ hu)))

theorem Typed.add (h : s.Typed) (hv : s.Admits v) : (s.add v).Typed :=
  ⟨h.values.add hv, fun w hw => (h.writers w hw).mono fun _ hu => has_add_iff.2 (.inr hu)⟩

/-- Every call keeps the invariant. -/
theorem Typed.step (h : s.Typed) (hs : s.Step s') : s'.Typed := by
  cases hs with
  | make hv => exact h.add (hv.admits h.values)
  | read m hr hread =>
    obtain ⟨s₁, hgrows, rfl, hv⟩ := read_grows hr h.values hread
    refine ⟨(hgrows.typedValues h.values).anti fun w => hgrows.has_of_has_cons hv, ?_⟩
    exact fun w hw => (h.writers w hw).mono fun _ hu => has_cons_iff.2 (.inr hu)
  | openWriter hw =>
    refine ⟨h.values, List.forall_mem_cons.2 ⟨?_, ?_⟩⟩
    · exact (hw.holds h.values).mono fun _ => id
    · exact fun w hw => (h.writers w hw).mono fun _ => id
  | @insert before after w w' hws hins =>
    have hw := h.writers w (hws ▸ List.mem_append_right _ List.mem_cons_self)
    refine ⟨h.values, forall_mem_replaced (hws ▸ h.writers) (fun _ => (·.mono fun _ => id)) ?_⟩
    exact (hins.holds h.values hw).mono fun _ => id
  | @finish before after w w' v hws hfin =>
    have hw := h.writers w (hws ▸ List.mem_append_right _ List.mem_cons_self)
    obtain ⟨hv, hspent⟩ := hfin.admits h.values hw
    have hadd := h.add hv
    exact ⟨hadd.values, forall_mem_replaced (hws ▸ hadd.writers)
      (fun _ => (·.mono fun _ => id)) (hspent.mono fun _ => id)⟩
  | @fail before after w w' hws hfin =>
    exact ⟨h.values, forall_mem_replaced (hws ▸ h.writers) (fun _ => (·.mono fun _ => id))
      (hfin.holds_of_none.mono fun _ => id)⟩

theorem Reachable.typed (h : s.Reachable) : s.Typed := by
  induction h with
  | start => exact ⟨nofun, nofun⟩
  | step _ hs ih => exact ih.step hs

/-- Every value that a program holds and every part of it is described by its type, is of the kind
of its type, and has an answer for each of its accessors. -/
theorem Reachable.wellTyped_parts (h : s.Reachable) (hv : v ∈ s.values) (hw : w.Within v) :
    w.WellTyped ∧ w.ty.unalias.kind = w.kind ∧ w.Total := by
  have htyped : w.WellTyped := (h.typed.values w ⟨v, hv, hw⟩).1
  exact ⟨htyped, Ty.kind_unalias w.ty ▸ htyped.kind_ty, htyped.total⟩

/-- The row inside a relation, which a program makes from a number and then a tuple. -/
theorem wellTyped_row_of_relation :
    let m : Manager := ⟨0⟩
    let row := Build.tuple m 1 [Build.int m 7]
    row.Within (Build.set m 2 [row]) ∧
      row.WellTyped ∧ row.ty.unalias.kind = row.kind ∧ row.Total := by
  intro m row
  let s₁ := ({} : Session).add (Build.int m 7)
  let s₂ := s₁.add row
  let s₃ := s₂.add (Build.set m 2 [row])
  have hint : s₁.Has (Build.int m 7) := has_of_mem List.mem_cons_self
  have hrow : s₂.Has row := has_of_mem List.mem_cons_self
  have h₁ : s₁.Reachable := .step .start (.make (.int m 7))
  have h₂ : s₂.Reachable := .step h₁ (.make (.tuple m (List.forall_mem_singleton.2 hint)))
  have h₃ : s₃.Reachable := .step h₂ (.make (.set m (List.forall_mem_singleton.2 hrow)))
  have hw : row.Within (Build.set m 2 [row]) := by
    refine .part ?_ .refl
    have hkeys : (Table.ofValues [row]).keys = [row] := rfl
    exact hkeys ▸ List.mem_singleton_self row
  exact ⟨hw, h₃.wellTyped_parts List.mem_cons_self hw⟩

end Session

end ValueAlgebra
