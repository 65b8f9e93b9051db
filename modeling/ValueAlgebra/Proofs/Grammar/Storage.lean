import ValueAlgebra.Proofs.Grammar.Texts
import ValueAlgebra.Proofs.Session.Coherent
import ValueAlgebra.Proofs.Value.Relocated

/-!
# Where a reading is stored

A reader numbers the cells of what it reads from the first free one. Reading the same tokens with
other cells free differs in these numbers only, so it gives an equal value, and it fails in the same
way if it fails.

## Main definitions

- `Value.shift`: a value with the numbers of its cells raised
- `Reader.shiftRead`: the answer of a reader with cells raised
-/

namespace ValueAlgebra

/-! ### Building from renamed values -/

namespace Build

variable {f : Cell → Cell} {m : Manager} {c : Cell} {vs : List Value}

theorem map_ty_relocate (f : Cell → Cell) (vs : List Value) :
    (vs.map (Value.relocate f)).map Value.ty = vs.map Value.ty := by
  rw [List.map_map]
  exact List.map_congr_left fun v _ => Value.ty_relocate v

theorem tuple_relocate :
    (tuple m c vs).relocate f = tuple m (f c) (vs.map (Value.relocate f)) := by
  rw [tuple, tuple, Value.relocate, Value.relocateAll_eq_map, map_ty_relocate]

theorem list_relocate :
    (list m c vs).relocate f = list m (f c) (vs.map (Value.relocate f)) := by
  rw [list, list, Value.relocate, Value.relocateAll_eq_map, map_ty_relocate]

theorem node_relocate {name : String} :
    (node m c name vs).relocate f = node m (f c) name (vs.map (Value.relocate f)) := by
  rw [node, node, Value.relocate, Value.relocateAll_eq_map]

theorem set_relocate (hf : f.Injective) :
    (set m c vs).relocate f = set m (f c) (vs.map (Value.relocate f)) := by
  rw [set, set, Value.relocate_set, map_ty_relocate, Table.ofValues_relocate hf]

theorem map_relocate (hf : f.Injective) {es : List (Value × Value)} :
    (map m c es).relocate f = map m (f c) (es.map fun e => (e.1.relocate f, e.2.relocate f)) := by
  have hkeys : (es.map fun e => (e.1.relocate f, e.2.relocate f)).map (·.1.ty) =
      es.map (·.1.ty) := by
    rw [List.map_map]
    exact List.map_congr_left fun e _ => Value.ty_relocate e.1
  have hvals : (es.map fun e => (e.1.relocate f, e.2.relocate f)).map (·.2.ty) =
      es.map (·.2.ty) := by
    rw [List.map_map]
    exact List.map_congr_left fun e _ => Value.ty_relocate e.2
  rw [map, map, Value.relocate_map, hkeys, hvals, Table.ofEntries_relocate hf]

theorem pairs_map {α β : Type} (g : α → β) : ∀ l : List α,
    pairs (l.map g) = (pairs l).map fun p => (g p.1, g p.2)
  | [] | [_] => rfl
  | a :: b :: l => congrArg ((g a, g b) :: ·) (pairs_map g l)

theorem construct_relocate {st : Store} {adt : Ty} {name : String} :
    construct st (f c) adt name (vs.map (Value.relocate f)) =
      (construct st c adt name vs).map (Value.relocate f) := by
  simp only [construct, map_ty_relocate]
  cases st.constructorFor? adt name (vs.map Value.ty) with
  | none => rfl
  | some t =>
    show Except.ok _ = Except.ok _
    rw [Value.relocate, Value.relocateAll_eq_map]

end Build

/-! ### Cells raised by a number -/

variable {k c : Cell} {m : Manager}

/-- The value in cells whose numbers are greater by `k`. -/
def Value.shift (k : Cell) (v : Value) : Value := v.relocate (· + k)

/-- What a bracket begins closes over children anywhere. -/
theorem Opening.close_shift (o : Opening) (vs : List Value) :
    o.close m (c + k) (vs.map (Value.shift k)) = (o.close m c vs).map (Value.shift k) := by
  have hk : Function.Injective (· + k) := fun _ _ => Nat.add_right_cancel
  cases o with
  | tuple => exact congrArg Except.ok Build.tuple_relocate.symm
  | list => exact congrArg Except.ok Build.list_relocate.symm
  | set => exact congrArg Except.ok (Build.set_relocate hk).symm
  | map =>
    show Except.ok (Build.map m _ (Build.pairs _)) = _
    rw [Build.pairs_map]
    exact congrArg Except.ok (Build.map_relocate hk).symm
  | node => exact congrArg Except.ok (Build.node_relocate (f := (· + k))).symm
  | constructor => exact Build.construct_relocate

namespace Frame

/-- The bracket with its children in other cells. -/
def shift (k : Cell) (f : Frame) : Frame := ⟨f.opening, f.children.map (Value.shift k)⟩

@[simp]
theorem opening_shift (f : Frame) : (f.shift k).opening = f.opening := rfl

theorem shift_opening (o : Opening) : shift k { opening := o } = { opening := o } :=
  congrArg (Frame.mk o) Array.map_empty

theorem push_shift (f : Frame) (v : Value) : (f.shift k).push (v.shift k) = (f.push v).shift k :=
  congrArg (Frame.mk f.opening) Array.map_push.symm

@[simp]
theorem awaitsValue_shift (f : Frame) : (f.shift k).awaitsValue = f.awaitsValue := by
  unfold awaitsValue
  rw [opening_shift, shift, Array.size_map]

theorem close_shift (f : Frame) :
    (f.shift k).close m (c + k) = (f.close m c).map (Value.shift k) := by
  rw [close, close, shift, Array.toList_map]
  exact f.opening.close_shift _

end Frame

/-- The beginning of a value in other cells. -/
def Start.shift (k : Cell) : Start → Start
  | value v => value (v.shift k)
  | opening o => opening o

namespace Reader

variable {r : Reader} {ts : List Token}

theorem reservedValue?_shift {name : List Char} {v : Value} (h : reservedValue? m name = some v) :
    v.shift k = v := by
  obtain ⟨c, -, rfl⟩ := reservedValue?_eq_some h
  cases c <;> rfl

theorem startName_shift (t : Token) (name : List Char) :
    (r.startName m t name ts).map (fun p => (p.1.shift k, p.2)) = r.startName m t name ts := by
  unfold startName
  split
  · rfl
  · rfl
  · split
    · split
      · cases r.resolve name <;> rfl
      · rfl
    · rfl
  · split
    · next v hv =>
      show Except.ok (Start.value (v.shift k), ts) = _
      rw [reservedValue?_shift hv]
    · rfl

theorem start_shift (ts : List Token) :
    start r m (c + k) ts = (start r m c ts).map fun p => (p.1.shift k, p.2) := by
  cases ts with
  | nil => rfl
  | cons t ts =>
    obtain ⟨l, raw, position⟩ := t
    cases l with
    | integer n =>
      simp only [start]
      cases decodeInteger n <;> rfl
    | double n => rfl
    | string body =>
      simp only [start]
      cases decodeEscapes .string .string body with
      | error e => rfl
      | ok s => cases mark? .openParen ts <;> rfl
    | location path ns =>
      simp only [start]
      cases decodeEscapes .locationPath .path path with
      | error e => rfl
      | ok p => cases decodeSpan ns <;> rfl
    | name n => exact (startName_shift _ n).symm
    | mark q => cases q <;> rfl

/-! ### Runs -/

/-- The answer of the loop with cells raised. -/
def shiftAnswer (k : Cell) : Except ReadError Answer → Except ReadError Answer :=
  Except.map fun a => (a.1.shift k, a.2.1 + k, a.2.2)

/-- The answer of the reader with cells raised. -/
def shiftRead (k : Cell) : Except ReadError (Value × Cell) → Except ReadError (Value × Cell) :=
  Except.map fun a => (a.1.shift k, a.2 + k)

namespace Loop

/-- The state with cells raised. -/
def shift (k : Cell) : Loop → Loop
  | reading stack cell ts => reading (stack.map (Frame.shift k)) (cell + k) ts
  | delivering stack v cell ts =>
    delivering (stack.map (Frame.shift k)) (v.shift k) (cell + k) ts
  | done a => done (shiftAnswer k a)

/-- A turn with other cells free is the same turn. -/
theorem step_shift (s : Loop) : (s.shift k).step r m = (s.step r m).shift k := by
  cases s with
  | reading stack cell ts =>
    simp only [shift, step, start_shift, List.length_map]
    cases start r m cell ts with
    | error e => rfl
    | ok p =>
      obtain ⟨st, rest⟩ := p
      cases st with
      | value v => exact congrArg (delivering _ _ · rest) (Nat.add_right_comm cell k 1)
      | opening o =>
        show (if _ then _ else _) = shift k (if _ then _ else _)
        by_cases hdepth : r.maxDepth ≤ stack.length
        · rw [if_pos hdepth, if_pos hdepth]
          rfl
        rw [if_neg hdepth, if_neg hdepth]
        cases mark? o.closer rest with
        | none =>
          show reading _ _ _ = reading _ _ _
          rw [List.map_cons, Frame.shift_opening]
        | some rest =>
          have hclose := o.close_shift (m := m) (k := k) (c := cell) []
          rw [List.map_nil] at hclose
          simp only [hclose]
          cases o.close m cell [] with
          | error e => rfl
          | ok v => exact congrArg (delivering _ _ · rest) (Nat.add_right_comm cell k 1)
  | delivering stack v cell ts =>
    cases stack with
    | nil => rfl
    | cons f stack =>
      simp only [shift, step, List.map_cons, Frame.push_shift, Frame.awaitsValue_shift,
        Frame.opening_shift, Frame.close_shift]
      cases (f.push v).awaitsValue with
      | true => cases mark? .colon ts <;> rfl
      | false =>
        simp only [Bool.false_eq_true, if_false]
        cases mark? .comma ts with
        | some rest => rfl
        | none =>
          cases mark? f.opening.closer ts with
          | none => rfl
          | some rest =>
            cases (f.push v).close m cell with
            | error e => rfl
            | ok v => exact congrArg (delivering _ _ · rest) (Nat.add_right_comm cell k 1)
  | done a => rfl

theorem iterate_shift (n : Nat) (s : Loop) :
    (step r m)^[n] (s.shift k) = ((step r m)^[n] s).shift k :=
  (Function.Semiconj.iterate_right (f := shift k) (fun s => (step_shift s).symm) n s).symm

end Loop

/-- Reading with other cells free takes the same turns. -/
theorem value_shift (ts : List Token) :
    r.value m [] (c + k) ts = shiftAnswer k (r.value m [] c ts) := by
  have hturns := Loop.iterate_shift (r := r) (m := m) (k := k) (ts.length + 1) (.reading [] c ts)
  rw [Loop.iterate_reading] at hturns
  exact Loop.done.inj ((Loop.iterate_reading r m (c + k) ts).symm.trans hturns)

theorem parse_shift (ts : List Token) :
    r.parse m (c + k) ts = shiftRead k (r.parse m c ts) := by
  unfold parse
  rw [value_shift]
  cases r.value m [] c ts with
  | error e => rfl
  | ok a =>
    obtain ⟨v, n, rest⟩ := a
    cases rest <;> rfl

theorem read_shift (text : String) : r.read m (c + k) text = shiftRead k (r.read m c text) := by
  unfold read
  cases Lexer.tokens text.toList with
  | error p => rfl
  | ok ts => exact parse_shift ts

/-- What is read in cells from `c` on is a reading in cells from zero on, raised by `c`. -/
theorem read_eq_shiftRead (r : Reader) (m : Manager) (c : Cell) (text : String) :
    r.read m c text = shiftRead c (r.read m 0 text) := by
  rw [← read_shift, Nat.zero_add]

theorem read_eq_error_of_read {text : String} {e : ReadError}
    (h : r.read m c text = .error e) (c' : Cell) : r.read m c' text = .error e := by
  rw [read_eq_shiftRead] at h ⊢
  cases hread : r.read m 0 text with
  | error e' =>
    rw [hread] at h
    exact h
  | ok a =>
    rw [hread] at h
    cases h

/-- A text read twice is read as equal values of one type, wherever they are stored. -/
theorem exists_read_of_read {text : String} {v : Value} {n : Cell}
    (h : r.read m c text = .ok (v, n)) (c' : Cell) :
    ∃ w n', r.read m c' text = .ok (w, n') ∧ w.ty = v.ty ∧
      ∀ s : Session, s.Reachable → s.Has v → s.Has w → (v == w) = true := by
  rw [read_eq_shiftRead] at h ⊢
  cases hread : r.read m 0 text with
  | error e =>
    rw [hread] at h
    cases h
  | ok a =>
    obtain ⟨u, n₀⟩ := a
    rw [hread] at h
    obtain ⟨rfl, -⟩ := Prod.mk.inj (Except.ok.inj h)
    refine ⟨u.shift c', n₀ + c', rfl, ?_, fun s hs hv hw => ?_⟩
    · rw [Value.shift, Value.shift, Value.ty_relocate, Value.ty_relocate]
    · have hself : (u.shift c).same (u.shift c) = true :=
        Value.same_refl (hs.coherent.sound hv)
      rw [hs.coherent.beq_eq_same hv hw, Value.shift, Value.shift, Value.same_relocate]
      rwa [Value.shift, Value.same_relocate] at hself

end Reader

end ValueAlgebra
