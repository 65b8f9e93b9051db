import ValueAlgebra.Proofs.Session.Typed
import ValueAlgebra.Proofs.Writer.Calls
import ValueAlgebra.Proofs.Writer.Rows

/-!
# When a writer is spent

A writer is open until the first `done`, and afterwards it refuses everything, an empty batch of
items as well. This holds whether `done` returns a value or fails, since it takes the buffer out
before it makes the value.

A `done` that fails therefore loses the contents. It can only fail for a relation whose row type is
inferred, which is what reopening a relation leads to: tuples of different arities go in, and no
tuple type is above them.

## Main definitions

- `Writer.Call`, `Writer.after`: calls on a writer, and the writer after several of them
- `Writer.SpentByDone`: the first `done` spends the writer
- `Writer.SpentByValue`: only a `done` that returns a value does
- `AnyWriter.InfersRows`: the writer of a relation without a declared row type
-/

namespace ValueAlgebra

namespace Writer

/-- A call on a writer that changes it. -/
inductive Call (ι : Type)
  | feed (feed : Feed ι)
  | done (cell : Cell)

variable {β ι : Type} [Buffer β ι] {m : Manager} {b : β} {w w' : Writer β} {calls : List (Call ι)}

/-- Makes the call, which returns a value if it asks for one. -/
def Call.run : Call ι → Writing β (Option Value)
  | feed f => do
    f.run
    return none
  | done cell => some <$> Writer.done cell

/-- The writer after calls, also after those that fail. -/
def after (w : Writer β) (calls : List (Call ι)) : Writer β :=
  calls.foldl (fun w call => stateAfter call.run w) w

/-- One of the calls was a `done` that returned a value. -/
def Produced (w : Writer β) (calls : List (Call ι)) : Prop :=
  ∃ before cell rest v w', calls = before ++ .done cell :: rest ∧
    done cell (w.after before) = .ok v w'

/-- The writer is open up to the first `done` and then refuses every call. -/
structure SpentByDone (w : Writer β) : Prop where
  isOpen_iff : ∀ calls : List (Call ι),
    (w.after calls).isOpen = true ↔ ∀ cell, .done cell ∉ calls
  refuses : ∀ (calls : List (Call ι)) (cell : Cell), .done cell ∈ calls → ∀ call : Call ι,
    call.run (w.after calls) = .error (.spent (Buffer.kind β)) (w.after calls)

/-- The writer is open until it has returned its value and then refuses every call. A `done` that
fails changes nothing. -/
structure SpentByValue (w : Writer β) : Prop where
  isOpen_iff : ∀ calls : List (Call ι), (w.after calls).isOpen = true ↔ ¬w.Produced calls
  refuses : ∀ calls : List (Call ι), w.Produced calls → ∀ call : Call ι,
    call.run (w.after calls) = .error (.spent (Buffer.kind β)) (w.after calls)
  eq_of_done_eq_error : ∀ (calls : List (Call ι)) (cell : Cell) (e : TypeError) (w' : Writer β),
    done cell (w.after calls) = .error (.type e) w' → w' = w.after calls

/-! ### One call -/

theorem done_of_not_isOpen (h : w.isOpen = false) (cell : Cell) :
    done cell w = .error (.spent (Buffer.kind β)) w := by
  obtain ⟨m, _ | b⟩ := w
  · rfl
  · cases h

theorem run_of_not_isOpen (h : w.isOpen = false) (call : Call ι) :
    call.run w = .error (.spent (Buffer.kind β)) w := by
  obtain ⟨m, _ | b⟩ := w
  · cases call with
    | feed f => cases f <;> rfl
    | done cell => rfl
  · cases h

/-- Items open no writer and close none. -/
theorem isOpen_feed (f : Feed ι) (w : Writer β) :
    (stateAfter (Call.feed f).run w).isOpen = w.isOpen :=
  ((keeps_feed (fun item _ => keeps_isOpen_insert w.isOpen item)).bind fun _ => .pure _) w rfl

theorem buffer_done (cell : Cell) (w : Writer β) :
    (stateAfter (Call.done (ι := ι) cell).run w).buffer = none := by
  obtain ⟨m, _ | b⟩ := w
  · rfl
  · show (stateAfter (EStateM.map some (done cell)) ⟨m, some b⟩).buffer = none
    rw [stateAfter, EStateM.map, done]
    cases Buffer.finish m cell b <;> rfl

/-! ### Any calls -/

/-- The first `done` closes the writer, and nothing else does. -/
theorem isOpen_after (calls : List (Call ι)) (w : Writer β) : (w.after calls).isOpen = true ↔
    w.isOpen = true ∧ ∀ cell, .done cell ∉ calls := by
  induction calls generalizing w with
  | nil => exact ⟨fun h => ⟨h, fun _ => nofun⟩, fun h => h.1⟩
  | cons call calls ih =>
    show ((stateAfter call.run w).after calls).isOpen = true ↔ _
    rw [ih]
    cases call with
    | feed f => simp [isOpen_feed]
    | done cell =>
      have hclosed : (stateAfter (Call.done (ι := ι) cell).run w).isOpen = false := by
        rw [isOpen, buffer_done]
        rfl
      rw [hclosed]
      exact ⟨nofun, fun h => absurd List.mem_cons_self (h.2 cell)⟩

theorem spentByDone_ofBuffer (m : Manager) (b : β) : (ofBuffer m b).SpentByDone where
  isOpen_iff calls := by
    rw [isOpen_after]
    exact and_iff_right rfl
  refuses calls cell hdone call := by
    refine run_of_not_isOpen (Bool.eq_false_iff.2 fun h => ?_) call
    exact ((isOpen_after calls _).1 h).2 cell hdone

/-- The writer gives its value whenever it is asked for it while it is open. -/
def Succeeds (w : Writer β) : Prop := ∀ (calls : List (Call ι)) (cell : Cell),
  (w.after calls).isOpen = true → ∃ v w', done cell (w.after calls) = .ok v w'

namespace Succeeds

theorem step (h : w.Succeeds) (call : Call ι) : (stateAfter call.run w).Succeeds :=
  fun calls => h (call :: calls)

/-- For such a writer the first `done` is the one that returns a value. -/
theorem produced_iff (h : w.Succeeds) (hopen : w.isOpen = true) (calls : List (Call ι)) :
    w.Produced calls ↔ ∃ cell, .done cell ∈ calls := by
  constructor
  · rintro ⟨before, cell, rest, v, w', rfl, -⟩
    exact ⟨cell, List.mem_append_right _ List.mem_cons_self⟩
  · rintro ⟨cell, hdone⟩
    induction calls generalizing w with
    | nil => cases hdone
    | cons call calls ih =>
      cases call with
      | done cell' =>
        obtain ⟨v, w', hv⟩ := h [] cell' hopen
        exact ⟨[], cell', calls, v, w', rfl, hv⟩
      | feed f =>
        have hdone : .done cell ∈ calls := by simpa using hdone
        obtain ⟨before, cell', rest, v, w', rfl, hv⟩ :=
          ih (h.step _) ((isOpen_feed f w).trans hopen) hdone
        exact ⟨.feed f :: before, cell', rest, v, w', rfl, hv⟩

theorem spentByValue (h : (ofBuffer m b).Succeeds) : (ofBuffer m b).SpentByValue where
  isOpen_iff calls := by
    rw [h.produced_iff rfl, (spentByDone_ofBuffer m b).isOpen_iff, not_exists]
  refuses calls hproduced call := by
    obtain ⟨cell, hdone⟩ := (h.produced_iff rfl calls).1 hproduced
    exact (spentByDone_ofBuffer m b).refuses calls cell hdone call
  eq_of_done_eq_error calls cell e w' herror := by
    cases hopen : ((ofBuffer m b).after calls).isOpen with
    | true =>
      obtain ⟨v, w'', hv⟩ := h calls cell hopen
      cases hv.symm.trans herror
    | false =>
      rw [done_of_not_isOpen hopen] at herror
      cases herror

end Succeeds

/-- A writer succeeds if its buffer can be finished however it is filled. -/
theorem succeeds_of_finish {P : β → Prop} (hb : P b)
    (hpush : ∀ m b item b', P b → Buffer.push m b item = .ok b' → P b')
    (hfinish : ∀ m cell b, P b → ∃ v, Buffer.finish m cell b = .ok v) :
    (ofBuffer m b).Succeeds := by
  have hinsert (item : ι) : Keeps (fun w : Writer β => ∀ b ∈ w.buffer, P b) (insert item) :=
    keeps_insert_of_push fun m b b' => hpush m b item b'
  have hafter (calls : List (Call ι)) (w : Writer β) (hw : ∀ b ∈ w.buffer, P b) :
      ∀ b ∈ (w.after calls).buffer, P b := by
    induction calls generalizing w with
    | nil => exact hw
    | cons call calls ih =>
      refine ih _ ?_
      cases call with
      | feed f => exact ((keeps_feed fun item _ => hinsert item).bind fun _ => .pure _) w hw
      | done cell =>
        rw [buffer_done]
        exact fun b hb => nomatch hb
  intro calls cell hopen
  have hholds := hafter calls (ofBuffer m b) fun c hc => Option.some.inj hc ▸ hb
  generalize (ofBuffer m b).after calls = w at hopen hholds
  obtain ⟨m', _ | b'⟩ := w
  · cases hopen
  · obtain ⟨v, hv⟩ := hfinish m' cell b' (hholds b' rfl)
    exact ⟨v, ⟨m', none⟩, by rw [done, hv]⟩

/-- A writer with contents that `done` fails on is not spent by its value. -/
theorem not_spentByValue (calls : List (Call ι)) (h : w.after calls = ofBuffer m b) {cell : Cell}
    {e : TypeError} (he : Buffer.finish m cell b = .error e) : ¬w.SpentByValue := by
  intro hspent
  have hdone : done cell (w.after calls) = .error (.type e) ⟨m, none⟩ := by
    rw [h, ofBuffer, done, he]
  have heq := hspent.eq_of_done_eq_error calls cell e _ hdone
  rw [h] at heq
  cases heq

end Writer

/-! ### The four sorts of writer -/

/-- The buffer of a relation without a declared row type. -/
def SetBuffer.InfersRows (b : SetBuffer) : Prop := b.relation = true ∧ ∃ t, b.elem = .inferred t

namespace Writer

variable {m : Manager}

theorem succeeds_tuple (b : TupleBuffer) : (ofBuffer m b).Succeeds :=
  succeeds_of_finish (P := fun _ => True) trivial (fun _ _ _ _ _ _ => trivial)
    fun _ _ _ _ => ⟨_, rfl⟩

theorem succeeds_list (b : ListBuffer) : (ofBuffer m b).Succeeds :=
  succeeds_of_finish (P := fun _ => True) trivial (fun _ _ _ _ _ _ => trivial)
    fun _ _ _ _ => ⟨_, rfl⟩

theorem succeeds_map (b : MapBuffer) : (ofBuffer m b).Succeeds :=
  succeeds_of_finish (P := fun _ => True) trivial (fun _ _ _ _ _ _ => trivial)
    fun _ _ _ _ => ⟨_, rfl⟩

/-- A declared row type stays, and it was checked when the writer was made. -/
theorem succeeds_set {b : SetBuffer}
    (hb : b.relation = true → ∃ row, b.elem = .declared row ∧ row.isTuple = true) :
    (ofBuffer m b).Succeeds := by
  refine succeeds_of_finish (P := fun b : SetBuffer =>
    b.relation = true → ∃ row, b.elem = .declared row ∧ row.isTuple = true) hb ?_ ?_
  · intro m b v b' h hpush hrelation
    simp only [Buffer.push] at hpush
    split at hpush
    · cases hpush
    · obtain ⟨elem, helem, hpush⟩ := bind_eq_ok.1 hpush
      obtain rfl := pure_eq_ok.1 hpush
      obtain ⟨row, hrow, htuple⟩ := h hrelation
      rw [hrow] at helem
      exact ⟨row, ElementType.accept_declared helem, htuple⟩
  · intro m cell b h
    by_cases hrelation : b.relation = true
    · obtain ⟨row, hrow, htuple⟩ := h hrelation
      have hty : Build.relationType m b.elem.ty = .ok (m.set row) := by
        rw [hrow, ElementType.ty, Session.relationType_eq_setOf htuple]
      refine ⟨.set (m.set row) cell b.elems, ?_⟩
      simp only [Buffer.finish, if_pos hrelation, hty]
      rfl
    · exact ⟨_, if_neg hrelation⟩

/-- The empty tuple. -/
def unitRow (m : Manager) : Value := Build.tuple m 0 []

/-- A tuple of one number. -/
def numberRow (m : Manager) : Value := Build.tuple m 0 [Build.int m 0]

/-- No tuple type is above tuples of two arities, whatever else it should be above. -/
theorem relationType_rows_eq_error {t : Ty} (ht : t.WellFormed) : ∃ e, Build.relationType m
    ((t.lub m (unitRow m).ty).lub m (numberRow m).ty) = .error e := by
  have hunit : (unitRow m).ty.WellFormed := .tuple _ nofun
  have hnumber : (numberRow m).ty.WellFormed :=
    .tuple _ (List.forall_mem_singleton.2 (.basic _ _))
  have hfirst := Ty.lub_isJoin m t (unitRow m).ty ht hunit
  have hboth := Ty.lub_isJoin m _ (numberRow m).ty hfirst.wellFormed hnumber
  have habove := Ty.isSubtypeOf_trans hfirst.right hboth.left
  have hvoid : ((t.lub m (unitRow m).ty).lub m (numberRow m).ty).kind ≠ .void := by
    intro hvoid
    have htyped : (unitRow m).WellTyped := ⟨m.origin, [], rfl, .nil⟩
    cases (htyped.not_isSubtypeOf_void hvoid).symm.trans habove
  refine ⟨_, Session.relationType_eq_error hvoid (Bool.eq_false_iff.2 fun htuple => ?_)⟩
  obtain ⟨o, fs, hfs⟩ := Ty.exists_of_isTuple htuple
  have hnone := Ty.length_eq_of_isSubtypeOf (t := (unitRow m).ty) rfl hfs habove
  have hone := Ty.length_eq_of_isSubtypeOf (t := (numberRow m).ty) rfl hfs hboth.right
  cases hnone.trans hone.symm

/-- The buffer of a relation with inferred row type `t` that has taken both tuples. -/
def withTwoArities (m : Manager) (t : Ty) (elems : Table Value Unit) : SetBuffer where
  elem := .inferred ((t.lub m (unitRow m).ty).lub m (numberRow m).ty)
  relation := true
  elems := (elems.put (unitRow m) ()).put (numberRow m) ()

theorem not_spentByValue_of_infersRows {b : SetBuffer} (h : b.InfersRows)
    (hwf : b.elem.ty.WellFormed) : ¬(ofBuffer m b).SpentByValue := by
  obtain ⟨_, _, elems⟩ := b
  obtain ⟨rfl, t, rfl⟩ := h
  have hafter : (ofBuffer m (⟨.inferred t, true, elems⟩ : SetBuffer)).after
      [.feed (.insertAll [unitRow m, numberRow m])] = ofBuffer m (withTwoArities m t elems) :=
    rfl
  obtain ⟨e, he⟩ := relationType_rows_eq_error (m := m) (t := t) hwf
  have hfinish : Buffer.finish m 0 (withTwoArities m t elems) = .error e := by
    show (Build.relationType m ((t.lub m (unitRow m).ty).lub m (numberRow m).ty) >>= _) = _
    rw [he]
    rfl
  exact not_spentByValue _ hafter hfinish

end Writer

/-! ### The writers of a session -/

namespace Session.Opens

variable {s : Session} {m : Manager}

theorem tuple_eq {w : Writer TupleBuffer} (h : s.Opens (.tuple w)) : ∃ m b, w = .ofBuffer m b := by
  cases h with
  | tuple m => exact ⟨m, _, rfl⟩
  | @ofTuple m v w h hw =>
    cases v with
    | tuple => exact ⟨m, _, (Option.some.inj hw).symm⟩
    | _ => cases hw

theorem list_eq {w : Writer ListBuffer} (h : s.Opens (.list w)) : ∃ m b, w = .ofBuffer m b := by
  cases h with
  | list m => exact ⟨m, _, rfl⟩
  | @ofList m v w h hw =>
    cases v with
    | list => exact ⟨m, _, (Option.some.inj hw).symm⟩
    | _ => cases hw

theorem map_eq {w : Writer MapBuffer} (h : s.Opens (.map w)) : ∃ m b, w = .ofBuffer m b := by
  cases h with
  | map m => exact ⟨m, _, rfl⟩
  | @ofMap m v w h hw =>
    cases v with
    | map => exact ⟨m, _, (Option.some.inj hw).symm⟩
    | _ => cases hw

/-- The row type of a relation is inferred, or it was declared and is a tuple type. -/
theorem set_eq {w : Writer SetBuffer} (h : s.Opens (.set w)) : ∃ m b, w = .ofBuffer m b ∧
    (b.relation = true → b.InfersRows ∨ ∃ row, b.elem = .declared row ∧ row.isTuple = true) := by
  cases h with
  | set m => exact ⟨m, _, rfl, fun h => nomatch h⟩
  | relation m _ hw =>
    obtain ⟨_, hrow, hw⟩ := bind_eq_ok.1 hw
    obtain rfl := pure_eq_ok.1 hw
    exact ⟨m, _, rfl, fun _ => .inr ⟨_, rfl, (Ty.relationOver_eq_ok.1 hrow).1⟩⟩
  | @ofSet m v w h hw =>
    cases v with
    | set => exact ⟨m, _, (Option.some.inj hw).symm, fun h => .inl ⟨h, _, rfl⟩⟩
    | _ => cases hw

end Session.Opens

namespace AnyWriter

def SpentByDone : AnyWriter → Prop
  | tuple w => w.SpentByDone
  | list w => w.SpentByDone
  | set w => w.SpentByDone
  | map w => w.SpentByDone

def SpentByValue : AnyWriter → Prop
  | tuple w => w.SpentByValue
  | list w => w.SpentByValue
  | set w => w.SpentByValue
  | map w => w.SpentByValue

/-- A relation without a declared row type is being written. -/
def InfersRows : AnyWriter → Prop
  | set w => ∃ b ∈ w.buffer, b.InfersRows
  | _ => False

end AnyWriter

/-- Every writer that a program opens is spent by the first `done`, whether this returns a value or
fails. So it is spent by its value alone unless it infers the row type of a relation, and then there
are tuples on which `done` fails and loses the contents. -/
theorem Session.Reachable.spentByDone {s : Session} (hs : s.Reachable) {w : AnyWriter}
    (hw : s.Opens w) : w.SpentByDone ∧ (w.SpentByValue ↔ ¬w.InfersRows) := by
  cases w with
  | tuple w =>
    obtain ⟨m, b, rfl⟩ := hw.tuple_eq
    exact ⟨Writer.spentByDone_ofBuffer m b, fun _ => id, fun _ =>
      (Writer.succeeds_tuple b).spentByValue⟩
  | list w =>
    obtain ⟨m, b, rfl⟩ := hw.list_eq
    exact ⟨Writer.spentByDone_ofBuffer m b, fun _ => id, fun _ =>
      (Writer.succeeds_list b).spentByValue⟩
  | map w =>
    obtain ⟨m, b, rfl⟩ := hw.map_eq
    exact ⟨Writer.spentByDone_ofBuffer m b, fun _ => id, fun _ =>
      (Writer.succeeds_map b).spentByValue⟩
  | set w =>
    have hholds := hw.holds hs.typed.values
    obtain ⟨m, b, rfl, hrows⟩ := hw.set_eq
    refine ⟨Writer.spentByDone_ofBuffer m b, fun hvalue => ?_, fun hrow => ?_⟩
    · rintro ⟨_, ⟨⟩, hinfers⟩
      exact Writer.not_spentByValue_of_infersRows hinfers (hholds b rfl).wellFormed hvalue
    · refine (Writer.succeeds_set fun hrelation => ?_).spentByValue
      exact (hrows hrelation).resolve_left fun hinfers => hrow ⟨b, rfl, hinfers⟩

/-! ### A relation reopened -/

namespace Session.OneRow

/-- The writer that reopens it. -/
def writer : Writer SetBuffer :=
  .ofBuffer manager
    ⟨Value.elementType manager rows.ty.element?, rows.ty.isRelation, .ofValues [row]⟩

theorem opens_writer : session.Opens (.set writer) :=
  .ofSet manager (v := rows) (has_of_mem List.mem_cons_self) rfl

theorem infersRows_writer : (AnyWriter.set writer).InfersRows := ⟨_, rfl, isRelation_rows, _, rfl⟩

end Session.OneRow

open Session.OneRow in
theorem Session.reopened_spentByDone :
    (AnyWriter.set writer).SpentByDone ∧ ¬(AnyWriter.set writer).SpentByValue := by
  obtain ⟨hdone, hvalue⟩ := reachable_session.spentByDone opens_writer
  exact ⟨hdone, fun h => hvalue.1 h infersRows_writer⟩

open Session.OneRow in
/-- A `done` that fails may spend a writer. -/
theorem Session.exists_not_spentByValue :
    ∃ (s : Session) (w : AnyWriter), s.Reachable ∧ s.Opens w ∧ ¬w.SpentByValue := by
  obtain ⟨b, hb, hinfers⟩ := infersRows_writer
  obtain rfl := Option.some.inj hb
  refine ⟨session, .set writer, reachable_session, opens_writer, ?_⟩
  have hholds := opens_writer.holds reachable_session.typed.values
  exact Writer.not_spentByValue_of_infersRows hinfers (hholds _ rfl).wellFormed

end ValueAlgebra
