import ValueAlgebra.Build.Writer
import ValueAlgebra.Proofs.Keeps

/-!
# Calls on writers

A writer is given items by calls of which each takes one or several. How the items are spread over
the calls makes no difference: a writer that is fed and then asked for its value returns what its
buffer builds from all the items.

## Main definitions

- `Writer.Feed`: a call that gives items to a writer
- `Writer.collect`: calls that give items, and then the one for the value
- `returned`: what a program returns, whatever state it leaves behind
-/

namespace ValueAlgebra

/-- What a program over a state returns. -/
def returned {ε σ α : Type} (x : EStateM ε σ α) (s : σ) : Except ε α :=
  match x s with
  | .ok a _ => .ok a
  | .error e _ => .error e

/-- A step that fails decides what is returned. -/
theorem returned_bind_of_error {ε σ α β : Type} {x : EStateM ε σ α} {f : α → EStateM ε σ β}
    {s s' : σ} {e : ε} (h : x s = .error e s') : returned (x >>= f) s = .error e := by
  show returned (EStateM.bind x f) s = _
  rw [returned, EStateM.bind, h]

theorem returned_bind_of_ok {ε σ α β : Type} {x : EStateM ε σ α} {f : α → EStateM ε σ β}
    {s s' : σ} {a : α} (h : x s = .ok a s') : returned (x >>= f) s = returned (f a) s' := by
  rw [returned, bind_apply_of_ok h, returned]

namespace Writer

/-- A call that gives items to a writer. -/
inductive Feed (ι : Type)
  | insert (item : ι)
  | insertAll (items : List ι)

namespace Feed

variable {β ι : Type} [Buffer β ι]

def items : Feed ι → List ι
  | insert item => [item]
  | insertAll items => items

def run : Feed ι → Writing β Unit
  | insert item => Writer.insert item
  | insertAll items => Writer.insertAll items

/-- An entry given as key and value. -/
def put (key val : Value) : Feed (Value × Value) := insert (key, val)

theorem run_put (key val : Value) : (put key val).run = Writer.put key val := rfl

end Feed

variable {β ι α : Type} [Buffer β ι] {m : Manager} {b b' : β}

/-! ### What calls keep -/

/-- A buffer is left as the items leave it that it takes. -/
theorem keeps_insert_of_push {P : β → Prop} {item : ι}
    (h : ∀ m b b', P b → Buffer.push m b item = .ok b' → P b') :
    Keeps (fun w : Writer β => ∀ b ∈ w.buffer, P b) (insert item) := by
  intro w hw
  obtain ⟨m, _ | b⟩ := w
  · exact hw
  · simp only [stateAfter, insert]
    cases hb : Buffer.push m b item with
    | error e => exact hw
    | ok b' =>
      intro c hc
      obtain rfl := Option.some.inj hc
      exact h m b _ (hw b rfl) hb

theorem keeps_isOpen_insert (isOpen : Bool) (item : ι) :
    Keeps (fun w : Writer β => w.isOpen = isOpen) (insert item) := by
  intro w hw
  obtain ⟨m, _ | b⟩ := w
  · exact hw
  · simp only [stateAfter, insert]
    cases Buffer.push m b item <;> exact hw

theorem keeps_insertAll_of_insert {I : Writer β → Prop} {items : List ι}
    (h : ∀ item ∈ items, Keeps I (insert item)) : Keeps I (insertAll items : Writing β Unit) := by
  refine Keeps.bind_get fun w hw => ?_
  split
  · exact Keeps.forM h w hw
  · exact hw

/-- What single items keep, a call that brings several keeps. -/
theorem keeps_feed {I : Writer β → Prop} {feed : Feed ι}
    (h : ∀ item ∈ feed.items, Keeps I (insert item)) : Keeps I (feed.run : Writing β Unit) := by
  cases feed with
  | insert item => exact h item List.mem_cons_self
  | insertAll items => exact keeps_insertAll_of_insert h

/-! ### What calls return -/

/-- Gives items to a writer and asks it for the value. -/
def collect (feeds : List (Feed ι)) (cell : Cell) : Writing β Value := do
  feeds.forM Feed.run
  done cell

theorem insert_of_push_ok {item : ι} (h : Buffer.push m b item = .ok b') :
    insert item (ofBuffer m b) = .ok () (ofBuffer m b') := by
  rw [ofBuffer, insert, h]
  rfl

theorem insert_of_push_error {item : ι} {e : TypeError} (h : Buffer.push m b item = .error e) :
    insert item (ofBuffer m b) = .error (.type e) (ofBuffer m b) := by
  rw [ofBuffer, insert, h]

/-- Items go into the buffer one after the other, as long as none is refused. -/
theorem returned_insertEach (next : Writing β α) (items : List ι) (b : β) :
    returned (items.forM insert >>= fun _ => next) (ofBuffer m b) =
      ((items.foldlM (Buffer.push m) b).mapError .type >>= fun b' =>
        returned next (ofBuffer m b')) := by
  induction items generalizing b with
  | nil => rfl
  | cons item items ih =>
    have hcons : ((item :: items).forM insert >>= fun _ => next : Writing β α) =
        insert item >>= fun _ => items.forM insert >>= fun _ => next := by
      rw [← bind_assoc]
      rfl
    rw [hcons, List.foldlM_cons]
    cases hb : Buffer.push m b item with
    | ok b' =>
      rw [returned_bind_of_ok (insert_of_push_ok hb), ih b']
      rfl
    | error e =>
      rw [returned_bind_of_error (insert_of_push_error hb)]
      rfl

theorem returned_feed (next : Writing β α) (feed : Feed ι) (b : β) :
    returned (feed.run >>= fun _ => next) (ofBuffer m b) =
      ((feed.items.foldlM (Buffer.push m) b).mapError .type >>= fun b' =>
        returned next (ofBuffer m b')) := by
  cases feed with
  | insert item =>
    have hone : [item].forM insert = (insert item : Writing β Unit) := by simp
    rw [Feed.items, ← returned_insertEach, hone, Feed.run]
  | insertAll items => exact returned_insertEach next items b

/-- Only the items count, not the calls that bring them. -/
theorem returned_feeds (next : Writing β α) (feeds : List (Feed ι)) (b : β) :
    returned (feeds.forM Feed.run >>= fun _ => next) (ofBuffer m b) =
      (((feeds.flatMap Feed.items).foldlM (Buffer.push m) b).mapError .type >>= fun b' =>
        returned next (ofBuffer m b')) := by
  induction feeds generalizing b with
  | nil => rfl
  | cons feed feeds ih =>
    have hcons : ((feed :: feeds).forM Feed.run >>= fun _ => next : Writing β α) =
        feed.run >>= fun _ => feeds.forM Feed.run >>= fun _ => next := by
      rw [← bind_assoc]
      rfl
    rw [hcons, returned_feed, List.flatMap_cons, List.foldlM_append]
    cases feed.items.foldlM (Buffer.push m) b with
    | ok b' => exact ih b'
    | error e => rfl

/-- A writer that is fed and asked for its value returns what its buffer builds. -/
theorem returned_collect (feeds : List (Feed ι)) (cell : Cell) (b : β) :
    returned (collect feeds cell) (ofBuffer m b) =
      (Buffer.build m cell b (feeds.flatMap Feed.items)).mapError .type := by
  rw [collect, returned_feeds, Buffer.build]
  cases (feeds.flatMap Feed.items).foldlM (Buffer.push m) b with
  | error e => rfl
  | ok b' =>
    show returned (done cell) (ofBuffer m b') = (Buffer.finish m cell b').mapError .type
    rw [returned, ofBuffer, done]
    cases Buffer.finish m cell b' <;> rfl

end Writer

end ValueAlgebra
