import ValueAlgebra.Proofs.Success
import ValueAlgebra.Proofs.Writer.Lifecycle

/-!
# What writers take

A call that brings items to a writer stops at the first one that is refused, and the writer goes on
with those before it. `Writer.taken` are the items that go in. After any calls the buffer is the one
that the items taken so far lead to, one after the other; in a set or a map each of them is put into
the table.

## Main definitions

- `Writer.taken`, `Writer.takenOf`: the items that go in by one call and by several
-/

namespace ValueAlgebra

namespace Writer

variable {β ι : Type} [Buffer β ι] {m : Manager} {b : β}

/-- The items that go in before one is refused. -/
def taken (w : Writer β) : List ι → List ι
  | [] => []
  | item :: items =>
    match insert item w with
    | .ok _ w' => item :: w'.taken items
    | .error .. => []

/-- The items that go in by several calls. -/
def takenOf (w : Writer β) : List (Feed ι) → List ι
  | [] => []
  | feed :: feeds => w.taken feed.items ++ (stateAfter feed.run w).takenOf feeds

theorem mem_of_mem_taken {item : ι} (w : Writer β) (items : List ι) (h : item ∈ w.taken items) :
    item ∈ items := by
  induction items generalizing w with
  | nil => exact h
  | cons first items ih =>
    rw [taken] at h
    split at h
    · rcases List.mem_cons.1 h with rfl | h
      · exact List.mem_cons_self
      · exact List.mem_cons_of_mem first (ih _ h)
    · cases h

theorem exists_of_mem_takenOf {item : ι} (w : Writer β) (feeds : List (Feed ι))
    (h : item ∈ w.takenOf feeds) : ∃ feed ∈ feeds, item ∈ feed.items := by
  induction feeds generalizing w with
  | nil => cases h
  | cons feed feeds ih =>
    rcases List.mem_append.1 h with h | h
    · exact ⟨feed, List.mem_cons_self, mem_of_mem_taken w feed.items h⟩
    · obtain ⟨feed', hfeed, hitem⟩ := ih _ h
      exact ⟨feed', List.mem_cons_of_mem feed hfeed, hitem⟩

/-- Item by item, what is taken goes into the buffer and what follows a refusal is not looked at. -/
theorem stateAfter_insertEach (items : List ι) (b : β) :
    ∃ b', stateAfter (items.forM insert) (ofBuffer m b) = ofBuffer m b' ∧
      ((ofBuffer m b).taken items).foldlM (Buffer.push m) b = .ok b' := by
  induction items generalizing b with
  | nil => exact ⟨b, rfl, rfl⟩
  | cons item items ih =>
    have hcons : ((item :: items).forM insert : Writing β Unit) =
        insert item >>= fun _ => items.forM insert := rfl
    rw [hcons, taken]
    cases hb : Buffer.push m b item with
    | ok b' =>
      obtain ⟨b'', hstate, htaken⟩ := ih b'
      refine ⟨b'', ?_, ?_⟩
      · rw [stateAfter_bind_of_ok (insert_of_push_ok hb), hstate]
      · rw [insert_of_push_ok hb, List.foldlM_cons, hb]
        exact htaken
    | error e =>
      refine ⟨b, stateAfter_bind_of_error (insert_of_push_error hb), ?_⟩
      rw [insert_of_push_error hb]
      rfl

theorem stateAfter_feed (feed : Feed ι) (b : β) :
    ∃ b', stateAfter feed.run (ofBuffer m b) = ofBuffer m b' ∧
      ((ofBuffer m b).taken feed.items).foldlM (Buffer.push m) b = .ok b' := by
  cases feed with
  | insert item =>
    have hone : [item].forM insert = (insert item : Writing β Unit) := by simp
    rw [Feed.run, ← hone]
    exact stateAfter_insertEach [item] b
  | insertAll items => exact stateAfter_insertEach items b

/-- After any calls the buffer holds what was taken. -/
theorem after_feeds (feeds : List (Feed ι)) (b : β) :
    ∃ b', (ofBuffer m b).after (feeds.map .feed) = ofBuffer m b' ∧
      ((ofBuffer m b).takenOf feeds).foldlM (Buffer.push m) b = .ok b' := by
  induction feeds generalizing b with
  | nil => exact ⟨b, rfl, rfl⟩
  | cons feed feeds ih =>
    obtain ⟨b', hfeed, htaken⟩ := stateAfter_feed (m := m) feed b
    obtain ⟨b'', hafter, hrest⟩ := ih b'
    refine ⟨b'', ?_, ?_⟩
    · show (stateAfter (feed.run >>= fun _ => pure none) (ofBuffer m b)).after _ = _
      rw [stateAfter_bind_pure, hfeed, hafter]
    · rw [takenOf, hfeed, List.foldlM_append, htaken]
      exact hrest

end Writer

/-! ### The tables of sets and maps -/

variable {m : Manager}

theorem SetBuffer.elems_of_push {b b' : SetBuffer} {v : Value}
    (h : Buffer.push m b v = .ok b') : b'.elems = b.elems.put v () := by
  simp only [Buffer.push] at h
  split at h
  · cases h
  · obtain ⟨elem, -, h⟩ := bind_eq_ok.1 h
    obtain rfl := pure_eq_ok.1 h
    rfl

theorem MapBuffer.entries_of_push {b b' : MapBuffer} {e : Value × Value}
    (h : Buffer.push m b e = .ok b') : b'.entries = b.entries.put e.1 e.2 := by
  obtain ⟨key, -, h⟩ := bind_eq_ok.1 h
  obtain ⟨val, -, h⟩ := bind_eq_ok.1 h
  obtain rfl := pure_eq_ok.1 h
  rfl

theorem SetBuffer.of_finish {b : SetBuffer} {cell : Cell} {v : Value}
    (h : Buffer.finish m cell b = .ok v) : ∃ t, v = .set t cell b.elems := by
  simp only [Buffer.finish] at h
  split at h
  · obtain ⟨t, -, h⟩ := bind_eq_ok.1 h
    exact ⟨t, (pure_eq_ok.1 h).symm⟩
  · exact ⟨_, (Except.ok.inj h).symm⟩

/-- The value that a writer gives is made of its buffer. -/
theorem Writer.of_done_eq_ok {β ι : Type} [Buffer β ι] {b : β} {cell : Cell} {v : Value}
    {w : Writer β} (h : done cell (ofBuffer m b) = .ok v w) : Buffer.finish m cell b = .ok v := by
  rw [ofBuffer, done] at h
  cases hv : Buffer.finish m cell b with
  | ok v' =>
    rw [hv] at h
    exact congrArg _ (EStateM.Result.ok.inj h).1
  | error e =>
    rw [hv] at h
    cases h

end ValueAlgebra
