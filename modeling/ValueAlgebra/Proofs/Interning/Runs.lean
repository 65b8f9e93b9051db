import ValueAlgebra.Proofs.Interning.Declarations

/-!
# Identity of interned types

A run is what a program holds of one manager after any calls: the references that were returned to
it and stores of these. However the run goes on, references are the same exactly if they stand for
types of the same structure, and what they stand for stays.

## Main definitions

- `Run`: an arena, references and stores
- `Run.Step`, `Run.Reaches`: one call, and any calls
- `Run.Reachable`: the runs of all programs
- `Run.Sound`: what all of them have in common
-/

namespace ValueAlgebra

structure Run where
  arena : Arena
  returned : List Ref := []
  /-- Declaring adds to a copy, so that every state of a store stays at hand. -/
  stores : List RefStore := []

namespace Run

/-- The run of a new manager, whose table uses some hash function. -/
def start (m : Manager) (digest : List Chunk → UInt64) : Run :=
  { arena := { manager := m, digest := digest } }

/-- The run after a call that builds a type or fails. -/
def call (s : Run) (c : Call Ref) : Run :=
  match c.run s.arena with
  | .ok r a => { s with arena := a, returned := r :: s.returned }
  | .error _ a => { s with arena := a }

/-- The run after a declaration, also one that fails. -/
def declare (s : Run) (st : RefStore) (d : Declaration Ref) : Run :=
  match d.run st s.arena with
  | .ok (r, st') a => { arena := a, returned := r :: s.returned, stores := st' :: s.stores }
  | .error _ a => { s with arena := a }

/-- The operands of a call were returned before, and the types in a store too, be it new, copied or
merged. -/
inductive Step (s : Run) : Run → Prop
  | call (c : Call Ref) (hc : ∀ r ∈ c.operands, r ∈ s.returned) : Step s (s.call c)
  | declare {st : RefStore} (hst : st ∈ s.stores) (d : Declaration Ref)
    (hd : ∀ r ∈ d.operands, r ∈ s.returned) : Step s (s.declare st d)
  | store {st : RefStore} (hst : st.Within (· ∈ s.returned)) :
    Step s { s with stores := st :: s.stores }

inductive Reaches (s : Run) : Run → Prop
  | refl : Reaches s s
  | step {t u : Run} (h : Reaches s t) (hu : t.Step u) : Reaches s u

theorem Reaches.trans {s t u : Run} (h : s.Reaches t) (h' : t.Reaches u) : s.Reaches u := by
  induction h' with
  | refl => exact h
  | step _ hu ih => exact .step ih hu

/-- The runs that start with a new manager. -/
def Reachable (s : Run) : Prop := ∃ m digest, (start m digest).Reaches s

structure Sound (s : Run) : Prop where
  canonical : s.arena.Canonical
  returned : ∀ r ∈ s.returned, s.arena.Holds r
  stores : ∀ st ∈ s.stores, st.Within s.arena.Holds

/-- The second run has all that the first has. -/
structure Extends (s t : Run) : Prop where
  sound : t.Sound
  grows : s.arena.Grows t.arena
  returned : ∀ r ∈ s.returned, r ∈ t.returned

variable {s t : Run}

theorem sound_start (m : Manager) (digest : List Chunk → UInt64) : (start m digest).Sound where
  canonical :=
    { indexed := Table.indexed_empty _
      nodup := .nil
      parts_lt := fun _ _ h => nomatch h }
  returned := nofun
  stores := nofun

namespace Sound

/-- More of the arena, of what was returned and of the stores. -/
theorem grow (h : s.Sound) {a : Arena} (hg : s.arena.Grows a) (rs : List Ref)
    (sts : List RefStore) (hrs : ∀ r ∈ rs, a.Holds r) (hsts : ∀ st ∈ sts, st.Within a.Holds) :
    s.Extends ⟨a, rs ++ s.returned, sts ++ s.stores⟩ := by
  refine ⟨⟨hg.canonical, fun r hr => ?_, fun st hst => ?_⟩, hg, fun r => List.mem_append_right rs⟩
  · rcases List.mem_append.1 hr with hr | hr
    · exact hrs r hr
    · exact hg.holds (h.returned r hr)
  · rcases List.mem_append.1 hst with hst | hst
    · exact hsts st hst
    · exact (h.stores st hst).imp fun _ => hg.holds

theorem call (h : s.Sound) (c : Call Ref) (hc : ∀ r ∈ c.operands, r ∈ s.returned) :
    s.Extends (s.call c) := by
  have hanswers := c.answers_run h.canonical fun r hr => h.returned r (hc r hr)
  cases hanswer : (c.mapOperands s.arena.read).answer s.arena.manager with
  | ok t =>
    rw [hanswer] at hanswers
    obtain ⟨r, a, hrun, hg, hr⟩ := hanswers
    rw [Run.call, hrun]
    exact h.grow hg [r] [] (List.forall_mem_singleton.2 hr.holds) nofun
  | error e =>
    rw [hanswer] at hanswers
    obtain ⟨a, hrun, hg⟩ := hanswers
    rw [Run.call, hrun]
    exact h.grow hg [] [] nofun nofun

theorem declare (h : s.Sound) {st : RefStore} (hst : st ∈ s.stores) (d : Declaration Ref)
    (hd : ∀ r ∈ d.operands, r ∈ s.returned) : s.Extends (s.declare st d) := by
  have hdeclares := d.declares_run h.canonical (h.stores st hst) fun r hr => h.returned r (hd r hr)
  cases houtcome : (d.mapOperands s.arena.read).declare s.arena.manager (st.read s.arena) with
  | ok t st' =>
    rw [houtcome] at hdeclares
    obtain ⟨⟨r, st'⟩, a, hrun, hg, hr, hwithin, -⟩ := hdeclares
    rw [Run.declare, hrun]
    exact h.grow hg [r] [st'] (List.forall_mem_singleton.2 hr.holds)
      (List.forall_mem_singleton.2 hwithin)
  | error e st' =>
    rw [houtcome] at hdeclares
    obtain ⟨a, hrun, hg⟩ := hdeclares
    rw [Run.declare, hrun]
    exact h.grow hg [] [] nofun nofun

theorem step (h : s.Sound) (ht : s.Step t) : s.Extends t := by
  cases ht with
  | call c hc => exact h.call c hc
  | declare hst d hd => exact h.declare hst d hd
  | store hst =>
    refine ⟨⟨h.canonical, h.returned, ?_⟩, .refl h.canonical, fun _ => id⟩
    exact List.forall_mem_cons.2 ⟨hst.imp h.returned, h.stores⟩

theorem reaches (h : s.Sound) (ht : s.Reaches t) : s.Extends t := by
  induction ht with
  | refl => exact ⟨h, .refl h.canonical, fun _ => id⟩
  | step _ hu ih =>
    have hstep := ih.sound.step hu
    exact ⟨hstep.sound, ih.grows.trans hstep.grows, fun r hr => hstep.returned r (ih.returned r hr)⟩

end Sound

theorem Reachable.sound (h : s.Reachable) : s.Sound := by
  obtain ⟨m, digest, hm⟩ := h
  exact ((sound_start m digest).reaches hm).sound

/-- References that a manager returned are the same exactly if the types they stand for are, which
is exactly if these have the same structure. They answer every further call as their types do, and
whatever calls follow, they stand for the same types. -/
theorem Reachable.returned_eq_iff_sameShape (h : s.Reachable) :
    (∀ r ∈ s.returned, ∀ q ∈ s.returned,
      (r = q ↔ s.arena.read r = s.arena.read q) ∧
        (r = q ↔ (s.arena.read r).sameShape (s.arena.read q) = true)) ∧
      (∀ c : Call Ref, (∀ r ∈ c.operands, r ∈ s.returned) →
        s.arena.Answers c.run ((c.mapOperands s.arena.read).answer s.arena.manager)) ∧
      (∀ st ∈ s.stores, ∀ d : Declaration Ref, (∀ r ∈ d.operands, r ∈ s.returned) →
        s.arena.Declares (d.run st)
          ((d.mapOperands s.arena.read).declare s.arena.manager (st.read s.arena))) ∧
      ∀ t, s.Reaches t → ∀ r ∈ s.returned, r ∈ t.returned ∧
        t.arena.layer? r = s.arena.layer? r ∧ t.arena.read r = s.arena.read r := by
  have hs := h.sound
  refine ⟨fun r hr q hq => ?_, fun c hc => ?_, fun st hst d hd => ?_, fun t ht r hr => ?_⟩
  · have hread := hs.canonical.read_inj (hs.returned r hr) (hs.returned q hq)
    exact ⟨hread.symm, hs.canonical.eq_iff_sameShape (hs.returned r hr) (hs.returned q hq)⟩
  · exact c.answers_run hs.canonical fun r hr => hs.returned r (hc r hr)
  · exact d.declares_run hs.canonical (hs.stores st hst) fun r hr => hs.returned r (hd r hr)
  · have hext := hs.reaches ht
    exact ⟨hext.returned r hr, hext.grows.layer?_eq (hs.returned r hr),
      hext.grows.read_eq (hs.returned r hr)⟩

/-! ### Rows with and without labels -/

namespace Rows

/-- The store that was added last. -/
def latest (s : Run) : RefStore := s.stores.headD ∅

theorem latest_mem (h : s.stores.isEmpty = false) : latest s ∈ s.stores := by
  unfold latest
  cases hst : s.stores with
  | nil =>
    rw [hst] at h
    cases h
  | cons st sts => exact .head _

/-- `int`, asked for twice, and tuples of it without and with a label. -/
def tuples : Run :=
  ((((start ⟨0⟩ Chunk.digest).call (.basic .int)).call (.basic .int)).call (.tuple [0])).call
    (.labeledTuple [(0, "x")])

/-- The sets of these tuples, which are relations, and the join of the relations. -/
def relations : Run := ((tuples.call (.set 1)).call (.set 2)).call (.lub 3 4)

/-- The alias `Row` of the labeled tuple, in a new store. -/
def named : Run :=
  let s := { relations with stores := ∅ :: relations.stores }
  s.declare (latest s) (.aliased "Row" 2)

/-- The alias `Row` of the other tuple, which is refused. -/
def refused : Run := named.declare (latest named) (.aliased "Row" 1)

/-- The alias `Row` of itself, which is declared already. -/
def renamed : Run := refused.declare (latest refused) (.aliased "Row" 5)

theorem reaches_tuples : (start ⟨0⟩ Chunk.digest).Reaches tuples :=
  .step (.step (.step (.step .refl (.call _ (List.forall_mem_nil _)))
    (.call _ (List.forall_mem_nil _))) (.call _ (by decide +kernel))) (.call _ (by decide +kernel))

theorem reaches_renamed : tuples.Reaches renamed := by
  have hrelations : tuples.Reaches relations :=
    .step (.step (.step .refl (.call _ (by decide +kernel))) (.call _ (by decide +kernel)))
      (.call _ (by decide +kernel))
  have hnamed : tuples.Reaches named :=
    .step (.step hrelations (.store .empty))
      (.declare (latest_mem rfl) (.aliased "Row" 2) (by decide +kernel))
  have hrefused : tuples.Reaches refused :=
    .step hnamed (.declare (latest_mem (by decide +kernel)) _ (by decide +kernel))
  exact .step hrefused (.declare (latest_mem (by decide +kernel)) _ (by decide +kernel))

theorem returned_renamed : renamed.returned = [5, 5, 4, 4, 3, 2, 1, 0, 0] := by decide +kernel

end Rows

open Rows in
/-- The relations differ by a label, and the tuples are still what they were. -/
theorem sameShape_rows : renamed.returned = [5, 5, 4, 4, 3, 2, 1, 0, 0] ∧
    (renamed.arena.read 3).sameShape (renamed.arena.read 4) = false ∧
      ∀ r ∈ tuples.returned, renamed.arena.read r = tuples.arena.read r := by
  have hrenamed : renamed.Reachable := ⟨⟨0⟩, Chunk.digest, reaches_tuples.trans reaches_renamed⟩
  have htuples : tuples.Reachable := ⟨⟨0⟩, Chunk.digest, reaches_tuples⟩
  obtain ⟨hidentity, -⟩ := hrenamed.returned_eq_iff_sameShape
  obtain ⟨-, -, -, hstays⟩ := htuples.returned_eq_iff_sameShape
  refine ⟨returned_renamed, ?_, fun r hr => (hstays renamed reaches_renamed r hr).2.2⟩
  rw [returned_renamed] at hidentity
  have hne := (hidentity 3 (by decide) 4 (by decide)).2
  rw [← Bool.not_eq_true, ← hne]
  decide

end Run

end ValueAlgebra
