import Mathlib.Logic.Function.Iterate
import ValueAlgebra.Proofs.Grammar.Machine

/-!
# The reader accepts exactly the grammar

The moves of the machine taken one at a time form a loop. It ends after at most one turn for each
token and one more, and `Reader.parse` succeeds on the lexemes of a derivation that can be built
within the greatest depth, and on nothing else.

## Main definitions

- `Loop`: the states of the loop, with `Loop.step` and what is left of it, `Loop.turns`
-/

namespace ValueAlgebra

namespace Reader

variable {r : Reader} {m : Manager} {cell n : Cell} {ts : List Token}

/-! ### The loop -/

/-- A state of the reader's loop. -/
inductive Loop
  | reading (stack : List Frame) (cell : Cell) (ts : List Token)
  | delivering (stack : List Frame) (v : Value) (cell : Cell) (ts : List Token)
  | done (answer : Except ReadError Answer)

namespace Loop

/-- One turn of the loop. Every turn that goes on takes a token. -/
def step (r : Reader) (m : Manager) : Loop → Loop
  | reading stack cell ts =>
    match start r m cell ts with
    | .error e => done (.error e)
    | .ok (.value v, rest) => delivering stack v (cell + 1) rest
    | .ok (.opening o, rest) =>
      if r.maxDepth ≤ stack.length then done (.error (.tooDeep r.maxDepth))
      else match mark? o.closer rest with
        | some rest => match o.close m cell [] with
          | .ok v => delivering stack v (cell + 1) rest
          | .error e => done (.error (.type e))
        | none => reading ({ opening := o } :: stack) cell rest
  | delivering [] v cell ts => done (.ok (v, cell, ts))
  | delivering (f :: stack) v cell ts =>
    if (f.push v).awaitsValue then
      match mark? .colon ts with
      | some rest => reading (f.push v :: stack) cell rest
      | none => done (.error (.unexpected ts.head? .colon))
    else match mark? .comma ts, mark? f.opening.closer ts with
      | some rest, _ => reading (f.push v :: stack) cell rest
      | none, some rest => match (f.push v).close m cell with
        | .ok v => delivering stack v (cell + 1) rest
        | .error e => done (.error (.type e))
      | none, none => done (.error (.unexpected ts.head? (.commaOr f.opening.closer)))
  | done a => done a

/-- The answer the loop arrives at. -/
def answer (r : Reader) (m : Manager) : Loop → Except ReadError Answer
  | reading stack cell ts => r.value m stack cell ts
  | delivering stack v cell ts => r.deliver m stack v cell ts
  | done a => a

/-- How many turns the loop has left at most. -/
def turns : Loop → Nat
  | reading _ _ ts | delivering _ _ _ ts => ts.length + 1
  | done _ => 0

theorem answer_step (s : Loop) : (s.step r m).answer r m = s.answer r m := by
  cases s with
  | reading stack cell ts =>
    show _ = r.value m stack cell ts
    cases hs : start r m cell ts with
    | error e =>
      rw [value]
      split <;> simp_all [step, answer]
    | ok p =>
      obtain ⟨st, rest⟩ := p
      cases st with
      | value v =>
        rw [value_of_value hs]
        simp only [step, hs, answer]
      | opening o =>
        rw [value_of_opening hs]
        simp only [step, hs]
        by_cases hdepth : r.maxDepth ≤ stack.length
        · simp only [if_pos hdepth, answer]
        simp only [if_neg hdepth]
        cases mark? o.closer rest with
        | none => rfl
        | some rest => cases o.close m cell [] <;> rfl
  | delivering stack v cell ts =>
    show _ = r.deliver m stack v cell ts
    cases stack with
    | nil => rw [deliver_nil]; rfl
    | cons f stack =>
      cases hf : (f.push v).awaitsValue with
      | true =>
        rw [deliver_key hf]
        simp only [step, hf, if_true]
        cases mark? .colon ts <;> rfl
      | false =>
        rw [deliver_child hf]
        simp only [step, hf, Bool.false_eq_true, if_false]
        cases mark? .comma ts with
        | some rest => rfl
        | none =>
          cases mark? f.opening.closer ts with
          | none => rfl
          | some rest => cases (f.push v).close m cell <;> rfl
  | done a => rfl

/-- The loop ends or takes a token. -/
theorem turns_step (s : Loop) : (s.step r m).turns ≤ s.turns - 1 := by
  cases s with
  | reading stack cell ts =>
    simp only [step]
    split
    · exact Nat.zero_le _
    · next hs => exact start_length hs
    next hs =>
    have hrest := start_length hs
    split
    · exact Nat.zero_le _
    split
    · next hm =>
      -- An empty bracket takes its opening and its end in one turn.
      have := mark?_length hm
      split
      · simp only [turns]
        omega
      · exact Nat.zero_le _
    · exact hrest
  | delivering stack v cell ts =>
    cases stack with
    | nil => exact Nat.zero_le _
    | cons f stack =>
      simp only [step]
      split
      · split
        · next hm => exact mark?_length hm
        · exact Nat.zero_le _
      · split
        · next hm => exact mark?_length hm
        · next hm =>
          split
          · exact mark?_length hm
          · exact Nat.zero_le _
        · exact Nat.zero_le _
  | done a => exact Nat.le_refl _

theorem eq_done_of_turns : ∀ {s : Loop}, s.turns = 0 → s = done (s.answer r m)
  | done _, _ => rfl

/-- The loop ends with its answer, whatever it started from. -/
theorem iterate_step {k : Nat} {s : Loop} (hk : s.turns ≤ k) :
    (step r m)^[k] s = done (s.answer r m) := by
  induction k generalizing s with
  | zero => exact eq_done_of_turns (Nat.le_zero.1 hk)
  | succ k ih =>
    rw [Function.iterate_succ_apply, ih, answer_step]
    have := turns_step (r := r) (m := m) s
    omega

/-- One turn for each token, and one to end, are enough to read a value. -/
theorem iterate_reading (r : Reader) (m : Manager) (cell : Cell) (ts : List Token) :
    (step r m)^[ts.length + 1] (.reading [] cell ts) = .done (r.value m [] cell ts) :=
  iterate_step (Nat.le_refl _)

end Loop

/-! ### Whole sequences -/

theorem parse_eq_ok {v : Value} :
    r.parse m cell ts = .ok (v, n) ↔ r.value m [] cell ts = .ok (v, n, []) := by
  unfold parse
  split <;> simp_all

theorem parse_sound {v : Value} (h : r.parse m cell ts = .ok (v, n)) :
    ∃ d : Derivation, d.lexemes = lexemesOf ts ∧ d.depth ≤ r.maxDepth ∧
      d.build r m cell = .ok (v, n) := by
  obtain ⟨d, w, c, rest, hts, hd, hw, h, -⟩ :=
    (machine_sound r m ts).1 [] cell _ (parse_eq_ok.1 h) (Nat.zero_le _)
  rw [deliver_nil] at h
  obtain ⟨rfl, rfl, rfl⟩ : w = v ∧ c = n ∧ rest = [] := by simpa using h
  exact ⟨d, by simp [hts], by simpa using hd, hw⟩

theorem parse_complete {v : Value} {d : Derivation} (hts : d.lexemes = lexemesOf ts)
    (hd : d.depth ≤ r.maxDepth) (hv : d.build r m cell = .ok (v, n)) :
    r.parse m cell ts = .ok (v, n) := by
  have hall : lexemesOf ts = d.lexemes ++ [] := by simp [hts]
  obtain ⟨rest, hrest, h⟩ := value_complete d [] hall follows_nil (by simpa using hd) hv
  obtain rfl : rest = [] := List.map_eq_nil_iff.1 hrest
  rw [parse_eq_ok, h, deliver_nil]

/-- A sequence of tokens is read as a value exactly if it has a derivation within the greatest
depth that can be built, and then the value is the one built. No sequence has two derivations, and
the loop ends on every one of them. -/
theorem parse_iff_derivation (r : Reader) (m : Manager) (cell : Cell) (ts : List Token) :
    (∀ v n, r.parse m cell ts = .ok (v, n) ↔ ∃ d : Derivation, d.lexemes = lexemesOf ts ∧
      d.depth ≤ r.maxDepth ∧ d.build r m cell = .ok (v, n)) ∧
    (∀ d e : Derivation, d.lexemes = lexemesOf ts → e.lexemes = lexemesOf ts → d = e) ∧
    (Loop.step r m)^[ts.length + 1] (.reading [] cell ts) = .done (r.value m [] cell ts) := by
  refine ⟨fun v n => ⟨parse_sound, ?_⟩, fun d e hd he => ?_, Loop.iterate_step (Nat.le_refl _)⟩
  · rintro ⟨d, hts, hd, hv⟩
    exact parse_complete hts hd hv
  · exact Derivation.lexemes_injective (hd.trans he.symm)

end Reader

end ValueAlgebra
