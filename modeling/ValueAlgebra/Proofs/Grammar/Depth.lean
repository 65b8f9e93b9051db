import ValueAlgebra.Proofs.Grammar.Texts

/-!
# The limit on open brackets

A reader that may open fewer brackets does the same as one that may open more, turn by turn, until
it gives up with an error of its own. What it counts is how many brackets are open at some point of
the text: the marks that open one, less the marks that close one. In the lexemes of a derivation
this number starts and ends at zero, and its maximum is the depth of the derivation.

## Main definitions

- `openAfter`: how many brackets are open behind some lexemes
- `Balanced`: lexemes that close what they open, with the number of brackets open at once
- `Reader.limited`: the reader with another limit
-/

namespace ValueAlgebra

/-- By how much a mark changes the number of open brackets. -/
def Mark.rise : Mark → Int
  | less | openBracket | openBrace | openParen => 1
  | greater | closeBracket | closeBrace | closeParen => -1
  | doubleColon | comma | colon => 0

/-- Only marks open and close brackets. The marks inside of a location are none. -/
def Lexeme.rise : Lexeme → Int
  | mark k => k.rise
  | _ => 0

/-- How many brackets are open behind lexemes. -/
def openAfter (ls : List Lexeme) : Int := (ls.map Lexeme.rise).sum

/-- At no point of the lexemes are more than `k` brackets open. -/
def OpensAtMost (k : Int) (ls : List Lexeme) : Prop :=
  ∀ before, before <+: ls → openAfter before ≤ k

/-- The text consists of tokens, and at no point of it are more than `k` brackets open. -/
def TextOpensAtMost (k : Nat) (text : String) : Prop :=
  ∃ ts, Lexer.tokens text.toList = .ok ts ∧ OpensAtMost k (lexemesOf ts)

/-! ### Counting -/

section Counting

variable {k : Int} {l : Lexeme} {ls as bs : List Lexeme}

@[simp]
theorem openAfter_cons : openAfter (l :: ls) = l.rise + openAfter ls := List.sum_cons

theorem openAfter_append : openAfter (as ++ bs) = openAfter as + openAfter bs := by
  rw [openAfter, List.map_append, List.sum_append]
  rfl

theorem opensAtMost_nil : OpensAtMost k [] ↔ 0 ≤ k := by
  constructor
  · intro h
    exact h [] List.prefix_rfl
  · intro hk before hbefore
    obtain rfl := List.prefix_nil.1 hbefore
    exact hk

/-- Behind the first part the brackets that it leaves open count as well. -/
theorem opensAtMost_append :
    OpensAtMost k (as ++ bs) ↔ OpensAtMost k as ∧ OpensAtMost (k - openAfter as) bs := by
  constructor
  · intro h
    refine ⟨fun before hbefore => h before (hbefore.trans (List.prefix_append as bs)), ?_⟩
    intro before hbefore
    have hall := h (as ++ before) ((List.prefix_append_right_inj as).2 hbefore)
    rw [openAfter_append] at hall
    omega
  · rintro ⟨has, hbs⟩ before hbefore
    rcases List.prefix_or_prefix_of_prefix hbefore (List.prefix_append as bs) with h | ⟨rest, rfl⟩
    · exact has before h
    · have hrest := hbs rest ((List.prefix_append_right_inj as).1 hbefore)
      rw [openAfter_append]
      omega

theorem opensAtMost_singleton : OpensAtMost k [l] ↔ 0 ≤ k ∧ l.rise ≤ k := by
  constructor
  · intro h
    exact ⟨h [] List.nil_prefix, by simpa [openAfter] using h [l] List.prefix_rfl⟩
  · rintro ⟨hk, hl⟩ before hbefore
    rcases List.prefix_cons_iff.1 hbefore with rfl | ⟨rest, rfl, hrest⟩
    · exact hk
    · obtain rfl := List.prefix_nil.1 hrest
      simpa [openAfter] using hl

end Counting

/-! ### Derivations -/

/-- What the lexemes open they close again, and at most `n` brackets are open at once, at some point
as many. -/
structure Balanced (n : Nat) (ls : List Lexeme) : Prop where
  openAfter_eq : openAfter ls = 0
  opensAtMost_iff : ∀ k : Int, OpensAtMost k ls ↔ n ≤ k

namespace Balanced

variable {n n' : Nat} {l l' : Lexeme} {ls ls' : List Lexeme}

theorem nil : Balanced 0 [] := ⟨rfl, fun _ => opensAtMost_nil⟩

theorem append (h : Balanced n ls) (h' : Balanced n' ls') : Balanced (max n n') (ls ++ ls') where
  openAfter_eq := by rw [openAfter_append, h.openAfter_eq, h'.openAfter_eq, Int.add_zero]
  opensAtMost_iff k := by
    rw [opensAtMost_append, h.openAfter_eq, Int.sub_zero, h.opensAtMost_iff, h'.opensAtMost_iff]
    omega

theorem singleton (hl : l.rise = 0) : Balanced 0 [l] where
  openAfter_eq := by simp [openAfter, hl]
  opensAtMost_iff k := by
    rw [opensAtMost_singleton, hl]
    omega

/-- A lexeme that is no bracket. -/
theorem cons (hl : l.rise = 0) (h : Balanced n ls) : Balanced n (l :: ls) := by
  have := (singleton hl).append h
  rwa [Nat.zero_max] at this

/-- A bracket adds one to the depth of what it encloses, also of nothing. -/
theorem enclose (hl : l.rise = 1) (hl' : l'.rise = -1) (h : Balanced n ls) :
    Balanced (n + 1) (l :: (ls ++ [l'])) where
  openAfter_eq := by
    rw [openAfter_cons, openAfter_append, h.openAfter_eq, hl]
    simp [openAfter, hl']
  opensAtMost_iff k := by
    have hopen : openAfter [l] = 1 := by simp [openAfter, hl]
    rw [← List.singleton_append, opensAtMost_append, opensAtMost_append, opensAtMost_singleton,
      opensAtMost_singleton, h.opensAtMost_iff, h.openAfter_eq, hopen, hl, hl']
    omega

end Balanced

namespace Derivation

/-- Names before an opening mark open nothing. -/
theorem balanced_bracket {n : Nat} {ls : List Lexeme} (b : Bracket) (h : Balanced n ls) :
    Balanced (n + 1) (b.opening ++ (ls ++ [.mark b.closer])) := by
  cases b with
  | tuple | list | set => exact h.enclose rfl rfl
  | node | quotedNode => exact .cons rfl (h.enclose rfl rfl)
  | constructor => exact .cons rfl (.cons rfl (.cons rfl (h.enclose rfl rfl)))

mutual

/-- The depth of a derivation is how many brackets its lexemes open at once. -/
theorem balanced_lexemes : ∀ d : Derivation, Balanced d.depth d.lexemes
  | scalar s => by
    rw [depth, lexemes]
    exact .singleton (by cases s <;> rfl)
  | bracket b ts => by
    rw [depth, lexemes]
    exact balanced_bracket b (balanced_sequence ts)
  | map es => by
    rw [depth, lexemes]
    exact (balanced_entries es).enclose rfl rfl

theorem balanced_sequence : ∀ ts : List Derivation, Balanced (depthAll ts) (sequence ts)
  | [] => by
    rw [depthAll, sequence]
    exact .nil
  | t :: ts => by
    rw [depthAll, sequence]
    exact (balanced_lexemes t).append (balanced_sequenceRest ts)

theorem balanced_sequenceRest : ∀ ts : List Derivation, Balanced (depthAll ts) (sequenceRest ts)
  | [] => by
    rw [depthAll, sequenceRest]
    exact .nil
  | t :: ts => by
    rw [depthAll, sequenceRest]
    exact .cons rfl ((balanced_lexemes t).append (balanced_sequenceRest ts))

theorem balanced_entries : ∀ es : List (Derivation × Derivation),
    Balanced (depthEntries es) (entries es)
  | [] => by
    rw [depthEntries, entries]
    exact .nil
  | (k, v) :: es => by
    rw [depthEntries, entries, Nat.max_assoc]
    exact (balanced_lexemes k).append
      (.cons rfl ((balanced_lexemes v).append (balanced_entriesRest es)))

theorem balanced_entriesRest : ∀ es : List (Derivation × Derivation),
    Balanced (depthEntries es) (entriesRest es)
  | [] => by
    rw [depthEntries, entriesRest]
    exact .nil
  | (k, v) :: es => by
    rw [depthEntries, entriesRest, Nat.max_assoc]
    exact .cons rfl ((balanced_lexemes k).append
      (.cons rfl ((balanced_lexemes v).append (balanced_entriesRest es))))

end

/-- The brackets of a text are those of its derivation. -/
theorem textOpensAtMost_iff (t : Derivation) {text : String} {ts : List Token} {k : Nat}
    (hts : Lexer.tokens text.toList = .ok ts) (ht : t.lexemes = lexemesOf ts) :
    TextOpensAtMost k text ↔ t.depth ≤ k := by
  rw [← Int.ofNat_le, ← t.balanced_lexemes.opensAtMost_iff, ht]
  constructor
  · rintro ⟨ts', hts', hopens⟩
    obtain rfl := Except.ok.inj (hts.symm.trans hts')
    exact hopens
  · exact fun hopens => ⟨ts, hts, hopens⟩

end Derivation

/-! ### Two limits -/

namespace Reader

variable {r : Reader} {m : Manager} {c n : Cell} {d d' : Nat} {v : Value}

/-- The reader that lets at most `d` brackets be open at once. -/
def limited (r : Reader) (d : Nat) : Reader := { r with maxDepth := d }

namespace Loop

/-- A turn of the reader with the lower limit goes as one with the higher limit, or is its last. -/
theorem step_limited (h : d ≤ d') (s : Loop) :
    s.step (r.limited d) m = done (.error (.tooDeep d)) ∨
      s.step (r.limited d') m = s.step (r.limited d) m := by
  cases s with
  | reading stack cell ts =>
    have hstart : start (r.limited d') m cell ts = start (r.limited d) m cell ts := rfl
    simp only [step, hstart]
    cases start (r.limited d) m cell ts with
    | error e => exact .inr rfl
    | ok p =>
      obtain ⟨st, rest⟩ := p
      cases st with
      | value v => exact .inr rfl
      | opening o =>
        by_cases hdepth : d ≤ stack.length
        · exact .inl (if_pos hdepth)
        · have hdepth' : ¬ d' ≤ stack.length := fun hd' => hdepth (h.trans hd')
          refine .inr ?_
          show (if d' ≤ stack.length then _ else _) = if d ≤ stack.length then _ else _
          rw [if_neg hdepth, if_neg hdepth']
  | delivering stack v cell ts => exact .inr (by cases stack <;> rfl)
  | done a => exact .inr rfl

/-- So do any number of turns. -/
theorem iterate_limited (h : d ≤ d') (k : Nat) (s : Loop) :
    (step (r.limited d) m)^[k] s = done (.error (.tooDeep d)) ∨
      (step (r.limited d') m)^[k] s = (step (r.limited d) m)^[k] s := by
  induction k generalizing s with
  | zero => exact .inr rfl
  | succ k ih =>
    rw [Function.iterate_succ_apply, Function.iterate_succ_apply]
    rcases step_limited h s with hs | hs
    · left
      rw [hs]
      exact Function.iterate_fixed rfl k
    · rw [hs]
      exact ih _

end Loop

theorem value_limited (h : d ≤ d') (cell : Cell) (ts : List Token) :
    (r.limited d).value m [] cell ts = .error (.tooDeep d) ∨
      (r.limited d').value m [] cell ts = (r.limited d).value m [] cell ts := by
  have := Loop.iterate_limited (r := r) (m := m) h (ts.length + 1) (.reading [] cell ts)
  rw [Loop.iterate_reading, Loop.iterate_reading] at this
  exact this.imp Loop.done.inj Loop.done.inj

/-- A text is read alike with either limit, unless the lower one is exceeded. -/
theorem read_limited (h : d ≤ d') (text : String) :
    (r.limited d).read m c text = .error (.tooDeep d) ∨
      (r.limited d').read m c text = (r.limited d).read m c text := by
  unfold read
  cases Lexer.tokens text.toList with
  | error p => exact .inr rfl
  | ok ts =>
    show parse _ _ _ _ = _ ∨ parse _ _ _ _ = parse _ _ _ _
    unfold parse
    rcases value_limited (r := r) (m := m) h c ts with hv | hv
    · left
      rw [hv]
    · right
      rw [hv]

/-- What can be read at all is read exactly if no more brackets are open than the limit says. -/
theorem read_limited_eq_ok_iff {text : String}
    (h : (r.limited d').read m c text = .ok (v, n)) :
    (r.limited d).read m c text = .ok (v, n) ↔ TextOpensAtMost d text := by
  obtain ⟨ts, t, hts, hlexemes, -, hbuild⟩ := read_eq_ok.1 h
  rw [t.textOpensAtMost_iff hts hlexemes, read_eq_ok]
  constructor
  · rintro ⟨ts', t', hts', hlexemes', hle, -⟩
    obtain rfl := Except.ok.inj (hts.symm.trans hts')
    obtain rfl := Derivation.lexemes_injective (hlexemes.trans hlexemes'.symm)
    exact hle
  · intro hle
    have hresolve (name : List Char) : (r.limited d).resolve name = (r.limited d').resolve name :=
      rfl
    exact ⟨ts, t, hts, hlexemes, hle, (Derivation.build_congr hresolve t c).trans hbuild⟩

/-- Of two limits the higher one changes nothing but that a text can be read which the lower one
cuts off. What can be read with the higher one is cut off exactly if somewhere in the text more
brackets are open than the lower one allows. -/
theorem read_depth_limit (h : d ≤ d') (r : Reader) (m : Manager) (c : Cell) (text : String) :
    ((∀ k, (r.limited d).read m c text ≠ .error (.tooDeep k)) →
      (r.limited d').read m c text = (r.limited d).read m c text) ∧
    ∀ v n, (r.limited d').read m c text = .ok (v, n) →
      ((r.limited d).read m c text = .ok (v, n) ↔ TextOpensAtMost d text) ∧
      (¬ TextOpensAtMost d text → (r.limited d).read m c text = .error (.tooDeep d)) := by
  refine ⟨fun hne => (read_limited h text).resolve_left (hne d), fun v n hread => ?_⟩
  have hiff := read_limited_eq_ok_iff hread (d := d)
  refine ⟨hiff, fun hopens => ?_⟩
  rcases read_limited h text with hdeep | hsame
  · exact hdeep
  · exact (hopens (hiff.1 (hsame ▸ hread))).elim

/-! ### Empty brackets and brackets in a string -/

namespace Sample

def manager : Manager := ⟨0⟩

/-- Empty brackets on two levels, and a string of two opening marks. -/
def brackets : Derivation :=
  .bracket .list [.bracket .tuple [],
    .bracket (.node ['f']) [.scalar (.string ['[', '(']), .bracket .set []]]

theorem canonical_brackets : brackets.Canonical := by
  refine Derivation.canonical_bracket (List.forall_mem_singleton.2 trivial) ?_
  rw [List.forall_mem_cons, List.forall_mem_singleton]
  constructor
  · exact Derivation.canonical_bracket (List.forall_mem_singleton.2 trivial) (List.forall_mem_nil _)
  · refine Derivation.canonical_bracket
      (List.forall_mem_cons.2 ⟨rfl, List.forall_mem_singleton.2 trivial⟩) ?_
    rw [List.forall_mem_cons, List.forall_mem_singleton]
    exact ⟨List.forall_mem_singleton.2 ⟨['[', '('], rfl⟩, Derivation.canonical_bracket
      (List.forall_mem_singleton.2 trivial) (List.forall_mem_nil _)⟩

def nodes : Value :=
  Build.list manager 4 [Build.tuple manager 0 [],
    Build.node manager 3 "f" [Build.str manager 1 "[(", Build.set manager 2 []]]

/-- `[<>,f("[(",{})]` -/
def text : String := String.ofList brackets.written

theorem read_brackets_text : (limited {} 3).read manager 0 text = .ok (nodes, 5) := by
  refine (read_written_eq_ok (r := limited {} 3) canonical_brackets (by decide)).2 ?_
  with_unfolding_all rfl

/-- The brackets in the string do not count. -/
theorem textOpensAtMost_text {k : Nat} : TextOpensAtMost k text ↔ 3 ≤ k := by
  obtain ⟨ts, hts, hlexemes⟩ := Derivation.tokens_written canonical_brackets
  refine brackets.textOpensAtMost_iff ?_ hlexemes.symm
  rw [text, String.toList_ofList, hts]

end Sample

open Sample in
/-- With the empty set inside three brackets are open, so that a limit of two cuts it off. -/
theorem read_depth_limit_brackets : text = "[<>,f(\"[(\",\x7b\x7d)]" ∧
    (limited {} 4).read manager 0 text = .ok (nodes, 5) ∧
    (limited {} 2).read manager 0 text = .error (.tooDeep 2) := by
  have hthree : 3 ≤ 4 := by decide
  have htwo : 2 ≤ 3 := by decide
  obtain ⟨hsame, -⟩ := read_depth_limit hthree {} manager 0 text
  obtain ⟨-, hcut⟩ := read_depth_limit htwo {} manager 0 text
  refine ⟨by decide, (hsame fun k hk => ?_).trans read_brackets_text,
    (hcut _ _ read_brackets_text).2 ?_⟩
  · rw [read_brackets_text] at hk
    cases hk
  · rw [textOpensAtMost_text]
    decide

end Reader

end ValueAlgebra
