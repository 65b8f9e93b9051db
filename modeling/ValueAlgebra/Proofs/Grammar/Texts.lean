import ValueAlgebra.Proofs.Grammar.Acceptance
import ValueAlgebra.Proofs.Text.Gaps
import ValueAlgebra.Proofs.Text.Separation

/-!
# Texts and their derivations

Reading a text is building the derivation of its tokens. What the tokens of a text have for names
are names, and so are those in its derivation. A reader without a store reads what it would read
with an empty one.

## Main definitions

- `Derivation.Names`: everything that stands for a name is one
- `Reader.known`, `Reader.filled`: the declarations that a reader finds, and the reader with them
-/

namespace ValueAlgebra

/-! ### Names -/

namespace Lexer

variable {cs n : List Char} {s : Scanned}

/-- Of the scanners only that of names takes a name. -/
theorem name?_of_scan (h : scan cs = .ok s) (hn : s.lexeme = .name n) : name? cs = some s := by
  by_cases hbar : cs.head? = some '|'
  · rw [scan, if_pos hbar] at h
    obtain ⟨path, t, ns, raw, rest, -, -, rfl⟩ := location_eq_ok.1 h
    cases hn
  rcases (scan_eq_ok_iff hbar).1 h with hs | ⟨-, hs⟩ | hs | hs | hs
  · obtain ⟨-, hdouble⟩ := isDouble_of_double? hs
    cases hdouble.symm.trans hn
  · obtain ⟨_, -, rfl⟩ := Option.map_eq_some_iff.1 hs
    cases hn
  · obtain ⟨_, -, rfl⟩ := Option.map_eq_some_iff.1 hs
    cases hn
  · exact hs
  · obtain ⟨m, hmark, -⟩ := mark?_cases hs
    cases (congrArg Scanned.lexeme hmark).symm.trans hn

theorem isName_of_scan (h : scan cs = .ok s) (hn : s.lexeme = .name n) : Name.isName n = true := by
  have hs := name?_of_scan h hn
  cases cs with
  | nil => cases hs
  | cons c cs =>
    simp only [name?, Option.ite_none_right_eq_some, Option.some.injEq] at hs
    obtain ⟨hc, rfl⟩ := hs
    obtain rfl := Lexeme.name.inj hn
    rw [Name.isName, hc, Bool.true_and]
    exact List.all_takeWhile

theorem isName_of_tokensFrom {p : Position} {before ts : List Token}
    (hbefore : ∀ t ∈ before, ∀ n, t.lexeme = .name n → Name.isName n = true)
    (h : tokensFrom p before cs = .ok ts) :
    ∀ t ∈ ts, ∀ n, t.lexeme = .name n → Name.isName n = true := by
  fun_induction tokensFrom p before cs with
  | case1 =>
    obtain rfl := Except.ok.inj h
    exact fun t ht => hbefore t (List.mem_reverse.1 ht)
  | case2 => cases h
  | case3 p before cs p' hc s hs hlt ih =>
    refine ih (List.forall_mem_cons.2 ⟨fun n hn => ?_, hbefore⟩) h
    exact isName_of_scan hs hn

/-- What the tokens of a text have for names are names. -/
theorem isName_of_tokens {ts : List Token} (h : tokens cs = .ok ts) :
    ∀ n, Lexeme.name n ∈ lexemesOf ts → Name.isName n = true := by
  intro n hn
  obtain ⟨t, ht, htn⟩ := List.mem_map.1 hn
  exact isName_of_tokensFrom (List.forall_mem_nil _) h t ht n htn

end Lexer

namespace Derivation

/-- Everything that stands for a name in the text is one. -/
def Names (d : Derivation) : Prop := ∀ n, Lexeme.name n ∈ d.lexemes → Name.isName n = true

theorem mem_sequenceRest {l : Lexeme} {d : Derivation} (hl : l ∈ d.lexemes) :
    ∀ {ds : List Derivation}, d ∈ ds → l ∈ sequenceRest ds
  | e :: ds, h => by
    rw [sequenceRest, List.mem_cons, List.mem_append]
    rcases List.mem_cons.1 h with rfl | h
    · exact .inr (.inl hl)
    · exact .inr (.inr (mem_sequenceRest hl h))

theorem mem_sequence {l : Lexeme} {d : Derivation} (hl : l ∈ d.lexemes) :
    ∀ {ds : List Derivation}, d ∈ ds → l ∈ sequence ds
  | e :: ds, h => by
    rw [sequence, List.mem_append]
    rcases List.mem_cons.1 h with rfl | h
    · exact .inl hl
    · exact .inr (mem_sequenceRest hl h)

theorem mem_entriesRest {l : Lexeme} {e : Derivation × Derivation}
    (hl : l ∈ e.1.lexemes ∨ l ∈ e.2.lexemes) :
    ∀ {es : List (Derivation × Derivation)}, e ∈ es → l ∈ entriesRest es
  | (k, v) :: es, h => by
    rw [entriesRest]
    simp only [List.mem_cons, List.mem_append]
    rcases List.mem_cons.1 h with rfl | h
    · rcases hl with hl | hl
      · exact .inr (.inl hl)
      · exact .inr (.inr (.inr (.inl hl)))
    · exact .inr (.inr (.inr (.inr (mem_entriesRest hl h))))

theorem mem_entries {l : Lexeme} {e : Derivation × Derivation}
    (hl : l ∈ e.1.lexemes ∨ l ∈ e.2.lexemes) :
    ∀ {es : List (Derivation × Derivation)}, e ∈ es → l ∈ entries es
  | (k, v) :: es, h => by
    rw [entries]
    simp only [List.mem_cons, List.mem_append]
    rcases List.mem_cons.1 h with rfl | h
    · rcases hl with hl | hl
      · exact .inl hl
      · exact .inr (.inr (.inl hl))
    · exact .inr (.inr (.inr (mem_entriesRest hl h)))

theorem Names.child {b : Bracket} {ds : List Derivation} (h : (bracket b ds).Names) :
    ∀ d ∈ ds, d.Names := by
  intro d hd n hn
  refine h n ?_
  rw [lexemes, List.mem_append, List.mem_append]
  exact .inr (.inl (mem_sequence hn hd))

theorem Names.entry {es : List (Derivation × Derivation)} (h : (map es).Names) :
    ∀ e ∈ es, e.1.Names ∧ e.2.Names := by
  have hentries : ∀ l ∈ entries es, l ∈ (map es).lexemes := fun l hl => by
    rw [lexemes]
    exact List.mem_cons_of_mem _ (List.mem_append_left _ hl)
  exact fun e he => ⟨fun n hn => h n (hentries _ (mem_entries (.inl hn) he)),
    fun n hn => h n (hentries _ (mem_entries (.inr hn) he))⟩

end Derivation

/-! ### Readers without a store -/

namespace Reader

/-- What the reader finds data types and constructors in. -/
def known (r : Reader) : Store := r.store.getD ∅

/-- The reader with a store that declares nothing if it has none. -/
def filled (r : Reader) : Reader := { r with store := some r.known }

end Reader

namespace Derivation

variable {r r' : Reader} {m : Manager}

/-- Of the reader a reading needs only the data types that names lead to. -/
theorem resolve_congr (h : ∀ name, r.resolve name = r'.resolve name) (b : Bracket) :
    b.resolve r = b.resolve r' := by
  cases b with
  | constructor a n => rw [Bracket.resolve, Bracket.resolve, h]
  | _ => rfl

mutual

theorem build_congr (h : ∀ name, r.resolve name = r'.resolve name) :
    ∀ (d : Derivation) (c : Cell), d.build r m c = d.build r' m c
  | .scalar _, c => by rw [build, build]
  | .bracket b ds, c => by rw [build, build, resolve_congr h, funext (buildAll_congr h ds)]
  | .map es, c => by rw [build, build, buildEntries_congr h es]

theorem buildAll_congr (h : ∀ name, r.resolve name = r'.resolve name) :
    ∀ (ds : List Derivation) (c : Cell), buildAll r m ds c = buildAll r' m ds c
  | [], c => by rw [buildAll, buildAll]
  | d :: ds, c => by rw [buildAll, buildAll, build_congr h d, funext (buildAll_congr h ds)]

theorem buildEntries_congr (h : ∀ name, r.resolve name = r'.resolve name) :
    ∀ (es : List (Derivation × Derivation)) (c : Cell),
      buildEntries r m es c = buildEntries r' m es c
  | [], c => by rw [buildEntries, buildEntries]
  | (k, v) :: es, c => by
    rw [buildEntries, buildEntries, build_congr h k, funext (build_congr h v),
      funext (buildEntries_congr h es)]

end

/-- Without a store a reader finds as much as in an empty one. -/
theorem resolve_filled (name : List Char) : r.filled.resolve name = r.resolve name := by
  unfold Reader.resolve Reader.filled Reader.known
  cases r.store with
  | none => rfl
  | some st => rfl

theorem build_filled (d : Derivation) (c : Cell) : d.build r.filled m c = d.build r m c :=
  build_congr resolve_filled d c

theorem buildEntries_filled (es : List (Derivation × Derivation)) (c : Cell) :
    buildEntries r.filled m es c = buildEntries r m es c :=
  buildEntries_congr resolve_filled es c

end Derivation

/-! ### Reading a text -/

/-- A text has no other derivation than the one it is written from. -/
theorem Derivation.eq_of_tokens_written {d e : Derivation} {ts : List Token} (hd : d.Canonical)
    (hts : Lexer.tokens (String.ofList d.written).toList = .ok ts) (he : e.lexemes = lexemesOf ts) :
    e = d := by
  obtain ⟨us, hus, hlexemes⟩ := tokens_written hd
  rw [String.toList_ofList, hus] at hts
  obtain rfl := Except.ok.inj hts
  exact lexemes_injective (he.trans hlexemes)

namespace Reader

variable {r : Reader} {m : Manager} {c n : Cell} {v : Value}

theorem read_eq_ok {text : String} : r.read m c text = .ok (v, n) ↔
    ∃ (ts : List Token) (d : Derivation), Lexer.tokens text.toList = .ok ts ∧
      d.lexemes = lexemesOf ts ∧ d.depth ≤ r.maxDepth ∧ d.build r m c = .ok (v, n) := by
  unfold read
  constructor
  · intro h
    split at h
    · cases h
    · next ts hts =>
      obtain ⟨d, hd, hdepth, hbuild⟩ := parse_sound h
      exact ⟨ts, d, hts, hd, hdepth, hbuild⟩
  · rintro ⟨ts, d, hts, hd, hdepth, hbuild⟩
    rw [hts]
    exact parse_complete hd hdepth hbuild

theorem read_filled_eq_ok {text : String} :
    r.filled.read m c text = .ok (v, n) ↔ r.read m c text = .ok (v, n) := by
  simp only [read_eq_ok, Derivation.build_filled]
  rfl

/-- The text of a derivation is read as the derivation is built. -/
theorem read_written_eq_ok {d : Derivation} (hd : d.Canonical) (hdepth : d.depth ≤ r.maxDepth) :
    r.read m c (String.ofList d.written) = .ok (v, n) ↔ d.build r m c = .ok (v, n) := by
  rw [read_eq_ok]
  constructor
  · rintro ⟨ts, e, hts, he, -, hbuild⟩
    exact Derivation.eq_of_tokens_written hd hts he ▸ hbuild
  · intro hbuild
    obtain ⟨ts, hts, hlexemes⟩ := Derivation.tokens_written hd
    exact ⟨ts, d, by rw [String.toList_ofList, hts], hlexemes.symm, hdepth, hbuild⟩

end Reader

end ValueAlgebra
