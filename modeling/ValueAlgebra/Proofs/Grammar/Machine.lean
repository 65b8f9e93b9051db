import ValueAlgebra.Codec.Reader
import ValueAlgebra.Proofs.Grammar.Unambiguous
import ValueAlgebra.Proofs.Success

/-!
# The reader's machine follows the grammar

The reader works through its tokens with a stack of open brackets. Here each of its moves is
matched with a piece of a derivation: what `Reader.start` takes is a scalar or the opening of a
bracket, what `Reader.value` takes is a derivation, and what `Reader.deliver` takes up to the end
of the innermost bracket is the rest of that bracket's children.

Soundness goes by induction on the tokens left, since `value` and `deliver` call each other and
take a token each time. Completeness goes by recursion on the derivation.
-/

namespace ValueAlgebra

/-- The lexemes of tokens. -/
abbrev lexemesOf (ts : List Token) : List Lexeme := ts.map Token.lexeme

/-- Pairing goes on where an even number of elements ends. -/
theorem Build.pairs_append {α : Type} : ∀ (as bs : List α), as.length % 2 = 0 →
    Build.pairs (as ++ bs) = Build.pairs as ++ Build.pairs bs
  | [], bs, _ => rfl
  | [_], _, h => by simp at h
  | a :: b :: as, bs, h => by
    have has : as.length % 2 = 0 := by
      simp only [List.length_cons] at h
      omega
    simp [Build.pairs, Build.pairs_append as bs has]

namespace Frame

@[simp]
theorem opening_push (f : Frame) (v : Value) : (f.push v).opening = f.opening := rfl

@[simp]
theorem toList_children_push (f : Frame) (v : Value) :
    (f.push v).children.toList = f.children.toList ++ [v] := Array.toList_push

theorem awaitsValue_of_ne_map {f : Frame} (hf : f.opening ≠ .map) : f.awaitsValue = false := by
  unfold awaitsValue
  split
  · next h => exact (hf h).elim
  · rfl

theorem awaitsValue_of_map {f : Frame} (hf : f.opening = .map) :
    f.awaitsValue = (f.children.toList.length % 2 == 1) := by
  simp [awaitsValue, hf]

/-- With the value of its last key a map awaits no other. -/
theorem awaitsValue_push_of_odd {f : Frame} {v : Value} (hf : f.opening = .map)
    (h : f.children.toList.length % 2 = 1) : (f.push v).awaitsValue = false := by
  rw [awaitsValue_of_map (f := f.push v) hf, toList_children_push, List.length_append,
    beq_eq_false_iff_ne]
  simp only [List.length_singleton]
  omega

theorem awaitsValue_push_of_even {f : Frame} {v : Value} (hf : f.opening = .map)
    (h : f.children.toList.length % 2 = 0) : (f.push v).awaitsValue = true := by
  rw [awaitsValue_of_map (f := f.push v) hf, toList_children_push, List.length_append, beq_iff_eq]
  simp only [List.length_singleton]
  omega

end Frame

namespace Reader

variable {r : Reader} {m : Manager} {stack : List Frame} {cell : Cell} {ts rest : List Token}

/-! ### One move of the machine -/

theorem lexemesOf_of_mark? {k : Mark} (h : mark? k ts = some rest) :
    lexemesOf ts = .mark k :: lexemesOf rest := by
  cases ts with
  | nil => simp [mark?] at h
  | cons t ts =>
    simp only [mark?, Option.ite_none_right_eq_some, Option.some.injEq] at h
    obtain ⟨ht, rfl⟩ := h
    simp [ht]

theorem mark?_of_lexemesOf {k : Mark} {ls : List Lexeme} (h : lexemesOf ts = .mark k :: ls) :
    ∃ rest, mark? k ts = some rest ∧ lexemesOf rest = ls := by
  obtain ⟨t, rest, rfl, ht, hrest⟩ := List.map_eq_cons_iff.1 h
  exact ⟨rest, by simp [mark?, ht], hrest⟩

theorem mark?_eq_none {k : Mark} (h : (lexemesOf ts).head? ≠ some (.mark k)) :
    mark? k ts = none := by
  cases ts with
  | nil => rfl
  | cons t ts => simp_all [mark?]

theorem value_of_value {v : Value} (h : start r m cell ts = .ok (.value v, rest)) :
    r.value m stack cell ts = r.deliver m stack v (cell + 1) rest := by
  rw [value]
  split <;> simp_all

theorem value_of_opening {o : Opening} (h : start r m cell ts = .ok (.opening o, rest)) :
    r.value m stack cell ts =
      if r.maxDepth ≤ stack.length then .error (.tooDeep r.maxDepth)
      else match mark? o.closer rest with
        | some rest => match o.close m cell [] with
          | .ok v => r.deliver m stack v (cell + 1) rest
          | .error e => .error (.type e)
        | none => r.value m ({ opening := o } :: stack) cell rest := by
  rw [value]
  split
  · simp_all
  · simp_all
  · next o' rest' h' =>
    obtain ⟨rfl, rfl⟩ : o' = o ∧ rest' = rest := by simpa [h] using h'.symm
    split
    · rfl
    · split
      · next hm => cases o'.close m cell [] <;> simp only [hm]
      · next hm => simp only [hm]

theorem deliver_nil (v : Value) : r.deliver m [] v cell ts = .ok (v, cell, ts) := by
  rw [deliver]

theorem deliver_key {f : Frame} {v : Value} (hf : (f.push v).awaitsValue = true) :
    r.deliver m (f :: stack) v cell ts = match mark? .colon ts with
      | some rest => r.value m (f.push v :: stack) cell rest
      | none => .error (.unexpected ts.head? .colon) := by
  rw [deliver]
  simp only [hf, if_true]
  split <;> simp_all

theorem deliver_child {f : Frame} {v : Value} (hf : (f.push v).awaitsValue = false) :
    r.deliver m (f :: stack) v cell ts = match mark? .comma ts, mark? f.opening.closer ts with
      | some rest, _ => r.value m (f.push v :: stack) cell rest
      | none, some rest => match (f.push v).close m cell with
        | .ok v => r.deliver m stack v (cell + 1) rest
        | .error e => .error (.type e)
      | none, none => .error (.unexpected ts.head? (.commaOr f.opening.closer)) := by
  rw [deliver]
  simp only [hf, Bool.false_eq_true, if_false]
  split
  · next hm => simp only [hm]
  · next hc hm =>
    rw [Frame.opening_push] at hm
    cases (f.push v).close m cell <;> simp only [hm, hc]
  · next hc hm =>
    rw [Frame.opening_push] at hm
    simp only [hm, hc, Frame.opening_push]

/-! ### Beginnings of values -/

theorem reservedValue?_eq_some {name : List Char} {v : Value}
    (h : reservedValue? m name = some v) : ∃ c : Constant, c.chars = name ∧ c.value m = v := by
  unfold reservedValue? at h
  split at h
  · exact ⟨.yes, by simp_all [Constant.chars], Option.some.inj h⟩
  split at h
  · exact ⟨.no, by simp_all [Constant.chars], Option.some.inj h⟩
  split at h
  · exact ⟨.nan, by simp_all [Constant.chars], Option.some.inj h⟩
  split at h
  · exact ⟨.infinity, by simp_all [Constant.chars], Option.some.inj h⟩
  · cases h

theorem reservedValue?_chars (c : Constant) : reservedValue? m c.chars = some (c.value m) := by
  cases c <;> rfl

/-- What `start` takes as a whole value is a scalar. -/
theorem start_value_sound {v : Value} (h : start r m cell ts = .ok (.value v, rest)) :
    ∃ s : Scalar, lexemesOf ts = s.lexeme :: lexemesOf rest ∧ s.value m cell = .ok v := by
  cases ts with
  | nil => simp [start] at h
  | cons t ts =>
    simp only [start] at h
    split at h
    · next n hn =>
      obtain ⟨i, hi, he⟩ := bind_eq_ok.1 h
      obtain ⟨rfl, rfl⟩ : Build.int m i = v ∧ ts = rest := by simpa using he
      exact ⟨.integer n, by simp [hn, Scalar.lexeme], by simp [Scalar.value, hi]⟩
    · next n hn =>
      obtain ⟨rfl, rfl⟩ : Build.double m (.ofNumeral n) = v ∧ ts = rest := by simpa using h
      exact ⟨.double n, by simp [hn, Scalar.lexeme], rfl⟩
    · next path numbers hn =>
      obtain ⟨p, hp, he⟩ := bind_eq_ok.1 h
      obtain ⟨span, hs, he⟩ := bind_eq_ok.1 he
      obtain ⟨rfl, rfl⟩ : Build.loc m cell (String.ofList p) span = v ∧ ts = rest := by
        simpa using he
      exact ⟨.location path numbers, by simp [hn, Scalar.lexeme], by simp [Scalar.value, hp, hs]⟩
    · next body hn =>
      obtain ⟨b, hb, he⟩ := bind_eq_ok.1 h
      split at he
      · simp at he
      · obtain ⟨rfl, rfl⟩ : Build.str m cell (String.ofList b) = v ∧ ts = rest := by simpa using he
        exact ⟨.string body, by simp [hn, Scalar.lexeme], by simp [Scalar.value, hb]⟩
    · next name hn =>
      unfold startName at h
      split at h
      · simp at h
      · simp at h
      · split at h
        · split at h
          · simp at h
          · simp at h
        · simp at h
      · split at h
        · next w hw =>
          obtain ⟨c, rfl, rfl⟩ := reservedValue?_eq_some hw
          obtain ⟨rfl, rfl⟩ : c.value m = v ∧ ts = rest := by simpa using h
          exact ⟨.constant c, by simp [hn, Scalar.lexeme], rfl⟩
        · simp at h
    all_goals simp at h

/-- What `start` takes as an opening is one of a bracket or of a map. -/
theorem start_opening_sound {o : Opening} (h : start r m cell ts = .ok (.opening o, rest)) :
    (∃ b : Bracket, lexemesOf ts = b.opening ++ lexemesOf rest ∧ b.resolve r = .ok o) ∨
      (o = .map ∧ lexemesOf ts = .mark .openParen :: lexemesOf rest) := by
  cases ts with
  | nil => simp [start] at h
  | cons t ts =>
    simp only [start] at h
    split at h
    · simp at h
    · simp at h
    · simp at h
    · next body hn =>
      obtain ⟨b, hb, he⟩ := bind_eq_ok.1 h
      split at he
      · next ts' hm =>
        obtain ⟨rfl, rfl⟩ : Opening.node b = o ∧ ts' = rest := by simpa using he
        refine .inl ⟨.quotedNode body, ?_, by simp [Bracket.resolve, hb]⟩
        simpa [hn, Bracket.opening] using lexemesOf_of_mark? hm
      · simp at he
    · next name hn =>
      unfold startName at h
      split at h
      · next _ ts' hm =>
        obtain ⟨rfl, rfl⟩ : Opening.node name = o ∧ ts' = rest := by simpa using h
        refine .inl ⟨.node name, ?_, rfl⟩
        simpa [hn, Bracket.opening] using lexemesOf_of_mark? hm
      · simp at h
      · next c tail _ hd =>
        have hd := lexemesOf_of_mark? hd
        split at h
        · next cname hc =>
          split at h
          · next ts' hm =>
            have hm := lexemesOf_of_mark? hm
            obtain ⟨⟨store, owner⟩, hr, he⟩ := bind_eq_ok.1 h
            obtain ⟨rfl, rfl⟩ : Opening.constructor store owner cname = o ∧ ts' = rest := by
              simpa using he
            refine .inl ⟨.constructor name cname, ?_, by simp [Bracket.resolve, hr]⟩
            simp only [List.map_cons, hc] at hd
            simp [hn, hd, hm, Bracket.opening]
          · simp at h
        · simp at h
      · split at h <;> simp at h
    · next hn =>
      obtain ⟨rfl, rfl⟩ : Opening.tuple = o ∧ ts = rest := by simpa using h
      exact .inl ⟨.tuple, by simp [hn, Bracket.opening], rfl⟩
    · next hn =>
      obtain ⟨rfl, rfl⟩ : Opening.list = o ∧ ts = rest := by simpa using h
      exact .inl ⟨.list, by simp [hn, Bracket.opening], rfl⟩
    · next hn =>
      obtain ⟨rfl, rfl⟩ : Opening.set = o ∧ ts = rest := by simpa using h
      exact .inl ⟨.set, by simp [hn, Bracket.opening], rfl⟩
    · next hn =>
      obtain ⟨rfl, rfl⟩ : Opening.map = o ∧ ts = rest := by simpa using h
      exact .inr ⟨rfl, by simp [hn]⟩
    · simp at h

theorem start_value_complete {s : Scalar} {v : Value} {ls : List Lexeme}
    (hts : lexemesOf ts = s.lexeme :: ls) (hls : Follows ls) (hv : s.value m cell = .ok v) :
    ∃ rest, start r m cell ts = .ok (.value v, rest) ∧ lexemesOf rest = ls := by
  obtain ⟨t, ts, rfl, ht, rfl⟩ := List.map_eq_cons_iff.1 hts
  have hparen : mark? .openParen ts = none := mark?_eq_none hls.1
  have hcolon : mark? .doubleColon ts = none := mark?_eq_none hls.2
  refine ⟨ts, ?_, rfl⟩
  cases s with
  | integer n =>
    obtain ⟨i, hi, rfl⟩ := map_eq_ok.1 hv
    simp [start, ht, Scalar.lexeme, hi]
  | double n =>
    obtain rfl : Build.double m (.ofNumeral n) = v := by simpa [Scalar.value] using hv
    simp [start, ht, Scalar.lexeme]
  | string body =>
    obtain ⟨b, hb, rfl⟩ := map_eq_ok.1 hv
    simp [start, ht, Scalar.lexeme, hb, hparen]
  | location path numbers =>
    obtain ⟨p, hp, hv⟩ := bind_eq_ok.1 hv
    obtain ⟨span, hs, rfl⟩ := map_eq_ok.1 hv
    simp [start, ht, Scalar.lexeme, hp, hs]
  | constant c =>
    obtain rfl : c.value m = v := by simpa [Scalar.value] using hv
    simp [start, ht, Scalar.lexeme, startName, hparen, hcolon, reservedValue?_chars]

theorem start_opening_complete (cell : Cell) {b : Bracket} {o : Opening} {ls : List Lexeme}
    (hts : lexemesOf ts = b.opening ++ ls) (ho : b.resolve r = .ok o) :
    ∃ rest, start r m cell ts = .ok (.opening o, rest) ∧ lexemesOf rest = ls := by
  cases b with
  | tuple =>
    obtain ⟨t, rest, rfl, ht, rfl⟩ := List.map_eq_cons_iff.1 hts
    obtain rfl : Opening.tuple = o := by simpa [Bracket.resolve] using ho
    exact ⟨rest, by simp [start, ht], rfl⟩
  | list =>
    obtain ⟨t, rest, rfl, ht, rfl⟩ := List.map_eq_cons_iff.1 hts
    obtain rfl : Opening.list = o := by simpa [Bracket.resolve] using ho
    exact ⟨rest, by simp [start, ht], rfl⟩
  | set =>
    obtain ⟨t, rest, rfl, ht, rfl⟩ := List.map_eq_cons_iff.1 hts
    obtain rfl : Opening.set = o := by simpa [Bracket.resolve] using ho
    exact ⟨rest, by simp [start, ht], rfl⟩
  | node name =>
    obtain ⟨t, ts, rfl, ht, hts⟩ := List.map_eq_cons_iff.1 hts
    obtain ⟨rest, hm, rfl⟩ := mark?_of_lexemesOf hts
    obtain rfl : Opening.node name = o := by simpa [Bracket.resolve] using ho
    exact ⟨rest, by simp [start, ht, startName, hm], rfl⟩
  | quotedNode body =>
    obtain ⟨t, ts, rfl, ht, hts⟩ := List.map_eq_cons_iff.1 hts
    obtain ⟨rest, hm, rfl⟩ := mark?_of_lexemesOf hts
    obtain ⟨name, hname, rfl⟩ := map_eq_ok.1 ho
    exact ⟨rest, by simp [start, ht, hname, hm], rfl⟩
  | constructor adt name =>
    obtain ⟨t, ts, rfl, ht, hts⟩ := List.map_eq_cons_iff.1 hts
    have hparen : mark? .openParen ts = none := mark?_eq_none (by simp [hts])
    obtain ⟨ts', hm, hts'⟩ := mark?_of_lexemesOf hts
    obtain ⟨c, ts', rfl, hc, hts'⟩ := List.map_eq_cons_iff.1 hts'
    obtain ⟨rest, hm', rfl⟩ := mark?_of_lexemesOf hts'
    obtain ⟨⟨store, owner⟩, hr, ho⟩ := bind_eq_ok.1 ho
    obtain rfl : Opening.constructor store owner name = o := by simpa using ho
    exact ⟨rest, by simp [start, ht, startName, hparen, hm, hc, hm', hr], rfl⟩

/-! ### Soundness -/

theorem closer_of_resolve {b : Bracket} {o : Opening} (h : b.resolve r = .ok o) :
    o.closer = b.closer ∧ o ≠ .map := by
  cases b with
  | tuple | list | set | node =>
    obtain rfl := Except.ok.inj h
    exact ⟨rfl, nofun⟩
  | quotedNode =>
    obtain ⟨_, -, rfl⟩ := map_eq_ok.1 h
    exact ⟨rfl, nofun⟩
  | constructor =>
    obtain ⟨⟨_, _⟩, -, h⟩ := bind_eq_ok.1 h
    obtain rfl := Except.ok.inj h
    exact ⟨rfl, nofun⟩

/-- An answer of the machine: a value, the next free cell and the tokens left. -/
abbrev Answer := Value × Cell × List Token

/-- A value read from `ts` is that of a derivation, and reading goes on behind it. -/
def ValueSound (r : Reader) (m : Manager) (ts : List Token) : Prop :=
  ∀ (stack : List Frame) (cell : Cell) (a : Answer), r.value m stack cell ts = .ok a →
    stack.length ≤ r.maxDepth →
    ∃ (d : Derivation) (v : Value) (n : Cell) (rest : List Token),
      lexemesOf ts = d.lexemes ++ lexemesOf rest ∧ stack.length + d.depth ≤ r.maxDepth ∧
      d.build r m cell = .ok (v, n) ∧ r.deliver m stack v n rest = .ok a ∧
      rest.length < ts.length

/-- After a child of a bracket come further children up to the bracket's end. -/
def ChildSound (r : Reader) (m : Manager) (ts : List Token) : Prop :=
  ∀ (f : Frame) (stack : List Frame) (v : Value) (cell : Cell) (a : Answer),
    stack.length < r.maxDepth → f.opening ≠ .map → r.deliver m (f :: stack) v cell ts = .ok a →
    ∃ (ds : List Derivation) (vs : List Value) (n : Cell) (w : Value) (rest : List Token),
      lexemesOf ts = Derivation.sequenceRest ds ++ .mark f.opening.closer :: lexemesOf rest ∧
      (∀ d ∈ ds, stack.length + 1 + d.depth ≤ r.maxDepth) ∧
      Derivation.buildAll r m ds cell = .ok (vs, n) ∧
      f.opening.close m n (f.children.toList ++ v :: vs) = .ok w ∧
      r.deliver m stack w (n + 1) rest = .ok a ∧ rest.length < ts.length

/-- After a key come its value and further entries up to the map's end. -/
def KeySound (r : Reader) (m : Manager) (ts : List Token) : Prop :=
  ∀ (f : Frame) (stack : List Frame) (k : Value) (cell : Cell) (a : Answer),
    stack.length < r.maxDepth → f.opening = .map → f.children.toList.length % 2 = 0 →
    r.deliver m (f :: stack) k cell ts = .ok a →
    ∃ (d : Derivation) (x : Value) (c : Cell) (es : List (Derivation × Derivation))
      (xs : List (Value × Value)) (n : Cell) (rest : List Token),
      lexemesOf ts = .mark .colon :: (d.lexemes ++ (Derivation.entriesRest es ++
        .mark .closeParen :: lexemesOf rest)) ∧
      stack.length + 1 + d.depth ≤ r.maxDepth ∧
      (∀ e ∈ es, stack.length + 1 + max e.1.depth e.2.depth ≤ r.maxDepth) ∧
      d.build r m cell = .ok (x, c) ∧ Derivation.buildEntries r m es c = .ok (xs, n) ∧
      r.deliver m stack (Build.map m n (Build.pairs f.children.toList ++ (k, x) :: xs)) (n + 1) rest
        = .ok a ∧ rest.length < ts.length

theorem deliver_key_eq_ok {f : Frame} {v : Value} {a : Answer}
    (hf : (f.push v).awaitsValue = true) (h : r.deliver m (f :: stack) v cell ts = .ok a) :
    ∃ us, mark? .colon ts = some us ∧ r.value m (f.push v :: stack) cell us = .ok a := by
  rw [deliver_key hf] at h
  split at h
  · next us hm => exact ⟨us, hm, h⟩
  · cases h

/-- After a child the machine goes on to the next or closes the bracket. -/
theorem deliver_child_eq_ok {f : Frame} {v : Value} {a : Answer}
    (hf : (f.push v).awaitsValue = false) (h : r.deliver m (f :: stack) v cell ts = .ok a) :
    (∃ us, mark? .comma ts = some us ∧ r.value m (f.push v :: stack) cell us = .ok a) ∨
      ∃ us w, mark? f.opening.closer ts = some us ∧
        f.opening.close m cell (f.children.toList ++ [v]) = .ok w ∧
        r.deliver m stack w (cell + 1) us = .ok a := by
  rw [deliver_child hf] at h
  split at h
  · next _ us hm => exact .inl ⟨us, hm, h⟩
  · next us _ hm =>
    split at h
    · next w hw => exact .inr ⟨us, w, hm, by simpa [Frame.close] using hw, h⟩
    · cases h
  · cases h

theorem childSound (ih : ∀ us : List Token, us.length < ts.length →
    ValueSound r m us ∧ ChildSound r m us) : ChildSound r m ts := by
  intro f stack v cell a hdepth hf h
  have hchild := Frame.awaitsValue_of_ne_map (f := f.push v) hf
  rcases deliver_child_eq_ok hchild h with ⟨us, hm, h⟩ | ⟨us, w, hm, hw, h⟩
  · have hus := mark?_length hm
    obtain ⟨d, x, c, vs, hlus, hd, hx, h, hvs⟩ := (ih us hus).1 _ _ _ h hdepth
    obtain ⟨ds, xs, n, w, rest, hrest, hds, hxs, hw, h, hlen⟩ :=
      (ih vs (by omega)).2 (f.push v) stack x c a hdepth hf h
    refine ⟨d :: ds, x :: xs, n, w, rest, ?_, ?_, ?_, by simpa using hw, h, by omega⟩
    · rw [lexemesOf_of_mark? hm, hlus, hrest]
      simp [Derivation.sequenceRest]
    · rw [List.forall_mem_cons]
      refine ⟨?_, hds⟩
      simpa using hd
    · exact Derivation.buildAll_cons_eq_ok.2 ⟨x, c, xs, hx, hxs, rfl⟩
  · exact ⟨[], [], cell, w, us, lexemesOf_of_mark? hm, by simp, rfl, hw, h, mark?_length hm⟩

theorem keySound (ih : ∀ us : List Token, us.length < ts.length →
    ValueSound r m us ∧ KeySound r m us) : KeySound r m ts := by
  intro f stack k cell a hdepth hf heven h
  obtain ⟨us, hcolon, h⟩ := deliver_key_eq_ok (Frame.awaitsValue_push_of_even hf heven) h
  have hus := mark?_length hcolon
  obtain ⟨d, x, c, vs, hlus, hd, hx, h, hvs⟩ := (ih us hus).1 _ _ _ h hdepth
  -- With the value the frame holds whole entries again.
  let g := (f.push k).push x
  have hgeven : g.children.toList.length % 2 = 0 := by
    simp only [g, Frame.toList_children_push, List.length_append, List.length_singleton]
    omega
  have hpairs : Build.pairs g.children.toList = Build.pairs f.children.toList ++ [(k, x)] := by
    simp only [g, Frame.toList_children_push, List.append_assoc]
    exact Build.pairs_append _ _ heven
  have hval : g.awaitsValue = false := by
    rw [Frame.awaitsValue_of_map (f := g) hf, hgeven]
    rfl
  rcases deliver_child_eq_ok hval h with ⟨ws, hm, h⟩ | ⟨ws, w, hm, hw, h⟩
  · have hws := mark?_length hm
    obtain ⟨dk, y, c', us', hk, hdk, hy, h, hus'⟩ := (ih ws (by omega)).1 _ _ _ h hdepth
    obtain ⟨dv, z, c'', es, xs, n, rest, hrest, hdv, hes, hz, hxs, h, hlen⟩ :=
      (ih us' (by omega)).2 g stack y c' a hdepth hf hgeven h
    refine ⟨d, x, c, (dk, dv) :: es, (y, z) :: xs, n, rest, ?_, by simpa using hd, ?_, hx, ?_, ?_,
      by omega⟩
    · rw [lexemesOf_of_mark? hcolon, hlus, lexemesOf_of_mark? hm, hk, hrest]
      simp [Derivation.entriesRest]
    · rw [List.forall_mem_cons]
      refine ⟨?_, hes⟩
      simp only [List.length_cons] at hdk
      show stack.length + 1 + max dk.depth dv.depth ≤ r.maxDepth
      omega
    · exact Derivation.buildEntries_cons_eq_ok.2 ⟨y, c', z, c'', xs, hy, hz, hxs, rfl⟩
    · rw [hpairs, List.append_assoc] at h
      exact h
  · have hw : Build.map m c (Build.pairs f.children.toList ++ [(k, x)]) = w := by
      rw [← hpairs]
      simpa [g, hf, Opening.close] using hw
    rw [Frame.opening_push, hf] at hm
    refine ⟨d, x, c, [], [], c, ws, ?_, by simpa using hd, by simp, hx, rfl, by rwa [hw], ?_⟩
    · rw [lexemesOf_of_mark? hcolon, hlus, lexemesOf_of_mark? hm]
      rfl
    · have := mark?_length hm
      omega

/-- Behind an opening bracket come its children, if any, and its end. -/
theorem bracketSound {us : List Token} (ih : ∀ vs : List Token, vs.length ≤ us.length →
    ValueSound r m vs ∧ ChildSound r m vs) {b : Bracket} {o : Opening} (hb : b.resolve r = .ok o)
    (hlt : stack.length < r.maxDepth) {a : Answer}
    (h : (match mark? o.closer us with
      | some rest => match o.close m cell [] with
        | .ok v => r.deliver m stack v (cell + 1) rest
        | .error e => .error (.type e)
      | none => r.value m ({ opening := o } :: stack) cell us) = .ok a) :
    ∃ ds w n rest, lexemesOf us = Derivation.sequence ds ++ .mark b.closer :: lexemesOf rest ∧
      stack.length + (Derivation.bracket b ds).depth ≤ r.maxDepth ∧
      (Derivation.bracket b ds).build r m cell = .ok (w, n) ∧ r.deliver m stack w n rest = .ok a ∧
      rest.length < us.length := by
  obtain ⟨hcloser, hmap⟩ := closer_of_resolve hb
  split at h
  · next rest hm =>
    split at h
    · next w hw =>
      rw [hcloser] at hm
      exact ⟨[], w, cell + 1, rest, lexemesOf_of_mark? hm, hlt,
        Derivation.build_bracket_eq_ok.2 ⟨o, [], cell, hb, rfl, hw, rfl⟩, h, mark?_length hm⟩
    · cases h
  · obtain ⟨d, x, c, vs, hlus, hd, hx, h, hvs⟩ := (ih us (Nat.le_refl _)).1 _ _ _ h hlt
    obtain ⟨ds, xs, n, w, rest, hrest, hds, hxs, hw, h, hlen⟩ :=
      (ih vs (Nat.le_of_lt hvs)).2 { opening := o } stack x c a hlt hmap h
    refine ⟨d :: ds, w, n + 1, rest, ?_, ?_, ?_, h, by omega⟩
    · rw [hlus, hrest, hcloser, Derivation.sequence, List.append_assoc]
    · have hall : Derivation.depthAll (d :: ds) ≤ r.maxDepth - (stack.length + 1) := by
        rw [Derivation.depthAll_le, List.forall_mem_cons]
        refine ⟨?_, fun e he => ?_⟩
        · simp only [List.length_cons] at hd
          omega
        · have := hds e he
          omega
      rw [Derivation.depth]
      omega
    · exact Derivation.build_bracket_eq_ok.2 ⟨o, x :: xs, n, hb,
        Derivation.buildAll_cons_eq_ok.2 ⟨x, c, xs, hx, hxs, rfl⟩, hw, rfl⟩

/-- Behind the opening of a map come its entries, if any, and its end. -/
theorem mapSound {us : List Token} (ih : ∀ vs : List Token, vs.length ≤ us.length →
    ValueSound r m vs ∧ KeySound r m vs) (hlt : stack.length < r.maxDepth) {a : Answer}
    (h : (match mark? .closeParen us with
      | some rest => r.deliver m stack (Build.map m cell []) (cell + 1) rest
      | none => r.value m ({ opening := .map } :: stack) cell us) = .ok a) :
    ∃ es w n rest, lexemesOf us = Derivation.entries es ++ .mark .closeParen :: lexemesOf rest ∧
      stack.length + (Derivation.map es).depth ≤ r.maxDepth ∧
      (Derivation.map es).build r m cell = .ok (w, n) ∧ r.deliver m stack w n rest = .ok a ∧
      rest.length < us.length := by
  split at h
  · next rest hm =>
    exact ⟨[], Build.map m cell [], cell + 1, rest, lexemesOf_of_mark? hm, hlt,
      Derivation.build_map_eq_ok.2 ⟨[], cell, rfl, rfl, rfl⟩, h, mark?_length hm⟩
  · obtain ⟨d, x, c, vs, hlus, hd, hx, h, hvs⟩ := (ih us (Nat.le_refl _)).1 _ _ _ h hlt
    obtain ⟨dv, y, c', es, xs, n, rest, hrest, hdv, hes, hy, hxs, h, hlen⟩ :=
      (ih vs (Nat.le_of_lt hvs)).2 { opening := .map } stack x c a hlt rfl rfl h
    refine ⟨(d, dv) :: es, _, n + 1, rest, ?_, ?_, ?_, h, by omega⟩
    · rw [hlus, hrest]
      simp [Derivation.entries]
    · have hall : Derivation.depthEntries ((d, dv) :: es) ≤ r.maxDepth - (stack.length + 1) := by
        rw [Derivation.depthEntries_le, List.forall_mem_cons]
        refine ⟨?_, fun e he => ?_⟩
        · simp only [List.length_cons] at hd
          show max d.depth dv.depth ≤ _
          omega
        · have := hes e he
          omega
      rw [Derivation.depth]
      omega
    · exact Derivation.build_map_eq_ok.2 ⟨(x, y) :: xs, n,
        Derivation.buildEntries_cons_eq_ok.2 ⟨x, c, y, c', xs, hx, hy, hxs, rfl⟩, rfl, rfl⟩

theorem valueSound (ih : ∀ us : List Token, us.length < ts.length →
    ValueSound r m us ∧ ChildSound r m us ∧ KeySound r m us) : ValueSound r m ts := by
  intro stack cell a h hdepth
  cases hs : start r m cell ts with
  | error e =>
    rw [value] at h
    split at h <;> simp_all
  | ok p =>
    obtain ⟨st, us⟩ := p
    have hus := start_length hs
    cases st with
    | value v =>
      rw [value_of_value hs] at h
      obtain ⟨s, hts, hv⟩ := start_value_sound hs
      exact ⟨.scalar s, v, cell + 1, us, hts, hdepth, Derivation.build_scalar_eq_ok.2 ⟨hv, rfl⟩, h,
        hus⟩
    | opening o =>
      rw [value_of_opening hs] at h
      split at h
      · cases h
      next hlt =>
      have hlt : stack.length < r.maxDepth := Nat.not_le.1 hlt
      -- The opening is read, so the induction hypothesis covers what is behind it.
      have ih (vs : List Token) (hvs : vs.length ≤ us.length) := ih vs (Nat.lt_of_le_of_lt hvs hus)
      rcases start_opening_sound hs with ⟨b, hts, hb⟩ | ⟨rfl, hts⟩
      · obtain ⟨ds, w, n, rest, hlus, hd, hw, h, hrest⟩ :=
          bracketSound (fun vs hvs => ⟨(ih vs hvs).1, (ih vs hvs).2.1⟩) hb hlt h
        refine ⟨.bracket b ds, w, n, rest, ?_, hd, hw, h, Nat.lt_trans hrest hus⟩
        rw [hts, hlus]
        simp [Derivation.lexemes]
      · obtain ⟨es, w, n, rest, hlus, hd, hw, h, hrest⟩ :=
          mapSound (fun vs hvs => ⟨(ih vs hvs).1, (ih vs hvs).2.2⟩) hlt h
        refine ⟨.map es, w, n, rest, ?_, hd, hw, h, Nat.lt_trans hrest hus⟩
        rw [hts, hlus]
        simp [Derivation.lexemes]

/-- Everything the machine reads is derived by the grammar. -/
theorem machine_sound (r : Reader) (m : Manager) (ts : List Token) :
    ValueSound r m ts ∧ ChildSound r m ts ∧ KeySound r m ts := by
  induction hn : ts.length using Nat.strongRecOn generalizing ts with
  | ind n ih =>
    subst hn
    have ih (us : List Token) (hus : us.length < ts.length) := ih us.length hus us rfl
    exact ⟨valueSound ih, childSound fun us hus => ⟨(ih us hus).1, (ih us hus).2.1⟩,
      keySound fun us hus => ⟨(ih us hus).1, (ih us hus).2.2⟩⟩

/-! ### Completeness -/

theorem head?_ne_of_ne {k : Mark} {ls : List Lexeme} (h : ∀ ks, ls ≠ .mark k :: ks) :
    ls.head? ≠ some (.mark k) := by
  cases ls with
  | nil => nofun
  | cons l ls => rintro ⟨⟩; exact h ls rfl

mutual

/-- The machine takes the lexemes of a derivation as its value. -/
theorem value_complete : ∀ (d : Derivation) (stack : List Frame) {cell n : Cell} {ts : List Token}
    {ls : List Lexeme} {v : Value}, lexemesOf ts = d.lexemes ++ ls → Follows ls →
    stack.length + d.depth ≤ r.maxDepth → d.build r m cell = .ok (v, n) →
    ∃ rest, lexemesOf rest = ls ∧ r.value m stack cell ts = r.deliver m stack v n rest
  | .scalar s, stack, cell, n, ts, ls, v, hts, hls, _, hv => by
    obtain ⟨hval, rfl⟩ := Derivation.build_scalar_eq_ok.1 hv
    obtain ⟨rest, hs, hrest⟩ := start_value_complete hts hls hval
    exact ⟨rest, hrest, value_of_value hs⟩
  | .bracket b [], stack, cell, n, ts, ls, v, hts, _, hdepth, hv => by
    obtain ⟨o, vs, c, ho, hvs, hv, rfl⟩ := Derivation.build_bracket_eq_ok.1 hv
    obtain ⟨rfl, rfl⟩ := Derivation.buildAll_nil_eq_ok.1 hvs
    have hopen : lexemesOf ts = b.opening ++ .mark b.closer :: ls := by
      simpa [Derivation.lexemes, Derivation.sequence] using hts
    obtain ⟨us, hs, hus⟩ := start_opening_complete (m := m) cell hopen ho
    obtain ⟨rest, hm, hrest⟩ := mark?_of_lexemesOf hus
    refine ⟨rest, hrest, ?_⟩
    have hlt : ¬ r.maxDepth ≤ stack.length := Nat.not_le.2 hdepth
    rw [value_of_opening hs, if_neg hlt, (closer_of_resolve ho).1, hm]
    simp only [hv]
  | .bracket b (d :: ds), stack, cell, n, ts, ls, v, hts, hls, hdepth, hv => by
    obtain ⟨o, vs, c, ho, hvs, hv, rfl⟩ := Derivation.build_bracket_eq_ok.1 hv
    obtain ⟨x, c', xs, hx, hxs, rfl⟩ := Derivation.buildAll_cons_eq_ok.1 hvs
    obtain ⟨hcloser, hmap⟩ := closer_of_resolve ho
    have hopen : lexemesOf ts = b.opening ++
        (Derivation.sequence (d :: ds) ++ .mark b.closer :: ls) := by
      simpa [Derivation.lexemes] using hts
    obtain ⟨us, hs, hus⟩ := start_opening_complete (m := m) cell hopen ho
    simp only [Derivation.sequence, List.append_assoc] at hus
    -- No value starts with a closing mark, so the bracket is not taken for an empty one.
    have hm : mark? b.closer us = none :=
      mark?_eq_none (head?_ne_of_ne (hus ▸ d.lexemes_append_ne b.closer_isCloser.isDelimiter _))
    rw [Derivation.depth, Derivation.depthAll] at hdepth
    have hlt : ¬ r.maxDepth ≤ stack.length := by omega
    obtain ⟨ws, hws, hvalue⟩ := value_complete d ({ opening := o } :: stack) hus
      (Derivation.follows_sequenceRest ds b.closer_isCloser.isDelimiter _)
      (by simp only [List.length_cons]; omega) hx
    obtain ⟨rest, hrest, hdeliver⟩ := children_complete ds (f := { opening := o }) stack
      (v := x) (w := v) (by rw [hws, hcloser]) hmap
      (fun e he => by
        have := Derivation.depthAll_le.1 (Nat.le_refl _) e he
        omega) hxs hv
    refine ⟨rest, hrest, ?_⟩
    rw [value_of_opening hs, if_neg hlt, hcloser, hm]
    exact hvalue.trans hdeliver
  | .map [], stack, cell, n, ts, ls, v, hts, _, hdepth, hv => by
    obtain ⟨xs, c, hxs, rfl, rfl⟩ := Derivation.build_map_eq_ok.1 hv
    obtain ⟨rfl, rfl⟩ := Derivation.buildEntries_nil_eq_ok.1 hxs
    obtain ⟨t, us, rfl, ht, hus⟩ := List.map_eq_cons_iff.1 hts
    obtain ⟨rest, hm, hrest⟩ := mark?_of_lexemesOf hus
    refine ⟨rest, hrest, ?_⟩
    have hs : start r m cell (t :: us) = .ok (.opening .map, us) := by simp [start, ht]
    have hlt : ¬ r.maxDepth ≤ stack.length := Nat.not_le.2 hdepth
    rw [value_of_opening hs, if_neg hlt, Opening.closer, hm]
    rfl
  | .map ((dk, dv) :: es), stack, cell, n, ts, ls, v, hts, hls, hdepth, hv => by
    obtain ⟨xs, c, hxs, rfl, rfl⟩ := Derivation.build_map_eq_ok.1 hv
    obtain ⟨key, c₁, val, c₂, ys, hk, hx, hys, rfl⟩ := Derivation.buildEntries_cons_eq_ok.1 hxs
    simp only [Derivation.lexemes, Derivation.entries, List.append_assoc, List.cons_append] at hts
    obtain ⟨t, us, rfl, ht, hus⟩ := List.map_eq_cons_iff.1 hts
    have hs : start r m cell (t :: us) = .ok (.opening .map, us) := by simp [start, ht]
    -- The first key rules out the empty map in the same way.
    have hm : mark? .closeParen us = none :=
      mark?_eq_none (head?_ne_of_ne fun _ h =>
        dk.lexemes_append_ne (k := .closeParen) trivial _ _ (hus.symm.trans h))
    rw [Derivation.depth, Derivation.depthEntries] at hdepth
    have hlt : ¬ r.maxDepth ≤ stack.length := by omega
    -- The key goes on the frame, and its value is read above the frame that waits for it.
    obtain ⟨ws, hws, hvalue⟩ := value_complete dk ({ opening := .map } :: stack) hus
      (Mark.IsDelimiter.follows (k := .colon) trivial _)
      (by simp only [List.length_cons]; omega) hk
    obtain ⟨xs, hm', hxs⟩ := mark?_of_lexemesOf hws
    obtain ⟨zs, hzs, hvalue'⟩ := value_complete dv
      (Frame.push { opening := .map } key :: stack) hxs
      (Derivation.follows_entriesRest es _) (by simp only [List.length_cons]; omega) hx
    obtain ⟨rest, hrest, hdeliver⟩ := entries_complete es
      (f := Frame.push { opening := .map } key) stack (x := val) rfl rfl hzs
      (fun e he => by
        have := Derivation.depthEntries_le.1 (Nat.le_refl _) e he
        omega) hys
    refine ⟨rest, hrest, ?_⟩
    rw [value_of_opening hs, if_neg hlt, Opening.closer, hm]
    refine hvalue.trans ?_
    rw [deliver_key rfl, hm']
    exact hvalue'.trans hdeliver

theorem children_complete : ∀ (ds : List Derivation) {f : Frame} (stack : List Frame)
    {cell n : Cell} {ts : List Token} {ls : List Lexeme} {v w : Value} {vs : List Value},
    lexemesOf ts = Derivation.sequenceRest ds ++ .mark f.opening.closer :: ls →
    f.opening ≠ .map → (∀ d ∈ ds, stack.length + 1 + d.depth ≤ r.maxDepth) →
    Derivation.buildAll r m ds cell = .ok (vs, n) →
    f.opening.close m n (f.children.toList ++ v :: vs) = .ok w →
    ∃ rest, lexemesOf rest = ls ∧
      r.deliver m (f :: stack) v cell ts = r.deliver m stack w (n + 1) rest
  | [], f, stack, cell, n, ts, ls, v, w, vs, hts, hf, _, hvs, hw => by
    obtain ⟨rfl, rfl⟩ := Derivation.buildAll_nil_eq_ok.1 hvs
    obtain ⟨rest, hm, hrest⟩ := mark?_of_lexemesOf hts
    refine ⟨rest, hrest, ?_⟩
    -- What follows the last child is a closing mark, whichever bracket it is.
    have hcomma : mark? .comma ts = none := by
      refine mark?_eq_none ?_
      rw [hts]
      cases f.opening <;> simp [Derivation.sequenceRest, Opening.closer]
    rw [deliver_child (Frame.awaitsValue_of_ne_map (f := f.push v) hf), hcomma, hm]
    simp only [Frame.close, Frame.opening_push, Frame.toList_children_push, hw]
  | d :: ds, f, stack, cell, n, ts, ls, v, w, vs, hts, hf, hdepth, hvs, hw => by
    obtain ⟨x, c, xs, hx, hxs, rfl⟩ := Derivation.buildAll_cons_eq_ok.1 hvs
    simp only [Derivation.sequenceRest, List.cons_append, List.append_assoc] at hts
    obtain ⟨us, hm, hus⟩ := mark?_of_lexemesOf hts
    have hcloser : f.opening.closer.IsDelimiter := by cases f.opening <;> trivial
    obtain ⟨ws, hws, hvalue⟩ := value_complete d (f.push v :: stack) hus
      (Derivation.follows_sequenceRest ds hcloser _) (hdepth d List.mem_cons_self) hx
    obtain ⟨rest, hrest, hdeliver⟩ := children_complete ds (f := f.push v) stack
      (v := x) (w := w) hws hf (fun e he => hdepth e (List.mem_cons_of_mem _ he)) hxs
      (by simpa using hw)
    refine ⟨rest, hrest, ?_⟩
    rw [deliver_child (Frame.awaitsValue_of_ne_map (f := f.push v) hf), hm]
    exact hvalue.trans hdeliver

theorem entries_complete : ∀ (es : List (Derivation × Derivation)) {f : Frame}
    (stack : List Frame) {cell n : Cell} {ts : List Token} {ls : List Lexeme} {x : Value}
    {ys : List (Value × Value)}, f.opening = .map → f.children.toList.length % 2 = 1 →
    lexemesOf ts = Derivation.entriesRest es ++ .mark .closeParen :: ls →
    (∀ e ∈ es, stack.length + 1 + max e.1.depth e.2.depth ≤ r.maxDepth) →
    Derivation.buildEntries r m es cell = .ok (ys, n) →
    ∃ rest, lexemesOf rest = ls ∧ r.deliver m (f :: stack) x cell ts =
      r.deliver m stack (Build.map m n (Build.pairs (f.children.toList ++ [x]) ++ ys)) (n + 1) rest
  | [], f, stack, cell, n, ts, ls, x, ys, hf, hodd, hts, _, hys => by
    obtain ⟨rfl, rfl⟩ := Derivation.buildEntries_nil_eq_ok.1 hys
    obtain ⟨rest, hm, hrest⟩ := mark?_of_lexemesOf hts
    refine ⟨rest, hrest, ?_⟩
    have hcomma : mark? .comma ts = none := mark?_eq_none (by simp [hts, Derivation.entriesRest])
    rw [deliver_child (Frame.awaitsValue_push_of_odd hf hodd), hcomma, hf, Opening.closer, hm]
    simp [Frame.close, hf, Opening.close]
  | (dk, dv) :: es, f, stack, cell, n, ts, ls, x, ys, hf, hodd, hts, hdepth, hys => by
    obtain ⟨key, c₁, val, c₂, zs, hk, hv, hzs, rfl⟩ := Derivation.buildEntries_cons_eq_ok.1 hys
    simp only [Derivation.entriesRest, List.cons_append, List.append_assoc] at hts
    obtain ⟨us, hm, hus⟩ := mark?_of_lexemesOf hts
    have hd := hdepth (dk, dv) List.mem_cons_self
    dsimp only at hd
    -- With the value `x` the frame holds whole entries, with the next key it waits again.
    have heven : (f.push x).children.toList.length % 2 = 0 := by
      simp only [Frame.toList_children_push, List.length_append, List.length_singleton]
      omega
    have hkeyOdd : ((f.push x).push key).children.toList.length % 2 = 1 := by
      simp only [Frame.toList_children_push, List.length_append, List.length_singleton]
      omega
    obtain ⟨ws, hws, hvalue⟩ := value_complete dk (f.push x :: stack) hus
      (Mark.IsDelimiter.follows (k := .colon) trivial _)
      (by simp only [List.length_cons]; omega) hk
    obtain ⟨xs, hm', hxs⟩ := mark?_of_lexemesOf hws
    obtain ⟨ts', hts', hvalue'⟩ := value_complete dv ((f.push x).push key :: stack) hxs
      (Derivation.follows_entriesRest es _) (by simp only [List.length_cons]; omega) hv
    obtain ⟨rest, hrest, hdeliver⟩ := entries_complete es (f := (f.push x).push key)
      stack (x := val) hf hkeyOdd hts'
      (fun e he => hdepth e (List.mem_cons_of_mem _ he)) hzs
    refine ⟨rest, hrest, ?_⟩
    rw [deliver_child (Frame.awaitsValue_push_of_odd hf hodd), hm]
    refine hvalue.trans ?_
    rw [deliver_key (Frame.awaitsValue_push_of_even (f := f.push x) hf heven), hm']
    refine hvalue'.trans (hdeliver.trans ?_)
    rw [Frame.toList_children_push, List.append_assoc, Build.pairs_append _ _ heven,
      Frame.toList_children_push]
    simp [Build.pairs]

end

end Reader

end ValueAlgebra
