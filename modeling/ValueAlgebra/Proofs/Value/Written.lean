import ValueAlgebra.Proofs.Text.Separation
import ValueAlgebra.Proofs.Value.Parts

/-!
# The derivation that a value is written as

The text of a value is the text of a derivation, and reading the text is reading that derivation.
Static types and storage leave no trace in it, but for the names of constructors.

## Main definitions

- `Value.derivation`: what a value is written as
- `Value.depth`: how many values with parts are nested
- `Value.Spelled`: the names of data types and constructors can be written as names
-/

namespace ValueAlgebra

namespace Double

/-- What a double is written as. -/
def scalar (d : Double) : Scalar :=
  if d.isNaN then .constant .nan
  else if d.isInfinite then
    if d.isNegative then .double ['-', 'i', 'n', 'f'] else .constant .infinity
  else .double d.text

/-- The double without the payload and sign of a NaN. -/
def canonical (d : Double) : Double := if d.isNaN then nan else d

variable {d : Double}

theorem written_scalar (d : Double) : d.scalar.lexeme.written = d.text := by
  unfold scalar
  split
  · next hnan => rw [text, if_pos hnan]; rfl
  · next hnan =>
    split
    · next hinf =>
      rw [text, if_neg hnan, if_pos hinf]
      split <;> rfl
    · rfl

theorem canonical_scalar (d : Double) : d.scalar.lexeme.Canonical := by
  unfold scalar
  split
  · exact rfl
  · next hnan =>
    split
    · split
      · exact .inl rfl
      · exact rfl
    · next hinf =>
      refine .inr ⟨d.isNegative, _, _, _, ?_, Decimal.positional_spec (shortestMagnitude d.rank)⟩
      exact text_of_finite (Bool.eq_false_iff.2 hnan) (Bool.eq_false_iff.2 hinf)

theorem value_scalar (m : Manager) (cell : Cell) (d : Double) :
    d.scalar.value m cell = .ok (Build.double m d.canonical) := by
  unfold scalar canonical
  split
  · rfl
  · next hnan =>
    have hcanonical {s : Bool} (hs : d.isNegative = s) (h : d.isInfinite = true) :
        ofRank s infinityRank = d := by
      rw [← hs, ← beq_iff_eq.1 h, ofRank_rank]
    split
    · next hinf =>
      split
      · next hs => rw [← hcanonical hs hinf]; rfl
      · next hs => rw [← hcanonical (Bool.eq_false_iff.2 hs) hinf]; rfl
    · next hinf =>
      show Except.ok (Build.double m (ofNumeral d.text)) = _
      rw [ofNumeral_text (Bool.eq_false_iff.2 hnan) (Bool.eq_false_iff.2 hinf)]

theorem canonicalBits_canonical (d : Double) : d.canonical.canonicalBits = d.canonicalBits := by
  unfold canonical
  split
  · next h => rw [canonicalBits, canonicalBits, if_pos h]; rfl
  · rfl

theorem scalar_canonical (d : Double) : d.canonical.scalar = d.scalar := by
  unfold canonical
  split
  · next h => rw [scalar, scalar, if_pos h]; rfl
  · rfl

end Double

/-- How the name and opening mark of a node are written. -/
def nodeBracket (name : String) : Bracket :=
  if Name.isPlain name.toList then .node name.toList
  else .quotedNode (Literal.string.escape name.toList)

namespace Value

mutual

/-- What a value is written as. -/
def derivation : Value → Derivation
  | int _ n => .scalar (.integer (numeralOf n.toInt))
  | double _ d => .scalar d.scalar
  | bool _ b => .scalar (.constant (if b then .yes else .no))
  | str _ _ s => .scalar (.string (Literal.string.escape s.toList))
  | loc _ _ p r => .scalar (.location (Literal.path.escape p.toList) r.numerals)
  | tuple _ _ vs => .bracket .tuple (derivations vs)
  | list _ _ vs => .bracket .list (derivations vs)
  | set _ _ ⟨⟨es⟩, _⟩ => .bracket .set (elemDerivations es)
  | map _ _ ⟨⟨es⟩, _⟩ => .map (entryDerivations es)
  | node _ _ n vs => .bracket (nodeBracket n) (derivations vs)
  | constructor t _ vs =>
    .bracket (.constructor (t.ownerName?.getD "").toList (t.constructorName?.getD "").toList)
      (derivations vs)

def derivations : List Value → List Derivation
  | [] => []
  | v :: vs => v.derivation :: derivations vs

def elemDerivations : List (Value × Unit) → List Derivation
  | [] => []
  | (v, _) :: es => v.derivation :: elemDerivations es

def entryDerivations : List (Value × Value) → List (Derivation × Derivation)
  | [] => []
  | (k, v) :: es => (k.derivation, v.derivation) :: entryDerivations es

end

mutual

/-- How many tuples, collections, nodes and constructor applications are nested. -/
def depth : Value → Nat
  | int .. | double .. | bool .. | str .. | loc .. => 0
  | tuple _ _ vs | list _ _ vs | node _ _ _ vs | constructor _ _ vs => depthAll vs + 1
  | set _ _ ⟨⟨es⟩, _⟩ => depthElems es + 1
  | map _ _ ⟨⟨es⟩, _⟩ => depthEntries es + 1

def depthAll : List Value → Nat
  | [] => 0
  | v :: vs => max v.depth (depthAll vs)

def depthElems : List (Value × Unit) → Nat
  | [] => 0
  | (v, _) :: es => max v.depth (depthElems es)

def depthEntries : List (Value × Value) → Nat
  | [] => 0
  | (k, v) :: es => max (max k.depth v.depth) (depthEntries es)

end

theorem derivations_eq_map (vs : List Value) : derivations vs = vs.map derivation := by
  induction vs with
  | nil => rfl
  | cons v vs ih => rw [derivations, ih, List.map_cons]

theorem elemDerivations_eq_map (es : List (Value × Unit)) :
    elemDerivations es = es.map fun e => e.1.derivation := by
  induction es with
  | nil => rfl
  | cons e es ih => rw [elemDerivations, ih, List.map_cons]

theorem entryDerivations_eq_map (es : List (Value × Value)) :
    entryDerivations es = es.map fun e => (e.1.derivation, e.2.derivation) := by
  induction es with
  | nil => rfl
  | cons e es ih => rw [entryDerivations, ih, List.map_cons]

theorem derivation_tuple (t : Ty) (c : Cell) (vs : List Value) :
    (tuple t c vs).derivation = .bracket .tuple (vs.map derivation) := by
  rw [derivation, derivations_eq_map]

theorem derivation_list (t : Ty) (c : Cell) (vs : List Value) :
    (list t c vs).derivation = .bracket .list (vs.map derivation) := by
  rw [derivation, derivations_eq_map]

theorem derivation_set (t : Ty) (c : Cell) (es : Table Value Unit) :
    (set t c es).derivation = .bracket .set (es.keys.map derivation) := by
  obtain ⟨⟨es⟩, index⟩ := es
  rw [derivation, elemDerivations_eq_map, Table.keys, Table.toList, List.map_map]
  rfl

theorem derivation_map (t : Ty) (c : Cell) (es : Table Value Value) :
    (map t c es).derivation = .map (es.toList.map fun e => (e.1.derivation, e.2.derivation)) := by
  obtain ⟨⟨es⟩, index⟩ := es
  rw [derivation, entryDerivations_eq_map]
  rfl

theorem derivation_node (t : Ty) (c : Cell) (n : String) (vs : List Value) :
    (node t c n vs).derivation = .bracket (nodeBracket n) (vs.map derivation) := by
  rw [derivation, derivations_eq_map]

theorem derivation_constructor (t : Ty) (c : Cell) (vs : List Value) :
    (constructor t c vs).derivation =
      .bracket (.constructor (t.ownerName?.getD "").toList (t.constructorName?.getD "").toList)
        (vs.map derivation) := by
  rw [derivation, derivations_eq_map]

/-! ### The text of a value -/

theorem written_nodeBracket (n : String) :
    (nodeBracket n).opening.flatMap Lexeme.written = nodeName n ++ ['('] ∧
      (nodeBracket n).closer = .closeParen := by
  unfold nodeBracket nodeName
  split <;> exact ⟨rfl, rfl⟩

/-- The writer puts a comma before every value but the first. -/
theorem renderAll_eq : ∀ {vs : List Value}, (∀ v ∈ vs, v.render = v.derivation.written) →
    renderAll vs = (Derivation.sequence (vs.map derivation)).flatMap Lexeme.written
  | [], _ => by rw [renderAll]; rfl
  | [v], h => by
    rw [renderAll, h v List.mem_cons_self]
    simp only [List.map_cons, List.map_nil, Derivation.sequence, Derivation.sequenceRest,
      List.append_nil]
    rfl
  | v :: w :: vs, h => by
    have ih : renderAll (w :: vs) = _ := renderAll_eq (List.forall_mem_cons.1 h).2
    rw [renderAll, h v List.mem_cons_self, ih]
    simp only [List.map_cons, Derivation.sequence, Derivation.sequenceRest, List.flatMap_append,
      List.flatMap_cons]
    rfl

theorem renderElems_eq : ∀ es : List (Value × Unit), renderElems es = renderAll (es.map Prod.fst)
  | [] => by rw [renderElems]; exact renderAll.eq_1.symm
  | [(v, _)] => by rw [renderElems]; exact (renderAll.eq_2 v).symm
  | (v, _) :: e :: es => by
    rw [renderElems, renderElems_eq (e :: es)]
    exact (renderAll.eq_3 _ _ _).symm

theorem renderEntries_eq : ∀ {es : List (Value × Value)},
    (∀ e ∈ es, e.1.render = e.1.derivation.written ∧ e.2.render = e.2.derivation.written) →
      renderEntries es = (Derivation.entries (es.map fun e =>
        (e.1.derivation, e.2.derivation))).flatMap Lexeme.written
  | [], _ => by rw [renderEntries]; rfl
  | [(k, v)], h => by
    obtain ⟨hk, hv⟩ := h _ List.mem_cons_self
    rw [renderEntries, hk, hv]
    simp only [List.map_cons, List.map_nil, Derivation.entries, Derivation.entriesRest,
      List.flatMap_append, List.flatMap_cons, List.append_nil]
    rfl
  | (k, v) :: e :: es, h => by
    obtain ⟨hk, hv⟩ := h _ List.mem_cons_self
    have ih : renderEntries (e :: es) = _ := renderEntries_eq (List.forall_mem_cons.1 h).2
    rw [renderEntries, hk, hv, ih]
    simp only [List.map_cons, Derivation.entries, Derivation.entriesRest, List.flatMap_append,
      List.flatMap_cons, List.append_assoc, List.cons_append]
    rfl

/-- The text of a bracket around the parts of a value. -/
theorem written_of_bracket {v : Value} {b : Bracket}
    (hv : v.derivation = .bracket b (v.parts.map derivation))
    (h : ∀ p ∈ v.parts, p.render = p.derivation.written) :
    v.derivation.written =
      b.opening.flatMap Lexeme.written ++ (renderAll v.parts ++ b.closer.chars) := by
  rw [hv, Derivation.written_bracket, renderAll_eq h]

theorem render_eq (v : Value) : v.render = v.derivation.written := by
  induction v using parts_induction with
  | h v ih =>
    cases v with
    | int t n | str t c s =>
      rw [render, derivation]
      exact (List.append_nil _).symm
    | double t d =>
      rw [render, derivation, ← Double.written_scalar]
      exact (List.append_nil _).symm
    | bool t b => cases b <;> rw [render, derivation] <;> rfl
    | loc t c p r =>
      rw [render, derivation, ← r.writeParts_numerals]
      exact (List.append_nil _).symm
    | tuple t c vs =>
      rw [written_of_bracket (derivation_tuple t c vs) ih, render]
      rfl
    | list t c vs =>
      rw [written_of_bracket (derivation_list t c vs) ih, render]
      rfl
    | set t c es =>
      rw [written_of_bracket (derivation_set t c es) ih]
      show _ = '\x7b' :: (renderAll es.keys ++ ['\x7d'])
      -- Rendering recurses through the array of the table, so the table is opened first.
      rw [Table.keys, ← renderElems_eq]
      obtain ⟨⟨es⟩, index⟩ := es
      rw [render]
      rfl
    | map t c es =>
      have hes : ∀ e ∈ es.toList,
          e.1.render = e.1.derivation.written ∧ e.2.render = e.2.derivation.written := by
        intro e he
        obtain ⟨hk, hv⟩ := parts_of_entry he
        exact ⟨ih _ hk, ih _ hv⟩
      rw [derivation_map, Derivation.written_map, ← renderEntries_eq hes]
      obtain ⟨⟨es⟩, index⟩ := es
      rw [render]
      rfl
    | node t c n vs =>
      rw [written_of_bracket (derivation_node t c n vs) ih, (written_nodeBracket n).1,
        (written_nodeBracket n).2, List.append_assoc, render, List.append_assoc]
      rfl
    | constructor t c vs =>
      rw [written_of_bracket (derivation_constructor t c vs) ih, render]
      simp [Bracket.opening, Lexeme.written, Mark.chars, Bracket.closer, parts]

theorem text_eq (v : Value) : v.text = String.ofList v.derivation.written := by
  rw [text, render_eq]

/-! ### Depth -/

theorem depthAll_map {vs : List Value} (h : ∀ v ∈ vs, v.derivation.depth = v.depth) :
    Derivation.depthAll (vs.map derivation) = depthAll vs := by
  induction vs with
  | nil => rfl
  | cons v vs ih =>
    obtain ⟨hv, hvs⟩ := List.forall_mem_cons.1 h
    rw [List.map_cons, Derivation.depthAll, depthAll, hv, ih hvs]

theorem depthElems_eq (es : List (Value × Unit)) : depthElems es = depthAll (es.map Prod.fst) := by
  induction es with
  | nil => rfl
  | cons e es ih => rw [depthElems, ih, List.map_cons, depthAll]

theorem depthEntries_map {es : List (Value × Value)}
    (h : ∀ e ∈ es, e.1.derivation.depth = e.1.depth ∧ e.2.derivation.depth = e.2.depth) :
    Derivation.depthEntries (es.map fun e => (e.1.derivation, e.2.derivation)) =
      depthEntries es := by
  induction es with
  | nil => rfl
  | cons e es ih =>
    obtain ⟨⟨hk, hv⟩, hes⟩ := List.forall_mem_cons.1 h
    rw [List.map_cons, Derivation.depthEntries, depthEntries, hk, hv, ih hes]

theorem depth_of_bracket {v : Value} {b : Bracket}
    (hv : v.derivation = .bracket b (v.parts.map derivation))
    (h : ∀ p ∈ v.parts, p.derivation.depth = p.depth) :
    v.derivation.depth = depthAll v.parts + 1 := by
  rw [hv, Derivation.depth, depthAll_map h]

theorem depth_derivation (v : Value) : v.derivation.depth = v.depth := by
  induction v using parts_induction with
  | h v ih =>
    cases v with
    | int | double | bool | str | loc => rfl
    | tuple t c vs => exact depth_of_bracket (derivation_tuple t c vs) ih
    | list t c vs => exact depth_of_bracket (derivation_list t c vs) ih
    | node t c n vs => exact depth_of_bracket (derivation_node t c n vs) ih
    | constructor t c vs => exact depth_of_bracket (derivation_constructor t c vs) ih
    | set t c es =>
      rw [depth_of_bracket (derivation_set t c es) ih]
      show depthAll (es.toList.map Prod.fst) + 1 = _
      rw [← depthElems_eq]
      obtain ⟨⟨es⟩, index⟩ := es
      rfl
    | map t c es =>
      have hes : ∀ e ∈ es.toList,
          e.1.derivation.depth = e.1.depth ∧ e.2.derivation.depth = e.2.depth := by
        intro e he
        obtain ⟨hk, hv⟩ := parts_of_entry he
        exact ⟨ih _ hk, ih _ hv⟩
      rw [derivation_map, Derivation.depth, depthEntries_map hes]
      obtain ⟨⟨es⟩, index⟩ := es
      rfl

/-! ### Names -/

/-- The names of data types and constructors can be written as names. -/
def Spelled (v : Value) : Prop := ∀ t c vs, (constructor t c vs).Within v →
  ∃ a n, t.ownerName? = some a ∧ t.constructorName? = some n ∧
    Name.isName a.toList = true ∧ Name.isName n.toList = true

theorem Spelled.part {p v : Value} (h : v.Spelled) (hp : p ∈ v.parts) : p.Spelled :=
  fun t c vs hw => h t c vs (.part hp hw)

theorem canonical_nodeBracket (n : String) : ∀ l ∈ (nodeBracket n).opening, l.Canonical := by
  unfold nodeBracket
  split
  · next h =>
    rw [Bracket.opening, List.forall_mem_cons, List.forall_mem_singleton]
    exact ⟨(Bool.and_eq_true _ _ ▸ h).1, trivial⟩
  · rw [Bracket.opening, List.forall_mem_cons, List.forall_mem_singleton]
    exact ⟨⟨_, rfl⟩, trivial⟩

theorem canonical_derivation (v : Value) (h : v.Spelled) : v.derivation.Canonical := by
  induction v using parts_induction with
  | h v ih =>
    have hparts : ∀ d ∈ v.parts.map derivation, d.Canonical := by
      intro d hd
      obtain ⟨p, hp, rfl⟩ := List.mem_map.1 hd
      exact ih p hp (h.part hp)
    have of_lexeme {s : Scalar} (hs : s.lexeme.Canonical) : (Derivation.scalar s).Canonical := by
      rw [Derivation.Canonical, Derivation.lexemes, List.forall_mem_singleton]
      exact hs
    cases v with
    | int t n => exact of_lexeme (Lexer.isNumeral_numeralOf _)
    | double t d => exact of_lexeme d.canonical_scalar
    | bool t b => cases b <;> exact of_lexeme rfl
    | str t c s => exact of_lexeme ⟨_, rfl⟩
    | loc t c p r => exact of_lexeme ⟨⟨_, rfl⟩, r.matches_numerals⟩
    | tuple t c vs =>
      rw [derivation_tuple]
      exact Derivation.canonical_bracket (List.forall_mem_singleton.2 trivial) hparts
    | list t c vs =>
      rw [derivation_list]
      exact Derivation.canonical_bracket (List.forall_mem_singleton.2 trivial) hparts
    | set t c es =>
      rw [derivation_set]
      exact Derivation.canonical_bracket (List.forall_mem_singleton.2 trivial) hparts
    | map t c es =>
      rw [derivation_map]
      refine Derivation.canonical_map (List.forall_mem_map.2 fun e he => ?_)
      obtain ⟨hk, hv⟩ := parts_of_entry he
      exact ⟨hparts _ (List.mem_map_of_mem hk), hparts _ (List.mem_map_of_mem hv)⟩
    | node t c n vs =>
      rw [derivation_node]
      exact Derivation.canonical_bracket (canonical_nodeBracket n) hparts
    | constructor t c vs =>
      rw [derivation_constructor]
      refine Derivation.canonical_bracket ?_ hparts
      obtain ⟨a, n, ha, hn, ha', hn'⟩ := h t c vs .refl
      rw [ha, hn, Option.getD_some, Option.getD_some, Bracket.opening]
      intro l hl
      simp only [List.mem_cons, List.not_mem_nil, or_false] at hl
      rcases hl with rfl | rfl | rfl | rfl
      · exact ha'
      · trivial
      · exact hn'
      · trivial

end Value

end ValueAlgebra
