import ValueAlgebra.Value.Hash

/-!
# Equality of values

Values are equal when their contents are: static types, labels and the overload of a constructor
do not count. NaNs are equal to each other and the two zeros differ. Sets are equal when each
element of one is found in the other, of the same size, and maps when each entry is.

`Value.eqWith shortcut` answers `true` wherever `shortcut` does before it compares contents;
equality takes identity as its shortcut.
-/

namespace ValueAlgebra

namespace Value

mutual

def eqWith (shortcut : Value → Value → Bool) (v w : Value) : Bool :=
  shortcut v w || match v, w with
  | int _ n, int _ m => n == m
  | double _ d, double _ e => d.canonicalBits == e.canonicalBits
  | bool _ b, bool _ c => b == c
  | str _ _ s, str _ _ s' => s == s'
  | loc _ _ p r, loc _ _ p' r' => p == p' && r == r'
  | tuple _ _ vs, tuple _ _ ws => eqAll shortcut vs ws
  | list _ _ vs, list _ _ ws => eqAll shortcut vs ws
  | set _ _ ⟨⟨es⟩, _⟩, set _ _ t => es.length == t.size && elemsIn shortcut es t
  | map _ _ ⟨⟨es⟩, _⟩, map _ _ t => es.length == t.size && entriesIn shortcut es t
  | node _ _ n vs, node _ _ n' ws => n == n' && eqAll shortcut vs ws
  | constructor t _ vs, constructor u _ ws =>
    t.ownerName? == u.ownerName? && t.constructorName? == u.constructorName? && eqAll shortcut vs ws
  | _, _ => false

/-- As many values on both sides, equal in turn. -/
def eqAll (shortcut : Value → Value → Bool) : List Value → List Value → Bool
  | [], [] => true
  | v :: vs, w :: ws => v.eqWith shortcut w && eqAll shortcut vs ws
  | _, _ => false

/-- Every element is found in the table. The element that is sought is compared with the keys of the
table; comparing the keys with it comes to the same for values at hand
(`Session.Coherent.isKey_eq`). -/
def elemsIn (shortcut : Value → Value → Bool) : List (Value × Unit) → Table Value Unit → Bool
  | [], _ => true
  | (v, _) :: es, t => t.contains v.hash (v.eqWith shortcut ·) && elemsIn shortcut es t

/-- Every entry's key is found in the table, bound to an equal value. Key and value of the entry are
the left operands, and for values at hand they might as well be the right ones
(`Session.Coherent.isKey_eq`). -/
def entriesIn (shortcut : Value → Value → Bool) : List (Value × Value) → Table Value Value → Bool
  | [], _ => true
  | (k, v) :: es, t =>
    (t.get? k.hash (k.eqWith shortcut ·)).any (v.eqWith shortcut ·) && entriesIn shortcut es t

end

/-- Equality of values. -/
def eq (v w : Value) : Bool := v.eqWith isIdenticalTo w

instance : BEq Value := ⟨eq⟩

/-- A value is equal to itself by its storage. -/
theorem eqWith_self (v : Value) : v.eqWith isIdenticalTo v = true := by
  unfold eqWith
  rw [isIdenticalTo_self, Bool.true_or]

theorem eqAll_self (vs : List Value) : eqAll isIdenticalTo vs vs = true := by
  induction vs with
  | nil => rw [eqAll]
  | cons v vs ih => rw [eqAll, eqWith_self, ih, Bool.and_self]

end Value

/-! ### Tables of values

The value that is sought is the left operand of the comparison and the key in the table the right
one. For values at hand `Session.Coherent.isKey_eq` shows that the other order finds the same key.
-/

namespace Table

variable {ν : Type}

/-- Whether the table has a key equal to `v`, which is compared as the left operand. See
`Session.Coherent.isKey_eq` for the other order. -/
def hasKey (t : Table Value ν) (v : Value) : Bool := t.contains v.hash (v == ·)

/-- What the table binds to the key equal to `v`, which is compared as the left operand. See
`Session.Coherent.isKey_eq` for the other order. -/
def lookup (t : Table Value ν) (v : Value) : Option ν := t.get? v.hash (v == ·)

/-- Binds the key equal to `v`, or `v` as a new key. The left operand of the comparison is `v`; see
`Session.Coherent.isKey_eq` for the other order. -/
def put (t : Table Value ν) (v : Value) (x : ν) : Table Value ν := t.insert v.hash (v == ·) v x

/-- The distinct values of a list, in the order of their first occurrence. -/
def ofValues (vs : List Value) : Table Value Unit := vs.foldl (fun t v => t.put v ()) ∅

theorem ofValues_eq_foldl (vs : List Value) :
    ofValues vs = (vs.map (·, ())).foldl (fun t e => t.put e.1 e.2) ∅ := by
  rw [List.foldl_map]
  rfl

/-- The entries of a list, where later ones overwrite earlier ones of an equal key. -/
def ofEntries (es : List (Value × Value)) : Table Value Value :=
  es.foldl (fun t e => t.put e.1 e.2) ∅

end Table

end ValueAlgebra
