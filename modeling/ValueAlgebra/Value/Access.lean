import ValueAlgebra.Error
import ValueAlgebra.Value.Equality

/-!
# Parts of values

Views of a value as one kind, and the children, elements and entries that kinds have.
-/

namespace ValueAlgebra

namespace Value

/-- Whether the value can be viewed as kind `k`. A relation is a set too. -/
def hasKind (v : Value) (k : Kind) : Bool := v.kind == k || (k == .set && v.kind == .relation)

def wrongKind (v : Value) (expected : Kind) : TypeError := .wrongKind expected (.value v.kind v.ty)

/-- The value itself, if it is of kind `k`. -/
def expect (v : Value) (k : Kind) : Except TypeError Value :=
  if v.hasKind k then .ok v else .error (v.wrongKind k)

/-- The children of a tuple, list, node or constructor application, in order. -/
def children? : Value → Option (List Value)
  | tuple _ _ vs | list _ _ vs | node _ _ _ vs | constructor _ _ vs => some vs
  | _ => none

/-- The child at a position. -/
def child? (v : Value) (i : Nat) : Option Value := v.children?.bind (·[i]?)

/-- The child of a tuple or constructor application whose field carries the label. -/
def labeled? (v : Value) (label : String) : Option Value :=
  match v with
  | tuple t _ vs | constructor t _ vs => do
    let fields ← t.fields?
    let i ← fields.findIdx? fun f => f.label == some label
    vs[i]?
  | _ => none

/-- The elements of a list or set and the keys of a map, in order. -/
def elements? : Value → Option (List Value)
  | list _ _ vs => some vs
  | set _ _ t => some t.keys
  | map _ _ t => some t.keys
  | _ => none

/-- The entries of a map, in order. -/
def entries? : Value → Option (List (Value × Value))
  | map _ _ t => some t.toList
  | _ => none

/-- Whether a list or set has an element equal to `x`, or a map a key. -/
def contains (v x : Value) : Bool :=
  match v with
  | list _ _ vs => vs.any (· == x)
  | set _ _ t => t.hasKey x
  | map _ _ t => t.hasKey x
  | _ => false

/-- What a map binds to the key equal to `k`. -/
def get? (v k : Value) : Option Value :=
  match v with
  | map _ _ t => t.lookup k
  | _ => none

end Value

end ValueAlgebra
