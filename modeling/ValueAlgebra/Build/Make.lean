import ValueAlgebra.Build.Writer

/-!
# Making values of a given type

`Build.make` builds a value of exactly the given type, alias included, from children: one for a
scalar, the elements of a list, set or relation, keys and values in turn for a map, the fields of
a tuple or constructor.
-/

namespace ValueAlgebra

namespace Build

/-- The elements of a list two by two; a last one left over is dropped. -/
def pairs {α : Type} : List α → List (α × α)
  | a :: b :: rest => (a, b) :: pairs rest
  | _ => []

/-- A scalar takes one child and keeps its storage. -/
def makeScalar (ty : Ty) : List Value → Except TypeError Value
  | [child] => if child.ty.isSubtypeOf ty then .ok child else .error (.mismatch ty child.ty)
  | children => .error (.arity ty 1 children.length)

/-- The value that `make` types. -/
def makeContents (m : Manager) (cell : Cell) (ty : Ty) (children : List Value) :
    Except TypeError Value :=
  match ty.unalias with
  | .basic _ .int | .basic _ .double | .basic _ .bool | .basic _ .str | .basic _ .loc =>
    makeScalar ty children
  | .list _ elem => Buffer.build m cell (ListBuffer.of elem) children
  | .set _ elem => Buffer.build m cell (SetBuffer.of elem false) children
  | .relation _ row => do
    let _ ← m.relationOver row
    Buffer.build m cell (SetBuffer.of row true) children
  | .map _ key val =>
    if children.length % 2 = 0 then
      Buffer.build m cell (MapBuffer.of key val) (pairs children)
    else .error (.arity ty (children.length + 1) children.length)
  | .tuple _ fields => do
    checkFields ty fields children
    return .tuple ty cell children
  | .constructor .. => constructor cell ty children
  | _ => .error (.notConstructible ty)

/-- A value of type `ty` from its children. -/
def make (m : Manager) (cell : Cell) (ty : Ty) (children : List Value) :
    Except TypeError Value := do
  return (← makeContents m cell ty children).withTy ty

end Build

end ValueAlgebra
