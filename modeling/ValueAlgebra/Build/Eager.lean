import ValueAlgebra.Build.Element
import ValueAlgebra.Store.Basic
import ValueAlgebra.Value.Access

/-!
# Building values at once

Each function builds a value from all its parts, typed by a manager and stored in a given cell.
Element types are inferred; the empty collections of a declared type come last.
-/

namespace ValueAlgebra

namespace Build

def int (m : Manager) (n : Int64) : Value := .int m.int n

def double (m : Manager) (d : Double) : Value := .double m.double d

def bool (m : Manager) (b : Bool) : Value := .bool m.bool b

def str (m : Manager) (cell : Cell) (s : String) : Value := .str m.str cell s

def loc (m : Manager) (cell : Cell) (path : String) (span : Span) : Value :=
  .loc m.loc cell path span

def tuple (m : Manager) (cell : Cell) (items : List Value) : Value :=
  .tuple (m.tuple (items.map Value.ty)) cell items

def list (m : Manager) (cell : Cell) (items : List Value) : Value :=
  .list (m.list (m.lubOf (items.map Value.ty))) cell items

/-- Equal elements collapse to the first of them. Tuples make a relation. -/
def set (m : Manager) (cell : Cell) (items : List Value) : Value :=
  .set (m.set (m.lubOf (items.map Value.ty))) cell (Table.ofValues items)

/-- A repeated key keeps its first place and takes its last value. -/
def map (m : Manager) (cell : Cell) (entries : List (Value × Value)) : Value :=
  .map (m.map (m.lubOf (entries.map (·.1.ty))) (m.lubOf (entries.map (·.2.ty)))) cell
    (Table.ofEntries entries)

/-- The type of a relation with elements below `elem`. Nothing inserted makes a relation over
empty tuples. -/
def relationType (m : Manager) (elem : Ty) : Except TypeError Ty :=
  if elem.kind = .void then .ok (m.relation []) else m.relationOver elem

/-- The items must be tuples with a tuple type above them, so all of one arity. -/
def relation (m : Manager) (cell : Cell) (items : List Value) : Except TypeError Value :=
  match items.find? (!·.ty.isTuple) with
  | some v => .error (.notATuple v.ty)
  | none => do
    let t ← relationType m (m.lubOf (items.map Value.ty))
    return .set t cell (Table.ofValues items)

def node (m : Manager) (cell : Cell) (name : String) (children : List Value) : Value :=
  .node m.node cell name children

/-- Checks that `children` are as many as `fields` and each below its field. `ty` is the type
being built. -/
def checkFields (ty : Ty) (fields : List (Field Ty)) (children : List Value) :
    Except TypeError Unit :=
  if fields.length ≠ children.length then .error (.arity ty fields.length children.length)
  else match (fields.zip children).find? fun fc => !fc.2.ty.isSubtypeOf fc.1.ty with
    | some (f, c) => .error (.mismatch f.ty c.ty)
    | none => .ok ()

/-- Applies the constructor that `consTy` is or stands for. -/
def constructor (cell : Cell) (consTy : Ty) (children : List Value) : Except TypeError Value :=
  match consTy.unalias with
  | .constructor _ _ _ fields => do
    checkFields consTy fields children
    return .constructor consTy cell children
  | _ => .error (.wrongKind .constructor (.type consTy))

/-- Applies the first constructor of `adt` called `name` in the store that takes the children. -/
def construct (s : Store) (cell : Cell) (adt : Ty) (name : String) (children : List Value) :
    Except TypeError Value :=
  let args := children.map Value.ty
  match s.constructorFor? adt name args with
  | some consTy => .ok (.constructor consTy cell children)
  | none => .error (.undeclaredConstructor adt name args)

def emptyList (m : Manager) (cell : Cell) (elem : Ty) : Value := .list (m.list elem) cell []

def emptySet (m : Manager) (cell : Cell) (elem : Ty) : Value := .set (m.set elem) cell ∅

def emptyMap (m : Manager) (cell : Cell) (key val : Ty) : Value := .map (m.map key val) cell ∅

def emptyRelation (m : Manager) (cell : Cell) (row : Ty) : Except TypeError Value := do
  let _ ← m.relationOver row
  return emptySet m cell row

/-- The type of a side of a map after an entry of type `t`. It widens only if the entry does not
fit. -/
def widen (m : Manager) (current t : Ty) : Ty :=
  if t.isSubtypeOf current then current else current.lub m t

/-- The map with `key` bound to `val`. Its type changes only if the entry does not fit it. -/
def put (m : Manager) (cell : Cell) (v key val : Value) : Except TypeError Value :=
  match v with
  | .map t _ entries =>
    let k := t.key?.getD m.void
    let x := t.val?.getD m.void
    let k' := widen m k key.ty
    let x' := widen m x val.ty
    .ok (.map (if k' = k ∧ x' = x then t else m.map k' x') cell (entries.put key val))
  | _ => .error (v.wrongKind .map)

end Build

end ValueAlgebra
