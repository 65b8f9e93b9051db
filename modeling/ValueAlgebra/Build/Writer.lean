import ValueAlgebra.Build.Eager

/-!
# Writers

A writer collects the items of one tuple, list, set, relation or map and then hands them over as a
value. It is open until `done` takes its buffer, also when `done` then fails, and afterwards
refuses everything.

Buffers of the four sorts are instances of `Buffer`, which says how an item is added and how the
value is made. Writer operations are programs over the writer that keep its state when they fail.

## Main definitions

- `Buffer`: the class of buffers, with `TupleBuffer`, `ListBuffer`, `SetBuffer` and `MapBuffer`
- `Writer`: a buffer and its manager
- `Writer.insert`, `Writer.insertAll`, `Writer.done`: the operations
- `Buffer.build`: a value from a buffer and all its items
-/

namespace ValueAlgebra

/-- The contents of a writer that takes items of type `ι`. -/
class Buffer (β : Type) (ι : outParam Type) where
  /-- The kind that messages name. -/
  kind : Kind
  push : Manager → β → ι → Except TypeError β
  finish : Manager → Cell → β → Except TypeError Value

/-- Takes values of any type. -/
structure TupleBuffer where
  items : Array Value := #[]
  deriving Inhabited

structure ListBuffer where
  elem : ElementType
  items : Array Value := #[]
  deriving Inhabited

/-- The buffer of a set or, if `relation`, of a relation, which takes tuples only. -/
structure SetBuffer where
  elem : ElementType
  relation : Bool
  elems : Table Value Unit := ∅
  deriving Inhabited

structure MapBuffer where
  key : ElementType
  val : ElementType
  entries : Table Value Value := ∅
  deriving Inhabited

/-- The empty buffer of a list of declared element type. -/
def ListBuffer.of (elem : Ty) : ListBuffer := { elem := .declared elem }

/-- The empty buffer of a set or relation of declared element type. -/
def SetBuffer.of (elem : Ty) (relation : Bool) : SetBuffer := { elem := .declared elem, relation }

/-- The empty buffer of a map of declared key and value types. -/
def MapBuffer.of (key val : Ty) : MapBuffer := { key := .declared key, val := .declared val }

instance : Buffer TupleBuffer Value where
  kind := .tuple
  push _ b v := .ok ⟨b.items.push v⟩
  finish m cell b := .ok (Build.tuple m cell b.items.toList)

instance : Buffer ListBuffer Value where
  kind := .list
  push m b v := do
    let elem ← b.elem.accept m v.ty
    return ⟨elem, b.items.push v⟩
  finish m cell b := .ok (.list (m.list b.elem.ty) cell b.items.toList)

instance : Buffer SetBuffer Value where
  kind := .set
  push m b v :=
    if b.relation && !v.ty.isTuple then .error (.notATuple v.ty)
    else do
      let elem ← b.elem.accept m v.ty
      return ⟨elem, b.relation, b.elems.put v ()⟩
  finish m cell b :=
    if b.relation then do
      let t ← Build.relationType m b.elem.ty
      return .set t cell b.elems
    else .ok (.set (m.set b.elem.ty) cell b.elems)

instance : Buffer MapBuffer (Value × Value) where
  kind := .map
  push m b e := do
    let key ← b.key.accept m e.1.ty
    let val ← b.val.accept m e.2.ty
    return ⟨key, val, b.entries.put e.1 e.2⟩
  finish m cell b := .ok (.map (m.map b.key.ty b.val.ty) cell b.entries)

/-- The value made of a buffer's contents followed by `items`. -/
def Buffer.build {β ι : Type} [Buffer β ι] (m : Manager) (cell : Cell) (b : β)
    (items : List ι) : Except TypeError Value := do
  Buffer.finish m cell (← items.foldlM (Buffer.push m) b)

structure Writer (β : Type) where
  manager : Manager
  /-- Absent once the writer is spent. -/
  buffer : Option β
  deriving Inhabited

/-- A program over a writer, which may fail. -/
abbrev Writing (β α : Type) := EStateM BuildError (Writer β) α

namespace Writer

variable {β ι : Type}

/-- A writer that holds the contents of `b`. -/
def ofBuffer (m : Manager) (b : β) : Writer β := ⟨m, some b⟩

def isOpen (w : Writer β) : Bool := w.buffer.isSome

variable [Buffer β ι]

/-- Adds an item. An item that is refused leaves the writer as it was. -/
def insert (item : ι) : Writing β Unit
  | ⟨m, none⟩ => .error (.spent (Buffer.kind β)) ⟨m, none⟩
  | ⟨m, some b⟩ =>
    match Buffer.push m b item with
    | .ok b => .ok () ⟨m, some b⟩
    | .error e => .error (.type e) ⟨m, some b⟩

/-- Adds items in order up to the first that is refused. -/
def insertAll (items : List ι) : Writing β Unit := do
  if (← get).isOpen then items.forM insert
  else throw (.spent (Buffer.kind β))

/-- Takes the contents out of the writer and makes the value. -/
def done (cell : Cell) : Writing β Value
  | ⟨m, none⟩ => .error (.spent (Buffer.kind β)) ⟨m, none⟩
  | ⟨m, some b⟩ =>
    match Buffer.finish m cell b with
    | .ok v => .ok v ⟨m, none⟩
    | .error e => .error (.type e) ⟨m, none⟩

/-- Adds an entry given as key and value. -/
def put (key val : Value) : Writing MapBuffer Unit := insert (key, val)

end Writer

namespace Writer

def tuple (m : Manager) : Writer TupleBuffer := ofBuffer m {}

/-- A list writer, for elements of a declared type if one is given. -/
def list (m : Manager) (elem : Option Ty) : Writer ListBuffer :=
  ofBuffer m { elem := .ofOption m elem }

def set (m : Manager) (elem : Option Ty) : Writer SetBuffer :=
  ofBuffer m { elem := .ofOption m elem, relation := false }

/-- A writer for a relation over a tuple type. -/
def relation (m : Manager) (row : Ty) : Except TypeError (Writer SetBuffer) := do
  let _ ← m.relationOver row
  return ofBuffer m (SetBuffer.of row true)

def map (m : Manager) (key val : Option Ty) : Writer MapBuffer :=
  ofBuffer m { key := .ofOption m key, val := .ofOption m val }

end Writer

/-! ### Reopening values -/

namespace Value

/-- The element type of a collection, which widens when the collection is extended. -/
def elementType (m : Manager) (t : Option Ty) : ElementType := .inferred (t.getD m.void)

def toTupleWriter? (m : Manager) : Value → Option (Writer TupleBuffer)
  | tuple _ _ vs => some (.ofBuffer m ⟨vs.toArray⟩)
  | _ => none

def toListWriter? (m : Manager) : Value → Option (Writer ListBuffer)
  | list t _ vs => some (.ofBuffer m ⟨elementType m t.element?, vs.toArray⟩)
  | _ => none

def toSetWriter? (m : Manager) : Value → Option (Writer SetBuffer)
  | set t _ es => some (.ofBuffer m ⟨elementType m t.element?, t.isRelation, es⟩)
  | _ => none

def toMapWriter? (m : Manager) : Value → Option (Writer MapBuffer)
  | map t _ es => some (.ofBuffer m ⟨elementType m t.key?, elementType m t.val?, es⟩)
  | _ => none

end Value

end ValueAlgebra
