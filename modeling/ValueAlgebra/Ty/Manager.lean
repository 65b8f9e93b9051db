import ValueAlgebra.Error

/-!
# Managers

A manager builds types that carry its origin. Its functions are the only way to make types, and
they keep sets of tuples apart from other sets: `Manager.set` of a tuple type is a relation.
-/

namespace ValueAlgebra

structure Manager where
  origin : Origin
  deriving DecidableEq, Repr, Inhabited

namespace Manager

def basic (m : Manager) (b : BasicTy) : Ty := .basic m.origin b

def int (m : Manager) : Ty := m.basic .int
def double (m : Manager) : Ty := m.basic .double
def bool (m : Manager) : Ty := m.basic .bool
def str (m : Manager) : Ty := m.basic .str
def loc (m : Manager) : Ty := m.basic .loc
def value (m : Manager) : Ty := m.basic .value
def void (m : Manager) : Ty := m.basic .void
def node (m : Manager) : Ty := m.basic .node

def tupleOfFields (m : Manager) (fields : List (Field Ty)) : Ty := .tuple m.origin fields

/-- A tuple type without labels. -/
def tuple (m : Manager) (types : List Ty) : Ty :=
  m.tupleOfFields (types.map fun t => ⟨t, none⟩)

/-- A tuple type with a label on every field. -/
def labeledTuple (m : Manager) (fields : List (Ty × String)) : Ty :=
  m.tupleOfFields (fields.map fun f => ⟨f.1, some f.2⟩)

def list (m : Manager) (elem : Ty) : Ty := .list m.origin elem

/-- A set of tuples is a relation. -/
def set (m : Manager) (elem : Ty) : Ty :=
  if elem.isTuple then .relation m.origin elem else .set m.origin elem

def map (m : Manager) (key val : Ty) : Ty := .map m.origin key val

/-- The relation over unlabeled tuples with the given field types. -/
def relation (m : Manager) (types : List Ty) : Ty := .relation m.origin (m.tuple types)

/-- The relation over a tuple type. -/
def relationOver (m : Manager) (row : Ty) : Except TypeError Ty :=
  if row.isTuple then .ok (.relation m.origin row) else .error (.notATuple row)

def adt (m : Manager) (name : String) (params : List Ty) : Ty := .adt m.origin name params

def constructor (m : Manager) (owner : Ty) (name : String) (fields : List (Field Ty)) : Ty :=
  .constructor m.origin owner name fields

def aliased (m : Manager) (name : String) (target : Ty) : Ty := .aliased m.origin name target

end Manager

end ValueAlgebra
