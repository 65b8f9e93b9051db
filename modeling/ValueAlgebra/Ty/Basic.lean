import ValueAlgebra.Kind

/-!
# Types

A type is a term whose every node carries the origin of the manager that built it. A manager asked
twice for the same structure gives the same type, and types of different managers are never the
same, so two references are the same exactly if the tagged terms are equal. Equality of types is
therefore identity; structural equality (`Ty.shape`) forgets the origins.

## Main definitions

- `Ty`: types; `Field`: a field of a tuple or constructor, with its optional label
- `Ty.unalias`: a type without its outer aliases
- `Ty.kind`: the kind of a type, aliases stripped
- `Ty.element?`, `Ty.key?`, `Ty.val?`, `Ty.fields?`, `Ty.arity?`, `Ty.name?`, `Ty.owner?`: the
  parts of a type that its kind has
-/

namespace ValueAlgebra

/-- The identity of a manager. -/
abbrev Origin := Nat

/-- The types without parts. `value` is above every type and `void` below. -/
inductive BasicTy
  | int
  | double
  | bool
  | str
  | loc
  | value
  | void
  | node
  deriving DecidableEq, Repr

/-- A field of a tuple or constructor. -/
structure Field (τ : Type) where
  ty : τ
  label : Option String
  deriving DecidableEq, Repr, Inhabited

inductive Ty
  | basic (origin : Origin) (b : BasicTy)
  | tuple (origin : Origin) (fields : List (Field Ty))
  | list (origin : Origin) (elem : Ty)
  | set (origin : Origin) (elem : Ty)
  /-- A set whose elements are tuples of type `row`. -/
  | relation (origin : Origin) (row : Ty)
  | map (origin : Origin) (key val : Ty)
  /-- A data type. It is identified by its name and parameters. -/
  | adt (origin : Origin) (name : String) (params : List Ty)
  | constructor (origin : Origin) (owner : Ty) (name : String) (fields : List (Field Ty))
  | aliased (origin : Origin) (name : String) (target : Ty)
  deriving Inhabited

namespace BasicTy

def kind : BasicTy → Kind
  | int => .int
  | double => .double
  | bool => .bool
  | str => .str
  | loc => .loc
  | value => .value
  | void => .void
  | node => .node

end BasicTy

namespace Ty

/-- Strips every outer alias. -/
def unalias : Ty → Ty
  | aliased _ _ target => target.unalias
  | t => t

def isAlias : Ty → Bool
  | aliased .. => true
  | _ => false

/-- The kind of a type; an alias has the kind of its definition. -/
def kind : Ty → Kind
  | basic _ b => b.kind
  | tuple .. => .tuple
  | list .. => .list
  | set .. => .set
  | relation .. => .relation
  | map .. => .map
  | adt .. => .dataType
  | constructor .. => .constructor
  | aliased _ _ target => target.kind

def isTuple (t : Ty) : Bool := t.kind == .tuple

def isList (t : Ty) : Bool := t.kind == .list

/-- Relations are sets too. -/
def isSet (t : Ty) : Bool := t.kind == .set || t.kind == .relation

def isRelation (t : Ty) : Bool := t.kind == .relation

def isMap (t : Ty) : Bool := t.kind == .map

def isAdt (t : Ty) : Bool := t.kind == .dataType

def isConstructor (t : Ty) : Bool := t.kind == .constructor

/-- The element type of a list, set or relation; that of a relation is its tuple type. -/
def element? (t : Ty) : Option Ty :=
  match t.unalias with
  | list _ e | set _ e | relation _ e => some e
  | _ => none

def key? (t : Ty) : Option Ty :=
  match t.unalias with
  | map _ k _ => some k
  | _ => none

def val? (t : Ty) : Option Ty :=
  match t.unalias with
  | map _ _ v => some v
  | _ => none

/-- The fields of a tuple, of a constructor or of the tuples of a relation. -/
def fields? (t : Ty) : Option (List (Field Ty)) :=
  match t with
  | tuple _ fs | constructor _ _ _ fs => some fs
  | relation _ row => row.fields?
  | aliased _ _ target => target.fields?
  | _ => none

def arity? (t : Ty) : Option Nat := t.fields?.map List.length

/-- The name of an alias, data type or constructor. Aliases are not stripped. -/
def name? : Ty → Option String
  | aliased _ n _ | adt _ n _ | constructor _ _ n _ => some n
  | _ => none

/-- The data type that a constructor belongs to. -/
def owner? (t : Ty) : Option Ty :=
  match t.unalias with
  | constructor _ a _ _ => some a
  | _ => none

/-- The name of the data type that a constructor belongs to. -/
def ownerName? (t : Ty) : Option String := t.owner?.bind name?

/-- The name that a constructor type gives to its values. -/
def constructorName? (t : Ty) : Option String :=
  match t.unalias with
  | constructor _ _ n _ => some n
  | _ => none

@[simp]
theorem unalias_aliased (o : Origin) (n : String) (t : Ty) :
    (aliased o n t).unalias = t.unalias := rfl

@[simp]
theorem isAlias_unalias : ∀ t : Ty, t.unalias.isAlias = false
  | aliased _ _ t => isAlias_unalias t
  | basic .. | tuple .. | list .. | set .. | relation .. | map .. | adt .. | constructor .. => rfl

theorem unalias_of_isAlias_eq_false {t : Ty} (h : t.isAlias = false) : t.unalias = t := by
  cases t <;> simp_all [isAlias, unalias]

@[simp]
theorem unalias_unalias (t : Ty) : t.unalias.unalias = t.unalias :=
  unalias_of_isAlias_eq_false (isAlias_unalias t)

@[simp]
theorem kind_unalias : ∀ t : Ty, t.unalias.kind = t.kind
  | aliased _ _ t => kind_unalias t
  | basic .. | tuple .. | list .. | set .. | relation .. | map .. | adt .. | constructor .. => rfl

@[simp]
theorem fields?_unalias : ∀ t : Ty, t.unalias.fields? = t.fields?
  | aliased _ _ t => fields?_unalias t
  | basic .. | tuple .. | list .. | set .. | relation .. | map .. | adt .. | constructor .. => rfl

/-- Stripping aliases never enlarges a type. -/
theorem sizeOf_unalias_le : ∀ t : Ty, sizeOf t.unalias ≤ sizeOf t
  | aliased o n t => by
    have := sizeOf_unalias_le t
    simp only [unalias_aliased, aliased.sizeOf_spec]
    omega
  | basic .. | tuple .. | list .. | set .. | relation .. | map .. | adt .. | constructor .. =>
    Nat.le_refl _

end Ty

end ValueAlgebra
