/-!
# Kinds

The kinds of types and values, and the words that messages use for them.
-/

namespace ValueAlgebra

/-- What a type or a value is, apart from its contents. -/
inductive Kind
  | int
  | double
  | bool
  | str
  | loc
  | value
  | void
  | node
  | tuple
  | list
  | set
  | relation
  | map
  | dataType
  | constructor
  | aliased
  deriving DecidableEq, Repr

namespace Kind

def text : Kind → String
  | int => "int"
  | double => "double"
  | bool => "bool"
  | str => "str"
  | loc => "loc"
  | value => "value"
  | void => "void"
  | node => "node"
  | tuple => "tuple"
  | list => "list"
  | set => "set"
  | relation => "relation"
  | map => "map"
  | dataType => "data type"
  | constructor => "constructor"
  | aliased => "alias"

end Kind

end ValueAlgebra
