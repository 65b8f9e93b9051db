import ValueAlgebra.Ty.Identity
import ValueAlgebra.Ty.Text

/-!
# Errors of types and writers

An error records its cause; `message` words it. Types in an error are kept as types and shown only
in the message.
-/

namespace ValueAlgebra

/-- What was found where another kind was needed: a type, or a value of some kind and type. -/
inductive Found
  | type (t : Ty)
  | value (kind : Kind) (t : Ty)
  deriving DecidableEq

namespace Found

def text : Found → String
  | type t => t.text
  | value k t => k.text ++ " of type " ++ t.text

end Found

/-- A declaration, construction or access that types do not allow. -/
inductive TypeError
  | mismatch (expected found : Ty)
  | notATuple (found : Ty)
  | wrongKind (expected : Kind) (found : Found)
  | arity (ty : Ty) (expected found : Nat)
  | notConstructible (ty : Ty)
  | aliasRedeclared (name : String) (existing requested : Ty)
  | adtRedeclared (name : String) (existing requested : Ty)
  /-- The name is taken by a declaration of the other sort. -/
  | nameClash (name : String) (existing : Ty)
  /-- No data type is declared under `name`, which may show parameters. -/
  | undeclaredAdt (name : String)
  | undeclaredConstructor (adt : Ty) (name : String) (args : List Ty)
  deriving DecidableEq

namespace TypeError

def message : TypeError → String
  | mismatch expected found => s!"expected a subtype of {expected}, found {found}"
  | notATuple found => s!"relation elements must be tuples, found {found}"
  | wrongKind expected found => found.text ++ " is not a " ++ expected.text
  | arity ty expected found => s!"{ty} takes {expected} children, got {found}"
  | notConstructible ty => s!"cannot make a value of type {ty}"
  | aliasRedeclared name existing requested =>
    s!"alias `{name}` is already declared as {existing}, cannot redeclare it as {requested}"
  | adtRedeclared name existing requested =>
    s!"data type `{name}` is already declared as {existing}, cannot redeclare it as {requested}"
  | nameClash name existing => s!"`{name}` is already declared as {existing}"
  | undeclaredAdt name => s!"data type `{name}` is not declared in this store"
  | undeclaredConstructor adt name args =>
    s!"no constructor `{adt}::{name}` accepts (" ++ ", ".intercalate (args.map Ty.text) ++ ")"

end TypeError

/-- The failure of a writer operation. -/
inductive BuildError
  | type (e : TypeError)
  /-- The writer has already handed over its contents. -/
  | spent (kind : Kind)
  deriving DecidableEq

namespace BuildError

def message : BuildError → String
  | type e => e.message
  | spent kind => kind.text ++ " writer is already done"

end BuildError

end ValueAlgebra
