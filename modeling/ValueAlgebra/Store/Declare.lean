import ValueAlgebra.Store.Basic

/-!
# Declarations

Declaring changes a store in place or fails. `Declaring` programs keep the store they have reached
when they fail, so that what a failure leaves behind can be stated.

A declaration that agrees with an earlier one returns the earlier type and changes nothing.
-/

namespace ValueAlgebra

/-- A program that declares in a store and may fail. -/
abbrev Declaring (α : Type) := EStateM TypeError Store α

namespace Store

def declareAlias (a : Ty) : Declaring Ty := do
  match ← ofExcept ((← get).checkAlias a) with
  | some old => return old
  | none =>
    modify (·.addAlias a)
    return a

def declareAdt (a : Ty) : Declaring Ty := do
  match ← ofExcept ((← get).checkAdt a) with
  | some old => return old
  | none =>
    modify (·.addAdt a)
    return a

/-- The data type of `c` must be declared, with the same structure. -/
def declareConstructor (c : Ty) : Declaring Ty := do
  match c with
  | .constructor _ (.adt o adtName params) _ _ =>
    let s ← get
    let owner := Ty.adt o adtName params
    if (s.findAdt? adtName).any (·.sameShape owner) then
      match (s.constructors.getD adtName []).find? (·.sameShape c) with
      | some old => return old
      | none =>
        set (s.addConstructor adtName c)
        return c
    else throw (.undeclaredAdt owner.text)
  | .constructor _ owner _ _ => throw (.wrongKind .dataType (.type owner))
  | t => throw (.wrongKind .constructor (.type t))

end Store

namespace Manager

/-- Declares `name` as an alias of `target`. -/
def declareAlias (m : Manager) (name : String) (target : Ty) : Declaring Ty :=
  Store.declareAlias (m.aliased name target)

/-- Declares a data type with the given parameters. -/
def declareAdt (m : Manager) (name : String) (params : List Ty) : Declaring Ty :=
  Store.declareAdt (m.adt name params)

/-- Declares a constructor of `owner`, which must be a data type itself and no alias of one. -/
def declareConstructor (m : Manager) (owner : Ty) (name : String) (fields : List (Field Ty)) :
    Declaring Ty :=
  match owner with
  | .adt o n ps => Store.declareConstructor (m.constructor (.adt o n ps) name fields)
  | t => throw (.wrongKind .dataType (.type t))

end Manager

end ValueAlgebra
