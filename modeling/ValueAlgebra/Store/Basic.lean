import Std.Data.ExtTreeMap
import ValueAlgebra.Ty.Manager
import ValueAlgebra.Ty.Subtype

/-!
# Stores

A store is a name space of aliases, data types and constructors. Stores are equal exactly if they
declare the same. A constructor may be declared several times with different fields; its overloads
are kept in the order of declaration, and an application takes the first that accepts the
arguments.

## Main definitions

- `Store`: the declarations by name
- `Store.findAlias?`, `Store.findAdt?`, `Store.constructorsOf`: what is declared under a name or
  for a type
- `Store.constructorFor?`: the first overload that accepts given argument types
- `Store.checkAlias`, `Store.checkAdt`: whether a declaration agrees with the store
-/

open Std (ExtTreeMap)

namespace ValueAlgebra

structure Store where
  aliases : ExtTreeMap String Ty := ∅
  adts : ExtTreeMap String Ty := ∅
  /-- The constructors of each data type, by its name. -/
  constructors : ExtTreeMap String (List Ty) := ∅

namespace Store

instance : EmptyCollection Store := ⟨{}⟩

instance : Inhabited Store := ⟨∅⟩

def findAlias? (s : Store) (name : String) : Option Ty := s.aliases[name]?

def findAdt? (s : Store) (name : String) : Option Ty := s.adts[name]?

/-- The constructors filed under the name of `adt`, in the order of declaration. -/
def constructorsOf (s : Store) (adt : Ty) : List Ty :=
  (adt.name?.bind (s.constructors[·]?)).getD []

/-- Whether `c` is a constructor called `name` that takes arguments of types `args`. -/
def applies (name : String) (args : List Ty) (c : Ty) : Bool :=
  match c with
  | .constructor _ _ n fields => n == name && Ty.allBelow args (fields.map Field.ty)
  | _ => false

/-- The first declared constructor of `adt` that is called `name` and takes arguments of types
`args`. -/
def constructorFor? (s : Store) (adt : Ty) (name : String) (args : List Ty) : Option Ty :=
  (s.constructorsOf adt).find? (applies name args)

/-- The alias already declared under the name of `a` with the same definition. Definitions are
compared by identity with their aliases stripped, since labels belong to a definition. -/
def checkAlias (s : Store) (a : Ty) : Except TypeError (Option Ty) :=
  match a with
  | .aliased _ name target =>
    match s.findAdt? name, s.findAlias? name with
    | some adt, _ => .error (.nameClash name adt)
    | none, none => .ok none
    | none, some old =>
      if old.unalias = target.unalias then .ok (some old)
      else .error (.aliasRedeclared name old.unalias target)
  | t => .error (.wrongKind .aliased (.type t))

/-- The data type already declared under the name of `a` with the same structure. -/
def checkAdt (s : Store) (a : Ty) : Except TypeError (Option Ty) :=
  match a with
  | .adt _ name _ =>
    match s.findAlias? name, s.findAdt? name with
    | some old, _ => .error (.nameClash name old.unalias)
    | none, none => .ok none
    | none, some old =>
      if old.sameShape a then .ok (some old) else .error (.adtRedeclared name old a)
  | t => .error (.wrongKind .dataType (.type t))

/-- The store with alias `a` filed under its name. -/
def addAlias (s : Store) (a : Ty) : Store :=
  match a.name? with
  | some name => { s with aliases := s.aliases.insert name a }
  | none => s

/-- The store with data type `a` filed under its name. -/
def addAdt (s : Store) (a : Ty) : Store :=
  match a.name? with
  | some name => { s with adts := s.adts.insert name a }
  | none => s

/-- The store with constructor `c` filed last under the data type `adtName`. -/
def addConstructor (s : Store) (adtName : String) (c : Ty) : Store :=
  { s with constructors := s.constructors.insert adtName (s.constructors.getD adtName [] ++ [c]) }

end Store

end ValueAlgebra
