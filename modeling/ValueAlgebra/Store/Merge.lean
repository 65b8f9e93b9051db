import ValueAlgebra.Store.Declare

/-!
# Merging stores

`Store.mergeFrom` declares everything of another store, after checking that no alias and no data
type disagrees. The declarations of the other store have no order of their own, so merging is
defined for any `Walk` of them; `Store.mergeFrom` takes them by name.
-/

namespace ValueAlgebra

/-- The declarations of a store in some order. The constructors of one data type stay together and
in their order of declaration. -/
structure Walk where
  aliases : List Ty
  adts : List Ty
  constructors : List (List Ty)

namespace Store

/-- The declarations in the order of their names. -/
def walk (s : Store) : Walk where
  aliases := s.aliases.toList.map Prod.snd
  adts := s.adts.toList.map Prod.snd
  constructors := s.constructors.toList.map Prod.snd

/-- Fails if an alias or a data type of the walk disagrees with the store. -/
def checkWalk (w : Walk) : Declaring Unit := do
  w.aliases.forM fun a => do discard (ofExcept ((← get).checkAlias a))
  w.adts.forM fun a => do discard (ofExcept ((← get).checkAdt a))

/-- Declares what the walk holds: aliases, then data types, then constructors. -/
def declareWalk (w : Walk) : Declaring Unit := do
  w.aliases.forM fun a => discard (declareAlias a)
  w.adts.forM fun a => discard (declareAdt a)
  w.constructors.forM fun cs => cs.forM fun c => discard (declareConstructor c)

def mergeWalk (w : Walk) : Declaring Unit := do
  checkWalk w
  declareWalk w

/-- Adds all declarations of `other`, or none if one of them conflicts. -/
def mergeFrom (other : Store) : Declaring Unit := mergeWalk other.walk

end Store

end ValueAlgebra
