import ValueAlgebra.Ty.Lub

/-!
# Element types

How a collection under construction settles the type of its elements: it is declared beforehand,
and then every element must be a subtype, or it is inferred as the least upper bound of the
elements so far, from `void` on.
-/

namespace ValueAlgebra

inductive ElementType
  | declared (t : Ty)
  | inferred (t : Ty)
  deriving DecidableEq, Inhabited

namespace ElementType

def ty : ElementType → Ty
  | declared t | inferred t => t

/-- An element type that nothing has been inferred for. -/
def unknown (m : Manager) : ElementType := inferred m.void

/-- Declared where a type is given. -/
def ofOption (m : Manager) : Option Ty → ElementType
  | some t => declared t
  | none => unknown m

/-- The element type after an element of type `t`. -/
def accept (m : Manager) (e : ElementType) (t : Ty) : Except TypeError ElementType :=
  match e with
  | declared d => if t.isSubtypeOf d then .ok (declared d) else .error (.mismatch d t)
  | inferred u => .ok (inferred (u.lub m t))

end ElementType

namespace Manager

/-- The least upper bound of a list of types, `void` for none. -/
def lubOf (m : Manager) (types : List Ty) : Ty := types.foldl (fun u t => u.lub m t) m.void

end Manager

end ValueAlgebra
