import ValueAlgebra.Ty.Basic

/-!
# Text of types

How types are shown in answers and messages. An alias is shown by its name, a data type by its
name and parameters, a constructor by its data type, name and fields.
-/

namespace ValueAlgebra

namespace Ty

/-- A label follows its field's type after a blank. -/
def labelText : Option String → String
  | none => ""
  | some l => " " ++ l

mutual

def text : Ty → String
  | basic _ b => b.kind.text
  | tuple _ fs => "tuple[" ++ ", ".intercalate (fieldTexts fs) ++ "]"
  | list _ e => "list[" ++ e.text ++ "]"
  | set _ e => "set[" ++ e.text ++ "]"
  | relation _ r => "rel[" ++ ", ".intercalate (rowTexts r) ++ "]"
  | map _ k v => "map[" ++ k.text ++ ", " ++ v.text ++ "]"
  | adt _ n [] => n
  | adt _ n (p :: ps) => n ++ "[" ++ ", ".intercalate (p.text :: texts ps) ++ "]"
  | constructor _ a n fs => a.text ++ "::" ++ n ++ "(" ++ ", ".intercalate (fieldTexts fs) ++ ")"
  | aliased _ n _ => n

/-- The texts of the fields of a relation's tuples. -/
def rowTexts : Ty → List String
  | tuple _ fs | constructor _ _ _ fs => fieldTexts fs
  | relation _ r => rowTexts r
  | aliased _ _ t => rowTexts t
  | _ => []

def fieldTexts : List (Field Ty) → List String
  | [] => []
  | ⟨t, l⟩ :: fs => (t.text ++ labelText l) :: fieldTexts fs

def texts : List Ty → List String
  | [] => []
  | t :: ts => t.text :: texts ts

end

instance : ToString Ty := ⟨text⟩

end Ty

end ValueAlgebra
