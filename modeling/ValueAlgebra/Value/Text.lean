import ValueAlgebra.Literal.Basic
import ValueAlgebra.Number.Decimal
import ValueAlgebra.Ty.Text
import ValueAlgebra.Value.Basic
import ValueAlgebra.Value.Name

/-!
# Canonical text of values

The text of a value determines its contents. Tuples stand in `<>`, lists in `[]`, sets and
relations in braces and maps in `()`; children are separated by commas and a key is joined to its
value by a colon, with no blanks. A node is its name, quoted unless plain, and its children in
parentheses; a constructor application shows the name of its data type before its own.
-/

namespace ValueAlgebra

/-- The numbers of a span in the order in which they are written. -/
def Span.inTextOrder (r : Span) : List UInt64 :=
  [r.startOffset, r.length, r.startLine, r.startColumn, r.endLine, r.endColumn]

/-- The span with the given numbers, in the order in which they are written. Missing numbers are
zero. -/
def Span.ofTextOrder (ns : List UInt64) : Span where
  startOffset := ns.getD 0 0
  length := ns.getD 1 0
  startLine := ns.getD 2 0
  startColumn := ns.getD 3 0
  endLine := ns.getD 4 0
  endColumn := ns.getD 5 0

@[simp]
theorem Span.ofTextOrder_inTextOrder (r : Span) : ofTextOrder r.inTextOrder = r := rfl

/-- A span as `(offset,length,<line,column>,<line,column>)`. -/
def Span.render (r : Span) : List Char :=
  let n (x : UInt64) := digitsOf x.toNat
  '(' :: n r.startOffset ++ ',' :: n r.length
    ++ ',' :: '<' :: n r.startLine ++ ',' :: n r.startColumn
    ++ '>' :: ',' :: '<' :: n r.endLine ++ ',' :: n r.endColumn ++ ['>', ')']

/-- The name of a node, quoted where it is not plain. -/
def nodeName (name : String) : List Char :=
  if Name.isPlain name.toList then name.toList else Literal.string.quote name.toList

namespace Value

mutual

def render : Value → List Char
  | int _ n => numeralOf n.toInt
  | double _ d => d.text
  | bool _ b => if b then ['t', 'r', 'u', 'e'] else ['f', 'a', 'l', 's', 'e']
  | str _ _ s => Literal.string.quote s.toList
  | loc _ _ p r => Literal.path.quote p.toList ++ r.render
  | tuple _ _ vs => '<' :: renderAll vs ++ ['>']
  | list _ _ vs => '[' :: renderAll vs ++ [']']
  | set _ _ ⟨⟨es⟩, _⟩ => '\x7b' :: renderElems es ++ ['\x7d']
  | map _ _ ⟨⟨es⟩, _⟩ => '(' :: renderEntries es ++ [')']
  | node _ _ n vs => nodeName n ++ '(' :: renderAll vs ++ [')']
  | constructor t _ vs =>
    (t.ownerName?.getD "").toList ++ ':' :: ':' :: (t.constructorName?.getD "").toList
      ++ '(' :: renderAll vs ++ [')']

/-- The texts of values, separated by commas. -/
def renderAll : List Value → List Char
  | [] => []
  | [v] => v.render
  | v :: w :: vs => v.render ++ ',' :: renderAll (w :: vs)

def renderElems : List (Value × Unit) → List Char
  | [] => []
  | [(v, _)] => v.render
  | (v, _) :: e :: es => v.render ++ ',' :: renderElems (e :: es)

def renderEntries : List (Value × Value) → List Char
  | [] => []
  | [(k, v)] => k.render ++ ':' :: v.render
  | (k, v) :: e :: es => k.render ++ ':' :: v.render ++ ',' :: renderEntries (e :: es)

end

/-- The canonical text. -/
def text (v : Value) : String := String.ofList v.render

instance : ToString Value := ⟨text⟩

/-- The text with the static type. -/
def annotated (v : Value) : String := v.text ++ " : " ++ v.ty.text

end Value

end ValueAlgebra
