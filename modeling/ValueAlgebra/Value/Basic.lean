import ValueAlgebra.Number.Double
import ValueAlgebra.Table
import ValueAlgebra.Ty.Identity

/-!
# Values

A value is immutable and carries its static type. Values with contents of their own also carry the
identity of the storage that holds them, their cell. Storage is shared by copies and by values
that differ in their static type only; building a value takes the cell of the result.

## Main definitions

- `Value`: values
- `Value.ty`, `Value.withTy`: the static type
- `Value.kind`: the kind of a value, where a set of tuples is a relation
- `Value.isIdenticalTo`: the same storage
-/

namespace ValueAlgebra

/-- The identity of a value's storage. -/
abbrev Cell := Nat

/-- A part of a source file, from a line and column up to another. -/
structure Span where
  startOffset : UInt64
  length : UInt64
  startLine : UInt64
  endLine : UInt64
  startColumn : UInt64
  endColumn : UInt64
  deriving DecidableEq, Repr

inductive Value
  | int (ty : Ty) (n : Int64)
  | double (ty : Ty) (d : Double)
  | bool (ty : Ty) (b : Bool)
  | str (ty : Ty) (cell : Cell) (s : String)
  | loc (ty : Ty) (cell : Cell) (path : String) (span : Span)
  | tuple (ty : Ty) (cell : Cell) (items : List Value)
  | list (ty : Ty) (cell : Cell) (items : List Value)
  | set (ty : Ty) (cell : Cell) (elems : Table Value Unit)
  | map (ty : Ty) (cell : Cell) (entries : Table Value Value)
  | node (ty : Ty) (cell : Cell) (name : String) (children : List Value)
  /-- An application of the constructor that `ty` is or stands for. -/
  | constructor (ty : Ty) (cell : Cell) (children : List Value)
  deriving Inhabited

namespace Value

def ty : Value → Ty
  | int t _ | double t _ | bool t _ | str t _ _ | loc t _ _ _ | tuple t _ _ | list t _ _ | set t _ _
  | map t _ _ | node t _ _ _ | constructor t _ _ => t

/-- The same contents under another static type. -/
def withTy : Value → Ty → Value
  | int _ n, t => int t n
  | double _ d, t => double t d
  | bool _ b, t => bool t b
  | str _ c s, t => str t c s
  | loc _ c p r, t => loc t c p r
  | tuple _ c vs, t => tuple t c vs
  | list _ c vs, t => list t c vs
  | set _ c es, t => set t c es
  | map _ c es, t => map t c es
  | node _ c n vs, t => node t c n vs
  | constructor _ c vs, t => constructor t c vs

/-- The kind of a value. A set whose type is a relation is a relation. -/
def kind : Value → Kind
  | int .. => .int
  | double .. => .double
  | bool .. => .bool
  | str .. => .str
  | loc .. => .loc
  | tuple .. => .tuple
  | list .. => .list
  | set t _ _ => if t.isRelation then .relation else .set
  | map .. => .map
  | node .. => .node
  | constructor .. => .constructor

/-- The same storage. Values without storage are identical when their types and contents are. -/
def isIdenticalTo : Value → Value → Bool
  | int t n, int u m => n == m && t == u
  | double t d, double u e => d.bits == e.bits && t == u
  | bool t b, bool u c => b == c && t == u
  | str _ c _, str _ c' _ => c == c'
  | loc _ c _ r, loc _ c' _ r' => c == c' && r == r'
  | tuple _ c _, tuple _ c' _ => c == c'
  | list _ c _, list _ c' _ => c == c'
  | set _ c _, set _ c' _ => c == c'
  | map _ c _, map _ c' _ => c == c'
  | node _ c _ _, node _ c' _ _ => c == c'
  | constructor t c _, constructor u c' _ => c == c' && t == u
  | _, _ => false

theorem isIdenticalTo_self (v : Value) : v.isIdenticalTo v = true := by
  cases v <;> simp [isIdenticalTo]

@[simp]
theorem ty_withTy (v : Value) (t : Ty) : (v.withTy t).ty = t := by
  cases v <;> rfl

@[simp]
theorem withTy_ty (v : Value) : v.withTy v.ty = v := by
  cases v <;> rfl

@[simp]
theorem withTy_withTy (v : Value) (t u : Ty) : (v.withTy t).withTy u = v.withTy u := by
  cases v <;> rfl

end Value

end ValueAlgebra
