import ValueAlgebra.Proofs.Session.Making

/-!
# Types of rows

The rows of a relation are tuples. What is below a tuple type is a tuple type of the same arity, or
has no values at all; so tuples of different arities have no tuple type above them, and a relation
over them is refused.
-/

namespace ValueAlgebra

namespace Ty

variable {t u : Ty}

theorem exists_of_isTuple (h : t.isTuple = true) : ∃ o fs, t.unalias = .tuple o fs := by
  have halias := isAlias_unalias t
  rw [isTuple, beq_iff_eq, ← kind_unalias] at h
  revert h halias
  cases t.unalias with
  | tuple o fs => exact fun _ _ => ⟨o, fs, rfl⟩
  | basic o b => cases b <;> simp [kind, BasicTy.kind]
  | _ => simp [kind, isAlias]

/-- Below a tuple type there are tuple types, and `void`. -/
theorem isTuple_of_isSubtypeOf (hu : u.isTuple = true) (h : t.isSubtypeOf u = true)
    (ht : t.kind ≠ .void) : t.isTuple = true := by
  obtain ⟨o, gs, hgs⟩ := exists_of_isTuple hu
  have halias := isAlias_unalias t
  rw [isSubtypeOf, hgs, ← isBelow_unalias_left] at h
  rw [isTuple, beq_iff_eq, ← kind_unalias]
  rw [← kind_unalias] at ht
  revert h ht halias
  cases t.unalias with
  | tuple => exact fun _ _ _ => rfl
  | basic _ b => cases b <;> simp [isBelow, kind, BasicTy.kind]
  | _ => simp [isBelow, isAlias]

/-- Tuple types that are below one another have the same arity. -/
theorem length_eq_of_isSubtypeOf {o o' : Origin} {fs gs : List (Field Ty)}
    (ht : t.unalias = .tuple o fs) (hu : u.unalias = .tuple o' gs)
    (h : t.isSubtypeOf u = true) : fs.length = gs.length := by
  rw [isSubtypeOf, hu, ← isBelow_unalias_left, ht, isBelow] at h
  exact length_of_fieldsBelow h

end Ty

namespace Session

variable {m : Manager} {row : Ty}

/-- A relation over rows is the set of them. -/
theorem relationType_eq_setOf (h : row.isTuple = true) :
    Build.relationType m row = .ok (m.set row) := by
  rw [relationType_of_isTuple h, Manager.relationOver, if_pos h, Manager.set, if_pos h]

theorem relationType_eq_error (hvoid : row.kind ≠ .void) (h : row.isTuple = false) :
    Build.relationType m row = .error (.notATuple row) := by
  rw [Build.relationType, if_neg hvoid, Manager.relationOver, h]
  rfl

end Session

/-! ### A session with a relation -/

namespace Session.OneRow

def manager : Manager := ⟨0⟩

def number : Value := Build.int manager 1

def row : Value := Build.tuple manager 1 [number]

/-- The relation of the one tuple. -/
def rows : Value := Build.set manager 2 [row]

/-- The session that has built the relation. -/
def session : Session := ((({} : Session).add number).add row).add rows

theorem reachable_session : session.Reachable := by
  have hnumber : (({} : Session).add number).Reachable := .make .start (.int manager 1)
  have hrow : ((({} : Session).add number).add row).Reachable :=
    .make hnumber (.tuple manager (has_of_subset (by simp [add])))
  exact .make hrow (.set manager (has_of_subset (by simp [add])))

theorem isRelation_rows : rows.ty.isRelation = true := by decide +kernel

end Session.OneRow

end ValueAlgebra
