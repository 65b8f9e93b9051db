import ValueAlgebra.Ty.Identity

/-!
# Subtyping

`t.isSubtypeOf u` holds when every value of type `t` may stand where `u` is asked for. Aliases
count as their definitions and tuple labels do not count. Collections and data types are
covariant, sets and relations compare by their elements, and a constructor is below its data type
only. An alias of the other type itself is compared no further: every type is below itself, and
the parts that aliases repeat are not walked again.
-/

namespace ValueAlgebra

namespace Ty

mutual

/-- Whether `t` is a subtype of `u`, where `u` is no alias. -/
def isBelow : (t u : Ty) → Bool
  | aliased _ _ t, u => t.unalias == u || t.isBelow u
  | _, basic _ .value => true
  | basic _ .void, _ => true
  | basic _ b, basic _ c => b == c
  | list _ e, list _ e' => e.isBelow e'.unalias
  | set _ e, set _ e' => e.isBelow e'.unalias
  | set _ e, relation _ r => e.isBelow r.unalias
  | relation _ r, set _ e => r.isBelow e.unalias
  | relation _ r, relation _ r' => r.isBelow r'.unalias
  | map _ k v, map _ k' v' => k.isBelow k'.unalias && v.isBelow v'.unalias
  | tuple _ fs, tuple _ gs => fieldsBelow fs gs
  | adt _ n ps, adt _ m qs => n == m && allBelow ps qs
  | constructor _ owner _ _, adt o n ps => owner.isBelow (adt o n ps)
  | constructor o a n fs, constructor o' a' n' fs' =>
    (constructor o a n fs).sameShape (constructor o' a' n' fs')
  | _, _ => false

/-- As many fields on both sides, each below its counterpart. -/
def fieldsBelow : List (Field Ty) → List (Field Ty) → Bool
  | [], [] => true
  | ⟨t, _⟩ :: fs, g :: gs => t.isBelow g.ty.unalias && fieldsBelow fs gs
  | _, _ => false

/-- As many types on both sides, each below its counterpart. -/
def allBelow : List Ty → List Ty → Bool
  | [], [] => true
  | t :: ts, u :: us => t.isBelow u.unalias && allBelow ts us
  | _, _ => false

end

def isSubtypeOf (t u : Ty) : Bool := t.isBelow u.unalias

mutual

theorem isBelow_unalias : ∀ t : Ty, t.isBelow t.unalias = true
  | basic _ b => by cases b <;> simp [isBelow, unalias]
  | tuple _ fs => by simp [isBelow, unalias, fieldsBelow_self fs]
  | list _ e => by simp [isBelow, unalias, isBelow_unalias e]
  | set _ e => by simp [isBelow, unalias, isBelow_unalias e]
  | relation _ r => by simp [isBelow, unalias, isBelow_unalias r]
  | map _ k v => by simp [isBelow, unalias, isBelow_unalias k, isBelow_unalias v]
  | adt _ _ ps => by simp [isBelow, unalias, allBelow_self ps]
  | constructor .. => by simp [isBelow, unalias]
  | aliased .. => by simp [isBelow, unalias]

theorem fieldsBelow_self : ∀ fs : List (Field Ty), fieldsBelow fs fs = true
  | [] => by simp [fieldsBelow]
  | ⟨t, _⟩ :: fs => by simp [fieldsBelow, isBelow_unalias t, fieldsBelow_self fs]

theorem allBelow_self : ∀ ts : List Ty, allBelow ts ts = true
  | [] => by simp [allBelow]
  | t :: ts => by simp [allBelow, isBelow_unalias t, allBelow_self ts]

end

/-- An alias counts as its definition. -/
@[simp]
theorem isBelow_aliased (o : Origin) (n : String) (t u : Ty) :
    (aliased o n t).isBelow u = t.isBelow u := by
  by_cases h : t.unalias = u
  · subst h
    simp [isBelow, isBelow_unalias]
  · simp [isBelow, h]

theorem fieldsBelow_eq_all (fs gs : List (Field Ty)) : fieldsBelow fs gs =
    (fs.length == gs.length && (fs.zip gs).all fun z => z.1.ty.isSubtypeOf z.2.ty) := by
  induction fs generalizing gs with
  | nil => cases gs <;> simp [fieldsBelow]
  | cons f fs ih =>
    cases gs with
    | nil => simp [fieldsBelow]
    | cons g gs =>
      rw [fieldsBelow, ih]
      simp [Bool.and_left_comm, isSubtypeOf]

theorem allBelow_eq_all (ts us : List Ty) : allBelow ts us =
    (ts.length == us.length && (ts.zip us).all fun z => z.1.isSubtypeOf z.2) := by
  induction ts generalizing us with
  | nil => cases us <;> simp [allBelow]
  | cons t ts ih =>
    cases us with
    | nil => simp [allBelow]
    | cons u us =>
      rw [allBelow, ih]
      simp [Bool.and_left_comm, isSubtypeOf]

/-- Each is a subtype of the other. -/
def isEquivalentTo (t u : Ty) : Bool :=
  t.isSubtypeOf u && u.isSubtypeOf t

end Ty

end ValueAlgebra
