import ValueAlgebra.Ty.Basic

/-!
# Identity and shape of types

Two types are the same reference if they are equal, which `Ty.decEq` decides. `Ty.shape` forgets
who built a type, and `Ty.sameShape` compares types up to it: names, labels and aliases count,
origins do not.

Aliases let a short type stand for an enormous term, most of it repeated. Repeated parts occupy the
same storage, and both comparisons take storage shared by the two sides for equal without looking
into it, as `withPtrEqDecEq` allows. They stop at the first difference.
-/

namespace ValueAlgebra

namespace Ty

/-- Decides what has two parts. The second is looked at only if the first holds. -/
@[macro_inline]
def ofParts {p q r : Prop} (dp : Decidable p) (dq : Decidable q) (h : p ∧ q ↔ r) : Decidable r :=
  match dp with
  | isTrue hp =>
    match dq with
    | isTrue hq => isTrue (h.1 ⟨hp, hq⟩)
    | isFalse hq => isFalse fun hr => hq (h.2 hr).2
  | isFalse hp => isFalse fun hr => hp (h.2 hr).1

mutual

/-- Decides whether two types are the same reference. -/
def decEq (t u : Ty) : Decidable (t = u) :=
  withPtrEqDecEq t u fun _ =>
    if h : t.ctorIdx = u.ctorIdx then
      match t, u, h with
      | basic o b, basic o' b', _ =>
        ofParts (Nat.decEq o o') (instDecidableEqBasicTy b b') (by simp)
      | tuple o fs, tuple o' gs, _ => ofParts (Nat.decEq o o') (decEqFields fs gs) (by simp)
      | list o e, list o' e', _ => ofParts (Nat.decEq o o') (decEq e e') (by simp)
      | set o e, set o' e', _ => ofParts (Nat.decEq o o') (decEq e e') (by simp)
      | relation o r, relation o' r', _ => ofParts (Nat.decEq o o') (decEq r r') (by simp)
      | map o k v, map o' k' v', _ =>
        ofParts (Nat.decEq o o') (ofParts (decEq k k') (decEq v v') .rfl) (by simp)
      | adt o n ps, adt o' n' qs, _ =>
        ofParts (Nat.decEq o o') (ofParts (String.decEq n n') (decEqAll ps qs) .rfl) (by simp)
      | constructor o a n fs, constructor o' a' n' gs, _ =>
        ofParts (Nat.decEq o o') (ofParts (String.decEq n n')
          (ofParts (decEq a a') (decEqFields fs gs) .rfl) .rfl) (by simp; grind)
      | aliased o n t, aliased o' n' t', _ =>
        ofParts (Nat.decEq o o') (ofParts (String.decEq n n') (decEq t t') .rfl) (by simp)
    else isFalse fun he => h (he ▸ rfl)

def decEqFields (fs gs : List (Field Ty)) : Decidable (fs = gs) :=
  match fs, gs with
  | [], [] => isTrue rfl
  | [], _ :: _ | _ :: _, [] => isFalse nofun
  | ⟨t, l⟩ :: fs, ⟨u, k⟩ :: gs =>
    ofParts (inferInstance : Decidable (l = k))
      (ofParts (decEq t u) (decEqFields fs gs) .rfl) (by simp; grind)

def decEqAll (ts us : List Ty) : Decidable (ts = us) :=
  match ts, us with
  | [], [] => isTrue rfl
  | [], _ :: _ | _ :: _, [] => isFalse nofun
  | t :: ts, u :: us => ofParts (decEq t u) (decEqAll ts us) (by simp)

end

instance : DecidableEq Ty := decEq

mutual

/-- The type as manager 0 would have built it. -/
def shape : Ty → Ty
  | basic _ b => basic 0 b
  | tuple _ fs => tuple 0 (shapeFields fs)
  | list _ e => list 0 e.shape
  | set _ e => set 0 e.shape
  | relation _ r => relation 0 r.shape
  | map _ k v => map 0 k.shape v.shape
  | adt _ n ps => adt 0 n (shapes ps)
  | constructor _ a n fs => constructor 0 a.shape n (shapeFields fs)
  | aliased _ n t => aliased 0 n t.shape

def shapeFields : List (Field Ty) → List (Field Ty)
  | [] => []
  | ⟨t, l⟩ :: fs => ⟨t.shape, l⟩ :: shapeFields fs

def shapes : List Ty → List Ty
  | [] => []
  | t :: ts => t.shape :: shapes ts

end

theorem shapeFields_eq_map (fs : List (Field Ty)) :
    shapeFields fs = fs.map fun f => ⟨f.ty.shape, f.label⟩ := by
  induction fs with
  | nil => rfl
  | cons f fs ih => simp [shapeFields, ih]

theorem shapes_eq_map (ts : List Ty) : shapes ts = ts.map shape := by
  induction ts with
  | nil => rfl
  | cons t ts ih => simp [shapes, ih]

mutual

/-- Structural equality: the same term, whoever built its nodes. The definitions of aliases are
compared further only if they are not the same. -/
def sameShape : Ty → Ty → Bool
  | basic _ b, basic _ b' => b == b'
  | tuple _ fs, tuple _ gs => sameFieldShapes fs gs
  | list _ e, list _ e' => e.sameShape e'
  | set _ e, set _ e' => e.sameShape e'
  | relation _ r, relation _ r' => r.sameShape r'
  | map _ k v, map _ k' v' => k.sameShape k' && v.sameShape v'
  | adt _ n ps, adt _ n' qs => n == n' && sameShapes ps qs
  | constructor _ a n fs, constructor _ a' n' gs =>
    n == n' && a.sameShape a' && sameFieldShapes fs gs
  | aliased _ n t, aliased _ n' t' => n == n' && (t == t' || t.sameShape t')
  | _, _ => false

def sameFieldShapes : List (Field Ty) → List (Field Ty) → Bool
  | [], [] => true
  | ⟨t, l⟩ :: fs, g :: gs => l == g.label && t.sameShape g.ty && sameFieldShapes fs gs
  | _, _ => false

def sameShapes : List Ty → List Ty → Bool
  | [], [] => true
  | t :: ts, u :: us => t.sameShape u && sameShapes ts us
  | _, _ => false

end

mutual

theorem sameShape_iff : ∀ {t u : Ty}, t.sameShape u = true ↔ t.shape = u.shape
  | basic .., u => by cases u <;> simp [sameShape, shape]
  | tuple _ fs, u => by cases u <;> simp [sameShape, shape, sameFieldShapes_iff]
  | list _ e, u => by cases u <;> simp [sameShape, shape, sameShape_iff]
  | set _ e, u => by cases u <;> simp [sameShape, shape, sameShape_iff]
  | relation _ r, u => by cases u <;> simp [sameShape, shape, sameShape_iff]
  | map _ k v, u => by cases u <;> simp [sameShape, shape, sameShape_iff]
  | adt _ _ ps, u => by cases u <;> simp [sameShape, shape, sameShapes_iff]
  | constructor _ a _ fs, u => by
    cases u <;> simp [sameShape, shape, sameShape_iff, sameFieldShapes_iff]
    grind
  | aliased _ _ t, u => by
    cases u <;> simp [sameShape, shape, sameShape_iff]
    grind

theorem sameFieldShapes_iff :
    ∀ {fs gs : List (Field Ty)}, sameFieldShapes fs gs = true ↔ shapeFields fs = shapeFields gs
  | [], [] => by simp [sameFieldShapes]
  | [], _ :: _ => by simp [sameFieldShapes, shapeFields]
  | _ :: _, [] => by simp [sameFieldShapes, shapeFields]
  | ⟨t, l⟩ :: fs, ⟨u, k⟩ :: gs => by
    simp [sameFieldShapes, shapeFields, sameShape_iff, sameFieldShapes_iff]
    grind

theorem sameShapes_iff : ∀ {ts us : List Ty}, sameShapes ts us = true ↔ shapes ts = shapes us
  | [], [] => by simp [sameShapes]
  | [], _ :: _ => by simp [sameShapes, shapes]
  | _ :: _, [] => by simp [sameShapes, shapes]
  | t :: ts, u :: us => by simp [sameShapes, shapes, sameShape_iff, sameShapes_iff]

end

@[simp]
theorem sameShape_self (t : Ty) : t.sameShape t = true := sameShape_iff.2 rfl

end Ty

end ValueAlgebra
