import ValueAlgebra.Proofs.Ty.Equivalence

/-!
# The order of types

Subtyping of the types that managers make is an order, up to the aliases and labels that
`Ty.plain` removes, and `Ty.lub` gives least upper bounds in it.
-/

namespace ValueAlgebra

namespace Ty

variable {t u : Ty}

/-- The join of two types is above both of them and below whatever is above both. -/
theorem Made.lub_isLeastAbove (ht : t.Made) (hu : u.Made) (m : Manager) :
    t.isSubtypeOf (t.lub m u) = true ∧ u.isSubtypeOf (t.lub m u) = true ∧
      ∀ w : Ty, t.isSubtypeOf w = true → u.isSubtypeOf w = true →
        (t.lub m u).isSubtypeOf w = true := by
  have hjoin : IsJoin t u (t.lub m u) := lub_isJoin m t u ht.wellFormed hu.wellFormed
  exact ⟨hjoin.left, hjoin.right, hjoin.least⟩

/-! ### Relations over boxes -/

namespace Sample

def manager : Manager := ⟨0⟩

def other : Manager := ⟨1⟩

/-- `Box[int]::full(int content)`. -/
def intBox : Ty :=
  manager.constructor (manager.adt "Box" [manager.int]) "full" [⟨manager.int, some "content"⟩]

/-- `tuple[Box[int]::full(int content) box, int count]`. -/
def row : Ty := manager.labeledTuple [(intBox, "box"), (manager.int, "count")]

/-- `rel[Box[int]::full(int content) box, int count]`, where the tuples go by the name `Row`. -/
def boxes : Ty := manager.set (manager.aliased "Row" row)

/-- `rel[Box[str], double]`. -/
def counts : Ty := manager.relation [manager.adt "Box" [manager.str], manager.double]

theorem made_intBox : intBox.Made := by
  refine .constructor _ _ (.adt _ _ ?_) (List.forall_mem_singleton.2 (.basic _ _))
  exact List.forall_mem_singleton.2 (.basic _ _)

theorem made_boxes : boxes.Made := by
  refine .set _ (.aliased _ _ (.tuple _ ?_))
  exact List.forall_mem_cons.2 ⟨made_intBox, List.forall_mem_singleton.2 (.basic _ _)⟩

theorem made_counts : counts.Made := by
  have hrow : (manager.tuple [manager.adt "Box" [manager.str], manager.double]).Made := by
    refine .tuple _ (List.forall_mem_cons.2 ⟨.adt _ _ ?_, List.forall_mem_singleton.2 (.basic _ _)⟩)
    exact List.forall_mem_singleton.2 (.basic _ _)
  exact .relation manager hrow rfl

end Sample

open Sample in
theorem lub_boxes : boxes.Made ∧ counts.Made ∧
    boxes.isSubtypeOf (boxes.lub manager counts) = true ∧
      counts.isSubtypeOf (boxes.lub manager counts) = true ∧
        ∀ w : Ty, boxes.isSubtypeOf w = true → counts.isSubtypeOf w = true →
          (boxes.lub manager counts).isSubtypeOf w = true :=
  ⟨made_boxes, made_counts, made_boxes.lub_isLeastAbove made_counts manager⟩

open Sample in
/-- Constructors give way to their data types, whose parameters join, and the labels go. -/
example : boxes.lub manager counts =
    manager.relation [manager.adt "Box" [manager.value], manager.value] := by
  decide +kernel

/-- Subtyping is reflexive and transitive, and two types are equivalent exactly if their plain
forms are structurally equal. -/
theorem Made.isSubtypeOf_isOrder (ht : t.Made) (hu : u.Made) (w : Ty) :
    t.isSubtypeOf t = true ∧
      (t.isSubtypeOf u = true → u.isSubtypeOf w = true → t.isSubtypeOf w = true) ∧
        (t.isEquivalentTo u = true ↔ t.plain.sameShape u.plain = true) :=
  ⟨isSubtypeOf_refl t, isSubtypeOf_trans, isEquivalentTo_iff_plain ht.wellFormed hu.wellFormed⟩

/-! ### The same relation, made by another manager without names -/

namespace Sample

/-- `tuple[Box[int]::full(int content), int]`. The constructor keeps its label. -/
def unlabeledRow : Ty :=
  other.tuple
    [other.constructor (other.adt "Box" [other.int]) "full" [⟨other.int, some "content"⟩],
      other.int]

def unlabeled : Ty := other.set unlabeledRow

theorem made_unlabeled : unlabeled.Made := by
  refine .set _ (.tuple _ (List.forall_mem_cons.2 ⟨?_, List.forall_mem_singleton.2 (.basic _ _)⟩))
  refine .constructor _ _ (.adt _ _ ?_) (List.forall_mem_singleton.2 (.basic _ _))
  exact List.forall_mem_singleton.2 (.basic _ _)

end Sample

open Sample in
theorem boxes_isEquivalentTo_unlabeled : boxes.Made ∧ unlabeled.Made ∧
    boxes.isSubtypeOf boxes = true ∧
      (boxes.isSubtypeOf unlabeled = true → unlabeled.isSubtypeOf manager.value = true →
        boxes.isSubtypeOf manager.value = true) ∧
        (boxes.isEquivalentTo unlabeled = true ↔ boxes.plain.sameShape unlabeled.plain = true) ∧
          boxes.isEquivalentTo unlabeled = true := by
  have h := made_boxes.isSubtypeOf_isOrder made_unlabeled manager.value
  exact ⟨made_boxes, made_unlabeled, h.1, h.2.1, h.2.2, h.2.2.2 rfl⟩

end Ty

end ValueAlgebra
