import ValueAlgebra.Proofs.Ty.Laws

/-!
# Labels of least upper bounds

Where neither of two tuple types is below the other, their join is built field by field and keeps
the labels that both sides have. Where one is above the other the join is that one as given, with
all of its labels. So a label that only one side has survives if that side is the larger one, and
of two equivalent types the one that comes second keeps its labels.

## Main definitions

- `Ty.labels`: the labels of fields
- `Ty.LabelsWithin`: fields whose labels others have at the same places
- `Ty.KeepsShared`: fields with the labels that two lists of fields share
-/

namespace ValueAlgebra

namespace Ty

variable {m : Manager} {t u : Ty} {fs gs hs : List (Field Ty)}

/-- The labels of fields, in order. -/
def labels (fs : List (Field Ty)) : List (Option String) := fs.map Field.label

/-- Whether the field at a place has the label. -/
def HasLabel (fs : List (Field Ty)) (i : Nat) (l : String) : Prop := (labels fs)[i]? = some (some l)

instance (fs : List (Field Ty)) (i : Nat) (l : String) : Decidable (HasLabel fs i l) :=
  inferInstanceAs (Decidable ((labels fs)[i]? = some (some l)))

/-- Every label is at the same place among the labels of `gs`. -/
def LabelsWithin (fs gs : List (Field Ty)) : Prop := ∀ i l, HasLabel fs i l → HasLabel gs i l

/-- As many fields as on both sides, which have the labels that the fields at their places share. -/
structure KeepsShared (fs gs hs : List (Field Ty)) : Prop where
  length_left : hs.length = fs.length
  length_right : hs.length = gs.length
  hasLabel_iff : ∀ i l, HasLabel hs i l ↔ HasLabel fs i l ∧ HasLabel gs i l

theorem labels_lubFields (fs gs : List (Field Ty)) :
    labels (lubFields m fs gs) = List.zipWith commonLabel (labels fs) (labels gs) := by
  rw [lubFields_eq_zipWith, labels, labels, labels, List.map_zipWith, List.zipWith_map]

theorem types_lubFields (fs gs : List (Field Ty)) :
    (lubFields m fs gs).map Field.ty =
      List.zipWith (lub m) (fs.map Field.ty) (gs.map Field.ty) := by
  rw [lubFields_eq_zipWith, List.map_zipWith, List.zipWith_map]

theorem commonLabel_comm (l k : Option String) : commonLabel l k = commonLabel k l := by
  unfold commonLabel
  by_cases h : l = k
  · rw [if_pos h, if_pos h.symm, h]
  · rw [if_neg h, if_neg (Ne.symm h)]

theorem commonLabel_eq_some {l k : Option String} {x : String} :
    commonLabel l k = some x ↔ l = some x ∧ k = some x := by
  unfold commonLabel
  by_cases h : l = k
  · rw [if_pos h, h, and_self]
  · rw [if_neg h]
    constructor
    · rintro ⟨⟩
    · rintro ⟨rfl, rfl⟩
      exact (h rfl).elim

theorem keepsShared_lubFields (hlen : fs.length = gs.length) :
    KeepsShared fs gs (lubFields m fs gs) := by
  have hlength : (lubFields m fs gs).length = fs.length := by
    have h := congrArg List.length (types_lubFields (m := m) fs gs)
    simpa [hlen] using h
  refine ⟨hlength, hlength.trans hlen, fun i l => ?_⟩
  rw [HasLabel, HasLabel, HasLabel, labels_lubFields, List.getElem?_zipWith]
  cases (labels fs)[i]? with
  | none => simp
  | some k =>
    cases (labels gs)[i]? with
    | none => simp
    | some k' => simp [commonLabel_eq_some]

/-- Fields of one side keep what is shared exactly if the other side has all of their labels. -/
theorem keepsShared_left_iff (hlen : fs.length = gs.length) :
    KeepsShared fs gs fs ↔ LabelsWithin fs gs := by
  constructor
  · exact fun h i l hl => ((h.hasLabel_iff i l).1 hl).2
  · exact fun h => ⟨rfl, hlen, fun i l => ⟨fun hl => ⟨hl, h i l hl⟩, And.left⟩⟩

theorem keepsShared_right_iff (hlen : fs.length = gs.length) :
    KeepsShared fs gs gs ↔ LabelsWithin gs fs := by
  constructor
  · exact fun h i l hl => ((h.hasLabel_iff i l).1 hl).1
  · exact fun h => ⟨hlen.symm, rfl, fun i l => ⟨fun hl => ⟨h i l hl, hl⟩, And.right⟩⟩

/-- The fields of the join of two tuple types of one length. -/
def joinedFields (m : Manager) (t u : Ty) (fs gs : List (Field Ty)) : List (Field Ty) :=
  if t.isSubtypeOf u then gs else if u.isSubtypeOf t then fs else lubFields m fs gs

theorem unalias_lub_of_tuple {o o' : Origin} (m : Manager) (ht : t.unalias = .tuple o fs)
    (hu : u.unalias = .tuple o' gs) (hlen : fs.length = gs.length) :
    ∃ p, (t.lub m u).unalias = .tuple p (joinedFields m t u fs gs) := by
  rw [lub]
  unfold joinedFields
  split
  · exact ⟨o', hu⟩
  split
  · exact ⟨o, ht⟩
  rw [ht, hu]
  simp only [hlen, if_true]
  exact ⟨m.origin, rfl⟩

theorem lubOf_pair (m : Manager) (t u : Ty) : m.lubOf [t, u] = t.lub m u := by
  have hvoid : m.void.lub m t = t := by rw [lub, if_pos (void_isSubtypeOf t)]
  rw [Manager.lubOf, List.foldl_cons, List.foldl_cons, List.foldl_nil, hvoid]

/-- The joins in both orders have the same labels, unless each type is below the other. -/
theorem labels_joinedFields_eq_iff : labels (joinedFields m t u fs gs) =
    labels (joinedFields m u t gs fs) ↔ (t.isEquivalentTo u = true → labels fs = labels gs) := by
  unfold joinedFields isEquivalentTo
  cases htu : t.isSubtypeOf u with
  | true =>
    cases hut : u.isSubtypeOf t with
    | true => simpa using eq_comm
    | false => simp
  | false =>
    cases hut : u.isSubtypeOf t with
    | true => simp
    | false => simp [labels_lubFields, List.zipWith_comm_of_comm commonLabel_comm]

theorem keepsShared_joinedFields_iff (hlen : fs.length = gs.length) :
    KeepsShared fs gs (joinedFields m t u fs gs) ↔
      (t.isSubtypeOf u = true → LabelsWithin gs fs) ∧
      (t.isSubtypeOf u = false → u.isSubtypeOf t = true → LabelsWithin fs gs) := by
  unfold joinedFields
  cases t.isSubtypeOf u with
  | true => simp [keepsShared_right_iff hlen]
  | false =>
    cases u.isSubtypeOf t with
    | true => simp [keepsShared_left_iff hlen]
    | false => simp [keepsShared_lubFields hlen]

/-- Where one of two tuple types of one length is above the other, their join has the fields of that
one, labels included; of equivalent types it is the second. So it keeps the labels that both have
exactly if neither is above the other or the one above has no label that the other lacks. Its labels
depend on the order exactly if the types are equivalent and differ in their labels. Where neither is
above the other the fields have the joins of their types, to which the same applies. -/
theorem lub_labels {o o' : Origin} (m : Manager) (ht : t.unalias = .tuple o fs)
    (hu : u.unalias = .tuple o' gs) (hlen : fs.length = gs.length) :
    ∃ p hs q ks, (t.lub m u).unalias = .tuple p hs ∧ (u.lub m t).unalias = .tuple q ks ∧
      m.lubOf [t, u] = t.lub m u ∧
      (t.isSubtypeOf u = true → hs = gs) ∧
      (t.isSubtypeOf u = false → u.isSubtypeOf t = true → hs = fs) ∧
      (KeepsShared fs gs hs ↔
        (t.isSubtypeOf u = true → LabelsWithin gs fs) ∧
        (t.isSubtypeOf u = false → u.isSubtypeOf t = true → LabelsWithin fs gs)) ∧
      (labels hs = labels ks ↔ (t.isEquivalentTo u = true → labels fs = labels gs)) ∧
      (t.isSubtypeOf u = false → u.isSubtypeOf t = false →
        hs.map Field.ty = List.zipWith (lub m) (fs.map Field.ty) (gs.map Field.ty)) := by
  obtain ⟨p, hp⟩ := unalias_lub_of_tuple m ht hu hlen
  obtain ⟨q, hq⟩ := unalias_lub_of_tuple m hu ht hlen.symm
  refine ⟨p, _, q, _, hp, hq, lubOf_pair m t u, fun htu => ?_, fun htu hut => ?_,
    keepsShared_joinedFields_iff hlen, labels_joinedFields_eq_iff, fun htu hut => ?_⟩
  · rw [joinedFields, if_pos htu]
  · rw [joinedFields, htu, if_neg Bool.false_ne_true, if_pos hut]
  · rw [joinedFields, htu, hut]
    exact types_lubFields fs gs

/-! ### Points with named coordinates -/

namespace Sample

/-- `int x, tuple[int a] p` -/
def leftFields : List (Field Ty) :=
  [⟨manager.int, some "x"⟩, ⟨manager.labeledTuple [(manager.int, "a")], some "p"⟩]

/-- `str x, tuple[int b] q` -/
def rightFields : List (Field Ty) :=
  [⟨manager.str, some "x"⟩, ⟨manager.labeledTuple [(manager.int, "b")], some "q"⟩]

end Sample

open Sample in
/-- Of the labels `x` stays, which both sides have. The inner tuples are equivalent, so that the
second one is taken with its label. -/
theorem lub_labels_points : ∃ p hs, ((manager.tupleOfFields leftFields).lub manager
      (manager.aliased "Right" (manager.tupleOfFields rightFields))).unalias = .tuple p hs ∧
    KeepsShared leftFields rightFields hs ∧
    hs.map Field.ty = [manager.value, manager.labeledTuple [(manager.int, "b")]] := by
  have hleft : (manager.tupleOfFields leftFields).unalias = .tuple manager.origin leftFields := rfl
  have hright : (manager.aliased "Right" (manager.tupleOfFields rightFields)).unalias =
      .tuple manager.origin rightFields := rfl
  obtain ⟨p, hs, q, ks, hp, -, -, -, -, hkeeps, -, htypes⟩ := lub_labels manager hleft hright rfl
  have hne : (manager.tupleOfFields leftFields).isSubtypeOf
      (manager.aliased "Right" (manager.tupleOfFields rightFields)) = false := by decide
  have hne' : (manager.aliased "Right" (manager.tupleOfFields rightFields)).isSubtypeOf
      (manager.tupleOfFields leftFields) = false := by decide
  refine ⟨p, hs, hp, hkeeps.2 ⟨fun h => ?_, fun _ h => ?_⟩, (htypes hne hne').trans ?_⟩
  · rw [hne] at h
    cases h
  · rw [hne'] at h
    cases h
  · decide +kernel

namespace Sample

/-- `int l` for a label `l`. -/
def coordinate (l : String) : List (Field Ty) := [⟨manager.int, some l⟩]

theorem made_coordinate (l : String) : (manager.tupleOfFields (coordinate l)).Made :=
  .tuple manager (List.forall_mem_singleton.2 (.basic manager .int))

end Sample

open Sample in
/-- The join of equivalent tuple types has the labels of the second one, so that those of a list
of two tuples depend on their order. -/
theorem exists_label_of_one_side : ∃ (m : Manager) (t u : Ty) (fs gs hs : List (Field Ty)),
    t.Made ∧ u.Made ∧ t.unalias = m.tupleOfFields fs ∧ u.unalias = m.tupleOfFields gs ∧
      fs.length = gs.length ∧ (t.lub m u).unalias = m.tupleOfFields hs ∧ ¬ KeepsShared fs gs hs ∧
      m.list (m.lubOf [t, u]) ≠ m.list (m.lubOf [u, t]) := by
  have hlub (l k : String) : (manager.tupleOfFields (coordinate l)).lub manager
      (manager.tupleOfFields (coordinate k)) = manager.tupleOfFields (coordinate k) := by
    have hbelow : (manager.tupleOfFields (coordinate l)).isSubtypeOf
        (manager.tupleOfFields (coordinate k)) = true := rfl
    rw [lub, if_pos hbelow]
  refine ⟨manager, _, _, coordinate "x", coordinate "y", coordinate "y", made_coordinate "x",
    made_coordinate "y", rfl, rfl, rfl, congrArg unalias (hlub "x" "y"), fun h => ?_, ?_⟩
  · have hx : HasLabel (coordinate "x") 0 "y" := ((h.hasLabel_iff 0 "y").1 rfl).1
    exact absurd hx (by decide)
  · rw [lubOf_pair, lubOf_pair, hlub, hlub]
    decide

end Ty

end ValueAlgebra
