import Mathlib.Logic.Function.Iterate
import ValueAlgebra.Proofs.Interning.Layer
import ValueAlgebra.Proofs.Ty.Equivalence

/-!
# Types in normal form

What managers make is in normal form at every level: relations hold tuples and no other set does,
constructors belong to a data type itself, and aliases lead to something else in the end. As sets
and relations compare by their elements, it is the normal form that keeps them apart.

## Main definitions

- `Ty.Within`: a type nested in another
- `Ty.dealias`: a type without its outermost alias
- `Ty.Normal`: the outermost level of a type is in normal form
-/

namespace ValueAlgebra

namespace Ty

variable {t u w : Ty}

/-- `u` is `t` or lies somewhere inside it. -/
inductive Within (u : Ty) : Ty → Prop
  | refl : Within u u
  | part {o : Origin} {n : Layer Ty} {t : Ty} (ht : t ∈ n.parts) (h : Within u t) :
    Within u (n.build o)

theorem Within.trans (h : u.Within t) (h' : t.Within w) : u.Within w := by
  induction h' with
  | refl => exact h
  | part ht _ ih => exact .part ht ih

/-- The type without its outermost alias, if it has one. -/
def dealias : Ty → Ty
  | aliased _ _ target => target
  | t => t

/-- What is known of a type without looking inside its parts, but for the aliases that they begin
with. -/
structure Normal (t : Ty) : Prop where
  row : ∀ o r, t = relation o r → ∃ o' fs, r.unalias = tuple o' fs
  elem : ∀ o e, t = set o e → ∀ o' fs, e.unalias ≠ tuple o' fs
  owner : ∀ o a n fs, t = constructor o a n fs → ∃ o' adtName params, a = adt o' adtName params
  /-- Taking off one alias after the other comes to an end, at a type that is no alias. -/
  chain : ∃ k, dealias^[k] t = t.unalias ∧ t.unalias.isAlias = false
  fields : t.isRelation = true → ∃ fs, t.fields? = some fs

theorem exists_unalias_eq_tuple : ∀ {t : Ty}, t.isTuple = true → ∃ o fs, t.unalias = tuple o fs
  | tuple o fs, _ => ⟨o, fs, rfl⟩
  | aliased _ _ t, h => exists_unalias_eq_tuple (t := t) h
  | basic _ b, h => by cases b <;> cases h

theorem exists_unalias_eq_relation :
    ∀ {t : Ty}, t.isRelation = true → ∃ o row, t.unalias = relation o row
  | relation o row, _ => ⟨o, row, rfl⟩
  | aliased _ _ t, h => exists_unalias_eq_relation (t := t) h
  | basic _ b, h => by cases b <;> cases h

theorem isTuple_of_unalias_eq {o : Origin} {fs : List (Field Ty)} (h : t.unalias = tuple o fs) :
    t.isTuple = true := by
  rw [isTuple, ← kind_unalias, h]
  rfl

theorem exists_iterate_dealias : ∀ t : Ty, ∃ k, dealias^[k] t = t.unalias
  | aliased o n t => by
    obtain ⟨k, hk⟩ := exists_iterate_dealias t
    exact ⟨k + 1, hk⟩
  | basic .. | tuple .. | list .. | set .. | relation .. | map .. | adt .. | constructor .. =>
    ⟨0, rfl⟩

namespace WellFormed

protected theorem part {o : Origin} {n : Layer Ty} (h : (n.build o).WellFormed) :
    ∀ t ∈ n.parts, t.WellFormed := by
  cases n with
  | basic b => exact List.forall_mem_nil _
  | tuple fs => exact List.forall_mem_map.2 h.fields_of_tuple
  | list e => exact List.forall_mem_singleton.2 h.elem_of_list
  | set e => exact List.forall_mem_singleton.2 h.elem_of_set
  | relation r => exact List.forall_mem_singleton.2 h.row_of_relation
  | map k v => exact List.forall_mem_cons.2 ⟨h.key_of_map, List.forall_mem_singleton.2 h.val_of_map⟩
  | adt name ps => exact h.params_of_adt
  | constructor a name fs =>
    cases h with
    | constructor _ _ ha hfs => exact List.forall_mem_cons.2 ⟨ha, List.forall_mem_map.2 hfs⟩
  | aliased name t =>
    cases h with
    | aliased _ _ ht => exact List.forall_mem_singleton.2 ht

protected theorem within (h : t.WellFormed) (hu : u.Within t) : u.WellFormed := by
  induction hu with
  | refl => exact h
  | part ht _ ih => exact ih (h.part _ ht)

theorem exists_fields (h : t.WellFormed) (hr : t.isRelation = true) :
    ∃ fs, t.fields? = some fs := by
  obtain ⟨o, row, hrow⟩ := exists_unalias_eq_relation hr
  have hunalias := h.unalias
  rw [hrow] at hunalias
  cases hunalias with
  | relation _ htuple _ =>
    obtain ⟨o', fs, hfs⟩ := exists_unalias_eq_tuple htuple
    refine ⟨fs, ?_⟩
    rw [← fields?_unalias, hrow, fields?, ← fields?_unalias, hfs, fields?]

/-- Well-formed types are in normal form. -/
protected theorem normal (h : t.WellFormed) : t.Normal where
  row o r ht := by
    subst ht
    cases h with
    | relation _ hr _ => exact exists_unalias_eq_tuple hr
  elem o e ht o' fs he := by
    subst ht
    cases h with
    | set _ hs _ =>
      rw [isTuple_of_unalias_eq he] at hs
      cases hs
  owner o a n fs ht := by
    subst ht
    cases h with
    | constructor => exact ⟨_, _, _, rfl⟩
  chain := by
    obtain ⟨k, hk⟩ := exists_iterate_dealias t
    exact ⟨k, hk, isAlias_unalias t⟩
  fields := h.exists_fields

/-- Equivalent types are of one kind. -/
theorem kind_eq_of_isEquivalentTo (ht : t.WellFormed) (hu : u.WellFormed)
    (h : t.isEquivalentTo u = true) : t.kind = u.kind := by
  have hshape := sameShape_iff.1 ((isEquivalentTo_iff_plain ht hu).1 h)
  rw [← kind_plain t, ← kind_plain u, ← kind_shape t.plain, hshape, kind_shape]

end WellFormed

end Ty

end ValueAlgebra
