import Mathlib.Data.List.Pairwise
import ValueAlgebra.Proofs.Store.Valid
import ValueAlgebra.Proofs.Ty.Equivalence

/-!
# Types that a reader infers

A reader infers types from scalars on: tuples without labels, collections of joined element types,
the constructors of its store, and the data types of these, which is what two constructors join to.
No alias or label comes in but inside of constructors and data types, and a store declares one data
type of a name. So inferred types that are subtypes of each other have one structure, and least
upper bounds are determined by the types they bound, whatever their order and number.

## Main definitions

- `Ty.Inferred`: the types that a reader infers
- `Store.OneOwner`: all constructors of a data type belong to the same reference of it
-/

namespace ValueAlgebra

namespace Store

/-- The constructors of a data type belong to one type, not only to types of one structure. So it
is if a single manager made them. -/
def OneOwner (st : Store) : Prop :=
  ∀ adt, ∀ c ∈ st.constructorsOf adt, ∀ d ∈ st.constructorsOf adt, c.owner? = d.owner?

variable {st : Store} {adt c d : Ty}

/-- A constructor is also found by the data type that it belongs to itself. -/
theorem Reachable.of_mem_constructorsOf_adt (hst : st.Reachable) (hc : c ∈ st.constructorsOf adt) :
    ∃ o o' a ps n fs, c = .constructor o (.adt o' a ps) n fs ∧ adt.name? = some a ∧
      c ∈ st.constructorsOf (.adt o' a ps) := by
  obtain ⟨a, ha, hmem⟩ := of_mem_constructorsOf hc
  obtain ⟨o, o', ps, n, fs, rfl⟩ := hst.consistent.constructor_eq a c hmem
  refine ⟨o, o', a, ps, n, fs, rfl, ha, ?_⟩
  rw [Std.ExtTreeMap.getD_eq_getD_getElem?] at hmem
  exact hmem

/-- The constructors of a data type have owners of one structure. -/
theorem Reachable.shape_owner_eq (hst : st.Reachable) (hc : c ∈ st.constructorsOf adt)
    (hd : d ∈ st.constructorsOf adt) {a b : Ty} (ha : c.owner? = some a) (hb : d.owner? = some b) :
    a.shape = b.shape := by
  obtain ⟨n, hn, hc⟩ := of_mem_constructorsOf hc
  obtain ⟨n', hn', hd⟩ := of_mem_constructorsOf hd
  obtain rfl := Option.some.inj (hn.symm.trans hn')
  obtain ⟨_, _, _, _, declared, rfl, hdeclared, hs⟩ := hst.grows.owned .empty n c hc
  obtain ⟨_, _, _, _, declared', rfl, hdeclared', hs'⟩ := hst.grows.owned .empty n d hd
  obtain rfl := Option.some.inj (hdeclared.symm.trans hdeclared')
  obtain rfl := Option.some.inj ha
  obtain rfl := Option.some.inj hb
  exact (Ty.sameShape_iff.1 hs).symm.trans (Ty.sameShape_iff.1 hs')

/-- A data type has no two constructors of one structure. -/
theorem Reachable.eq_of_mem_constructorsOf (hst : st.Reachable) (hc : c ∈ st.constructorsOf adt)
    (hd : d ∈ st.constructorsOf adt) (h : c.shape = d.shape) : c = d := by
  obtain ⟨n, hn, hc⟩ := of_mem_constructorsOf hc
  obtain ⟨n', hn', hd⟩ := of_mem_constructorsOf hd
  obtain rfl := Option.some.inj (hn.symm.trans hn')
  have hdistinct : (st.constructors.getD n []).Pairwise fun c d => c.shape ≠ d.shape :=
    ((hst.grows.listed .empty).pairwise n).imp fun hs h => by simp [Ty.sameShape_iff.2 h] at hs
  have : Std.Symm fun c d : Ty => c.shape ≠ d.shape := ⟨fun _ _ => Ne.symm⟩
  by_cases hne : c = d
  · exact hne
  · exact absurd h (hdistinct.forall hc hd hne)

end Store

namespace Ty

/-- The types that a reader with store `st` infers when its types come from `m`. -/
inductive Inferred (st : Store) (m : Manager) : Ty → Prop
  | basic (b : BasicTy) : Inferred st m (.basic m.origin b)
  | tuple {fs : List (Field Ty)} (hl : ∀ f ∈ fs, f.label = none)
    (h : ∀ f ∈ fs, Inferred st m f.ty) : Inferred st m (.tuple m.origin fs)
  | list {e : Ty} (h : Inferred st m e) : Inferred st m (.list m.origin e)
  | set {e : Ty} (he : e.isTuple = false) (h : Inferred st m e) : Inferred st m (.set m.origin e)
  | relation {r : Ty} (hr : r.isTuple = true) (h : Inferred st m r) :
    Inferred st m (.relation m.origin r)
  | map {k v : Ty} (hk : Inferred st m k) (hv : Inferred st m v) : Inferred st m (.map m.origin k v)
  | adt {o : Origin} {n : String} {ps : List Ty} {c : Ty} (hc : c ∈ st.constructorsOf (.adt o n ps))
    (ho : c.owner? = some (.adt o n ps)) : Inferred st m (.adt o n ps)
  | constructor {o : Origin} {a : Ty} {n : String} {fs : List (Field Ty)}
    (h : .constructor o a n fs ∈ st.constructorsOf a) : Inferred st m (.constructor o a n fs)

namespace Inferred

variable {st : Store} {m : Manager} {t u : Ty} {ts : List Ty}

theorem unalias_eq (h : t.Inferred st m) : t.unalias = t := by
  cases h <;> rfl

protected theorem wellFormed (hst : st.Reachable) (h : t.Inferred st m) : t.WellFormed := by
  induction h with
  | basic b => exact .basic _ b
  | tuple _ _ ih => exact .tuple _ ih
  | list _ ih => exact .list _ ih
  | set he _ ih => exact .set _ he ih
  | relation hr _ ih => exact .relation _ hr ih
  | map _ _ ihk ihv => exact .map _ ihk ihv
  | adt hc ho =>
    obtain ⟨_, _, _, _, _, _, rfl, -⟩ := hst.of_mem_constructorsOf_adt hc
    rw [← Option.some.inj ho]
    exact (hst.wellFormed_of_mem_constructorsOf hc).owner_of_constructor.1
  | constructor h => exact hst.wellFormed_of_mem_constructorsOf h

/-- The data type of an inferred constructor could have been inferred. -/
theorem owner (hst : st.Reachable) {o : Origin} {a : Ty} {n : String} {fs : List (Field Ty)}
    (h : (Ty.constructor o a n fs).Inferred st m) : a.Inferred st m := by
  cases h with
  | constructor h =>
    obtain ⟨_, _, _, _, _, _, heq, -, hmem⟩ := hst.of_mem_constructorsOf_adt h
    obtain ⟨-, rfl, -, -⟩ := Ty.constructor.inj heq
    exact .adt hmem rfl

protected theorem setOf (h : t.Inferred st m) : (m.set t).Inferred st m := by
  unfold Manager.set
  split
  · next ht => exact .relation ht h
  · next ht => exact .set (Bool.eq_false_iff.2 ht) h

/-! ### Inferred types below each other -/

theorem fields_eq_of_plain {fs gs : List (Field Ty)} {p : Prop}
    (ih : ∀ f ∈ fs, ∀ {u : Ty}, u.Inferred st m → f.ty.plain.shape = u.plain.shape →
      f.ty.shape = u.shape ∧ (p → f.ty = u)) (hf : ∀ f ∈ fs, f.label = none)
    (hg : ∀ g ∈ gs, g.label = none) (hgs : ∀ g ∈ gs, g.ty.Inferred st m)
    (h : shapeFields (plainFields fs) = shapeFields (plainFields gs)) :
    shapeFields fs = shapeFields gs ∧ (p → fs = gs) := by
  induction fs generalizing gs with
  | nil =>
    cases gs with
    | nil => exact ⟨rfl, fun _ => rfl⟩
    | cons g gs => cases h
  | cons f fs ihs =>
    cases gs with
    | nil => cases h
    | cons g gs =>
      obtain ⟨t, l⟩ := f
      obtain ⟨u, k⟩ := g
      simp only [plainFields, shapeFields, List.cons.injEq, Field.mk.injEq, and_true] at h
      obtain ⟨ht, hts⟩ := h
      rw [List.forall_mem_cons] at ih hf hg hgs
      obtain ⟨rfl, hf⟩ := hf
      obtain ⟨rfl, hg⟩ := hg
      obtain ⟨hshape : t.shape = u.shape, heq : p → t = u⟩ := ih.1 hgs.1 ht
      obtain ⟨hshapes, heqs⟩ := ihs ih.2 hf hg hgs.2 hts
      exact ⟨by rw [shapeFields, shapeFields, hshape, hshapes], fun hp => by rw [heq hp, heqs hp]⟩

/-- An inferred type is determined by its plain form, up to the owners of constructors. -/
theorem eq_of_plain (hst : st.Reachable) (ht : t.Inferred st m) (hu : u.Inferred st m)
    (h : t.plain.shape = u.plain.shape) : t.shape = u.shape ∧ (st.OneOwner → t = u) := by
  induction ht generalizing u with
  | basic b =>
    cases hu <;> cases h
    exact ⟨rfl, fun _ => rfl⟩
  | tuple hl _ ih =>
    cases hu with
    | tuple hl' h' =>
      obtain ⟨hshape, heq⟩ := fields_eq_of_plain ih hl hl' h' (Ty.tuple.inj h).2
      exact ⟨by rw [shape, shape, hshape], fun hone => by rw [heq hone]⟩
    | _ => cases h
  | list _ ih =>
    cases hu with
    | list h' =>
      obtain ⟨hshape, heq⟩ := ih h' (Ty.list.inj h).2
      exact ⟨by rw [shape, shape, hshape], fun hone => by rw [heq hone]⟩
    | _ => cases h
  | set _ _ ih =>
    cases hu with
    | set _ h' =>
      obtain ⟨hshape, heq⟩ := ih h' (Ty.set.inj h).2
      exact ⟨by rw [shape, shape, hshape], fun hone => by rw [heq hone]⟩
    | _ => cases h
  | relation _ _ ih =>
    cases hu with
    | relation _ h' =>
      obtain ⟨hshape, heq⟩ := ih h' (Ty.relation.inj h).2
      exact ⟨by rw [shape, shape, hshape], fun hone => by rw [heq hone]⟩
    | _ => cases h
  | map _ _ ihk ihv =>
    cases hu with
    | map hk' hv' =>
      obtain ⟨-, hk, hv⟩ := Ty.map.inj h
      obtain ⟨hkshape, hkeq⟩ := ihk hk' hk
      obtain ⟨hvshape, hveq⟩ := ihv hv' hv
      exact ⟨by rw [shape, shape, hkshape, hvshape], fun hone => by rw [hkeq hone, hveq hone]⟩
    | _ => cases h
  | adt hc ho =>
    cases hu with
    | adt hc' ho' =>
      -- Data types of one name are filed together.
      obtain ⟨-, rfl, -⟩ := Ty.adt.inj h
      refine ⟨hst.shape_owner_eq hc hc' ho ho', fun hone => ?_⟩
      exact Option.some.inj (ho.symm.trans ((hone _ _ hc _ hc').trans ho'))
    | _ => cases h
  | constructor hc =>
    cases hu with
    | constructor hc' =>
      obtain ⟨_, _, _, _, _, _, heq, -, -⟩ := hst.of_mem_constructorsOf_adt hc
      obtain ⟨_, _, _, _, _, _, heq', -, -⟩ := hst.of_mem_constructorsOf_adt hc'
      obtain ⟨-, rfl, -, -⟩ := Ty.constructor.inj heq
      obtain ⟨-, rfl, -, -⟩ := Ty.constructor.inj heq'
      obtain ⟨-, howner, -, -⟩ := Ty.constructor.inj h
      obtain ⟨-, rfl, -⟩ := Ty.adt.inj howner
      have heq := hst.eq_of_mem_constructorsOf hc hc' h
      exact ⟨h, fun _ => heq⟩
    | _ => cases h

/-- Inferred types that are subtypes of each other have one structure. -/
theorem eq_of_isSubtypeOf (hst : st.Reachable) (ht : t.Inferred st m) (hu : u.Inferred st m)
    (h : t.isSubtypeOf u = true) (h' : u.isSubtypeOf t = true) :
    t.shape = u.shape ∧ (st.OneOwner → t = u) :=
  eq_of_plain hst ht hu (shape_plain_eq (ht.wellFormed hst) (hu.wellFormed hst) h h')

/-! ### Least upper bounds -/

/-- Data types of one name are not joined, since they are subtypes of each other. -/
theorem isSubtypeOf_of_name_eq (hst : st.Reachable) {o o' : Origin} {n : String} {ps qs : List Ty}
    (ht : (Ty.adt o n ps).Inferred st m) (hu : (Ty.adt o' n qs).Inferred st m) :
    (Ty.adt o n ps).isSubtypeOf (.adt o' n qs) = true := by
  cases ht with
  | adt hc ho =>
    cases hu with
    | adt hc' ho' =>
      rw [isSubtypeOf_congr_left (hst.shape_owner_eq hc hc' ho ho')]
      exact isSubtypeOf_refl _

protected theorem lub (hst : st.Reachable) (ht : t.Inferred st m) (hu : u.Inferred st m) :
    (t.lub m u).Inferred st m := by
  induction hn : sizeOf t + sizeOf u using Nat.strongRecOn generalizing t u with
  | ind n ih =>
    subst hn
    have ih {t' u' : Ty} (hlt : sizeOf t' + sizeOf u' < sizeOf t.unalias + sizeOf u.unalias)
        (ht' : t'.Inferred st m) (hu' : u'.Inferred st m) : (t'.lub m u').Inferred st m := by
      rw [ht.unalias_eq, hu.unalias_eq] at hlt
      exact ih _ hlt ht' hu' rfl
    rw [Ty.lub]
    split
    · exact hu
    split
    · exact ht
    next htu _ =>
    rw [← isSubtypeOf_unalias_left, ← isSubtypeOf_unalias_right] at htu
    rw [← ht.unalias_eq] at ht
    rw [← hu.unalias_eq] at hu
    generalize t.unalias = t' at *
    generalize u.unalias = u' at *
    split
    · next fs _ gs =>
      split
      · cases ht with
        | tuple hfl hf =>
        cases hu with
        | tuple hgl hg =>
        refine .tuple (fun f h => ?_) (fun f h => ?_)
        all_goals obtain ⟨p, hp, q, hq, rfl⟩ := mem_lubFields h
        · rw [hfl p hp, hgl q hq]
          rfl
        · have := sizeOf_field_lt hp
          have := sizeOf_field_lt hq
          exact ih (by simp only [tuple.sizeOf_spec]; omega) (hf p hp) (hg q hq)
      · exact .basic _
    · next e _ e' =>
      cases ht with
      | list he =>
      cases hu with
      | list he' => exact .list (ih (by simp only [list.sizeOf_spec]; omega) he he')
    · next e _ e' =>
      cases ht with
      | set _ he =>
      cases hu with
      | set _ he' => exact .setOf (ih (by simp only [set.sizeOf_spec]; omega) he he')
    · next e _ r =>
      cases ht with
      | set _ he =>
      cases hu with
      | relation _ hr =>
        exact .setOf (ih (by simp only [set.sizeOf_spec, relation.sizeOf_spec]; omega) he hr)
    · next r _ e =>
      cases ht with
      | relation _ hr =>
      cases hu with
      | set _ he =>
        exact .setOf (ih (by simp only [set.sizeOf_spec, relation.sizeOf_spec]; omega) hr he)
    · next r _ r' =>
      cases ht with
      | relation _ hr =>
      cases hu with
      | relation _ hr' => exact .setOf (ih (by simp only [relation.sizeOf_spec]; omega) hr hr')
    · next k v _ k' v' =>
      cases ht with
      | map hk hv =>
      cases hu with
      | map hk' hv' =>
        exact .map (ih (by simp only [map.sizeOf_spec]; omega) hk hk')
          (ih (by simp only [map.sizeOf_spec]; omega) hv hv')
    · next a n fs _ b n' gs =>
      exact ih (by simp only [constructor.sizeOf_spec]; omega) (ht.owner hst) (hu.owner hst)
    · next a n fs o' n' ps =>
      exact ih (by simp only [constructor.sizeOf_spec]; omega) (ht.owner hst) hu
    · next o' n' ps _ a n fs =>
      exact ih (by simp only [constructor.sizeOf_spec]; omega) (hu.owner hst) ht
    · next n ps _ n' qs =>
      split
      · next h =>
        obtain ⟨rfl, -⟩ := h
        exact absurd (isSubtypeOf_of_name_eq hst ht hu) htu
      · exact .basic _
    · exact .basic _

/-- What an application is resolved to. -/
theorem of_constructorFor? (hst : st.Reachable) {adt : Ty} {n : String} {args : List Ty}
    (h : st.constructorFor? adt n args = some t) : t.Inferred st m := by
  obtain ⟨_, _, _, _, _, _, rfl, -, hmem⟩ :=
    hst.of_mem_constructorsOf_adt (Store.constructorFor?_eq_some h).1
  exact .constructor hmem

protected theorem tupleOf (h : ∀ t ∈ ts, t.Inferred st m) : (m.tuple ts).Inferred st m := by
  refine .tuple (List.forall_mem_map.2 fun _ _ => rfl) (List.forall_mem_map.2 h)

end Inferred

end Ty

namespace Manager

open Ty

variable {st : Store} {m : Manager} {ts us : List Ty}

theorem inferred_lubOf (hst : st.Reachable) (h : ∀ t ∈ ts, t.Inferred st m) :
    (m.lubOf ts).Inferred st m := by
  suffices hfold : ∀ {u : Ty}, u.Inferred st m →
      (ts.foldl (fun u t => u.lub m t) u).Inferred st m from hfold (.basic .void)
  induction ts with
  | nil => exact id
  | cons t ts ih =>
    obtain ⟨ht, hts⟩ := List.forall_mem_cons.1 h
    exact fun hu => ih hts (hu.lub hst ht)

/-- Joins of types that bound each other are the same. -/
theorem shape_lubOf_eq (hst : st.Reachable) (hts : ∀ t ∈ ts, t.Inferred st m)
    (hus : ∀ u ∈ us, u.Inferred st m) (h : ∀ t ∈ ts, t.isSubtypeOf (m.lubOf us) = true)
    (h' : ∀ u ∈ us, u.isSubtypeOf (m.lubOf ts) = true) :
    (m.lubOf ts).shape = (m.lubOf us).shape := by
  have hle := lubOf_isSubtypeOf (m := m) (fun t ht => (hts t ht).wellFormed hst) h
  have hge := lubOf_isSubtypeOf (m := m) (fun u hu => (hus u hu).wellFormed hst) h'
  exact ((inferred_lubOf hst hts).eq_of_isSubtypeOf hst (inferred_lubOf hst hus) hle hge).1

/-- Joins of types of the same structures are the same, whatever their order and number. -/
theorem shape_lubOf_congr (hst : st.Reachable) (hts : ∀ t ∈ ts, t.Inferred st m)
    (hus : ∀ u ∈ us, u.Inferred st m) (h : ∀ t ∈ ts, ∃ u ∈ us, u.shape = t.shape)
    (h' : ∀ u ∈ us, ∃ t ∈ ts, u.shape = t.shape) :
    (m.lubOf ts).shape = (m.lubOf us).shape := by
  refine shape_lubOf_eq hst hts hus (fun t ht => ?_) (fun u hu => ?_)
  · obtain ⟨u, hu, hut⟩ := h t ht
    rw [← isSubtypeOf_congr_left hut]
    exact isSubtypeOf_lubOf (fun u hu => (hus u hu).wellFormed hst) u hu
  · obtain ⟨t, ht, hut⟩ := h' u hu
    rw [isSubtypeOf_congr_left hut]
    exact isSubtypeOf_lubOf (fun t ht => (hts t ht).wellFormed hst) t ht

end Manager

end ValueAlgebra
