import ValueAlgebra.Proofs.Session.Building

/-!
# The first overload that can be applied

The overloads of a constructor are looked up by the types of the children, before there is anything
to apply, while applying a constructor type checks the children against its fields. The lookup
accepts exactly those overloads that can be applied, so that an application by name is an
application of the first of them.

## Main definitions

- `Build.Applicable`: a constructor of some name that can be applied to the children
- `Build.IsFirstApplicable`: the first such constructor in a list of types
-/

namespace ValueAlgebra

namespace Value

/-- Where an application is stored does not make it different. -/
theorem constructor_beq_constructor (t : Ty) (c c' : Cell) (vs : List Value) :
    (constructor t c vs == constructor t c' vs) = true := by
  show (constructor t c vs).eqWith isIdenticalTo (constructor t c' vs) = true
  simp only [eqWith, beq_self_eq_true, eqAll_self, Bool.and_self, Bool.or_true]

end Value

namespace Build

/-- The type `t` is called `name` as a constructor and can be applied to the children. -/
def Applicable (c : Cell) (name : String) (children : List Value) (t : Ty) : Prop :=
  t.constructorName? = some name ∧ ∃ v, constructor c t children = .ok v

/-- Of the types that are called `name` and can be applied to the children, `t` comes first. -/
def IsFirstApplicable (c : Cell) (name : String) (children : List Value) (ts : List Ty) (t : Ty) :
    Prop :=
  Applicable c name children t ∧ ∃ before after, ts = before ++ t :: after ∧
    ∀ u ∈ before, ¬ Applicable c name children u

variable {c : Cell} {name : String} {children : List Value} {t : Ty} {ts : List Ty}

/-- The lookup tests the types of the children as the application tests the children. -/
theorem applies_iff_applicable {o : Origin} {a : Ty} {n : String} {fs : List (Field Ty)} :
    Store.applies name (children.map Value.ty) (.constructor o a n fs) = true ↔
      Applicable c name children (.constructor o a n fs) := by
  rw [Store.applies, Bool.and_eq_true, beq_iff_eq, ← Value.fits_iff_allBelow]
  constructor
  · rintro ⟨rfl, hfits⟩
    exact ⟨rfl, _, Session.constructor_eq_ok.2 ⟨⟨o, a, n, fs, rfl, hfits⟩, rfl⟩⟩
  · rintro ⟨hname, v, hv⟩
    obtain ⟨⟨_, _, _, _, ht, hfits⟩, -⟩ := Session.constructor_eq_ok.1 hv
    obtain ⟨-, -, -, rfl⟩ := Ty.constructor.inj ht
    exact ⟨Option.some.inj hname, hfits⟩

/-- A type that can be applied makes the application, wherever that is stored. -/
theorem Applicable.constructor_eq (h : Applicable c name children t) (c' : Cell) :
    constructor c' t children = .ok (.constructor t c' children) := by
  obtain ⟨-, v, hv⟩ := h
  exact Session.constructor_eq_ok.2 ⟨(Session.constructor_eq_ok.1 hv).1, rfl⟩

end Build

namespace Store

open Build (Applicable IsFirstApplicable)

variable {s : Store} {adt t : Ty} {name : String} {children : List Value} {c : Cell}

section Lookup

variable (hs : s.Reachable)

include hs

/-- Only constructors are listed, so that the two tests agree on all of them. -/
theorem Reachable.applies_iff_applicable (ht : t ∈ s.constructorsOf adt) :
    applies name (children.map Value.ty) t = true ↔ Applicable c name children t := by
  obtain ⟨a, -, hmem⟩ := of_mem_constructorsOf ht
  obtain ⟨_, _, _, _, _, rfl⟩ := hs.consistent.constructor_eq a t hmem
  exact Build.applies_iff_applicable

/-- The lookup finds the first of them. -/
theorem Reachable.constructorFor?_eq_some_iff :
    s.constructorFor? adt name (children.map Value.ty) = some t ↔
      IsFirstApplicable c name children (s.constructorsOf adt) t := by
  rw [constructorFor?, List.find?_eq_some_iff_append]
  have htests {before after : List Ty} (h : s.constructorsOf adt = before ++ t :: after) (u : Ty)
      (hu : u ∈ before ++ t :: after) :
      applies name (children.map Value.ty) u = true ↔ Applicable c name children u :=
    hs.applies_iff_applicable (h ▸ hu)
  constructor
  · rintro ⟨ht, before, after, hlist, hbefore⟩
    refine ⟨(htests hlist t (by simp)).1 ht, before, after, hlist, fun u hu happ => ?_⟩
    have hnot := hbefore u hu
    rw [(htests hlist u (List.mem_append_left _ hu)).2 happ] at hnot
    cases hnot
  · rintro ⟨ht, before, after, hlist, hbefore⟩
    refine ⟨(htests hlist t (by simp)).2 ht, before, after, hlist, fun u hu => ?_⟩
    rw [Bool.not_eq_true', Bool.eq_false_iff]
    exact fun happ => hbefore u hu ((htests hlist u (List.mem_append_left _ hu)).1 happ)

theorem Reachable.constructorFor?_eq_none_iff :
    s.constructorFor? adt name (children.map Value.ty) = none ↔
      ∀ t ∈ s.constructorsOf adt, ¬ Applicable c name children t := by
  rw [constructorFor?, List.find?_eq_none]
  exact forall₂_congr fun t ht => not_congr (hs.applies_iff_applicable ht)

end Lookup

/-- Applying a constructor by name is applying the first of its overloads that can be applied: it
succeeds exactly if there is one, makes the same value of the same type, and is otherwise refused
as not declared. -/
theorem Reachable.construct_applies_first (hs : s.Reachable) (adt : Ty) (name : String)
    (children : List Value) (c : Cell) :
    ((∃ v, Build.construct s c adt name children = .ok v) ↔
      ∃ t ∈ s.constructorsOf adt, Applicable c name children t) ∧
    (∀ t, IsFirstApplicable c name children (s.constructorsOf adt) t →
      ∃ v, Build.construct s c adt name children = .ok v ∧
        Build.constructor c t children = .ok v ∧ v.ty = t ∧
        ∀ c', ∃ w, Build.constructor c' t children = .ok w ∧ (v == w) = true ∧ w.ty = t) ∧
    ((∀ t ∈ s.constructorsOf adt, ¬ Applicable c name children t) →
      Build.construct s c adt name children =
        .error (.undeclaredConstructor adt name (children.map Value.ty))) := by
  have hrefused (h : ∀ t ∈ s.constructorsOf adt, ¬ Applicable c name children t) :
      Build.construct s c adt name children =
        .error (.undeclaredConstructor adt name (children.map Value.ty)) := by
    simp only [Build.construct, hs.constructorFor?_eq_none_iff.2 h]
  refine ⟨⟨?_, ?_⟩, fun t ht => ?_, hrefused⟩
  · rintro ⟨v, hv⟩
    by_contra hnone
    rw [hrefused fun t ht happ => hnone ⟨t, ht, happ⟩] at hv
    cases hv
  · rintro ⟨t, ht, happ⟩
    cases hfor : s.constructorFor? adt name (children.map Value.ty) with
    | some u => exact ⟨_, Build.construct_eq_ok.2 ⟨u, hfor, rfl⟩⟩
    | none => exact (hs.constructorFor?_eq_none_iff.1 hfor t ht happ).elim
  · have hfor := hs.constructorFor?_eq_some_iff.2 ht
    refine ⟨.constructor t c children, Build.construct_eq_ok.2 ⟨t, hfor, rfl⟩,
      ht.1.constructor_eq c, rfl, fun c' => ?_⟩
    exact ⟨_, ht.1.constructor_eq c', Value.constructor_beq_constructor t c c' children, rfl⟩

/-! ### Overloads that differ in labels and aliases -/

namespace Shapes

def manager : Manager := ⟨0⟩

def shape : Ty := manager.adt "Shape" []

/-- `Length`, an alias of `int`. -/
def length : Ty := manager.aliased "Length" manager.int

/-- The constructor `Shape::square` over one field. -/
def square (t : Ty) (label : Option String) : Ty :=
  manager.constructor shape "square" [⟨t, label⟩]

/-- Squares by a name, by the length of a side and by any value, twice with other labels. -/
def fields : List (Ty × Option String) :=
  [(manager.str, none), (length, some "side"), (length, some "edge"), (manager.value, none)]

def store : Store :=
  fields.foldl (fun s f => stateAfter (manager.declareConstructor shape "square" [⟨f.1, f.2⟩]) s)
    (stateAfter (manager.declareAdt "Shape" []) ∅)

theorem reachable_store : store.Reachable := by
  have hshape : shape.Made := .adt _ _ (List.forall_mem_nil _)
  have hlength : length.Made := .aliased _ _ (.basic _ _)
  have hfields : ∀ f ∈ fields, f.1.Made := by
    simp only [fields, List.forall_mem_cons]
    exact ⟨.basic _ _, hlength, hlength, .basic _ _, List.forall_mem_nil _⟩
  refine List.foldlRecOn fields _ (.declareAdt .empty _ _ (List.forall_mem_nil _)) ?_
  intro s hs f hf
  exact hs.declareConstructor _ _ hshape (List.forall_mem_singleton.2 (hfields f hf))

def one : Value := Build.int manager 1

theorem isFirstApplicable_side : IsFirstApplicable 0 "square" [one] (store.constructorsOf shape)
    (square length (some "side")) := by
  refine ⟨⟨rfl, _, rfl⟩, [square manager.str none],
    [square length (some "edge"), square manager.value none], rfl, ?_⟩
  rw [List.forall_mem_singleton]
  rintro ⟨-, v, hv⟩
  cases hv

end Shapes

open Shapes in
/-- The square of a number is one by its side, and a square of two numbers is none. -/
theorem construct_square :
    (∃ v, Build.construct store 0 shape "square" [one] = .ok v ∧
      Build.constructor 0 (square length (some "side")) [one] = .ok v ∧
      v.ty = square length (some "side")) ∧
    Build.construct store 0 shape "square" [one, one] =
      .error (.undeclaredConstructor shape "square" [manager.int, manager.int]) := by
  obtain ⟨-, hfirst, -⟩ := reachable_store.construct_applies_first shape "square" [one] 0
  obtain ⟨-, -, hnone⟩ := reachable_store.construct_applies_first shape "square" [one, one] 0
  refine ⟨?_, hnone ?_⟩
  · obtain ⟨v, hv, hw, hty, -⟩ := hfirst _ isFirstApplicable_side
    exact ⟨v, hv, hw, hty⟩
  · have hlist : store.constructorsOf shape = fields.map fun f => square f.1 f.2 := rfl
    rw [hlist]
    rintro t ht ⟨-, v, hv⟩
    obtain ⟨f, -, rfl⟩ := List.mem_map.1 ht
    cases hv

end Store

end ValueAlgebra
