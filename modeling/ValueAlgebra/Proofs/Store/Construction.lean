import ValueAlgebra.Build.Eager
import ValueAlgebra.Proofs.Store.Reachable
import ValueAlgebra.Proofs.Ty.Join

/-!
# Constructors looked up in a store

`Build.construct` is asked for a constructor of some type and looks among those filed under the
name of that type. They belong to the data type which the store declares under the name, and that
need not be the type asked for: data types of one name may differ in their parameters. A type that
the store declares itself is always respected.

## Main definitions

- `Store.Owned`: constructors are filed under the data type that they belong to
-/

namespace ValueAlgebra

namespace Build

theorem construct_eq_ok {st : Store} {adt : Ty} {name : String} {vs : List Value} {c : Cell}
    {v : Value} : construct st c adt name vs = .ok v ↔
      ∃ t, st.constructorFor? adt name (vs.map Value.ty) = some t ∧ .constructor t c vs = v := by
  rw [construct]
  cases st.constructorFor? adt name (vs.map Value.ty) with
  | none => simp
  | some t => simp

end Build

namespace Ty

/-- Above a constructor is what is above its data type, and what has its own shape. -/
theorem constructor_isSubtypeOf_iff {o : Origin} {a u : Ty} {n : String} {fs : List (Field Ty)}
    (ha : ∃ o' m ps, a = adt o' m ps) : (constructor o a n fs).isSubtypeOf u = true ↔
      a.isSubtypeOf u = true ∨ (constructor o a n fs).sameShape u.unalias = true := by
  constructor
  · intro h
    rcases of_constructor_isBelow h with ⟨_, hu⟩ | ⟨_, _, _, -, hau⟩ | ⟨_, _, _, _, -, hs⟩
    · exact .inl (isSubtypeOf_of_unalias_value hu)
    · exact .inl hau
    · exact .inr hs
  · rintro (h | h)
    · obtain ⟨_, _, _, rfl⟩ := ha
      rcases of_adt_isBelow h with ⟨_, hu⟩ | ⟨_, _, hu, -⟩
      · exact isSubtypeOf_of_unalias_value hu
      · rw [isSubtypeOf, hu] at h ⊢
        rwa [isBelow]
    · rw [← isSubtypeOf_unalias_right, ← isSubtypeOf_congr_right (sameShape_iff.1 h)]
      exact isSubtypeOf_refl _

end Ty

namespace Store

variable {s s' : Store}

/-- Every constructor is filed under the name of a declared data type, to which it belongs. -/
def Owned (s : Store) : Prop := ∀ name, ∀ c ∈ s.constructors.getD name [],
  ∃ o a n fs adt, c = .constructor o a n fs ∧ s.findAdt? name = some adt ∧ adt.sameShape a = true

namespace Owned

theorem empty : Owned ∅ := by
  intro name c hc
  rw [Consistent.getD_constructors_empty] at hc
  cases hc

theorem addAdt {o : Origin} {name : String} {params : List Ty} (h : s.Owned)
    (hadt : s.findAdt? name = none) : (s.addAdt (.adt o name params)).Owned := by
  intro n c hc
  obtain ⟨o', a, m, fs, adt, rfl, hfind, hs⟩ := h n c hc
  refine ⟨o', a, m, fs, adt, rfl, ?_, hs⟩
  rw [findAdt?_addAdt]
  split
  · -- A name in use is not declared again.
    next heq =>
    obtain rfl := Std.LawfulEqCmp.eq_of_compare heq
    rw [hadt] at hfind
    cases hfind
  · exact hfind

theorem addConstructor {o : Origin} {a adt : Ty} {adtName n : String} {fs : List (Field Ty)}
    (h : s.Owned) (hadt : s.findAdt? adtName = some adt) (hs : adt.sameShape a = true) :
    (s.addConstructor adtName (.constructor o a n fs)).Owned := by
  intro m c hc
  rcases of_mem_addConstructor hc with hc | ⟨rfl, rfl⟩
  · exact h m c hc
  · exact ⟨o, a, n, fs, adt, rfl, hadt, hs⟩

end Owned

theorem Grows.owned (h : s.Grows s') (hs : s.Owned) : s'.Owned := by
  induction h with
  | refl => exact hs
  | addAlias _ _ _ _ ih => exact ih
  | addAdt _ _ _ hadt ih => exact ih.addAdt hadt
  | addConstructor _ _ hadt hs _ ih => exact ih.addConstructor hadt hs

/-- What is applied was filed under the name of the type asked for. It is of the data type that
the store declares under this name, and of the type asked for exactly if that data type is or if
the constructor itself was asked for. -/
theorem Reachable.construct_isSubtypeOf_iff (hs : s.Reachable) {adt : Ty} {name : String}
    {children : List Value} {c : Cell} {v : Value}
    (h : Build.construct s c adt name children = .ok v) :
    ∃ n declared, adt.name? = some n ∧ s.findAdt? n = some declared ∧
      v.ty.isSubtypeOf declared = true ∧
        (v.ty.isSubtypeOf adt = true ↔
          declared.isSubtypeOf adt = true ∨ v.ty.sameShape adt.unalias = true) := by
  obtain ⟨t, ht, rfl⟩ := Build.construct_eq_ok.1 h
  obtain ⟨n, hname, hmem⟩ := of_mem_constructorsOf (constructorFor?_eq_some ht).1
  obtain ⟨o, a, m, fs, declared, rfl, hdecl, hshape⟩ := hs.grows.owned .empty n t hmem
  obtain ⟨-, ha⟩ := (hs.consistent.constructor_wellFormed n _ hmem).owner_of_constructor
  -- Subtyping sees the owner as it sees the declared data type, which has the same shape.
  have hbelow (u : Ty) : a.isSubtypeOf u = declared.isSubtypeOf u :=
    (Ty.isSubtypeOf_congr_left (Ty.sameShape_iff.1 hshape)).symm
  refine ⟨n, declared, hname, hdecl, ?_, ?_⟩
  · rw [Value.ty, Ty.constructor_isSubtypeOf_iff ha, hbelow]
    exact .inl (Ty.isSubtypeOf_refl declared)
  · rw [Value.ty, Ty.constructor_isSubtypeOf_iff ha, hbelow]

/-! ### Two data types of one name -/

namespace Sample

def manager : Manager := ⟨0⟩

/-- `E[int]`, which the store declares. -/
def ints : Ty := manager.adt "E" [manager.int]

/-- `E[str]`, which another store may declare. -/
def texts : Ty := manager.adt "E" [manager.str]

/-- The constant `E[int]::c()`. -/
def constant : Ty := manager.constructor ints "c" []

/-- The store of `ints` and `constant`. -/
def intStore : Store :=
  stateAfter (manager.declareConstructor ints "c" [])
    (stateAfter (manager.declareAdt "E" [manager.int]) ∅)

theorem reachable_intStore : intStore.Reachable := by
  have hparams : ∀ t ∈ [manager.int], t.Made := List.forall_mem_singleton.2 (.basic _ _)
  exact .declareConstructor (.declareAdt .empty _ _ hparams) _ _ (.adt _ _ hparams)
    (List.forall_mem_nil _)

/-- The lookup goes by the name `E` alone. -/
theorem construct_texts :
    Build.construct intStore 0 texts "c" [] = .ok (.constructor constant 0 []) :=
  rfl

end Sample

open Sample in
theorem construct_texts_isSubtypeOf_iff :
    ∃ n declared, texts.name? = some n ∧ intStore.findAdt? n = some declared ∧
      constant.isSubtypeOf declared = true ∧
        (constant.isSubtypeOf texts = true ↔
          declared.isSubtypeOf texts = true ∨ constant.sameShape texts.unalias = true) :=
  reachable_intStore.construct_isSubtypeOf_iff construct_texts

open Sample in
/-- Asked for a constructor of one data type, a store may apply one of another. -/
theorem exists_construct_of_other_type : ∃ (s : Store) (adt : Ty) (name : String)
    (children : List Value) (c : Cell) (v : Value), s.Reachable ∧ adt.Made ∧
      Build.construct s c adt name children = .ok v ∧ v.ty.isSubtypeOf adt = false := by
  refine ⟨intStore, texts, "c", [], 0, .constructor constant 0 [], reachable_intStore, ?_,
    construct_texts, rfl⟩
  exact .adt _ _ (List.forall_mem_singleton.2 (.basic _ _))

end Store

end ValueAlgebra
