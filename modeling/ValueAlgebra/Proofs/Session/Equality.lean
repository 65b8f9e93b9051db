import ValueAlgebra.Proofs.Session.Coherent
import ValueAlgebra.Proofs.Value.Contents

/-!
# Equality as an equivalence relation

The values at hand in a program are compared by what they contain. Two sets are compared from one
side only, by their sizes and by looking the elements of one up in the table of the other, so that
symmetry rests on both tables being free of duplicates; maps likewise. Equality is an equivalence,
and the one that agrees with itself on the parts of values.
-/

namespace ValueAlgebra

namespace Session

variable {s : Session} {v w : Value}

namespace Coherent

theorem equivalence (h : s.Coherent) :
    Equivalence fun v w : { v : Value // s.Has v } => (v.1 == w.1) = true where
  refl v := by
    rw [h.beq_iff_same v.2 v.2]
    exact Value.same_refl (h.sound v.2)
  symm {v w} hvw := by
    rw [h.beq_iff_same v.2 w.2] at hvw
    rw [h.beq_iff_same w.2 v.2]
    exact Value.same_symm (h.sound v.2) (h.sound w.2) hvw
  trans {u v w} huv hvw := by
    rw [h.beq_iff_same u.2 v.2] at huv
    rw [h.beq_iff_same v.2 w.2] at hvw
    rw [h.beq_iff_same u.2 w.2]
    exact Value.same_trans (h.sound u.2) (h.sound v.2) (h.sound w.2) huv hvw

/-- Equality is determined by equality of parts. -/
theorem beq_iff_agrees (h : s.Coherent) (hv : s.Has v) (hw : s.Has w) :
    (v == w) = true ↔ v.Agrees (fun p q => (p == q) = true) w := by
  have hparts (p : Value) (hp : p ∈ v.parts) (q : Value) (hq : q ∈ w.parts) :
      (p == q) = true ↔ p.same q = true := h.beq_iff_same (hv.part hp) (hw.part hq)
  rw [h.beq_iff_same hv hw, Value.same_iff_agrees (h.sound hv) (h.sound hw)]
  constructor
  · intro ha
    exact ha.imp fun p hp q hq => (hparts p hp q hq).2
  · intro ha
    exact ha.imp fun p hp q hq => (hparts p hp q hq).1

end Coherent

/-- Equality of the values at hand is an equivalence relation, which looks at the contents of
values and compares parts by itself. -/
theorem Reachable.beq_equivalence (hs : s.Reachable) :
    (Equivalence fun v w : { v : Value // s.Has v } => (v.1 == w.1) = true) ∧
      ∀ v w : Value, s.Has v → s.Has w →
        ((v == w) = true ↔ v.Agrees (fun p q => (p == q) = true) w) :=
  ⟨hs.coherent.equivalence, fun _ _ => hs.coherent.beq_iff_agrees⟩

/-! ### Maps keyed by sets of numbers, applications and empty collections -/

namespace Nested

def manager : Manager := ⟨0⟩

/-- The constructor `E::c` over one argument of a type. -/
def overload (t : Ty) : Ty := manager.constructor (manager.adt "E" []) "c" [⟨t, none⟩]

def number : Value := Build.int manager 1

def positiveNaN : Value := Build.double manager .nan

/-- A NaN with a sign and a payload. -/
def negativeNaN : Value := Build.double manager ⟨0xfff8000000000001⟩

def zero : Value := Build.double manager ⟨0⟩

def minusZero : Value := Build.double manager ⟨0x8000000000000000⟩

def scalars : Session :=
  ((((({} : Session).add number).add positiveNaN).add negativeNaN).add zero).add minusZero

def noNumbers : Value := Build.emptySet manager 5 manager.int

/-- The empty relation over empty tuples. -/
def noRows : Value := Build.emptySet manager 6 (manager.tuple [])

def narrowed : Value := .constructor (overload manager.int) 7 [number]

def widened : Value := .constructor (overload manager.value) 8 [number]

def parts : Session := (((scalars.add noNumbers).add noRows).add narrowed).add widened

def first : Value := Build.set manager 9 [zero, positiveNaN, noNumbers, narrowed, minusZero]

/-- The elements of `first` in another order, under other types and bits. -/
def second : Value := Build.set manager 10 [widened, minusZero, noRows, zero, negativeNaN]

/-- The elements of `first`, some of them twice. -/
def third : Value :=
  Build.set manager 11 [noRows, negativeNaN, widened, zero, positiveNaN, minusZero, narrowed]

def sets : Session := ((parts.add first).add second).add third

def firstMap : Value := Build.map manager 12 [(first, third), (noRows, number)]

def secondMap : Value := Build.map manager 13 [(noNumbers, number), (third, second)]

/-- The entry of an empty set is overwritten. -/
def thirdMap : Value := Build.map manager 14 [(noRows, zero), (second, first), (noNumbers, number)]

def session : Session := ((sets.add firstMap).add secondMap).add thirdMap

theorem made_overload {t : Ty} (h : t.Made) : (overload t).Made :=
  .constructor _ _ (.adt _ _ (List.forall_mem_nil _)) (List.forall_mem_singleton.2 h)

theorem reachable_parts : parts.Reachable := by
  have hscalars : scalars.Reachable :=
    .make (.make (.make (.make (.make .start (.int _ _)) (.double _ _)) (.double _ _))
      (.double _ _)) (.double _ _)
  have hempty : ((scalars.add noNumbers).add noRows).Reachable :=
    .make (.make hscalars (.emptySet manager (.basic _ _)))
      (.emptyRelation manager (.tuple _ (List.forall_mem_nil _)) rfl)
  have hnumber : ((scalars.add noNumbers).add noRows).Has number :=
    has_of_mem (by simp [scalars, add])
  have hnumber' : (((scalars.add noNumbers).add noRows).add narrowed).Has number :=
    has_of_mem (by simp [scalars, add])
  exact .make (.make hempty
    (.constructor (made_overload (.basic _ .int)) (List.forall_mem_singleton.2 hnumber) rfl))
    (.constructor (made_overload (.basic _ .value)) (List.forall_mem_singleton.2 hnumber') rfl)

theorem reachable_sets : sets.Reachable := by
  refine .make (.make (.make reachable_parts ?_) ?_) ?_
  all_goals
    refine .set manager (has_of_subset ?_)
    simp [parts, scalars, add]

theorem reachable_session : session.Reachable := by
  refine .make (.make (.make reachable_sets ?_) ?_) ?_
  all_goals
    refine .map manager ?_
    simp [HasEntry, has_of_mem, sets, parts, scalars, add]

theorem firstMap_beq_secondMap : (firstMap == secondMap) = true := by decide +kernel

theorem secondMap_beq_thirdMap : (secondMap == thirdMap) = true := by decide +kernel

end Nested

open Nested in
/-- Equal maps, made in different orders from equal parts of different types and bits. -/
theorem beq_nested_maps :
    (firstMap == firstMap) = true ∧ (secondMap == firstMap) = true ∧
      (firstMap == thirdMap) = true ∧ ¬(zero == minusZero) = true := by
  obtain ⟨heq, hagrees⟩ := reachable_session.beq_equivalence
  have hfirst : session.Has firstMap := has_of_mem (.tail _ (.tail _ (.head _)))
  have hsecond : session.Has secondMap := has_of_mem (.tail _ (.head _))
  have hthird : session.Has thirdMap := has_of_mem (.head _)
  have hzero : session.Has zero := has_of_mem (by simp [session, sets, parts, scalars, add])
  have hminusZero : session.Has minusZero :=
    has_of_mem (by simp [session, sets, parts, scalars, add])
  refine ⟨heq.refl ⟨_, hfirst⟩, ?_, ?_, ?_⟩
  · exact heq.symm (x := ⟨_, hfirst⟩) (y := ⟨_, hsecond⟩) firstMap_beq_secondMap
  · exact heq.trans (x := ⟨_, hfirst⟩) (y := ⟨_, hsecond⟩) (z := ⟨_, hthird⟩)
      firstMap_beq_secondMap secondMap_beq_thirdMap
  · rw [hagrees zero minusZero hzero hminusZero]
    rintro (⟨hnan, -⟩ | h)
    · cases hnan
    · cases h

end Session

end ValueAlgebra
