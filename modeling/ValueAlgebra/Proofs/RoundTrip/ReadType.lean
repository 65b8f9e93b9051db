import Mathlib.Data.List.Forall2
import ValueAlgebra.Build.Eager
import ValueAlgebra.Proofs.Value.Parts

/-!
# Types of values read back

Text does not say which types a value had. A reader infers them again, from the parts to the
whole: it takes least upper bounds of the elements, and for every constructor application the
first overload in its store that accepts the types of the arguments. There may be none.

## Main definitions

- `Value.readTy?`: the type that a value has when its text is read
-/

namespace ValueAlgebra

namespace Value

variable (st : Store) (m : Manager)

/-- The overload that a constructor application is read as, by the names of its data type and its
constructor. -/
def overload? (t : Ty) (args : List Ty) : Option Ty :=
  (st.findAdt? (t.ownerName?.getD "")).bind fun adt =>
    st.constructorFor? adt (t.constructorName?.getD "") args

mutual

/-- The type that a value has when its text is read by a reader with store `st` whose types come
from `m`, if all overloads are found. -/
def readTy? : Value → Option Ty
  | int .. => some m.int
  | double .. => some m.double
  | bool .. => some m.bool
  | str .. => some m.str
  | loc .. => some m.loc
  | tuple _ _ vs => (readTys? vs).map m.tuple
  | list _ _ vs => (readTys? vs).map fun ts => m.list (m.lubOf ts)
  | set _ _ ⟨⟨es⟩, _⟩ => (elemTys? es).map fun ts => m.set (m.lubOf ts)
  | map _ _ ⟨⟨es⟩, _⟩ =>
    (keyTys? es).bind fun ks => (valTys? es).map fun xs => m.map (m.lubOf ks) (m.lubOf xs)
  | node _ _ _ vs => (readTys? vs).map fun _ => m.node
  | constructor t _ vs => (readTys? vs).bind (overload? st t)

def readTys? : List Value → Option (List Ty)
  | [] => some []
  | v :: vs => v.readTy?.bind fun t => (readTys? vs).map (t :: ·)

def elemTys? : List (Value × Unit) → Option (List Ty)
  | [] => some []
  | (v, _) :: es => v.readTy?.bind fun t => (elemTys? es).map (t :: ·)

def keyTys? : List (Value × Value) → Option (List Ty)
  | [] => some []
  | (k, _) :: es => k.readTy?.bind fun t => (keyTys? es).map (t :: ·)

def valTys? : List (Value × Value) → Option (List Ty)
  | [] => some []
  | (_, v) :: es => v.readTy?.bind fun t => (valTys? es).map (t :: ·)

end

variable {st m}

theorem elemTys?_eq (es : List (Value × Unit)) :
    elemTys? st m es = readTys? st m (es.map Prod.fst) := by
  induction es with
  | nil => rfl
  | cons e es ih => rw [elemTys?, ih, List.map_cons, readTys?]

theorem keyTys?_eq (es : List (Value × Value)) :
    keyTys? st m es = readTys? st m (es.map Prod.fst) := by
  induction es with
  | nil => rfl
  | cons e es ih => rw [keyTys?, ih, List.map_cons, readTys?]

theorem valTys?_eq (es : List (Value × Value)) :
    valTys? st m es = readTys? st m (es.map Prod.snd) := by
  induction es with
  | nil => rfl
  | cons e es ih => rw [valTys?, ih, List.map_cons, readTys?]

theorem readTy?_set (t : Ty) (c : Cell) (es : Table Value Unit) :
    (set t c es).readTy? st m = (readTys? st m es.keys).map fun ts => m.set (m.lubOf ts) := by
  obtain ⟨⟨es⟩, index⟩ := es
  rw [readTy?, elemTys?_eq]
  rfl

theorem readTy?_map (t : Ty) (c : Cell) (es : Table Value Value) :
    (map t c es).readTy? st m = (readTys? st m es.keys).bind fun ks =>
      (readTys? st m es.values).map fun xs => m.map (m.lubOf ks) (m.lubOf xs) := by
  obtain ⟨⟨es⟩, index⟩ := es
  rw [readTy?, keyTys?_eq, valTys?_eq]
  rfl

/-- Values are read back one by one. -/
theorem readTys?_eq_some {vs : List Value} {ts : List Ty} : readTys? st m vs = some ts ↔
    List.Forall₂ (fun v t => v.readTy? st m = some t) vs ts := by
  induction vs generalizing ts with
  | nil =>
    rw [readTys?]
    constructor
    · rintro ⟨⟩
      exact .nil
    · rintro ⟨⟩
      rfl
  | cons v vs ih =>
    rw [readTys?]
    constructor
    · intro h
      obtain ⟨t, ht, h⟩ := Option.bind_eq_some_iff.1 h
      obtain ⟨ts, hts, rfl⟩ := Option.map_eq_some_iff.1 h
      exact .cons ht (ih.1 hts)
    · rintro (_ | ⟨ht, hts⟩)
      rw [ht, ih.2 hts]
      rfl

theorem isSome_readTys? {vs : List Value} :
    (readTys? st m vs).isSome = true ↔ ∀ v ∈ vs, (v.readTy? st m).isSome = true := by
  induction vs with
  | nil => exact ⟨fun _ => List.forall_mem_nil _, fun _ => rfl⟩
  | cons v vs ih =>
    rw [readTys?, List.forall_mem_cons, ← ih]
    cases v.readTy? st m with
    | none => simp
    | some t => simp

end Value

end ValueAlgebra
