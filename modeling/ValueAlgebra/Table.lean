import Std.Data.ExtTreeMap

/-!
# Insertion-ordered tables

A table keeps its entries in the order of insertion, at most one for each key, and finds them
through an index from hashes to positions. The hash of a key and the test for the key are
arguments of each operation, so that a key type may contain tables of itself.

## Main definitions

- `Table`: entries and their index
- `Table.position?`, `Table.get?`, `Table.contains`: looking up a key
- `Table.insert`: a new key goes last; a key already present keeps its place and takes the new
  value
-/

open Std (ExtTreeMap)

namespace ValueAlgebra

structure Table (κ ν : Type) where
  entries : Array (κ × ν) := #[]
  /-- The positions of the keys with a given hash, in ascending order. -/
  index : ExtTreeMap UInt64 (List Nat) := ∅

namespace Table

variable {κ ν : Type}

instance : EmptyCollection (Table κ ν) := ⟨{}⟩

instance : Inhabited (Table κ ν) := ⟨∅⟩

def size (t : Table κ ν) : Nat := t.entries.size

/-- The entries in the order in which their keys were first inserted. -/
def toList (t : Table κ ν) : List (κ × ν) := t.entries.toList

def keys (t : Table κ ν) : List κ := t.toList.map Prod.fst

def values (t : Table κ ν) : List ν := t.toList.map Prod.snd

/-- The position of the first key with hash `h` that passes the test. -/
def position? (t : Table κ ν) (h : UInt64) (isKey : κ → Bool) : Option Nat :=
  (t.index.getD h []).find? fun i => t.entries[i]?.any fun e => isKey e.1

def get? (t : Table κ ν) (h : UInt64) (isKey : κ → Bool) : Option ν :=
  (t.position? h isKey).bind fun i => t.entries[i]?.map Prod.snd

def contains (t : Table κ ν) (h : UInt64) (isKey : κ → Bool) : Bool :=
  (t.position? h isKey).isSome

/-- Binds `key`, whose hash is `h` and which `isKey` recognises, to `value`. -/
def insert (t : Table κ ν) (h : UInt64) (isKey : κ → Bool) (key : κ) (value : ν) :
    Table κ ν :=
  match t.position? h isKey with
  | some i => { t with entries := t.entries.modify i fun e => (e.1, value) }
  | none =>
    { entries := t.entries.push (key, value)
      index := t.index.insert h (t.index.getD h [] ++ [t.entries.size]) }

/-- The index lists, for every hash, the positions of the keys that have it. -/
def Indexed (hash : κ → UInt64) (t : Table κ ν) : Prop :=
  ∀ h i, i ∈ t.index.getD h [] ↔ ∃ e, t.entries[i]? = some e ∧ hash e.1 = h

@[simp]
theorem toList_empty : (∅ : Table κ ν).toList = [] := rfl

theorem length_toList (t : Table κ ν) : t.toList.length = t.size := by
  simp [toList, size]

theorem indexed_empty (hash : κ → UInt64) : Indexed hash (∅ : Table κ ν) := by
  intro h i
  have hi : (∅ : Table κ ν).index.getD h [] = [] := Std.ExtTreeMap.getD_empty
  have he : (∅ : Table κ ν).entries = #[] := rfl
  simp [hi, he]

/-- A new key goes last. -/
theorem toList_insert_of_none {t : Table κ ν} {h : UInt64} {isKey : κ → Bool} {k : κ} {x : ν}
    (hp : t.position? h isKey = none) : (t.insert h isKey k x).toList = t.toList ++ [(k, x)] := by
  rw [insert, hp]
  exact Array.toList_push

theorem keys_insert_of_none {t : Table κ ν} {h : UInt64} {isKey : κ → Bool} {k : κ} {x : ν}
    (hp : t.position? h isKey = none) : (t.insert h isKey k x).keys = t.keys ++ [k] := by
  rw [keys, toList_insert_of_none hp, List.map_append]
  rfl

theorem keys_insert_of_some {t : Table κ ν} {h : UInt64} {isKey : κ → Bool} {k : κ} {x : ν}
    {i : Nat} (hp : t.position? h isKey = some i) : (t.insert h isKey k x).keys = t.keys := by
  rw [insert, hp]
  refine List.ext_getElem? fun j => ?_
  simp only [keys, toList, List.getElem?_map, Array.getElem?_toList, Array.getElem?_modify]
  split
  · rw [Option.map_map]
    rfl
  · rfl

namespace Indexed

variable {hash : κ → UInt64} {t : Table κ ν} {h : UInt64} {isKey : κ → Bool}

/-- Looking up finds an entry that has the hash and passes the test. -/
theorem of_position?_eq_some (ht : Indexed hash t) {i : Nat} (hi : t.position? h isKey = some i) :
    ∃ e, t.entries[i]? = some e ∧ hash e.1 = h ∧ isKey e.1 = true := by
  obtain ⟨e, he, hh⟩ := (ht h i).1 (List.mem_of_find?_eq_some hi)
  refine ⟨e, he, hh, ?_⟩
  simpa [he] using List.find?_some hi

/-- Looking up fails only if no entry has the hash and passes the test. -/
theorem position?_eq_none_iff (ht : Indexed hash t) :
    t.position? h isKey = none ↔ ∀ e ∈ t.toList, hash e.1 = h → isKey e.1 = false := by
  simp only [position?, List.find?_eq_none, toList, Array.mem_toList_iff]
  constructor
  · intro hn e he hh
    obtain ⟨i, hi⟩ := Array.mem_iff_getElem?.1 he
    simpa [hi] using hn i ((ht h i).2 ⟨e, hi, hh⟩)
  · intro hn i hi
    obtain ⟨e, he, hh⟩ := (ht h i).1 hi
    simpa [he] using hn e (Array.mem_of_getElem? he) hh

theorem contains_iff (ht : Indexed hash t) :
    t.contains h isKey = true ↔ ∃ e ∈ t.toList, hash e.1 = h ∧ isKey e.1 = true := by
  rw [contains, Option.isSome_iff_ne_none, ne_eq, ht.position?_eq_none_iff]
  simp

protected theorem insert (ht : Indexed hash t) (key : κ) (value : ν) :
    Indexed hash (t.insert (hash key) isKey key value) := by
  intro h i
  unfold Table.insert
  split
  · rename_i j hj
    simp only [Array.getElem?_modify, ht h i]
    split
    · cases t.entries[i]? <;> simp
    · rfl
  · simp only [Std.ExtTreeMap.getD_insert, Array.getElem?_push]
    by_cases hk : hash key = h
    · subst hk
      simp only [Std.ReflCmp.compare_self, if_true, List.mem_append, ht (hash key) i,
        List.mem_singleton]
      by_cases hi : i = t.entries.size
      · simp [hi]
      · simp [hi]
    · have hc : compare (hash key) h ≠ .eq := fun hc => hk (Std.LawfulEqCmp.eq_of_compare hc)
      simp only [hc, if_false, ht h i]
      by_cases hi : i = t.entries.size
      · simp [hi, hk]
      · simp [hi]

end Indexed

end Table

end ValueAlgebra
