import ValueAlgebra.Proofs.Table.Latest
import ValueAlgebra.Table

/-!
# Tables over any index

A table keeps its entries in an array and only their positions in a hash index. What it says of its
entries does not depend on the hashes or on the index, as long as equal keys have equal hashes and
the index finds a stored position that passes a test whenever one is stored under the hash.
`HashIndex` states this for an index of any sort, and `HashTable` is the table over it. `Table` is
the table over a tree of positions.

`HashTable.Records` ties a table to the entries inserted into it. Each insertion keeps it, whether
it adds an entry, which goes into the index as well, or replaces a value in place.

## Main definitions

- `HashIndex`: what a table asks of its index
- `HashTable`: tables over an index
- `HashTable.Records`: the table holds what was inserted
- `Table.toHashTable`: the table as one over its own index
-/

open Std (ExtTreeMap)

namespace ValueAlgebra

/-- An index of positions by hashes. `Stored` says which positions went in under which hash. -/
class HashIndex (ι : Type) where
  empty : ι
  /-- Stores a position under its hash. An index that moves what it stores asks `rehash` for the
  hashes again. -/
  store (index : ι) (h : UInt64) (i : Nat) (rehash : Nat → UInt64) : ι
  /-- A stored position that passes the test. Positions of other hashes may be tested as well. -/
  find? (index : ι) (h : UInt64) (test : Nat → Bool) : Option Nat
  Stored (index : ι) (h : UInt64) (i : Nat) : Prop
  not_stored_empty (h : UInt64) (i : Nat) : ¬Stored empty h i
  stored_store {index : ι} {h : UInt64} {i : Nat} {rehash : Nat → UInt64}
    (hr : ∀ h' j, Stored index h' j → rehash j = h') (h' : UInt64) (j : Nat) :
    Stored (store index h i rehash) h' j ↔ Stored index h' j ∨ h' = h ∧ j = i
  of_find?_eq_some {index : ι} {h : UInt64} {test : Nat → Bool} {i : Nat}
    (hi : find? index h test = some i) : (∃ h', Stored index h' i) ∧ test i = true
  of_find?_eq_none {index : ι} {h : UInt64} {test : Nat → Bool}
    (hn : find? index h test = none) (i : Nat) (hi : Stored index h i) : test i = false

/-- A table over an index of its positions. -/
structure HashTable (ι κ ν : Type) where
  entries : Array (κ × ν)
  index : ι

namespace HashTable

variable {ι κ ν : Type} [HashIndex ι]

def empty : HashTable ι κ ν := ⟨#[], HashIndex.empty⟩

/-- The entries in the order in which their keys were first inserted. -/
def toList (t : HashTable ι κ ν) : List (κ × ν) := t.entries.toList

def size (t : HashTable ι κ ν) : Nat := t.entries.size

/-- The position of a key that passes the test, sought under hash `h`. -/
def position? (t : HashTable ι κ ν) (h : UInt64) (isKey : κ → Bool) : Option Nat :=
  HashIndex.find? t.index h fun i => t.entries[i]?.any fun e => isKey e.1

def get? (t : HashTable ι κ ν) (h : UInt64) (isKey : κ → Bool) : Option ν :=
  (t.position? h isKey).bind fun i => t.entries[i]?.map Prod.snd

def contains (t : HashTable ι κ ν) (h : UInt64) (isKey : κ → Bool) : Bool :=
  (t.position? h isKey).isSome

/-- Binds `key`, which `isKey` recognises, to `value`. -/
def insert (hash : κ → UInt64) (isKey : κ → Bool) (t : HashTable ι κ ν) (key : κ) (value : ν) :
    HashTable ι κ ν :=
  match t.position? (hash key) isKey with
  | some i => { t with entries := t.entries.modify i fun e => (e.1, value) }
  | none =>
    { entries := t.entries.push (key, value)
      index := HashIndex.store t.index (hash key) t.entries.size fun i =>
        (t.entries.push (key, value))[i]?.elim 0 fun e => hash e.1 }

/-- The table that entries are inserted into one after the other. -/
def ofEntries [BEq κ] (hash : κ → UInt64) (es : List (κ × ν)) : HashTable ι κ ν :=
  es.foldl (fun t e => t.insert hash (· == e.1) e.1 e.2) empty

/-- The table holds what is left of the inserted entries `es`, which have keys among `P`, and every
entry is stored under the hash of its key. -/
structure Records [BEq κ] (P : κ → Prop) (hash : κ → UInt64) (t : HashTable ι κ ν)
    (es : List (κ × ν)) : Prop where
  held : ∀ e ∈ es, P e.1
  indexed : ∀ h i, HashIndex.Stored t.index h i ↔ ∃ e, t.entries[i]? = some e ∧ hash e.1 = h
  keys : t.toList.map Prod.fst = (es.map Prod.fst).eraseDups
  values : ∀ e ∈ t.toList, lastFor es e.1 = some e.2

/-- What a table over an index says of the entries inserted into it. -/
structure Means [BEq κ] (P : κ → Prop) (hash : κ → UInt64)
    (t : HashTable ι κ ν) (es : List (κ × ν)) : Prop where
  entries : t.toList = latest es
  size : t.size = (es.map Prod.fst).eraseDups.length
  contains : ∀ k, P k → (t.contains (hash k) (· == k) = true ↔ ∃ e ∈ es, (e.1 == k) = true)
  get? : ∀ k, P k → t.get? (hash k) (· == k) = lastFor es k

namespace Records

variable [BEq κ] {P : κ → Prop} {hash : κ → UInt64} {t : HashTable ι κ ν} {es : List (κ × ν)}
  {k : κ} {x : ν} {isKey : κ → Bool} {i : Nat}

protected theorem empty : (empty : HashTable ι κ ν).Records P hash [] where
  held := nofun
  indexed h i := by
    refine iff_of_false (HashIndex.not_stored_empty h i) ?_
    rintro ⟨e, he, -⟩
    cases he
  keys := rfl
  values := nofun

theorem toList_eq (h : t.Records P hash es) : t.toList = latest es := eq_latest h.keys h.values

/-- The number of entries is that of the classes of keys. -/
theorem size_eq (h : t.Records P hash es) : t.size = (es.map Prod.fst).eraseDups.length := by
  rw [← h.keys, List.length_map, toList, Array.length_toList, size]

theorem held_entry (h : t.Records P hash es) {e : κ × ν} (he : e ∈ t.toList) : P e.1 := by
  have hmem : e.1 ∈ (es.map Prod.fst).eraseDups := h.keys ▸ List.mem_map_of_mem he
  obtain ⟨e', he', heq⟩ := List.mem_map.1 (mem_of_mem_eraseDups _ _ hmem)
  exact heq ▸ h.held e' he'

theorem held_getElem? (h : t.Records P hash es) {e : κ × ν} (he : t.entries[i]? = some e) :
    P e.1 :=
  h.held_entry (Array.mem_toList_iff.2 (Array.mem_of_getElem? he))

/-- A key that is found is equal to the one that is sought, whatever hash it is sought under. -/
theorem of_position?_eq_some (h : t.Records P hash es)
    (hkey : ∀ k', P k' → isKey k' = (k' == k)) {hk : UInt64}
    (hi : t.position? hk isKey = some i) :
    ∃ e, t.entries[i]? = some e ∧ P e.1 ∧ (e.1 == k) = true := by
  obtain ⟨-, htest⟩ := HashIndex.of_find?_eq_some hi
  cases he : t.entries[i]? with
  | none =>
    rw [he] at htest
    cases htest
  | some e =>
    have hP : P e.1 := h.held_getElem? he
    rw [he] at htest
    exact ⟨e, rfl, hP, (hkey e.1 hP).symm.trans htest⟩

/-- Equal keys are in the same place. -/
theorem eq_of_beq (h : t.Records P hash es) (heq : BeqOn P) {j : Nat} {e f : κ × ν}
    (hi : t.entries[i]? = some e) (hj : t.entries[j]? = some f) (hef : (e.1 == f.1) = true) :
    i = j := by
  have hd : (t.toList.map Prod.fst).Pairwise fun a b => (b == a) = false :=
    h.keys ▸ pairwise_eraseDups _
  have hkey {n : Nat} {g : κ × ν} (hn : t.entries[n]? = some g) :
      (t.toList.map Prod.fst)[n]? = some g.1 := by
    rw [List.getElem?_map, toList, Array.getElem?_toList, hn, Option.map_some]
  have hle {n n' : Nat} {g g' : κ × ν} (hn : t.entries[n]? = some g)
      (hn' : t.entries[n']? = some g') (hgg' : (g'.1 == g.1) = true) : ¬n < n' := by
    intro hlt
    obtain ⟨hl, hg⟩ := List.getElem?_eq_some_iff.1 (hkey hn)
    obtain ⟨hl', hg'⟩ := List.getElem?_eq_some_iff.1 (hkey hn')
    have hne := List.pairwise_iff_getElem.1 hd n n' hl hl' hlt
    rw [hg, hg', hgg'] at hne
    cases hne
  have hfe := heq.symm e.1 f.1 (h.held_getElem? hi) (h.held_getElem? hj) hef
  have := hle hi hj hfe
  have := hle hj hi hef
  omega

/-- A key that is there keeps its place and takes the new value. -/
theorem insert_of_some (h : t.Records P hash es) (heq : BeqOn P) (hk : P k)
    (hkey : ∀ k', P k' → isKey k' = (k' == k)) (hi : t.position? (hash k) isKey = some i) :
    (⟨t.entries.modify i fun e => (e.1, x), t.index⟩ : HashTable ι κ ν).Records P hash
      (es ++ [(k, x)]) := by
  obtain ⟨e, he, hP, hek⟩ := h.of_position?_eq_some hkey hi
  have hke : (k == e.1) = true := heq.symm e.1 k hP hk hek
  refine ⟨?_, fun hk' j => ?_, ?_, fun f hf => ?_⟩
  · exact List.forall_mem_append.2 ⟨h.held, List.forall_mem_singleton.2 hk⟩
  · rw [h.indexed hk' j, Array.getElem?_modify]
    split
    · cases t.entries[j]? <;> simp
    · rfl
  · have hany : (es.map Prod.fst).eraseDups.any (k == ·) = true := by
      rw [← h.keys, List.any_map]
      exact List.any_eq_true.2 ⟨e, Array.mem_toList_iff.2 (Array.mem_of_getElem? he), hke⟩
    rw [List.map_append, List.map_singleton, eraseDups_snoc, if_pos hany, ← h.keys]
    refine List.ext_getElem? fun j => ?_
    simp only [toList, List.getElem?_map, Array.getElem?_toList, Array.getElem?_modify]
    split
    · rw [Option.map_map]
      rfl
    · rfl
  · obtain ⟨j, hj⟩ := Array.mem_iff_getElem?.1 (Array.mem_toList_iff.1 hf)
    rw [Array.getElem?_modify] at hj
    rw [lastFor_snoc]
    by_cases hij : i = j
    · subst hij
      rw [if_pos rfl, he] at hj
      obtain rfl := Option.some.inj hj
      rw [if_pos hke]
    · rw [if_neg hij] at hj
      -- Another key equal to the new one would be equal to the one that is replaced.
      have hkf : ¬(k == f.1) = true := fun hkf => hij <|
        h.eq_of_beq heq he hj (heq.trans e.1 k f.1 hP hk (h.held_getElem? hj) hek hkf)
      rw [if_neg hkf]
      exact h.values f (Array.mem_toList_iff.2 (Array.mem_of_getElem? hj))

variable (hhash : ∀ a b, P a → P b → (a == b) = true → hash a = hash b)

include hhash

/-- If no key is found, none is equal to the one that is sought: it would be stored under the same
hash. -/
theorem of_position?_eq_none (h : t.Records P hash es) (hk : P k)
    (hkey : ∀ k', P k' → isKey k' = (k' == k)) (hn : t.position? (hash k) isKey = none) :
    ∀ e ∈ t.toList, (e.1 == k) = false := by
  intro e he
  obtain ⟨i, hi⟩ := Array.mem_iff_getElem?.1 (Array.mem_toList_iff.1 he)
  have hP : P e.1 := h.held_entry he
  by_contra hek
  rw [Bool.not_eq_false] at hek
  have hstored := (h.indexed (hash k) i).2 ⟨e, hi, hhash e.1 k hP hk hek⟩
  have htest := HashIndex.of_find?_eq_none hn i hstored
  rw [hi] at htest
  cases (hek.symm.trans (hkey e.1 hP).symm).trans htest

variable (heq : BeqOn P)

include heq

/-- A key is found if one equal to it was inserted. -/
theorem contains_iff (h : t.Records P hash es) (hk : P k)
    (hkey : ∀ k', P k' → isKey k' = (k' == k)) :
    t.contains (hash k) isKey = true ↔ ∃ e ∈ es, (e.1 == k) = true := by
  have hkeys : (∃ e ∈ t.toList, (e.1 == k) = true) ↔ ∃ e ∈ es, (e.1 == k) = true := by
    have h' := exists_mem_eraseDups_iff heq (List.forall_mem_map.2 h.held) hk
    rw [← h.keys] at h'
    simpa using h'
  rw [← hkeys, contains]
  cases hp : t.position? (hash k) isKey with
  | some i =>
    obtain ⟨e, he, -, hek⟩ := h.of_position?_eq_some hkey hp
    exact iff_of_true rfl ⟨e, Array.mem_toList_iff.2 (Array.mem_of_getElem? he), hek⟩
  | none =>
    refine iff_of_false Bool.false_ne_true ?_
    rintro ⟨e, he, hek⟩
    cases hek.symm.trans (h.of_position?_eq_none hhash hk hkey hp e he)

/-- What is found for a key is the last value inserted for it. -/
theorem get?_eq (h : t.Records P hash es) (hk : P k)
    (hkey : ∀ k', P k' → isKey k' = (k' == k)) : t.get? (hash k) isKey = lastFor es k := by
  have hcontains := h.contains_iff hhash heq hk hkey
  rw [contains] at hcontains
  rw [get?]
  cases hp : t.position? (hash k) isKey with
  | some i =>
    obtain ⟨e, he, hP, hek⟩ := h.of_position?_eq_some hkey hp
    have hmem : e ∈ t.toList := Array.mem_toList_iff.2 (Array.mem_of_getElem? he)
    rw [← lastFor_congr heq h.held hP hk hek, h.values e hmem, Option.bind_some, he,
      Option.map_some]
  | none =>
    rw [hp] at hcontains
    refine (lastFor_eq_none_iff.2 fun e he => Bool.eq_false_iff.2 fun hek => ?_).symm
    cases hcontains.2 ⟨e, he, hek⟩

/-- A new key goes last, and its position into the index. -/
theorem insert_of_none (h : t.Records P hash es) (hk : P k)
    (hkey : ∀ k', P k' → isKey k' = (k' == k)) (hn : t.position? (hash k) isKey = none) :
    (⟨t.entries.push (k, x), HashIndex.store t.index (hash k) t.entries.size fun i =>
        (t.entries.push (k, x))[i]?.elim 0 fun e => hash e.1⟩ : HashTable ι κ ν).Records P hash
      (es ++ [(k, x)]) := by
  have hnew := h.of_position?_eq_none hhash hk hkey hn
  have hnew' : ∀ e ∈ t.toList, (k == e.1) = false := fun e he =>
    (heq.comm hk (h.held_entry he)).trans (hnew e he)
  refine ⟨?_, fun hk' j => ?_, ?_, fun f hf => ?_⟩
  · exact List.forall_mem_append.2 ⟨h.held, List.forall_mem_singleton.2 hk⟩
  · -- What the index holds already is found again under the same hashes.
    have hrehash (h' : UInt64) (i : Nat) (hi : HashIndex.Stored t.index h' i) :
        ((t.entries.push (k, x))[i]?.elim 0 fun e => hash e.1) = h' := by
      obtain ⟨e, he, hh⟩ := (h.indexed h' i).1 hi
      have hlt := (Array.getElem?_eq_some_iff.1 he).1
      rw [Array.getElem?_push, if_neg (by omega), he]
      exact hh
    rw [HashIndex.stored_store hrehash, h.indexed hk' j, Array.getElem?_push]
    by_cases hj : j = t.entries.size
    · subst hj
      simp [eq_comm]
    · simp [hj]
  · have hany : ¬(es.map Prod.fst).eraseDups.any (k == ·) = true := by
      rw [← h.keys, List.any_map]
      intro hany
      obtain ⟨e, he, hke⟩ := List.any_eq_true.1 hany
      cases hke.symm.trans (hnew' e he)
    rw [List.map_append, List.map_singleton, eraseDups_snoc, if_neg hany, ← h.keys, toList,
      toList, Array.toList_push, List.map_append, List.map_singleton]
  · rw [toList, Array.toList_push] at hf
    rw [lastFor_snoc]
    rcases List.mem_append.1 hf with hold | hold
    · rw [hnew' f hold]
      exact h.values f hold
    · obtain rfl := List.mem_singleton.1 hold
      rw [if_pos (heq.refl k hk)]

protected theorem insert (h : t.Records P hash es) (hk : P k)
    (hkey : ∀ k', P k' → isKey k' = (k' == k)) :
    (t.insert hash isKey k x).Records P hash (es ++ [(k, x)]) := by
  unfold HashTable.insert
  cases hp : t.position? (hash k) isKey with
  | some i => exact h.insert_of_some heq hk hkey hp
  | none => exact h.insert_of_none hhash heq hk hkey hp

theorem ofEntries (hes : ∀ e ∈ es, P e.1) :
    (ofEntries hash es : HashTable ι κ ν).Records P hash es := by
  induction es using List.reverseRecOn with
  | nil => exact .empty
  | append_singleton es e ih =>
    obtain ⟨hes, he⟩ := List.forall_mem_append.1 hes
    rw [HashTable.ofEntries, List.foldl_concat]
    exact (ih hes).insert hhash heq (he e List.mem_cons_self) fun k' _ => rfl

theorem means (h : t.Records P hash es) : t.Means P hash es where
  entries := h.toList_eq
  size := h.size_eq
  contains _ hk := h.contains_iff hhash heq hk fun _ _ => rfl
  get? _ hk := h.get?_eq hhash heq hk fun _ _ => rfl

end Records

/-- A table of different keys holds its own entries. -/
theorem records_toList [BEq κ] {P : κ → Prop} {hash : κ → UInt64} {t : HashTable ι κ ν}
    (heq : BeqOn P) (hheld : ∀ e ∈ t.toList, P e.1)
    (hindexed : ∀ h i, HashIndex.Stored t.index h i ↔ ∃ e, t.entries[i]? = some e ∧ hash e.1 = h)
    (hdistinct : (t.toList.map Prod.fst).Pairwise fun a b => (b == a) = false) :
    t.Records P hash t.toList where
  held := hheld
  indexed := hindexed
  keys := (eraseDups_of_pairwise hdistinct).symm
  values := lastFor_of_pairwise heq hheld hdistinct

end HashTable

/-! ### The index of `Table` -/

instance : HashIndex (ExtTreeMap UInt64 (List Nat)) where
  empty := ∅
  store index h i _ := index.insert h (index.getD h [] ++ [i])
  find? index h test := (index.getD h []).find? test
  Stored index h i := i ∈ index.getD h []
  not_stored_empty h i := by
    rw [ExtTreeMap.getD_empty]
    exact List.not_mem_nil
  stored_store {index h i rehash} _ h' j := by
    rw [ExtTreeMap.getD_insert]
    by_cases hh : h = h'
    · subst hh
      simp
    · have hc : compare h h' ≠ .eq := fun hc => hh (Std.LawfulEqCmp.eq_of_compare hc)
      simp [hc, Ne.symm hh]
  of_find?_eq_some hi := ⟨⟨_, List.mem_of_find?_eq_some hi⟩, List.find?_some hi⟩
  of_find?_eq_none hn i hi := Bool.eq_false_iff.2 (List.find?_eq_none.1 hn i hi)

namespace Table

variable {κ ν : Type} {t : Table κ ν} {hash : κ → UInt64} {isKey : κ → Bool} {k : κ} {x : ν}

/-- The table as one over its own index. -/
def toHashTable (t : Table κ ν) : HashTable (ExtTreeMap UInt64 (List Nat)) κ ν :=
  ⟨t.entries, t.index⟩

theorem toHashTable_insert :
    (t.insert (hash k) isKey k x).toHashTable = t.toHashTable.insert hash isKey k x := by
  have hp : t.toHashTable.position? (hash k) isKey = t.position? (hash k) isKey := rfl
  rw [insert, HashTable.insert, hp]
  cases t.position? (hash k) isKey <;> rfl

end Table

end ValueAlgebra
