import Mathlib.Logic.Function.Defs
import ValueAlgebra.Proofs.Value.Contents

/-!
# Values in other storage

Renaming the cells of a value one to one changes nothing that equality, hashing or a table sees,
since cells are only compared with each other. So whatever is built from renamed values is the
renamed result, and a value is the same as itself elsewhere.

## Main definitions

- `Table.mapEntries`: a table with other keys and values in the same places
- `Value.relocate`: a value with its cells renamed
-/

namespace ValueAlgebra

namespace Table

variable {κ κ' ν ν' : Type} {g : κ → κ'} {h : ν → ν'} {t : Table κ ν} {x : UInt64}
variable {p : κ' → Bool}

/-- The table with its keys and values replaced, where hashes stay as they are. -/
def mapEntries (g : κ → κ') (h : ν → ν') (t : Table κ ν) : Table κ' ν' where
  entries := t.entries.map fun e => (g e.1, h e.2)
  index := t.index

theorem mapEntries_empty : (∅ : Table κ ν).mapEntries g h = ∅ :=
  congrArg (Table.mk · ∅) Array.map_empty

theorem size_mapEntries : (t.mapEntries g h).size = t.size := Array.size_map

theorem position?_mapEntries :
    (t.mapEntries g h).position? x p = t.position? x fun k => p (g k) := by
  unfold position? mapEntries
  simp only [Array.getElem?_map, Option.any_map]

theorem contains_mapEntries :
    (t.mapEntries g h).contains x p = t.contains x fun k => p (g k) := by
  rw [contains, contains, position?_mapEntries]

theorem get?_mapEntries :
    (t.mapEntries g h).get? x p = (t.get? x fun k => p (g k)).map h := by
  rw [get?, get?, position?_mapEntries, Option.map_bind]
  refine Option.bind_congr fun i _ => ?_
  show Option.map Prod.snd ((t.entries.map _)[i]?) = Option.map h (t.entries[i]?.map Prod.snd)
  rw [Array.getElem?_map, Option.map_map, Option.map_map]
  rfl

theorem insert_mapEntries {k : κ} {y : ν} : (t.mapEntries g h).insert x p (g k) (h y) =
    (t.insert x (fun k => p (g k)) k y).mapEntries g h := by
  rw [insert, insert, position?_mapEntries]
  cases t.position? x fun k => p (g k) with
  | none => simp [mapEntries]
  | some i =>
    refine congrArg (Table.mk · t.index) (Array.ext_getElem? fun j => ?_)
    simp only [mapEntries, Array.getElem?_modify, Array.getElem?_map]
    split
    · rw [Option.map_map, Option.map_map]
      rfl
    · rfl

end Table

namespace Value

variable {f g : Cell → Cell} {shortcut : Value → Value → Bool} {v w : Value}

mutual

/-- The value with every cell `c` in it replaced by `f c`. -/
def relocate (f : Cell → Cell) : Value → Value
  | int t n => int t n
  | double t d => double t d
  | bool t b => bool t b
  | str t c s => str t (f c) s
  | loc t c p r => loc t (f c) p r
  | tuple t c vs => tuple t (f c) (relocateAll f vs)
  | list t c vs => list t (f c) (relocateAll f vs)
  | set t c ⟨⟨es⟩, index⟩ => set t (f c) ⟨⟨relocateElems f es⟩, index⟩
  | map t c ⟨⟨es⟩, index⟩ => map t (f c) ⟨⟨relocateEntries f es⟩, index⟩
  | node t c n vs => node t (f c) n (relocateAll f vs)
  | constructor t c vs => constructor t (f c) (relocateAll f vs)

def relocateAll (f : Cell → Cell) : List Value → List Value
  | [] => []
  | v :: vs => v.relocate f :: relocateAll f vs

def relocateElems (f : Cell → Cell) : List (Value × Unit) → List (Value × Unit)
  | [] => []
  | (v, u) :: es => (v.relocate f, u) :: relocateElems f es

def relocateEntries (f : Cell → Cell) : List (Value × Value) → List (Value × Value)
  | [] => []
  | (k, v) :: es => (k.relocate f, v.relocate f) :: relocateEntries f es

end

theorem relocateAll_eq_map (vs : List Value) : relocateAll f vs = vs.map (relocate f) := by
  induction vs with
  | nil => rfl
  | cons v vs ih => rw [relocateAll, ih, List.map_cons]

theorem relocateElems_eq_map (es : List (Value × Unit)) :
    relocateElems f es = es.map fun e => (e.1.relocate f, e.2) := by
  induction es with
  | nil => rfl
  | cons e es ih => rw [relocateElems, ih, List.map_cons]

theorem relocateEntries_eq_map (es : List (Value × Value)) :
    relocateEntries f es = es.map fun e => (e.1.relocate f, e.2.relocate f) := by
  induction es with
  | nil => rfl
  | cons e es ih => rw [relocateEntries, ih, List.map_cons]

theorem length_relocateAll (vs : List Value) : (relocateAll f vs).length = vs.length := by
  rw [relocateAll_eq_map, List.length_map]

theorem length_relocateElems (es : List (Value × Unit)) :
    (relocateElems f es).length = es.length := by
  rw [relocateElems_eq_map, List.length_map]

theorem length_relocateEntries (es : List (Value × Value)) :
    (relocateEntries f es).length = es.length := by
  rw [relocateEntries_eq_map, List.length_map]

theorem relocate_set (t : Ty) (c : Cell) (es : Table Value Unit) :
    (set t c es).relocate f = set t (f c) (es.mapEntries (relocate f) id) := by
  obtain ⟨⟨es⟩, index⟩ := es
  rw [relocate, relocateElems_eq_map, Table.mapEntries, List.map_toArray]

theorem relocate_map (t : Ty) (c : Cell) (es : Table Value Value) :
    (map t c es).relocate f = map t (f c) (es.mapEntries (relocate f) (relocate f)) := by
  obtain ⟨⟨es⟩, index⟩ := es
  rw [relocate, relocateEntries_eq_map, Table.mapEntries, List.map_toArray]

@[simp]
theorem ty_relocate (v : Value) : (v.relocate f).ty = v.ty := by
  cases v <;> rfl

mutual

theorem feed_relocate (digest : List Chunk → UInt64) :
    ∀ v : Value, (v.relocate f).feed digest = v.feed digest
  | int .. | double .. | bool .. | str .. | loc .. => rfl
  | tuple _ _ vs | list _ _ vs | node _ _ _ vs | constructor _ _ vs => by
    simp only [relocate, feed, feedAll_relocate digest vs, length_relocateAll]
  | set _ _ ⟨⟨es⟩, _⟩ => by
    simp only [relocate, feed, elemSum_relocate digest es, length_relocateElems]
  | map _ _ ⟨⟨es⟩, _⟩ => by
    simp only [relocate, feed, entrySum_relocate digest es, length_relocateEntries]

theorem feedAll_relocate (digest : List Chunk → UInt64) :
    ∀ vs : List Value, feedAll digest (relocateAll f vs) = feedAll digest vs
  | [] => rfl
  | v :: vs => by
    rw [relocateAll, feedAll, feedAll, feed_relocate digest v, feedAll_relocate digest vs]

theorem elemSum_relocate (digest : List Chunk → UInt64) :
    ∀ es : List (Value × Unit), elemSum digest (relocateElems f es) = elemSum digest es
  | [] => rfl
  | (v, _) :: es => by
    rw [relocateElems, elemSum, elemSum, feed_relocate digest v, elemSum_relocate digest es]

theorem entrySum_relocate (digest : List Chunk → UInt64) :
    ∀ es : List (Value × Value), entrySum digest (relocateEntries f es) = entrySum digest es
  | [] => rfl
  | (k, v) :: es => by
    rw [relocateEntries, entrySum, entrySum, feed_relocate digest k, feed_relocate digest v,
      entrySum_relocate digest es]

end

@[simp]
theorem hash_relocate (v : Value) : (v.relocate f).hash = v.hash := by
  rw [Value.hash, Value.hash, feed_relocate]

/-! ### Comparing -/

theorem isIdenticalTo_relocate (hf : f.Injective) (v w : Value) :
    (v.relocate f).isIdenticalTo (w.relocate f) = v.isIdenticalTo w := by
  have hcell (c c' : Cell) : (f c == f c') = (c == c') := by
    rw [Bool.eq_iff_iff, beq_iff_eq, beq_iff_eq, hf.eq_iff]
  cases v <;> cases w <;> simp only [relocate, isIdenticalTo, hcell]

mutual

/-- A comparison whose shortcut answers as before answers as before. -/
theorem eqWith_relocate
    (hs : ∀ v w : Value, shortcut (v.relocate f) (w.relocate g) = shortcut v w) :
    ∀ v w : Value, (v.relocate f).eqWith shortcut (w.relocate g) = v.eqWith shortcut w
  | int .., w | double .., w | bool .., w | str .., w | loc .., w => by
    unfold eqWith
    rw [hs]
    congr 1
    cases w with
    | set _ _ fs | map _ _ fs => rcases fs with ⟨⟨fs⟩, _⟩; rfl
    | _ => rfl
  | tuple _ _ vs, w | list _ _ vs, w | node _ _ _ vs, w | constructor _ _ vs, w => by
    unfold eqWith
    rw [hs]
    congr 1
    cases w with
    | set _ _ fs | map _ _ fs => rcases fs with ⟨⟨fs⟩, _⟩; rfl
    | tuple _ _ ws | list _ _ ws | node _ _ _ ws | constructor _ _ ws =>
      simp only [relocate, eqAll_relocate hs vs ws]
    | _ => rfl
  | set _ _ ⟨⟨es⟩, _⟩, w => by
    unfold eqWith
    rw [hs]
    congr 1
    cases w with
    | set u c fs =>
      rw [relocate_set u c fs]
      simp only [relocate, length_relocateElems, Table.size_mapEntries, elemsIn_relocate hs es fs]
    | map _ _ fs => rcases fs with ⟨⟨fs⟩, _⟩; rfl
    | _ => rfl
  | map _ _ ⟨⟨es⟩, _⟩, w => by
    unfold eqWith
    rw [hs]
    congr 1
    cases w with
    | map u c fs =>
      rw [relocate_map u c fs]
      simp only [relocate, length_relocateEntries, Table.size_mapEntries,
        entriesIn_relocate hs es fs]
    | set _ _ fs => rcases fs with ⟨⟨fs⟩, _⟩; rfl
    | _ => rfl

theorem eqAll_relocate
    (hs : ∀ v w : Value, shortcut (v.relocate f) (w.relocate g) = shortcut v w) :
    ∀ vs ws : List Value,
      eqAll shortcut (relocateAll f vs) (relocateAll g ws) = eqAll shortcut vs ws
  | [], [] | [], _ :: _ | _ :: _, [] => by simp only [relocateAll, eqAll]
  | v :: vs, w :: ws => by
    rw [relocateAll, relocateAll, eqAll, eqAll, eqWith_relocate hs v w, eqAll_relocate hs vs ws]

theorem elemsIn_relocate
    (hs : ∀ v w : Value, shortcut (v.relocate f) (w.relocate g) = shortcut v w) :
    ∀ (es : List (Value × Unit)) (t : Table Value Unit),
      elemsIn shortcut (relocateElems f es) (t.mapEntries (relocate g) id) =
        elemsIn shortcut es t
  | [], _ => by rw [relocateElems, elemsIn, elemsIn]
  | (v, _) :: es, t => by
    rw [relocateElems, elemsIn, elemsIn, Table.contains_mapEntries, hash_relocate,
      funext (eqWith_relocate hs v), elemsIn_relocate hs es t]

theorem entriesIn_relocate
    (hs : ∀ v w : Value, shortcut (v.relocate f) (w.relocate g) = shortcut v w) :
    ∀ (es : List (Value × Value)) (t : Table Value Value),
      entriesIn shortcut (relocateEntries f es) (t.mapEntries (relocate g) (relocate g)) =
        entriesIn shortcut es t
  | [], _ => by rw [relocateEntries, entriesIn, entriesIn]
  | (k, v) :: es, t => by
    rw [relocateEntries, entriesIn, entriesIn, Table.get?_mapEntries, hash_relocate,
      funext (eqWith_relocate hs k), entriesIn_relocate hs es t, Option.any_map]
    congr 2
    exact funext (eqWith_relocate hs v)

end

/-- Comparing contents does not look at cells, on either side. -/
theorem same_relocate (v w : Value) : (v.relocate f).same (w.relocate g) = v.same w :=
  eqWith_relocate (fun _ _ => rfl) v w

theorem beq_relocate (hf : f.Injective) (v w : Value) :
    (v.relocate f == w.relocate f) = (v == w) :=
  eqWith_relocate (isIdenticalTo_relocate hf) v w

end Value

/-! ### Filling tables -/

namespace Table

variable {f : Cell → Cell} {ν : Type} {h : ν → ν}

theorem put_relocate (hf : f.Injective) (t : Table Value ν) (v : Value) (x : ν) :
    (t.mapEntries (Value.relocate f) h).put (v.relocate f) (h x) =
      (t.put v x).mapEntries (Value.relocate f) h := by
  rw [put, insert_mapEntries, Value.hash_relocate, funext (Value.beq_relocate hf v)]
  rfl

theorem foldl_put_relocate (hf : f.Injective) (es : List (Value × ν)) (t : Table Value ν) :
    (es.map fun e => (e.1.relocate f, h e.2)).foldl (fun t e => t.put e.1 e.2)
        (t.mapEntries (Value.relocate f) h) =
      (es.foldl (fun t e => t.put e.1 e.2) t).mapEntries (Value.relocate f) h := by
  induction es generalizing t with
  | nil => rfl
  | cons e es ih => rw [List.map_cons, List.foldl_cons, List.foldl_cons, ← ih, put_relocate hf]

theorem ofValues_relocate (hf : f.Injective) (vs : List Value) :
    ofValues (vs.map (Value.relocate f)) = (ofValues vs).mapEntries (Value.relocate f) id := by
  rw [ofValues_eq_foldl, ofValues_eq_foldl, ← foldl_put_relocate hf, mapEntries_empty,
    List.map_map, List.map_map]
  rfl

theorem ofEntries_relocate (hf : f.Injective) (es : List (Value × Value)) :
    ofEntries (es.map fun e => (e.1.relocate f, e.2.relocate f)) =
      (ofEntries es).mapEntries (Value.relocate f) (Value.relocate f) := by
  rw [ofEntries, ofEntries, ← foldl_put_relocate hf, mapEntries_empty]

end Table

end ValueAlgebra
