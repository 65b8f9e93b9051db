import Mathlib.Logic.Function.Iterate
import ValueAlgebra.Proofs.Interning.Layer
import ValueAlgebra.Ty.Manager

/-!
# Arenas of interned types

A manager keeps every layer that it was asked for once, in the order of the requests, and a
reference is the place of a layer. A layer comes after its parts, so that following references ends.
References are compared where types are meant: this is sound because no layer is kept twice, and
layers whose parts are the same references are the same types.

## Main definitions

- `Arena`: the layers kept by a manager and the table that finds them
- `Arena.fold`, `Arena.read`, `Arena.unalias`, `Arena.dealias`: what a reference leads to
- `Arena.intern`: asking for a layer
- `Arena.Canonical`: the layers are kept once, after their parts
- `Arena.Grows`: more layers
-/

namespace ValueAlgebra

structure Arena where
  manager : Manager
  /-- The hash function of the table. -/
  digest : List Chunk → UInt64
  table : Table (Layer Ref) Unit := ∅

/-- A program that interns types and may fail. What it interned before stays. -/
abbrev Interning (α : Type) := EStateM TypeError Arena α

namespace Arena

variable {α β : Type} {a a' : Arena} {n : Layer Ref} {r : Ref} {t : Ty}

def hash (a : Arena) (n : Layer Ref) : UInt64 := a.digest n.feed

def layers (a : Arena) : List (Layer Ref) := a.table.keys

def layer? (a : Arena) (r : Ref) : Option (Layer Ref) := a.layers[r]?

/-! ### Following references -/

/-- The results for some layers and for one more, which is evaluated from those for its parts. -/
def evaluateNext [Inhabited β] (f : Ref → Layer β → β) (results : List β) (n : Layer Ref) :
    List β :=
  results ++ [f results.length (n.mapParts fun p => results.getD p default)]

/-- Evaluates layers in order. -/
def evaluate [Inhabited β] (f : Ref → Layer β → β) (layers : List (Layer Ref)) : List β :=
  layers.foldl (evaluateNext f) []

/-- The result for one reference. -/
def fold [Inhabited β] (a : Arena) (f : Ref → Layer β → β) (r : Ref) : β :=
  (evaluate f a.layers).getD r default

/-- The type that a reference stands for. -/
def read (a : Arena) (r : Ref) : Ty := a.fold (fun _ n => n.build a.manager.origin) r

/-- The reference behind all aliases. -/
def unalias (a : Arena) (r : Ref) : Ref :=
  a.fold (fun r n => match n with
    | .aliased _ t => t
    | _ => r) r

/-- The reference behind the outermost alias, if there is one. -/
def dealias (a : Arena) (r : Ref) : Ref :=
  match a.layer? r with
  | some (.aliased _ t) => t
  | _ => r

/-! ### Interning -/

/-- Where the table has the layer. -/
def find? (a : Arena) (n : Layer Ref) : Option Ref := a.table.position? (a.hash n) n.sameKey

def add (a : Arena) (n : Layer Ref) : Arena :=
  { a with table := a.table.insert (a.hash n) n.sameKey n () }

/-- The reference to a layer, which is new if the layer is. -/
def intern (n : Layer Ref) : Interning Ref := do
  let a ← get
  match a.find? n with
  | some r => return r
  | none =>
    set (a.add n)
    return a.table.size

/-! ### Invariants -/

structure Canonical (a : Arena) : Prop where
  indexed : a.table.Indexed a.hash
  nodup : a.layers.Nodup
  parts_lt : ∀ r n, a.layer? r = some n → ∀ p ∈ n.parts, p < r

/-- The second arena is canonical, and what the first one keeps is kept in the same place. -/
structure Grows (a a' : Arena) : Prop where
  canonical : a'.Canonical
  manager : a'.manager = a.manager
  layers : a.layers <+: a'.layers

/-- The reference is in use. -/
def Holds (a : Arena) (r : Ref) : Prop := r < a.layers.length

/-- The reference stands for the type. -/
structure Reads (a : Arena) (r : Ref) (t : Ty) : Prop where
  holds : a.Holds r
  read_eq : a.read r = t

theorem holds_iff : a.Holds r ↔ ∃ n, a.layer? r = some n := by
  constructor
  · intro hr
    exact ⟨a.layers[r], List.getElem?_eq_getElem hr⟩
  · rintro ⟨n, hn⟩
    exact (List.getElem?_eq_some_iff.1 hn).1

theorem holds_of_layer? (h : a.layer? r = some n) : a.Holds r := holds_iff.2 ⟨n, h⟩

namespace Grows

theorem refl (h : a.Canonical) : a.Grows a := ⟨h, rfl, List.prefix_rfl⟩

theorem trans {a'' : Arena} (h : a.Grows a') (h' : a'.Grows a'') : a.Grows a'' :=
  ⟨h'.canonical, h'.manager.trans h.manager, h.layers.trans h'.layers⟩

theorem holds (h : a.Grows a') (hr : a.Holds r) : a'.Holds r :=
  Nat.lt_of_lt_of_le hr h.layers.length_le

theorem layer?_eq (h : a.Grows a') (hr : a.Holds r) : a'.layer? r = a.layer? r := by
  obtain ⟨more, hmore⟩ := h.layers
  rw [layer?, layer?, ← hmore, List.getElem?_append_left hr]

end Grows

/-! ### What references stand for -/

section Fold

variable [Inhabited β] {f : Ref → Layer β → β}

theorem length_evaluate (layers : List (Layer Ref)) :
    (evaluate f layers).length = layers.length := by
  have hfoldl (results : List β) :
      (layers.foldl (evaluateNext f) results).length = results.length + layers.length := by
    induction layers generalizing results with
    | nil => rfl
    | cons n layers ih =>
      rw [List.foldl_cons, ih, evaluateNext, List.length_append, List.length_cons]
      simp only [List.length_cons, List.length_nil]
      omega
  rw [evaluate, hfoldl, List.length_nil, Nat.zero_add]

/-- More layers do not change the results. -/
theorem prefix_evaluate_append (layers more : List (Layer Ref)) :
    evaluate f layers <+: evaluate f (layers ++ more) := by
  rw [evaluate, evaluate, List.foldl_append]
  generalize layers.foldl (evaluateNext f) [] = results
  induction more generalizing results with
  | nil => exact List.prefix_rfl
  | cons n more ih => exact (List.prefix_append results _).trans (ih (evaluateNext f results n))

theorem getD_evaluate_append {layers more : List (Layer Ref)} (hr : r < layers.length) :
    (evaluate f (layers ++ more)).getD r default = (evaluate f layers).getD r default := by
  obtain ⟨rest, hrest⟩ := prefix_evaluate_append (f := f) layers more
  rw [← length_evaluate (f := f)] at hr
  rw [← hrest, List.getD_eq_getElem?_getD, List.getElem?_append_left hr,
    ← List.getD_eq_getElem?_getD]

/-- A reference is evaluated from its layer. -/
theorem Canonical.fold_eq (h : a.Canonical) (hn : a.layer? r = some n) :
    a.fold f r = f r (n.mapParts (a.fold f)) := by
  obtain ⟨before, after, hsplit, hlength⟩ :
      ∃ before after, a.layers = before ++ n :: after ∧ before.length = r := by
    obtain ⟨hr, hget⟩ := List.getElem?_eq_some_iff.1 hn
    refine ⟨a.layers.take r, a.layers.drop (r + 1), ?_, ?_⟩
    · rw [← hget, List.getElem_cons_drop, List.take_append_drop]
    · rw [List.length_take, Nat.min_eq_left (Nat.le_of_lt hr)]
  have hbefore {p : Ref} (hp : p < r) : (evaluate f before).getD p default = a.fold f p := by
    rw [fold, hsplit, getD_evaluate_append (hlength.symm ▸ hp)]
  have hnext : evaluate f (before ++ [n]) = evaluateNext f (evaluate f before) n := by
    rw [evaluate, List.foldl_append]
    rfl
  have hlast : r < (before ++ [n]).length := by
    rw [List.length_append, hlength]
    exact Nat.lt_succ_self r
  calc a.fold f r
      = (evaluate f (before ++ [n])).getD r default := by
        rw [fold, hsplit, List.append_cons, getD_evaluate_append hlast]
    _ = f r (n.mapParts fun p => (evaluate f before).getD p default) := by
        rw [hnext, evaluateNext, length_evaluate, hlength, List.getD_eq_getElem?_getD]
        rw [← length_evaluate (f := f)] at hlength
        rw [← hlength, List.getElem?_concat_length]
        rfl
    _ = f r (n.mapParts (a.fold f)) := by
        rw [Layer.mapParts_congr fun p hp => hbefore (h.parts_lt r n hn p hp)]

theorem Grows.fold_eq (h : a.Grows a') (hr : a.Holds r) : a'.fold f r = a.fold f r := by
  obtain ⟨more, hmore⟩ := h.layers
  rw [fold, fold, ← hmore, getD_evaluate_append hr]

end Fold

namespace Canonical

theorem read_eq (h : a.Canonical) (hn : a.layer? r = some n) :
    a.read r = (n.mapParts a.read).build a.manager.origin := h.fold_eq hn

theorem unalias_eq (h : a.Canonical) (hn : a.layer? r = some n) :
    a.unalias r = match n with
      | .aliased _ t => a.unalias t
      | _ => r := by
  rw [unalias, h.fold_eq hn]
  cases n <;> rfl

theorem holds_of_mem_parts (h : a.Canonical) (hn : a.layer? r = some n) {p : Ref}
    (hp : p ∈ n.parts) : a.Holds p :=
  Nat.lt_trans (h.parts_lt r n hn p hp) (holds_of_layer? hn)

/-- What a reference stands for is the manager's own. -/
theorem isFrom_read (h : a.Canonical) (hr : a.Holds r) : (a.read r).IsFrom a.manager.origin := by
  induction r using Nat.strongRecOn with
  | ind r ih =>
    obtain ⟨n, hn⟩ := holds_iff.1 hr
    rw [h.read_eq hn]
    refine .build fun t ht => ?_
    rw [Layer.parts_mapParts] at ht
    obtain ⟨p, hp, rfl⟩ := List.mem_map.1 ht
    exact ih p (h.parts_lt r n hn p hp) (h.holds_of_mem_parts hn hp)

/-- Different references stand for different types. -/
theorem eq_of_read_eq (h : a.Canonical) {q : Ref} (hr : a.Holds r) (hq : a.Holds q)
    (hread : a.read r = a.read q) : r = q := by
  induction r using Nat.strongRecOn generalizing q with
  | ind r ih =>
    obtain ⟨n, hn⟩ := holds_iff.1 hr
    obtain ⟨n', hn'⟩ := holds_iff.1 hq
    rw [h.read_eq hn, h.read_eq hn', Layer.build_inj] at hread
    -- Parts are older than what they are part of.
    have hlayers : n = n' := by
      refine Layer.eq_of_mapParts_eq (fun p hp p' hp' hpp' => ?_) hread.2
      exact ih p (h.parts_lt r n hn p hp) (h.holds_of_mem_parts hn hp)
        (h.holds_of_mem_parts hn' hp') hpp'
    exact (List.getElem?_inj hr h.nodup).1 (hn.trans (hlayers ▸ hn'.symm))

theorem read_inj (h : a.Canonical) {q : Ref} (hr : a.Holds r) (hq : a.Holds q) :
    a.read r = a.read q ↔ r = q :=
  ⟨h.eq_of_read_eq hr hq, fun heq => heq ▸ rfl⟩

theorem eq_iff_sameShape (h : a.Canonical) {q : Ref} (hr : a.Holds r) (hq : a.Holds q) :
    r = q ↔ (a.read r).sameShape (a.read q) = true := by
  rw [← h.read_inj hr hq]
  exact (h.isFrom_read hr).eq_iff_sameShape (h.isFrom_read hq)

theorem reads_unalias (h : a.Canonical) (hr : a.Holds r) :
    a.Reads (a.unalias r) (a.read r).unalias := by
  induction r using Nat.strongRecOn with
  | ind r ih =>
    obtain ⟨n, hn⟩ := holds_iff.1 hr
    rw [h.unalias_eq hn, h.read_eq hn]
    cases n with
    | aliased name t =>
      exact ih t (h.parts_lt r _ hn t (.head _)) (h.holds_of_mem_parts hn (.head _))
    | _ => exact ⟨hr, h.read_eq hn⟩

theorem unalias_le (h : a.Canonical) (hr : a.Holds r) : a.unalias r ≤ r := by
  induction r using Nat.strongRecOn with
  | ind r ih =>
    obtain ⟨n, hn⟩ := holds_iff.1 hr
    rw [h.unalias_eq hn]
    cases n with
    | aliased name t =>
      have hlt : t < r := h.parts_lt r _ hn t (.head _)
      exact Nat.le_trans (ih t hlt (h.holds_of_mem_parts hn (.head _))) (Nat.le_of_lt hlt)
    | _ => exact Nat.le_refl r

/-- An alias is younger than its definition, so that a chain of aliases ends. -/
theorem exists_iterate_dealias (h : a.Canonical) (hr : a.Holds r) :
    ∃ k ≤ r, a.dealias^[k] r = a.unalias r ∧
      ∀ name t, a.layer? (a.unalias r) ≠ some (.aliased name t) := by
  induction r using Nat.strongRecOn with
  | ind r ih =>
    obtain ⟨n, hn⟩ := holds_iff.1 hr
    rw [h.unalias_eq hn]
    cases n with
    | aliased name t =>
      have hlt : t < r := h.parts_lt r _ hn t (.head _)
      obtain ⟨k, hk, hchain, hend⟩ := ih t hlt (h.holds_of_mem_parts hn (.head _))
      refine ⟨k + 1, Nat.lt_of_le_of_lt hk hlt, ?_, hend⟩
      have hnext : a.dealias r = t := by rw [dealias, hn]
      rw [Function.iterate_succ_apply, hnext, hchain]
    | _ =>
      refine ⟨0, Nat.zero_le r, rfl, fun name t ht => ?_⟩
      cases hn.symm.trans ht

end Canonical

namespace Grows

theorem read_eq (h : a.Grows a') (hr : a.Holds r) : a'.read r = a.read r := by
  rw [read, read, h.manager, h.fold_eq hr]

theorem reads (h : a.Grows a') (hr : a.Reads r t) : a'.Reads r t :=
  ⟨h.holds hr.holds, (h.read_eq hr.holds).trans hr.read_eq⟩

end Grows

/-! ### Asking for a layer -/

theorem length_layers (a : Arena) : a.layers.length = a.table.size := by
  rw [layers, Table.keys, List.length_map, Table.length_toList]

theorem layer?_of_find? (h : a.Canonical) (hp : a.find? n = some r) :
    a.layer? r = some n := by
  obtain ⟨e, he, -, hkey⟩ := h.indexed.of_position?_eq_some hp
  obtain rfl := Layer.sameKey_iff.1 hkey
  rw [layer?, layers, Table.keys, Table.toList, List.getElem?_map, Array.getElem?_toList, he]
  rfl

theorem not_mem_of_find? (h : a.Canonical) (hp : a.find? n = none) :
    n ∉ a.layers := by
  intro hmem
  obtain ⟨e, he, rfl⟩ := List.mem_map.1 hmem
  have hkey := h.indexed.position?_eq_none_iff.1 hp e he rfl
  rw [Layer.sameKey_iff.2 rfl] at hkey
  cases hkey

theorem layers_add (hp : a.find? n = none) :
    (a.add n).layers = a.layers ++ [n] :=
  Table.keys_insert_of_none hp

/-- A new layer goes after its parts. -/
theorem Canonical.add (h : a.Canonical) (hn : ∀ p ∈ n.parts, a.Holds p)
    (hp : a.find? n = none) : (a.add n).Canonical where
  indexed := h.indexed.insert n ()
  nodup := by
    rw [layers_add hp, List.nodup_append]
    refine ⟨h.nodup, List.pairwise_singleton _ n, fun k hk k' hk' => ?_⟩
    rw [List.mem_singleton.1 hk']
    exact fun hkn => not_mem_of_find? h hp (hkn ▸ hk)
  parts_lt r k hk p hpk := by
    rw [layer?, layers_add hp] at hk
    by_cases hr : r < a.layers.length
    · rw [List.getElem?_append_left hr] at hk
      exact h.parts_lt r k hk p hpk
    · rw [List.getElem?_append_right (Nat.le_of_not_lt hr)] at hk
      obtain rfl := List.mem_singleton.1 (List.mem_of_getElem? hk)
      exact Nat.lt_of_lt_of_le (hn p hpk) (Nat.le_of_not_lt hr)

/-- A layer over references in use is found or added. -/
theorem intern_apply (h : a.Canonical) (hn : ∀ p ∈ n.parts, a.Holds p) :
    ∃ r a', intern n a = .ok r a' ∧ a.Grows a' ∧ a'.layer? r = some n := by
  have happly : intern n a = match a.find? n with
      | some r => .ok r a
      | none => .ok a.table.size (a.add n) := by
    show (match a.find? n with
      | some _ => _
      | none => _ : Interning Ref) a = _
    cases a.find? n <;> rfl
  rw [happly]
  cases hp : a.find? n with
  | some r => exact ⟨r, a, rfl, .refl h, layer?_of_find? h hp⟩
  | none =>
    refine ⟨_, _, rfl, ⟨h.add hn hp, rfl, ?_⟩, ?_⟩
    · rw [layers_add hp]
      exact List.prefix_append _ _
    · rw [layer?, layers_add hp, ← length_layers]
      exact List.getElem?_concat_length

end Arena

end ValueAlgebra
