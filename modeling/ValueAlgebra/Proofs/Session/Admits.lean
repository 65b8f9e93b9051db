import ValueAlgebra.Proofs.Session.Basic
import ValueAlgebra.Proofs.Success
import ValueAlgebra.Proofs.Value.Typing

/-!
# What a call adds to a session

Every call that makes a value makes it of parts at hand, in the next free cell or in the storage of
a value at hand, well typed, and with a table that was filled with values at hand. `Session.Admits`
says this once for all calls, and invariants of sessions are derived from it.

## Main definitions

- `Table.Grown`: tables filled by insertions
- `Session.Admits`: what is known of every new value
- `Session.TypedValues`: the values at hand are well typed at every depth
-/

namespace ValueAlgebra

namespace Table

variable {ν : Type} {t : Table Value ν}

theorem mem_toList_insert {h : UInt64} {isKey : Value → Bool} {k : Value} {x : ν}
    {e : Value × ν} (he : e ∈ (t.insert h isKey k x).toList) :
    e ∈ t.toList ∨ e = (k, x) ∨ ∃ e' ∈ t.toList, e = (e'.1, x) := by
  unfold insert at he
  split at he
  · next i _ =>
    obtain ⟨j, hj⟩ := Array.mem_iff_getElem?.1 (Array.mem_toList_iff.1 he)
    rw [Array.getElem?_modify] at hj
    split at hj
    · obtain ⟨e', he', rfl⟩ := Option.map_eq_some_iff.1 hj
      exact .inr (.inr ⟨e', Array.mem_toList_iff.2 (Array.mem_of_getElem? he'), rfl⟩)
    · exact .inl (Array.mem_toList_iff.2 (Array.mem_of_getElem? hj))
  · rcases Array.mem_push.1 (Array.mem_toList_iff.1 he) with he | he
    · exact .inl (Array.mem_toList_iff.2 he)
    · exact .inr (.inl he)

/-- A key of the new table is the new key or one of the old. -/
theorem mem_keys_put {k k' : Value} {x : ν} (h : k' ∈ (t.put k x).keys) :
    k' = k ∨ k' ∈ t.keys := by
  obtain ⟨e, he, rfl⟩ := mem_keys.1 h
  rcases mem_toList_insert he with he | rfl | ⟨e', he', rfl⟩
  · exact .inr (mem_keys.2 ⟨e, he, rfl⟩)
  · exact .inl rfl
  · exact .inr (mem_keys.2 ⟨e', he', rfl⟩)

theorem mem_values_put {k : Value} {x x' : ν} (h : x' ∈ (t.put k x).values) :
    x' = x ∨ x' ∈ t.values := by
  obtain ⟨e, he, rfl⟩ := mem_values.1 h
  rcases mem_toList_insert he with he | rfl | ⟨e', he', rfl⟩
  · exact .inr (mem_values.2 ⟨e, he, rfl⟩)
  · exact .inl rfl
  · exact .inl rfl

/-- A table that starts empty or as an `Old` one and takes keys with `P` and values with `Q`. -/
inductive Grown (P : Value → Prop) (Q : ν → Prop) (Old : Table Value ν → Prop) :
    Table Value ν → Prop
  | empty : Grown P Q Old ∅
  | old {t : Table Value ν} (h : Old t) : Grown P Q Old t
  | put {t : Table Value ν} {k : Value} {x : ν} (h : Grown P Q Old t) (hk : P k) (hx : Q x) :
    Grown P Q Old (t.put k x)

namespace Grown

variable {P P' : Value → Prop} {Q Q' : ν → Prop} {Old Old' : Table Value ν → Prop}

protected theorem mono (h : Grown P Q Old t) (hP : ∀ k, P k → P' k) (hQ : ∀ x, Q x → Q' x)
    (hOld : ∀ t, Old t → Old' t) : Grown P' Q' Old' t := by
  induction h with
  | empty => exact .empty
  | old h => exact .old (hOld _ h)
  | put _ hk hx ih => exact ih.put (hP _ hk) (hQ _ hx)

theorem keys (h : Grown P Q Old t) (hOld : ∀ t, Old t → ∀ k ∈ t.keys, P k) : ∀ k ∈ t.keys, P k := by
  induction h with
  | empty => nofun
  | old h => exact hOld _ h
  | put _ hk _ ih =>
    intro k h
    rcases mem_keys_put h with rfl | h
    · exact hk
    · exact ih k h

theorem values (h : Grown P Q Old t) (hOld : ∀ t, Old t → ∀ x ∈ t.values, Q x) :
    ∀ x ∈ t.values, Q x := by
  induction h with
  | empty => nofun
  | old h => exact hOld _ h
  | put _ _ hx ih =>
    intro x h
    rcases mem_values_put h with rfl | h
    · exact hx
    · exact ih x h

end Grown

section

variable {P : Value → Prop} {Q : ν → Prop}

theorem grown_ofValues (Old : Table Value Unit → Prop) {items : List Value}
    (h : ∀ v ∈ items, P v) : Grown P (fun _ => True) Old (ofValues items) := by
  have hfold : ∀ (items : List Value) (t : Table Value Unit), Grown P (fun _ => True) Old t →
      (∀ v ∈ items, P v) →
      Grown P (fun _ => True) Old (items.foldl (fun t v => t.put v ()) t) := by
    intro items
    induction items with
    | nil => exact fun t ht _ => ht
    | cons v items ih =>
      intro t ht h
      obtain ⟨hv, h⟩ := List.forall_mem_cons.1 h
      exact ih _ (ht.put hv trivial) h
  exact hfold items ∅ .empty h

theorem grown_ofEntries {Q : Value → Prop} (Old : Table Value Value → Prop)
    {entries : List (Value × Value)} (h : ∀ e ∈ entries, P e.1 ∧ Q e.2) :
    Grown P Q Old (ofEntries entries) := by
  have hfold : ∀ (entries : List (Value × Value)) (t : Table Value Value), Grown P Q Old t →
      (∀ e ∈ entries, P e.1 ∧ Q e.2) →
      Grown P Q Old (entries.foldl (fun t e => t.put e.1 e.2) t) := by
    intro entries
    induction entries with
    | nil => exact fun t ht _ => ht
    | cons e entries ih =>
      intro t ht h
      obtain ⟨he, h⟩ := List.forall_mem_cons.1 h
      exact ih _ (ht.put he.1 he.2) h
  exact hfold entries ∅ .empty h

/-- Inserting a list of elements leaves no others in the table. -/
theorem mem_of_mem_keys_ofValues {items : List Value} {k : Value} (h : k ∈ (ofValues items).keys) :
    k ∈ items :=
  (grown_ofValues (fun _ => False) fun _ => id).keys nofun k h

theorem mem_of_mem_keys_ofEntries {entries : List (Value × Value)} {k : Value}
    (h : k ∈ (ofEntries entries).keys) : k ∈ entries.map Prod.fst :=
  (grown_ofEntries (fun _ => False) fun _ he =>
    ⟨List.mem_map_of_mem he, List.mem_map_of_mem he⟩).keys nofun k h

theorem mem_of_mem_values_ofEntries {entries : List (Value × Value)} {x : Value}
    (h : x ∈ (ofEntries entries).values) : x ∈ entries.map Prod.snd :=
  (grown_ofEntries (fun _ => False) fun _ he =>
    ⟨List.mem_map_of_mem (f := Prod.fst) he, List.mem_map_of_mem he⟩).values nofun x h

end

end Table

namespace Session

variable {s s' : Session} {v w : Value}

theorem Has.part (h : s.Has v) {p : Value} (hp : p ∈ v.parts) : s.Has p := by
  obtain ⟨w, hw, hv⟩ := h
  exact ⟨w, hw, (Value.Within.part hp .refl).trans hv⟩

theorem has_of_mem (h : v ∈ s.values) : s.Has v := ⟨v, h, .refl⟩

theorem has_of_subset {items : List Value} (h : items ⊆ s.values) : ∀ v ∈ items, s.Has v :=
  fun _ hv => has_of_mem (h hv)

/-- The table of a set at hand. -/
def HasSet (s : Session) (t : Table Value Unit) : Prop := ∃ ty c, s.Has (.set ty c t)

/-- The table of a map at hand. -/
def HasMap (s : Session) (t : Table Value Value) : Prop := ∃ ty c, s.Has (.map ty c t)

/-- A table of elements at hand. -/
def GrownSet (s : Session) (t : Table Value Unit) : Prop :=
  t.Grown s.Has (fun _ => True) s.HasSet

/-- A table of entries at hand. -/
def GrownMap (s : Session) (t : Table Value Value) : Prop := t.Grown s.Has s.Has s.HasMap

/-- The table in a value, if there is one, was filled with values at hand. -/
def Filled (s : Session) : Value → Prop
  | .set _ _ t => s.GrownSet t
  | .map _ _ t => s.GrownMap t
  | _ => True

/-- The values at hand and all their parts are well typed, with types that managers make. -/
def TypedValues (s : Session) : Prop := ∀ v, s.Has v → v.WellTyped ∧ v.ty.WellFormed

/-- What is known of a value that a call makes. -/
structure Admits (s : Session) (v : Value) : Prop where
  typed : v.WellTyped
  wellFormed : v.ty.WellFormed
  parts : ∀ p ∈ v.parts, s.Has p
  filled : s.Filled v
  stored : ∀ c, v.cell? = some c → c = s.next ∨ ∃ w, s.Has w ∧ v = w.withTy v.ty

theorem GrownSet.keys {t : Table Value Unit} (h : s.GrownSet t) : ∀ k ∈ t.keys, s.Has k :=
  Table.Grown.keys h fun _ ⟨_, _, ht⟩ _ hk => ht.part hk

theorem GrownMap.keys {t : Table Value Value} (h : s.GrownMap t) : ∀ k ∈ t.keys, s.Has k :=
  Table.Grown.keys h fun _ ⟨_, _, ht⟩ _ hk => ht.part (List.mem_append_left _ hk)

theorem GrownMap.values {t : Table Value Value} (h : s.GrownMap t) : ∀ x ∈ t.values, s.Has x :=
  Table.Grown.values h fun _ ⟨_, _, ht⟩ _ hx => ht.part (List.mem_append_right _ hx)

theorem GrownSet.mono {t : Table Value Unit} (h : s.GrownSet t) (hs : ∀ v, s.Has v → s'.Has v) :
    s'.GrownSet t :=
  Table.Grown.mono h hs (fun _ => id) fun _ ⟨ty, c, ht⟩ => ⟨ty, c, hs _ ht⟩

theorem GrownMap.mono {t : Table Value Value} (h : s.GrownMap t) (hs : ∀ v, s.Has v → s'.Has v) :
    s'.GrownMap t :=
  Table.Grown.mono h hs hs fun _ ⟨ty, c, ht⟩ => ⟨ty, c, hs _ ht⟩

theorem TypedValues.kind_ty_ne_void (h : s.TypedValues) (hv : s.Has v) : v.ty.kind ≠ .void := by
  rw [(h v hv).1.kind_ty]
  exact v.kind_ne_void

/-- A value at hand is made again when it is handed over. -/
theorem TypedValues.admits_of_has (h : s.TypedValues) (hv : s.Has v) : s.Admits v where
  typed := (h v hv).1
  wellFormed := (h v hv).2
  parts p hp := hv.part hp
  filled := by
    cases v with
    | set ty c t => exact .old ⟨ty, c, hv⟩
    | map ty c t => exact .old ⟨ty, c, hv⟩
    | _ => trivial
  stored c _ := .inr ⟨v, hv, by simp⟩

/-- A new value may take any type of the same structure. -/
theorem Admits.withTy {t : Ty} (h : s.Admits v) (ht : t.WellFormed)
    (hs : v.ty.unalias.shape = t.unalias.shape) : s.Admits (v.withTy t) where
  typed := h.typed.withTy hs
  wellFormed := by simpa using ht
  parts := by simpa using h.parts
  filled := by cases v <;> exact h.filled
  stored c hc := by
    rw [Value.cell?_withTy] at hc
    rcases h.stored c hc with hc | ⟨w, hw, hv⟩
    · exact .inl hc
    · refine .inr ⟨w, hw, ?_⟩
      rw [hv]
      simp

end Session

end ValueAlgebra
