import ValueAlgebra.Proofs.Session.Typed
import ValueAlgebra.Proofs.Value.Shortcut

/-!
# Storage in a session

Cells are handed out in order, so that two values at hand in the same cell have the same contents,
and the identity shortcut of equality never changes an answer. Tables are filled through equality,
hence no two of their keys are the same. On the values of a session equality is therefore
`Value.same`, an equivalence.
-/

namespace ValueAlgebra

namespace Value

/-- Only constructor applications show their type. -/
theorem same_withTy {v : Value} (h : v.Sound) (t : Ty) (hk : v.kind ≠ .constructor) :
    v.same (v.withTy t) = true := by
  rw [← same_refl h]
  cases v with
  | set _ _ es =>
    obtain ⟨⟨es⟩, index⟩ := es
    simp only [withTy, same, eqWith]
  | map _ _ es =>
    obtain ⟨⟨es⟩, index⟩ := es
    simp only [withTy, same, eqWith]
  | constructor => exact (hk rfl).elim
  | _ => simp only [withTy, same, eqWith]

end Value

namespace Session

variable {s s' : Session} {v w : Value}

structure Coherent (s : Session) : Prop where
  /-- Cells from `next` on are free. -/
  below : ∀ v, s.Has v → ∀ c, v.cell? = some c → c < s.next
  /-- Values that share a cell share their contents. -/
  shared : ∀ v w, s.Has v → s.Has w → ∀ c, v.cell? = some c → w.cell? = some c →
    w = v.withTy w.ty
  tables : ∀ v, s.Has v → v.TableSound

theorem Has.within (h : s.Has v) (hw : w.Within v) : s.Has w := by
  obtain ⟨u, hu, hv⟩ := h
  exact ⟨u, hu, hw.trans hv⟩

namespace Coherent

/-- Fewer values and more free cells. -/
theorem anti (h : s'.Coherent) (hhas : ∀ v, s.Has v → s'.Has v) (hnext : s'.next ≤ s.next) :
    s.Coherent where
  below v hv c hc := Nat.lt_of_lt_of_le (h.below v (hhas v hv) c hc) hnext
  shared v w hv hw := h.shared v w (hhas v hv) (hhas w hw)
  tables v hv := h.tables v (hhas v hv)

theorem sound (h : s.Coherent) (hv : s.Has v) : v.Sound := fun w hw => h.tables w (hv.within hw)

/-- Values in one cell are the same. -/
theorem same_of_cell (h : s.Coherent) (hv : s.Has v) (hw : s.Has w) {c c' : Cell}
    (hc : v.cell? = some c) (hc' : w.cell? = some c') (heq : (c == c') = true)
    (hk : v.kind ≠ .constructor) : v.same w = true := by
  obtain rfl := beq_iff_eq.1 heq
  rw [h.shared v w hv hw c hc hc']
  exact Value.same_withTy (h.sound hv) w.ty hk

/-- Identity implies equality of contents. -/
theorem same_of_isIdenticalTo (h : s.Coherent) (hv : s.Has v) (hw : s.Has w)
    (hi : v.isIdenticalTo w = true) : v.same w = true := by
  cases v with
  | int t n =>
    cases w with
    | int u m =>
      simp only [Value.isIdenticalTo, Bool.and_eq_true, beq_iff_eq] at hi
      exact Value.same_int_iff.2 ⟨u, by rw [hi.1]⟩
    | _ => cases hi
  | double t d =>
    cases w with
    | double u e =>
      simp only [Value.isIdenticalTo, Bool.and_eq_true, beq_iff_eq] at hi
      exact Value.same_double_iff.2 ⟨u, e, rfl, by rw [show d = e from congrArg Double.mk hi.1]⟩
    | _ => cases hi
  | bool t b =>
    cases w with
    | bool u b' =>
      simp only [Value.isIdenticalTo, Bool.and_eq_true, beq_iff_eq] at hi
      exact Value.same_bool_iff.2 ⟨u, by rw [hi.1]⟩
    | _ => cases hi
  | constructor t c vs =>
    -- The names of a constructor come from the static type, so sharing the cell is not enough.
    cases w with
    | constructor u c' ws =>
      simp only [Value.isIdenticalTo, Bool.and_eq_true, beq_iff_eq] at hi
      have hshared := h.shared _ _ hv hw c rfl (by rw [Value.cell?, hi.1])
      rw [hshared, Value.ty, ← hi.2]
      exact Value.same_refl (h.sound hv)
    | _ => cases hi
  | loc t c p r =>
    cases w with
    | loc u c' p' r' =>
      exact h.same_of_cell hv hw rfl rfl (Bool.and_eq_true_iff.1 hi).1 (by rintro ⟨⟩)
    | _ => cases hi
  | set t c es =>
    cases w with
    | set u c' fs =>
      -- Sets and relations share the form, and neither is a constructor.
      refine h.same_of_cell hv hw rfl rfl hi ?_
      rw [Value.kind]
      split <;> rintro ⟨⟩
    | _ => cases hi
  | str t c x =>
    cases w with
    | str u c' y => exact h.same_of_cell hv hw rfl rfl hi (by rintro ⟨⟩)
    | _ => cases hi
  | tuple t c vs =>
    cases w with
    | tuple u c' ws => exact h.same_of_cell hv hw rfl rfl hi (by rintro ⟨⟩)
    | _ => cases hi
  | list t c vs =>
    cases w with
    | list u c' ws => exact h.same_of_cell hv hw rfl rfl hi (by rintro ⟨⟩)
    | _ => cases hi
  | map t c es =>
    cases w with
    | map u c' fs => exact h.same_of_cell hv hw rfl rfl hi (by rintro ⟨⟩)
    | _ => cases hi
  | node t c n vs =>
    cases w with
    | node u c' n' ws => exact h.same_of_cell hv hw rfl rfl hi (by rintro ⟨⟩)
    | _ => cases hi

/-- On values at hand equality compares contents. -/
theorem beq_eq_same (h : s.Coherent) (hv : s.Has v) (hw : s.Has w) : (v == w) = v.same w := by
  show v.eqWith Value.isIdenticalTo w = v.same w
  exact Value.eqWith_eq_same fun a b ha hb => h.same_of_isIdenticalTo (hv.within ha) (hw.within hb)

theorem beq_iff_same (h : s.Coherent) (hv : s.Has v) (hw : s.Has w) :
    v == w ↔ v.same w = true := by
  rw [h.beq_eq_same hv hw]

end Coherent

end Session

/-! ### Filling a table -/

namespace Table

variable {ν : Type} {t : Table Value ν} {k : Value} {x : ν}

/-- Equality, where it compares contents, finds a place for the new key. -/
theorem Sound.put (h : t.Sound) (hk : k.Sound) (hkeys : ∀ k' ∈ t.keys, k'.Sound)
    (heq : ∀ k' ∈ t.keys, (k == k') = k.same k') : (t.put k x).Sound := by
  refine ⟨h.indexed.insert k x, ?_⟩
  unfold Table.put
  cases hp : t.position? k.hash (k == ·) with
  | some i =>
    rw [keys_insert_of_some hp]
    exact h.distinct
  | none =>
    rw [keys_insert_of_none hp, List.pairwise_append]
    refine ⟨h.distinct, List.pairwise_singleton _ _, fun k' hk' w hw => ?_⟩
    have hwk : w = k := List.mem_singleton.1 hw
    rw [hwk]
    obtain ⟨e, he, rfl⟩ := mem_keys.1 hk'
    by_contra hsame
    rw [Bool.not_eq_false] at hsame
    have hhash : e.1.hash = k.hash := (hk.classed e.1 (hkeys _ hk') hsame).hash
    have hnone := h.indexed.position?_eq_none_iff.1 hp e he hhash
    rw [heq _ hk', hsame] at hnone
    cases hnone

end Table

namespace Session

variable {s s' : Session} {v w : Value}

namespace Coherent

theorem sound_put {ν : Type} (h : s.Coherent) {t : Table Value ν} {k : Value} {x : ν}
    (ht : t.Sound) (hkeys : ∀ k' ∈ t.keys, s.Has k') (hk : s.Has k) : (t.put k x).Sound :=
  ht.put (h.sound hk) (fun k' hk' => h.sound (hkeys k' hk')) fun k' hk' =>
    h.beq_eq_same hk (hkeys k' hk')

/-- Tables filled with values at hand are in order. -/
theorem sound_of_grown {ν : Type} (h : s.Coherent) {Q : ν → Prop} {Old : Table Value ν → Prop}
    {t : Table Value ν} (hg : t.Grown s.Has Q Old)
    (hold : ∀ t, Old t → t.Sound ∧ ∀ k ∈ t.keys, s.Has k) : t.Sound := by
  induction hg with
  | empty => exact ⟨Table.indexed_empty _, List.Pairwise.nil⟩
  | old ht => exact (hold _ ht).1
  | put ht hk _ ih => exact h.sound_put ih (ht.keys fun t ht => (hold t ht).2) hk

theorem tableSound (h : s.Coherent) (hv : s.Admits v) : v.TableSound := by
  have hfilled := hv.filled
  cases v with
  | set t c es =>
    refine h.sound_of_grown hfilled ?_
    rintro t ⟨ty, c, ht⟩
    exact ⟨h.tables _ ht, fun k hk => ht.part hk⟩
  | map t c es =>
    refine h.sound_of_grown hfilled ?_
    rintro t ⟨ty, c, ht⟩
    exact ⟨h.tables _ ht, fun k hk => ht.part (List.mem_append_left _ hk)⟩
  | _ => trivial

/-- What shares the cell of an admitted value shares its contents. -/
theorem shared_of_admits (h : s.Coherent) (hv : s.Admits v) (hw : s.Has w) {c : Cell}
    (hc : v.cell? = some c) (hc' : w.cell? = some c) : w = v.withTy w.ty := by
  rcases hv.stored c hc with rfl | ⟨u, hu, huv⟩
  · exact (Nat.lt_irrefl _ (h.below w hw _ hc')).elim
  · have hcu : u.cell? = some c := by
      rw [huv, Value.cell?_withTy] at hc
      exact hc
    rw [huv, Value.withTy_withTy]
    exact h.shared u w hu hw c hcu hc'

theorem add (h : s.Coherent) (hv : s.Admits v) : (s.add v).Coherent where
  below w hw c hc := by
    rcases hv.has_add_iff.1 hw with rfl | hw
    · rcases hv.stored c hc with rfl | ⟨u, hu, huv⟩
      · exact Nat.lt_succ_self _
      · rw [huv, Value.cell?_withTy] at hc
        exact Nat.lt_succ_of_lt (h.below u hu c hc)
    · exact Nat.lt_succ_of_lt (h.below w hw c hc)
  shared a b ha hb c hc hc' := by
    rcases hv.has_add_iff.1 ha with rfl | hold
    · rcases hv.has_add_iff.1 hb with rfl | hold'
      · exact (Value.withTy_ty _).symm
      · exact h.shared_of_admits hv hold' hc hc'
    · rcases hv.has_add_iff.1 hb with rfl | hold'
      · rw [h.shared_of_admits hv hold hc' hc, Value.withTy_withTy, Value.withTy_ty]
      · exact h.shared a b hold hold' c hc hc'
  tables w hw := by
    rcases hv.has_add_iff.1 hw with rfl | hw
    · exact h.tableSound hv
    · exact h.tables w hw

end Coherent

theorem Grows.coherent (h : s.Grows s') (hs : s.Coherent) : s'.Coherent := by
  induction h with
  | refl => exact hs
  | add _ hv ih => exact ih.add hv

/-- Every call keeps a session coherent. -/
theorem Coherent.step (h : s.Coherent) (ht : s.Typed) (hs : s.Step s') : s'.Coherent := by
  cases hs with
  | make hv => exact h.add (hv.admits ht.values)
  | read m hr hread =>
    obtain ⟨s₁, hgrows, rfl, hv⟩ := read_grows hr ht.values hread
    exact (hgrows.coherent h).anti (fun w => hgrows.has_of_has_cons hv) (Nat.le_refl _)
  | openWriter | insert | fail => exact h.anti (fun _ => id) (Nat.le_refl _)
  | @finish before after w w' v hws hfin =>
    have hw := ht.writers w (hws ▸ List.mem_append_right _ List.mem_cons_self)
    exact (h.add (hfin.admits ht.values hw).1).anti (fun _ => id) (Nat.le_refl _)

theorem Reachable.coherent (h : s.Reachable) : s.Coherent := by
  induction h with
  | start => exact ⟨nofun, nofun, nofun⟩
  | step hs hstep ih => exact ih.step hs.typed hstep

end Session

end ValueAlgebra
