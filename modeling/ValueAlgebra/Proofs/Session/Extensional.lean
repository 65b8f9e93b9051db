import ValueAlgebra.Proofs.Session.Meaning

/-!
# Equality of sets and maps is extensional

Two sets are equal exactly if they contain the same values, and two maps if they bind the same keys
to equal values. Comparing them looks up the elements of one in the other only; since no table has
two equal keys, and the sizes agree, this leaves nothing out. Sets built of the same values, in any
order and however often each occurs, are therefore equal.

## Main results

- `Session.Coherent.matches_iff_lookup`: tables match exactly if they agree on all keys
-/

namespace ValueAlgebra

namespace Value

variable {v : Value}

theorem eq_set_of_hasKind (h : v.hasKind .set = true) : ∃ t c es, v = .set t c es := by
  cases v with
  | set t c es => exact ⟨t, c, es, rfl⟩
  | _ => cases h

theorem eq_map_of_hasKind (h : v.hasKind .map = true) : ∃ t c es, v = .map t c es := by
  cases v with
  | map t c es => exact ⟨t, c, es, rfl⟩
  | set t c es =>
    rw [hasKind, kind] at h
    split at h <;> cases h
  | _ => cases h

end Value

namespace Session

variable {s : Session}

namespace Coherent

variable {ν : Type} {es fs : Table Value ν} {t u : Ty} {c d : Cell}

/-! ### Looking up -/

/-- Every entry is found under all keys equal to its own. -/
theorem lookup_of_mem (h : s.Coherent) (hr : s.Records es es.toList) {e : Value × ν}
    (he : e ∈ es.toList) {k : Value} (hk : s.Has k) (hek : (e.1 == k) = true) :
    es.lookup k = some e.2 := by
  rw [h.lookup_eq hr hk, ← lastFor_congr h.beqOn hr.held (hr.held e he) hk hek]
  exact hr.values e he

theorem exists_of_lookup (h : s.Coherent) (hr : s.Records es es.toList) {k : Value} {x : ν}
    (hk : s.Has k) (hx : es.lookup k = some x) :
    ∃ e ∈ es.toList, (e.1 == k) = true ∧ e.2 = x := by
  by_cases hnone : ∃ e ∈ es.toList, (e.1 == k) = true
  · obtain ⟨e, he, hek⟩ := hnone
    exact ⟨e, he, hek, Option.some.inj ((h.lookup_of_mem hr he hk hek).symm.trans hx)⟩
  · have hlast : lastFor es.toList k = none := by
      refine lastFor_eq_none_iff.2 fun e he => Bool.eq_false_iff.2 fun hek => ?_
      exact hnone ⟨e, he, hek⟩
    rw [h.lookup_eq hr hk, hlast] at hx
    cases hx

theorem hasKey_eq_isSome (h : s.Coherent) (hr : s.Records es es.toList) {k : Value}
    (hk : s.Has k) : es.hasKey k = (es.lookup k).isSome := by
  rw [Bool.eq_iff_iff, h.hasKey_iff hr hk, Option.isSome_iff_exists]
  constructor
  · rintro ⟨e, he, hek⟩
    exact ⟨e.2, h.lookup_of_mem hr he hk hek⟩
  · rintro ⟨x, hx⟩
    obtain ⟨e, he, hek, -⟩ := h.exists_of_lookup hr hk hx
    exact ⟨e, he, hek⟩

/-! ### Tables that match -/

/-- Entries have related ones in another table exactly if what is found under any key is related to
what is found there. -/
theorem forall_mem_iff_lookup (h : s.Coherent) (hes : s.Records es es.toList)
    (hfs : s.Records fs fs.toList) {r : ν → ν → Prop} :
    (∀ e ∈ es.toList, ∃ f ∈ fs.toList, (e.1 == f.1) = true ∧ r e.2 f.2) ↔
      ∀ k, s.Has k → ∀ x, es.lookup k = some x → ∃ y, fs.lookup k = some y ∧ r x y := by
  constructor
  · intro hentries k hk x hx
    obtain ⟨e, he, hek, rfl⟩ := h.exists_of_lookup hes hk hx
    obtain ⟨f, hf, hef, hr⟩ := hentries e he
    have hfe := h.beqOn.symm e.1 f.1 (hes.held e he) (hfs.held f hf) hef
    have hfk := h.beqOn.trans f.1 e.1 k (hfs.held f hf) (hes.held e he) hk hfe hek
    exact ⟨f.2, h.lookup_of_mem hfs hf hk hfk, hr⟩
  · intro hlookup e he
    have hP := hes.held e he
    have hx := h.lookup_of_mem hes he hP (h.beqOn.refl e.1 hP)
    obtain ⟨y, hy, hr⟩ := hlookup e.1 hP e.2 hx
    obtain ⟨f, hf, hfe, rfl⟩ := h.exists_of_lookup hfs hP hy
    exact ⟨f, hf, h.beqOn.symm f.1 e.1 (hfs.held f hf) hP hfe, hr⟩

/-- Tables match exactly if the same keys are found in both, with related values. -/
theorem matches_iff_lookup (h : s.Coherent) (hes : s.Records es es.toList)
    (hfs : s.Records fs fs.toList) {r : ν → ν → Prop} :
    es.Matches (fun e f => (e.1 == f.1) = true ∧ r e.2 f.2) fs ↔
      ∀ k, s.Has k → Option.Rel r (es.lookup k) (fs.lookup k) := by
  have hback : (∀ f ∈ fs.toList, ∃ e ∈ es.toList, (e.1 == f.1) = true ∧ r e.2 f.2) ↔
      ∀ f ∈ fs.toList, ∃ e ∈ es.toList, (f.1 == e.1) = true ∧ r e.2 f.2 := by
    refine forall₂_congr fun f hf => exists_congr fun e => and_congr_right fun he => ?_
    rw [h.beqOn.comm (hes.held e he) (hfs.held f hf)]
  rw [Table.Matches, hback, h.forall_mem_iff_lookup hes hfs,
    h.forall_mem_iff_lookup hfs hes (r := fun y x => r x y), ← forall₂_and]
  refine forall₂_congr fun k _ => ?_
  cases es.lookup k <;> cases fs.lookup k <;> simp

/-! ### Sets and maps -/

/-- Sets are equal if they contain the same values. -/
theorem set_beq_iff {es fs : Table Value Unit} (h : s.Coherent) (hv : s.Has (.set t c es))
    (hw : s.Has (.set u d fs)) : (Value.set t c es == Value.set u d fs) = true ↔
      ∀ x, s.Has x → es.hasKey x = fs.hasKey x := by
  have hes : s.Records es es.toList := h.records_of_grownSet (.old ⟨t, c, hv⟩)
  have hfs : s.Records fs fs.toList := h.records_of_grownSet (.old ⟨u, d, hw⟩)
  have hmatches := h.matches_iff_lookup hes hfs (r := fun _ _ => True)
  simp only [and_true] at hmatches
  rw [h.beq_iff_agrees hv hw]
  refine hmatches.trans (forall₂_congr fun x hx => ?_)
  rw [h.hasKey_eq_isSome hes hx, h.hasKey_eq_isSome hfs hx]
  cases es.lookup x <;> cases fs.lookup x <;> simp

/-- Maps are equal if they bind the same keys to equal values. -/
theorem map_beq_iff {es fs : Table Value Value} (h : s.Coherent) (hv : s.Has (.map t c es))
    (hw : s.Has (.map u d fs)) : (Value.map t c es == Value.map u d fs) = true ↔
      ∀ k, s.Has k →
        Option.Rel (fun x y => (x == y) = true) (es.lookup k) (fs.lookup k) := by
  have hes : s.Records es es.toList := h.records_of_grownMap (.old ⟨t, c, hv⟩)
  have hfs : s.Records fs fs.toList := h.records_of_grownMap (.old ⟨u, d, hw⟩)
  rw [h.beq_iff_agrees hv hw]
  exact h.matches_iff_lookup hes hfs (r := fun x y => (x == y) = true)

end Coherent

/-- Sets, among them relations, are equal if they contain the same values, and maps if they bind the
same keys to equal values. Sets that are built of the same values are equal, in whatever order and
however often these come. -/
theorem Reachable.beq_isExtensional (hs : s.Reachable) :
    (∀ v w, s.Has v → s.Has w → v.hasKind .set = true → w.hasKind .set = true →
      ((v == w) = true ↔ ∀ x, s.Has x → v.contains x = w.contains x)) ∧
    (∀ v w, s.Has v → s.Has w → v.hasKind .map = true → w.hasKind .map = true →
      ((v == w) = true ↔ ∀ k, s.Has k →
        Option.Rel (fun x y => (x == y) = true) (v.get? k) (w.get? k))) ∧
    ∀ (m m' : Manager) (c c' : Cell) (xs ys : List Value), s.Has (Build.set m c xs) →
      s.Has (Build.set m' c' ys) → (∀ x ∈ xs, s.Has x) → (∀ x, x ∈ xs ↔ x ∈ ys) →
      (Build.set m c xs == Build.set m' c' ys) = true := by
  refine ⟨?set, ?map, ?built⟩
  case set =>
    intro v w hv hw hkind hkind'
    obtain ⟨t, c, es, rfl⟩ := Value.eq_set_of_hasKind hkind
    obtain ⟨u, d, fs, rfl⟩ := Value.eq_set_of_hasKind hkind'
    exact hs.coherent.set_beq_iff hv hw
  case map =>
    intro v w hv hw hkind hkind'
    obtain ⟨t, c, es, rfl⟩ := Value.eq_map_of_hasKind hkind
    obtain ⟨u, d, fs, rfl⟩ := Value.eq_map_of_hasKind hkind'
    exact hs.coherent.map_beq_iff hv hw
  case built =>
    intro m m' c c' xs ys hset hset' hxs hmem
    have h := hs.coherent
    have hys : ∀ y ∈ ys, s.Has y := fun y hy => hxs y ((hmem y).2 hy)
    refine (h.set_beq_iff hset hset').2 fun x hx => Bool.eq_iff_iff.2 ?_
    rw [h.hasKey_iff (h.records_ofValues hxs) hx, h.hasKey_iff (h.records_ofValues hys) hx]
    simp [hmem]

namespace Nested

/-- The elements of `first` in another order, with one of them three times. -/
def repeated : Value :=
  Build.set manager 15 [minusZero, narrowed, zero, zero, noNumbers, positiveNaN, zero]

theorem reachable_repeated : (session.add repeated).Reachable :=
  .make reachable_session
    (.set manager (has_of_subset (by simp [session, sets, parts, scalars, add])))

end Nested

open Nested in
/-- Equal elements of different types and bits count as the same. -/
theorem beq_nested_sets :
    (∀ x, (session.add repeated).Has x → first.contains x = second.contains x) ∧
    (∀ k, (session.add repeated).Has k →
      Option.Rel (fun x y => (x == y) = true) (firstMap.get? k) (secondMap.get? k)) ∧
    (first == repeated) = true := by
  obtain ⟨hset, hmap, hbuilt⟩ := reachable_repeated.beq_isExtensional
  have hheld (v : Value) (hv : v ∈ (session.add repeated).values) :
      (session.add repeated).Has v := has_of_mem hv
  have hfirst := hheld first (by simp [session, sets, add])
  have hsecond := hheld second (by simp [session, sets, add])
  have hfirstMap := hheld firstMap (by simp [session, add])
  have hsecondMap := hheld secondMap (by simp [session, add])
  have hkind : first.hasKind .set = true := by decide +kernel
  have hkind' : second.hasKind .set = true := by decide +kernel
  have hequal : (first == second) = true := by decide +kernel
  refine ⟨(hset first second hfirst hsecond hkind hkind').1 hequal,
    (hmap firstMap secondMap hfirstMap hsecondMap rfl rfl).1 firstMap_beq_secondMap, ?_⟩
  refine hbuilt manager manager 9 15 _ _ hfirst (hheld repeated List.mem_cons_self) ?_ ?_
  · exact has_of_subset (by simp [session, sets, parts, scalars, add])
  · intro x
    simp only [List.mem_cons, List.not_mem_nil, or_false]
    tauto

end Session

end ValueAlgebra
