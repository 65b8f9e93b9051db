import ValueAlgebra.Proofs.Value.Sameness

/-!
# Shortcuts in comparisons

A comparison that answers `true` early, wherever some shortcut does, answers as the comparison
without shortcuts if the shortcut only holds of values that are the same. Lookups in tables that
take such a comparison for their test find what they would find without it.
-/

namespace ValueAlgebra

namespace Table

variable {κ ν : Type} {t : Table κ ν} {h : UInt64} {p q : κ → Bool}

/-- Only the test's answers on the keys count. -/
theorem position?_congr (hpq : ∀ k ∈ t.keys, p k = q k) : t.position? h p = t.position? h q := by
  unfold position?
  congr 1
  funext i
  cases he : t.entries[i]? with
  | none => rfl
  | some e =>
    have hmem : e ∈ t.toList := Array.mem_toList_iff.2 (Array.mem_of_getElem? he)
    exact hpq e.1 (mem_keys.2 ⟨e, hmem, rfl⟩)

theorem contains_congr (hpq : ∀ k ∈ t.keys, p k = q k) : t.contains h p = t.contains h q := by
  rw [contains, contains, position?_congr hpq]

theorem get?_congr (hpq : ∀ k ∈ t.keys, p k = q k) : t.get? h p = t.get? h q := by
  rw [get?, get?, position?_congr hpq]

end Table

namespace Value

variable {shortcut : Value → Value → Bool}

theorem eqAll_congr {vs ws : List Value}
    (h : ∀ v ∈ vs, ∀ w ∈ ws, v.eqWith shortcut w = v.same w) :
    eqAll shortcut vs ws = eqAll (fun _ _ => false) vs ws := by
  induction vs generalizing ws with
  | nil => cases ws <;> simp only [eqAll]
  | cons v vs ih =>
    cases ws with
    | nil => simp only [eqAll]
    | cons w ws =>
      rw [eqAll, eqAll, h v List.mem_cons_self w List.mem_cons_self, same,
        ih fun v hv w hw => h v (List.mem_cons_of_mem _ hv) w (List.mem_cons_of_mem _ hw)]

theorem elemsIn_congr {es : List (Value × Unit)} {t : Table Value Unit}
    (h : ∀ e ∈ es, ∀ k ∈ t.keys, e.1.eqWith shortcut k = e.1.same k) :
    elemsIn shortcut es t = elemsIn (fun _ _ => false) es t := by
  induction es with
  | nil => rw [elemsIn, elemsIn]
  | cons e es ih =>
    rw [List.forall_mem_cons] at h
    rw [elemsIn, elemsIn, ih h.2, Table.contains_congr h.1]
    rfl

theorem entriesIn_congr {es : List (Value × Value)} {t : Table Value Value}
    (h : ∀ e ∈ es, (∀ k ∈ t.keys, e.1.eqWith shortcut k = e.1.same k) ∧
      ∀ x ∈ t.values, e.2.eqWith shortcut x = e.2.same x) :
    entriesIn shortcut es t = entriesIn (fun _ _ => false) es t := by
  induction es with
  | nil => rw [entriesIn, entriesIn]
  | cons e es ih =>
    rw [List.forall_mem_cons] at h
    rw [entriesIn, entriesIn, ih h.2, Table.get?_congr h.1.1]
    congr 1
    show Option.any _ (t.get? _ (e.1.same ·)) = Option.any _ (t.get? _ (e.1.same ·))
    cases hx : t.get? e.1.hash (e.1.same ·) with
    | none => rfl
    | some x =>
      obtain ⟨i, -, hx⟩ := Option.bind_eq_some_iff.1 hx
      obtain ⟨f, hf, rfl⟩ := Option.map_eq_some_iff.1 hx
      have hmem : f ∈ t.toList := Array.mem_toList_iff.2 (Array.mem_of_getElem? hf)
      exact h.1.2 f.2 (Table.mem_values.2 ⟨f, hmem, rfl⟩)

/-- What a comparison answers is its shortcut's answer or that of one level. -/
theorem eqWith_eq_same_of_level {v w : Value} (h : shortcut v w = true → v.same w = true)
    (hlevel : (shortcut v w || v.eqWith (fun _ _ => false) w) = v.eqWith shortcut w) :
    v.eqWith shortcut w = v.same w := by
  rw [← hlevel]
  cases hs : shortcut v w with
  | true => rw [Bool.true_or, h hs]
  | false => rw [Bool.false_or, same]

/-- A shortcut between values that are the same changes nothing. -/
theorem eqWith_eq_same {v w : Value}
    (h : ∀ a b : Value, a.Within v → b.Within w → shortcut a b = true → a.same b = true) :
    v.eqWith shortcut w = v.same w := by
  induction v using parts_induction generalizing w with
  | h v ih =>
    have hparts : ∀ p ∈ v.parts, ∀ q ∈ w.parts, p.eqWith shortcut q = p.same q :=
      fun p hp q hq => ih p hp fun a b ha hb =>
        h a b (ha.trans (.part hp .refl)) (hb.trans (.part hq .refl))
    -- The shortcut is asked about the whole values here and about their parts in the recursion.
    refine eqWith_eq_same_of_level (h v w .refl .refl) ?_
    cases v with
    | tuple t c vs =>
      cases w with
      | tuple u c' ws =>
        have hvs : eqAll shortcut vs ws = eqAll (fun _ _ => false) vs ws := eqAll_congr hparts
        simp only [eqWith, Bool.false_or, hvs]
      | _ => simp only [eqWith, Bool.or_false]
    | list t c vs =>
      cases w with
      | list u c' ws =>
        have hvs : eqAll shortcut vs ws = eqAll (fun _ _ => false) vs ws := eqAll_congr hparts
        simp only [eqWith, Bool.false_or, hvs]
      | _ => simp only [eqWith, Bool.or_false]
    | node t c n vs =>
      cases w with
      | node u c' n' ws =>
        have hvs : eqAll shortcut vs ws = eqAll (fun _ _ => false) vs ws := eqAll_congr hparts
        simp only [eqWith, Bool.false_or, hvs]
      | _ => simp only [eqWith, Bool.or_false]
    | constructor t c vs =>
      cases w with
      | constructor u c' ws =>
        have hvs : eqAll shortcut vs ws = eqAll (fun _ _ => false) vs ws := eqAll_congr hparts
        simp only [eqWith, Bool.false_or, hvs]
      | _ => simp only [eqWith, Bool.or_false]
    | set t c es =>
      obtain ⟨⟨es⟩, index⟩ := es
      cases w with
      | set u c' fs =>
        have hes : elemsIn shortcut es fs = elemsIn (fun _ _ => false) es fs :=
          elemsIn_congr fun e he k hk => hparts e.1 (Table.mem_keys.2 ⟨e, he, rfl⟩) k hk
        simp only [eqWith, Bool.false_or, hes]
      | _ => simp only [eqWith, Bool.or_false]
    | map t c es =>
      obtain ⟨⟨es⟩, index⟩ := es
      cases w with
      | map u c' fs =>
        have hes : entriesIn shortcut es fs = entriesIn (fun _ _ => false) es fs := by
          refine entriesIn_congr fun e he => ⟨fun k hk => ?_, fun x hx => ?_⟩
          · exact hparts e.1 (List.mem_append_left _ (Table.mem_keys.2 ⟨e, he, rfl⟩)) k
              (List.mem_append_left _ hk)
          · exact hparts e.2 (List.mem_append_right _ (Table.mem_values.2 ⟨e, he, rfl⟩)) x
              (List.mem_append_right _ hx)
        simp only [eqWith, Bool.false_or, hes]
      | _ => simp only [eqWith, Bool.or_false]
    | _ => cases w <;> simp only [eqWith, Bool.or_false, Bool.false_or]

end Value

end ValueAlgebra
