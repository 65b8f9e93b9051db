import ValueAlgebra.Proofs.Value.Sameness

/-!
# What the same values have in common

`Value.Agrees R v w` is one step of a comparison, where `R` compares the parts. It looks at both
sides alike: sets agree when each element of either has a partner in the other, maps when each
entry does, and neither sizes nor hashes nor lookups occur. `Value.same_iff_agrees` says that
values are the same exactly if they agree with their parts compared by sameness again. As parts are
smaller, no other comparison has this property.

## Main definitions

- `Table.Matches`: each entry of either table has a partner in the other
- `Value.Agrees`: one step of a comparison
-/

namespace ValueAlgebra

namespace Double

/-- The bits that count are those of the double itself, unless it is a NaN. -/
theorem canonicalBits_eq_iff {d e : Double} :
    d.canonicalBits = e.canonicalBits ↔ (d.isNaN = true ∧ e.isNaN = true) ∨ d = e := by
  have hbits (a b : Double) : a.bits = b.bits ↔ a = b := ⟨congrArg mk, congrArg bits⟩
  have hne {a b : Double} (ha : a.isNaN = true) (hb : b.isNaN = false) : a ≠ b := by
    rintro rfl
    cases ha.symm.trans hb
  have hnan : nan.isNaN = true := rfl
  cases hd : d.isNaN <;> cases he : e.isNaN
  · simp [canonicalBits, hd, he, hbits]
  · simp [canonicalBits, hd, he, hbits, (hne hnan hd).symm, (hne he hd).symm]
  · simp [canonicalBits, hd, he, hbits, hne hnan he, hne hd he]
  · simp [canonicalBits, hd, he]

end Double

namespace Table

variable {κ ν : Type} {R S : κ × ν → κ × ν → Prop} {t u : Table κ ν}

/-- Each entry of either table is related to one of the other. -/
def Matches (R : κ × ν → κ × ν → Prop) (t u : Table κ ν) : Prop :=
  (∀ e ∈ t.toList, ∃ f ∈ u.toList, R e f) ∧ ∀ f ∈ u.toList, ∃ e ∈ t.toList, R e f

theorem Matches.imp (h : t.Matches R u) (hRS : ∀ e ∈ t.toList, ∀ f ∈ u.toList, R e f → S e f) :
    t.Matches S u := by
  refine ⟨fun e he => ?_, fun f hf => ?_⟩
  · obtain ⟨f, hf, hef⟩ := h.1 e he
    exact ⟨f, hf, hRS e he f hf hef⟩
  · obtain ⟨e, he, hef⟩ := h.2 f hf
    exact ⟨e, he, hRS e he f hf hef⟩

theorem matches_of_forall₂ (h : List.Forall₂ R t.toList u.toList) : t.Matches R u :=
  ⟨exists_of_forall₂_right h.flip, exists_of_forall₂_right h⟩

end Table

namespace Value

/-- One step of a comparison: both values have the same form and the same contents, where `R`
compares their parts. Of a constructor's type the two names count, of other types nothing. -/
def Agrees (R : Value → Value → Prop) : Value → Value → Prop
  | int _ n, int _ m => n = m
  | double _ d, double _ e => (d.isNaN = true ∧ e.isNaN = true) ∨ d = e
  | bool _ b, bool _ b' => b = b'
  | str _ _ s, str _ _ s' => s = s'
  | loc _ _ p r, loc _ _ p' r' => p = p' ∧ r = r'
  | tuple _ _ vs, tuple _ _ ws => List.Forall₂ R vs ws
  | list _ _ vs, list _ _ ws => List.Forall₂ R vs ws
  | set _ _ es, set _ _ fs => es.Matches (fun e f => R e.1 f.1) fs
  | map _ _ es, map _ _ fs => es.Matches (fun e f => R e.1 f.1 ∧ R e.2 f.2) fs
  | node _ _ n vs, node _ _ n' ws => n = n' ∧ List.Forall₂ R vs ws
  | constructor t _ vs, constructor u _ ws =>
    t.ownerName? = u.ownerName? ∧ t.constructorName? = u.constructorName? ∧ List.Forall₂ R vs ws
  | _, _ => False

theorem forall₂_imp_of_mem {α β : Type} {R S : α → β → Prop} {xs : List α} {ys : List β}
    (h : List.Forall₂ R xs ys) (hRS : ∀ x ∈ xs, ∀ y ∈ ys, R x y → S x y) :
    List.Forall₂ S xs ys := by
  induction h with
  | nil => exact .nil
  | cons hxy _ ih =>
    refine .cons (hRS _ List.mem_cons_self _ List.mem_cons_self hxy) (ih fun x hx y hy => ?_)
    exact hRS x (.tail _ hx) y (.tail _ hy)

/-- A step only compares parts. -/
theorem Agrees.imp {R S : Value → Value → Prop} {v w : Value} (h : v.Agrees R w)
    (hRS : ∀ p ∈ v.parts, ∀ q ∈ w.parts, R p q → S p q) : v.Agrees S w := by
  unfold Agrees at h ⊢
  split at h
  · exact h
  · exact h
  · exact h
  · exact h
  · exact h
  · exact forall₂_imp_of_mem h hRS
  · exact forall₂_imp_of_mem h hRS
  · refine h.imp fun e he f hf => ?_
    exact hRS _ (List.mem_map_of_mem he) _ (List.mem_map_of_mem hf)
  · refine h.imp fun e he f hf => And.imp ?_ ?_
    · exact hRS _ (parts_of_entry he).1 _ (parts_of_entry hf).1
    · exact hRS _ (parts_of_entry he).2 _ (parts_of_entry hf).2
  · exact ⟨h.1, forall₂_imp_of_mem h.2 hRS⟩
  · exact ⟨h.1, h.2.1, forall₂_imp_of_mem h.2.2 hRS⟩
  · exact h.elim

/-! ### Sets and maps from both sides -/

section Tables

variable {ν : Type} {t u : Ty} {c d : Cell}

/-- A table whose keys all have partners is no larger than that of the partners. -/
theorem size_le_of_partners {es fs : Table Value ν} (hes : es.Sound)
    (hk : ∀ e ∈ es.toList, e.1.Sound) (hfs : ∀ f ∈ fs.toList, f.1.Sound)
    (h : ∀ e ∈ es.toList, ∃ f ∈ fs.toList, e.1.same f.1 = true) : es.size ≤ fs.size := by
  rcases Nat.le_total es.size fs.size with hle | hle
  · exact hle
  · obtain ⟨gs, hperm, hmatch⟩ := exists_matching hes hk (fun e he => (hk e he).classed) hfs hle
      (fun _ _ => id) h
    rw [← Table.length_toList, ← Table.length_toList]
    exact Nat.le_of_eq (hmatch.length_eq.trans hperm.length_eq)

theorem same_set_iff_matches {es fs : Table Value Unit} (hv : (set t c es).Sound)
    (hw : (set u d fs).Sound) : (set t c es).same (set u d fs) = true ↔
      es.Matches (fun e f => e.1.same f.1 = true) fs := by
  constructor
  · intro h
    obtain ⟨_, _, _, hfs, -, hpartner⟩ := (same_set_iff hw).1 h
    obtain ⟨_, _, _, hes, -, hback⟩ := (same_set_iff hv).1 (same_symm hv hw h)
    obtain ⟨-, -, rfl⟩ := set.inj hfs
    obtain ⟨-, -, rfl⟩ := set.inj hes
    refine ⟨fun e he => ?_, fun f hf => ?_⟩
    · obtain ⟨f, hf, -, hef⟩ := hpartner e he
      exact ⟨f, hf, hef⟩
    · obtain ⟨e, he, -, hfe⟩ := hback f hf
      exact ⟨e, he, same_symm (hw.key_of_set hf) (hv.key_of_set he) hfe⟩
  · rintro ⟨hpartner, hback⟩
    have hle := size_le_of_partners hv.table (fun _ => hv.key_of_set) (fun _ => hw.key_of_set)
      hpartner
    have hge := size_le_of_partners hw.table (fun _ => hw.key_of_set) (fun _ => hv.key_of_set)
      fun f hf =>
        let ⟨e, he, hef⟩ := hback f hf
        ⟨e, he, same_symm (hv.key_of_set he) (hw.key_of_set hf) hef⟩
    refine (same_set_iff hw).2 ⟨u, d, fs, rfl, Nat.le_antisymm hle hge, fun e he => ?_⟩
    obtain ⟨f, hf, hef⟩ := hpartner e he
    exact ⟨f, hf, ((hv.key_of_set he).classed f.1 (hw.key_of_set hf) hef).hash, hef⟩

theorem same_map_iff_matches {es fs : Table Value Value} (hv : (map t c es).Sound)
    (hw : (map u d fs).Sound) : (map t c es).same (map u d fs) = true ↔
      es.Matches (fun e f => e.1.same f.1 = true ∧ e.2.same f.2 = true) fs := by
  constructor
  · intro h
    obtain ⟨_, _, _, hfs, -, hpartner⟩ := (same_map_iff hw (hv.findsOne hw)).1 h
    obtain ⟨_, _, _, hes, -, hback⟩ :=
      (same_map_iff hv (hw.findsOne hv)).1 (same_symm hv hw h)
    obtain ⟨-, -, rfl⟩ := map.inj hfs
    obtain ⟨-, -, rfl⟩ := map.inj hes
    refine ⟨fun e he => ?_, fun f hf => ?_⟩
    · obtain ⟨f, hf, -, hef⟩ := hpartner e he
      exact ⟨f, hf, hef⟩
    · obtain ⟨e, he, -, hkey, hval⟩ := hback f hf
      exact ⟨e, he, same_symm (hw.key_of_map hf) (hv.key_of_map he) hkey,
        same_symm (hw.value_of_map hf) (hv.value_of_map he) hval⟩
  · rintro ⟨hpartner, hback⟩
    have hle := size_le_of_partners hv.table (fun _ => hv.key_of_map) (fun _ => hw.key_of_map)
      fun e he =>
        let ⟨f, hf, hef⟩ := hpartner e he
        ⟨f, hf, hef.1⟩
    have hge := size_le_of_partners hw.table (fun _ => hw.key_of_map) (fun _ => hv.key_of_map)
      fun f hf =>
        let ⟨e, he, hef⟩ := hback f hf
        ⟨e, he, same_symm (hv.key_of_map he) (hw.key_of_map hf) hef.1⟩
    refine (same_map_iff hw (hv.findsOne hw)).2
      ⟨u, d, fs, rfl, Nat.le_antisymm hle hge, fun e he => ?_⟩
    obtain ⟨f, hf, hef⟩ := hpartner e he
    exact ⟨f, hf, ((hv.key_of_map he).classed f.1 (hw.key_of_map hf) hef.1).hash, hef⟩

end Tables

/-! ### Sameness as a fixed point -/

/-- Values are the same exactly if they agree and their parts are the same. -/
theorem same_iff_agrees {v w : Value} (hv : v.Sound) (hw : w.Sound) :
    v.same w = true ↔ v.Agrees (fun p q => p.same q = true) w := by
  cases v with
  | int t n => cases w <;> simp [same_int_iff, Agrees, eq_comm (a := n)]
  | double => cases w <;> simp [same_double_iff, Agrees, Double.canonicalBits_eq_iff]
  | bool t b => cases w <;> simp [same_bool_iff, Agrees, eq_comm (a := b)]
  | str t c x => cases w <;> simp [same_str_iff, Agrees, eq_comm (a := x)]
  | loc t c p r => cases w <;> simp [same_loc_iff, Agrees, eq_comm (a := p), eq_comm (a := r)]
  | tuple => cases w <;> simp [same_tuple_iff, Agrees]
  | list => cases w <;> simp [same_list_iff, Agrees]
  | node t c n vs => cases w <;> simp [same_node_iff, Agrees, eq_comm (a := n)]
  | constructor => cases w <;> simp [same_constructor_iff, Agrees]
  | set t c es =>
    cases w with
    | set => exact same_set_iff_matches hv hw
    | _ => simp [same_set_iff hw, Agrees]
  | map t c es =>
    cases w with
    | map => exact same_map_iff_matches hv hw
    | _ => simp [same_map_iff hw (hv.findsOne hw), Agrees]

end Value

end ValueAlgebra
