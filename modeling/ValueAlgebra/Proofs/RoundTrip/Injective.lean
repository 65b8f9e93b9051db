import ValueAlgebra.Proofs.Grammar.Texts
import ValueAlgebra.Proofs.RoundTrip.Rebuilding
import ValueAlgebra.Proofs.Session.Equality

/-!
# Texts tell values apart

Values with the same text are equal, whether or not a reader finds the overloads to read them. A
text is split into lexemes in one way, the lexemes are those of one derivation, and a derivation
determines the contents of what it was written for: scalars and the names of nodes can be decoded,
and each other form of value has a bracket of its own.
-/

namespace ValueAlgebra

/-! ### The brackets of nodes -/

/-- Nodes with different names have different brackets. -/
theorem nodeBracket_injective : Function.Injective nodeBracket := by
  intro n m h
  have hm : (nodeBracket n).resolve {} = .ok (.node m.toList) := h ▸ Value.resolve_nodeBracket {} m
  have hnames := Except.ok.inj ((Value.resolve_nodeBracket {} n).symm.trans hm)
  exact String.toList_inj.1 (Opening.node.inj hnames)

namespace Value

variable {v w : Value}

/-- A bracket with another meaning is not that of a node. -/
theorem derivation_node_ne {t : Ty} {c : Cell} {n : String} {vs : List Value} {b : Bracket}
    {ds : List Derivation} (hb : ∀ n, b.resolve {} ≠ .ok (.node n)) :
    (node t c n vs).derivation ≠ .bracket b ds := by
  rw [derivation_node]
  intro h
  obtain rfl := (Derivation.bracket.inj h).1
  exact hb n.toList (resolve_nodeBracket {} n)

/-! ### One level of a value -/

theorem sound_of_scalar {m : Manager} {sc : Scalar} {x : Value} (h : sc.value m 0 = .ok x) :
    x.Sound := by
  have hstart := Session.Reachable.start
  have hbuild : (Derivation.scalar sc).build {} m ({} : Session).next = .ok (x, 1) :=
    Derivation.build_scalar_eq_ok.2 ⟨h, rfl⟩
  obtain ⟨s, hgrows, -, hx⟩ := Session.build_grows (by nofun) _ hstart.typed.values hbuild
  exact (hgrows.coherent hstart.coherent).sound hx

/-- Scalars that are written alike are both what their text is read as. -/
theorem same_of_scalar (hv : v.Sound) (hw : w.Sound) {sc : Scalar} (hvs : v.derivation = .scalar sc)
    (hws : w.derivation = .scalar sc) : v.same w = true := by
  -- A scalar reads the same whatever the store and the manager.
  obtain ⟨x, hx, hvx⟩ : ∃ x, sc.value ⟨0⟩ 0 = .ok x ∧ v.ReadsAs ∅ ⟨0⟩ x :=
    exists_readsAs_of_scalar hvs 0
  obtain ⟨y, hy, hwy⟩ : ∃ y, sc.value ⟨0⟩ 0 = .ok y ∧ w.ReadsAs ∅ ⟨0⟩ y :=
    exists_readsAs_of_scalar hws 0
  obtain rfl := Except.ok.inj (hx.symm.trans hy)
  have hsound := sound_of_scalar hx
  exact same_trans hv hsound hw hvx.same (same_symm hw hsound hwy.same)

/-- Sequences that are written alike hold the same values, if this is so for each of them. -/
theorem forall₂_of_map_derivation {vs ws : List Value}
    (ih : ∀ p ∈ vs, ∀ q ∈ ws, p.derivation = q.derivation → p.same q = true)
    (h : vs.map derivation = ws.map derivation) :
    List.Forall₂ (fun p q => p.same q = true) vs ws := by
  rw [← List.forall₂_eq_eq_eq, List.forall₂_map_left_iff, List.forall₂_map_right_iff] at h
  exact forall₂_imp_of_mem h ih

theorem forall₂_of_bracket {b b' : Bracket}
    (hv : v.derivation = .bracket b (v.parts.map derivation))
    (hw : w.derivation = .bracket b' (w.parts.map derivation)) (h : v.derivation = w.derivation)
    (ih : ∀ p ∈ v.parts, ∀ q ∈ w.parts, p.derivation = q.derivation → p.same q = true) :
    b = b' ∧ List.Forall₂ (fun p q => p.same q = true) v.parts w.parts := by
  rw [hv, hw] at h
  obtain ⟨hb, hparts⟩ := Derivation.bracket.inj h
  exact ⟨hb, forall₂_of_map_derivation ih hparts⟩

theorem forall₂_of_entries {t u : Ty} {c d : Cell} {es fs : Table Value Value}
    (ih : ∀ p ∈ (map t c es).parts, ∀ q ∈ (map u d fs).parts, p.derivation = q.derivation →
      p.same q = true) (h : (map t c es).derivation = (map u d fs).derivation) :
    List.Forall₂ (fun e f => e.1.same f.1 = true ∧ e.2.same f.2 = true) es.toList fs.toList := by
  rw [derivation_map, derivation_map, Derivation.map.injEq, ← List.forall₂_eq_eq_eq,
    List.forall₂_map_left_iff, List.forall₂_map_right_iff] at h
  refine forall₂_imp_of_mem h fun e he f hf hef => ?_
  obtain ⟨hkey, hval⟩ := Prod.mk.inj hef
  exact ⟨ih _ (parts_of_entry he).1 _ (parts_of_entry hf).1 hkey,
    ih _ (parts_of_entry he).2 _ (parts_of_entry hf).2 hval⟩

/-- Values that are written alike are the same, if this is so for their parts. -/
theorem same_of_derivation_eq_of_parts (hv : v.Sound) (hw : w.Sound) (hvname : v.Spelled)
    (hwname : w.Spelled) (h : v.derivation = w.derivation)
    (ih : ∀ p ∈ v.parts, ∀ q ∈ w.parts, p.derivation = q.derivation → p.same q = true) :
    v.same w = true := by
  cases v with
  | int | double | bool | str | loc => exact same_of_scalar hv hw rfl h.symm
  | tuple t c vs =>
    cases w with
    | tuple u d ws =>
      obtain ⟨-, hparts⟩ := forall₂_of_bracket (derivation_tuple ..) (derivation_tuple ..) h ih
      exact same_tuple_iff.2 ⟨u, d, ws, rfl, hparts⟩
    | node => exact (derivation_node_ne (by rintro _ ⟨⟩) h.symm).elim
    | _ => cases h
  | list t c vs =>
    cases w with
    | list u d ws =>
      obtain ⟨-, hparts⟩ := forall₂_of_bracket (derivation_list ..) (derivation_list ..) h ih
      exact same_list_iff.2 ⟨u, d, ws, rfl, hparts⟩
    | node => exact (derivation_node_ne (by rintro _ ⟨⟩) h.symm).elim
    | _ => cases h
  | set t c es =>
    cases w with
    | set u d fs =>
      obtain ⟨-, hparts⟩ := forall₂_of_bracket (derivation_set ..) (derivation_set ..) h ih
      exact same_set_of_forall₂ hv hw hparts
    | node => exact (derivation_node_ne (by rintro _ ⟨⟩) h.symm).elim
    | _ => cases h
  | map t c es =>
    cases w with
    | map u d fs => exact same_map_of_forall₂ hv hw (forall₂_of_entries ih h)
    | _ => cases h
  | node t c n vs =>
    cases w with
    | node u d k ws =>
      obtain ⟨hb, hparts⟩ := forall₂_of_bracket (derivation_node ..) (derivation_node ..) h ih
      obtain rfl := nodeBracket_injective hb
      exact same_node_iff.2 ⟨u, d, ws, rfl, hparts⟩
    | tuple | list | set | constructor => exact (derivation_node_ne (by rintro _ ⟨⟩) h).elim
    | _ => cases h
  | constructor t c vs =>
    cases w with
    | constructor u d ws =>
      obtain ⟨hb, hparts⟩ :=
        forall₂_of_bracket (derivation_constructor ..) (derivation_constructor ..) h ih
      obtain ⟨a, n, ha, hn, -, -⟩ := hvname t c vs .refl
      obtain ⟨a', n', ha', hn', -, -⟩ := hwname u d ws .refl
      rw [ha, hn, ha', hn'] at hb
      obtain ⟨howner, hname⟩ := Bracket.constructor.inj hb
      obtain rfl : a = a' := String.toList_inj.1 howner
      obtain rfl : n = n' := String.toList_inj.1 hname
      exact same_constructor_iff.2 ⟨u, d, ws, rfl, ha.trans ha'.symm, hn.trans hn'.symm, hparts⟩
    | node => exact (derivation_node_ne (by rintro _ ⟨⟩) h.symm).elim
    | _ => cases h

/-- Values that are written alike have the same contents. -/
theorem same_of_derivation_eq (hv : v.Sound) (hw : w.Sound) (hvname : v.Spelled)
    (hwname : w.Spelled) (h : v.derivation = w.derivation) : v.same w = true := by
  induction v using parts_induction generalizing w with
  | h v ih =>
    refine same_of_derivation_eq_of_parts hv hw hvname hwname h fun p hp q hq hpq => ?_
    exact ih p hp (hv.part hp) (hw.part hq) (hvname.part hp) (hwname.part hq) hpq

/-- A text is that of one derivation. -/
theorem derivation_eq_of_text_eq (hv : v.Spelled) (hw : w.Spelled) (h : v.text = w.text) :
    v.derivation = w.derivation := by
  obtain ⟨ts, hts, hlexemes⟩ := Derivation.tokens_written (canonical_derivation v hv)
  rw [text_eq, text_eq, String.ofList_inj] at h
  refine Derivation.eq_of_tokens_written (canonical_derivation w hw) ?_ hlexemes.symm
  rw [String.toList_ofList, ← h, hts]

end Value

namespace Session

variable {s : Session} {v w : Value}

/-- Values of a program with the same text are equal, provided that the data types and constructors
in them have names that can be written. -/
theorem Reachable.beq_of_text_eq (hs : s.Reachable) (hv : s.Has v) (hw : s.Has w)
    (hvname : v.Spelled) (hwname : w.Spelled) (h : v.text = w.text) : (v == w) = true := by
  have hc := hs.coherent
  refine (hc.beq_iff_same hv hw).2 ?_
  exact Value.same_of_derivation_eq (hc.sound hv) (hc.sound hw) hvname hwname
    (Value.derivation_eq_of_text_eq hvname hwname h)

namespace Nested

theorem spelled_double {t : Ty} {d : Double} : (Value.double t d).Spelled := by
  rintro u c vs (_ | ⟨hp, -⟩)
  cases hp

theorem spelled_application {t : Ty} {c : Cell} :
    (Value.constructor (overload t) c [number]).Spelled := by
  rintro u d vs (_ | ⟨hp, h⟩)
  · exact ⟨"E", "c", rfl, rfl, rfl, rfl⟩
  · obtain rfl := List.mem_singleton.1 hp
    obtain _ | ⟨hp, -⟩ := h
    cases hp

end Nested

open Nested in
/-- Applications of two overloads show the same text, and the two zeros, which differ, do not. -/
theorem beq_of_text_eq_application : narrowed.text = "E::c(1)" ∧ widened.ty ≠ narrowed.ty ∧
    (widened == narrowed) = true ∧ minusZero.text ≠ zero.text := by
  have hnarrowed : parts.Has narrowed := has_of_mem (.tail _ (.head _))
  have hwidened : parts.Has widened := has_of_mem (.head _)
  have hzero : parts.Has zero := has_of_mem (by simp [parts, scalars, add])
  have hminusZero : parts.Has minusZero := has_of_mem (by simp [parts, scalars, add])
  have hty : widened.ty ≠ narrowed.ty := by
    intro h
    cases h
  refine ⟨rfl, hty, ?_, fun h => ?_⟩
  · exact reachable_parts.beq_of_text_eq hwidened hnarrowed spelled_application spelled_application
      rfl
  · have heq := reachable_parts.beq_of_text_eq hminusZero hzero spelled_double spelled_double h
    exact absurd heq (by decide +kernel)

end Session

end ValueAlgebra
