import Mathlib.Data.List.Forall2
import Mathlib.Data.List.Perm.Basic
import Mathlib.Data.List.Pairwise
import ValueAlgebra.Proofs.Value.Parts

/-!
# Contents of values

`Value.same` compares contents and nothing else. On values whose tables are in order it is an
equivalence that hashing respects. The proof goes by induction over one of the two values:
`Value.Classed` says of a value that all values same as it are alike in every respect, and passes
from the parts to the whole. Sets and maps are the interesting case. As no two keys of a table are
the same, the keys of one side match those of the other one to one.

## Main definitions

- `Value.same`: equality without any shortcut
- `Value.TableSound`, `Value.Sound`: tables that are indexed by hash and have distinct keys
-/

namespace ValueAlgebra

/-- Elements with partners, no two with the same one, have as partners all of an equally long
list. -/
theorem exists_perm_forall₂ {α β : Type} {R : α → β → Prop} {xs : List α} {ys : List β}
    (hlen : ys.length ≤ xs.length) (h : ∀ x ∈ xs, ∃ y ∈ ys, R x y)
    (hdistinct : xs.Pairwise fun x x' => ∀ y, R x y → ¬ R x' y) :
    ∃ zs, zs.Perm ys ∧ List.Forall₂ R xs zs := by
  induction xs generalizing ys with
  | nil =>
    obtain rfl := List.length_eq_zero_iff.1 (Nat.le_zero.1 hlen)
    exact ⟨[], .nil, .nil⟩
  | cons x xs ih =>
    obtain ⟨y, hy, hxy⟩ := h x List.mem_cons_self
    obtain ⟨before, after, rfl⟩ := List.append_of_mem hy
    rw [List.pairwise_cons] at hdistinct
    -- no later element has `y` as its partner, so `y` may be dropped
    have hrest : ∀ x' ∈ xs, ∃ y' ∈ before ++ after, R x' y' := by
      intro x' hx'
      obtain ⟨y', hy', hxy'⟩ := h x' (List.mem_cons_of_mem _ hx')
      refine ⟨y', ?_, hxy'⟩
      rcases List.mem_append.1 hy' with hy' | hy'
      · exact List.mem_append_left _ hy'
      rcases List.mem_cons.1 hy' with rfl | hy'
      · exact (hdistinct.1 x' hx' y' hxy hxy').elim
      · exact List.mem_append_right _ hy'
    have hlen' : (before ++ after).length ≤ xs.length := by
      simp only [List.length_append, List.length_cons] at hlen ⊢
      omega
    obtain ⟨zs, hzs, hR⟩ := ih hlen' hrest hdistinct.2
    exact ⟨y :: zs, (hzs.cons y).trans List.perm_middle.symm, .cons hxy hR⟩

theorem exists_of_forall₂_right {α β : Type} {R : α → β → Prop} {xs : List α} {ys : List β}
    (h : List.Forall₂ R xs ys) : ∀ y ∈ ys, ∃ x ∈ xs, R x y := by
  induction h with
  | nil => exact fun y hy => (List.not_mem_nil hy).elim
  | cons hxy _ ih =>
    intro y hy
    rcases List.mem_cons.1 hy with rfl | hy
    · exact ⟨_, List.mem_cons_self, hxy⟩
    · obtain ⟨x, hx, hxy⟩ := ih y hy
      exact ⟨x, List.mem_cons_of_mem _ hx, hxy⟩

namespace Value

/-- Whether two values have the same contents, compared to the bottom. -/
def same (v w : Value) : Bool := v.eqWith (fun _ _ => false) w

/-! ### One level of a comparison -/

theorem eqAll_iff {vs ws : List Value} :
    eqAll (fun _ _ => false) vs ws = true ↔ List.Forall₂ (fun v w => v.same w = true) vs ws := by
  induction vs generalizing ws with
  | nil => cases ws <;> simp [eqAll]
  | cons v vs ih => cases ws <;> simp [eqAll, ih, same]

section Inversion

variable {t : Ty} {c : Cell} {v w : Value}

theorem same_int_iff {n : Int64} : (int t n).same w = true ↔ ∃ u, w = int u n := by
  cases w with
  | int u m =>
    simp only [same, eqWith, Bool.false_or, beq_iff_eq]
    constructor
    · rintro rfl
      exact ⟨u, rfl⟩
    · rintro ⟨_, h⟩
      exact (int.inj h).2.symm
  | _ => simp [same, eqWith]

theorem same_double_iff {d : Double} :
    (double t d).same w = true ↔ ∃ u e, w = double u e ∧ d.canonicalBits = e.canonicalBits := by
  cases w <;> simp [same, eqWith]

theorem same_bool_iff {b : Bool} : (bool t b).same w = true ↔ ∃ u, w = bool u b := by
  cases w with
  | bool u b' =>
    simp only [same, eqWith, Bool.false_or, beq_iff_eq]
    constructor
    · rintro rfl
      exact ⟨u, rfl⟩
    · rintro ⟨_, h⟩
      exact (bool.inj h).2.symm
  | _ => simp [same, eqWith]

theorem same_str_iff {s : String} : (str t c s).same w = true ↔ ∃ u c', w = str u c' s := by
  cases w with
  | str u c' s' =>
    simp only [same, eqWith, Bool.false_or, beq_iff_eq]
    constructor
    · rintro rfl
      exact ⟨u, c', rfl⟩
    · rintro ⟨_, _, h⟩
      exact (str.inj h).2.2.symm
  | _ => simp [same, eqWith]

theorem same_loc_iff {p : String} {r : Span} :
    (loc t c p r).same w = true ↔ ∃ u c', w = loc u c' p r := by
  cases w with
  | loc u c' p' r' =>
    simp only [same, eqWith, Bool.false_or, Bool.and_eq_true, beq_iff_eq]
    constructor
    · rintro ⟨rfl, rfl⟩
      exact ⟨u, c', rfl⟩
    · rintro ⟨_, _, h⟩
      exact ⟨(loc.inj h).2.2.1.symm, (loc.inj h).2.2.2.symm⟩
  | _ => simp [same, eqWith]

theorem same_tuple_iff {vs : List Value} : (tuple t c vs).same w = true ↔
    ∃ u c' ws, w = tuple u c' ws ∧ List.Forall₂ (fun v w => v.same w = true) vs ws := by
  simp only [← eqAll_iff]
  cases w <;> simp [same, eqWith]

theorem same_list_iff {vs : List Value} : (list t c vs).same w = true ↔
    ∃ u c' ws, w = list u c' ws ∧ List.Forall₂ (fun v w => v.same w = true) vs ws := by
  simp only [← eqAll_iff]
  cases w <;> simp [same, eqWith]

theorem same_node_iff {n : String} {vs : List Value} : (node t c n vs).same w = true ↔
    ∃ u c' ws, w = node u c' n ws ∧ List.Forall₂ (fun v w => v.same w = true) vs ws := by
  simp only [← eqAll_iff]
  cases w with
  | node u c' n' ws =>
    simp only [same, eqWith, Bool.false_or, Bool.and_eq_true, beq_iff_eq]
    constructor
    · rintro ⟨rfl, h⟩
      exact ⟨u, c', ws, rfl, h⟩
    · rintro ⟨_, _, _, h, hws⟩
      obtain ⟨-, -, rfl, rfl⟩ := node.inj h
      exact ⟨rfl, hws⟩
  | _ => simp [same, eqWith]

theorem same_constructor_iff {vs : List Value} : (constructor t c vs).same w = true ↔
    ∃ u c' ws, w = constructor u c' ws ∧ t.ownerName? = u.ownerName? ∧
      t.constructorName? = u.constructorName? ∧
      List.Forall₂ (fun v w => v.same w = true) vs ws := by
  simp only [← eqAll_iff]
  cases w <;> simp [same, eqWith, and_assoc]

end Inversion

end Value

/-! ### Tables in order -/

namespace Table

variable {ν : Type}

/-- A table of values that lookups can rely on. -/
structure Sound (t : Table Value ν) : Prop where
  indexed : t.Indexed Value.hash
  /-- No key is the same as an earlier one. -/
  distinct : t.keys.Pairwise fun k k' => k'.same k = false

theorem Sound.pairwise {t : Table Value ν} (h : t.Sound) :
    t.toList.Pairwise fun e e' => e'.1.same e.1 = false := List.pairwise_map.1 h.distinct

/-- A lookup that can only find one entry finds it. -/
theorem any_get?_iff {t : Table Value ν} (ht : t.Indexed Value.hash) {h : UInt64}
    {p : Value → Bool} {q : ν → Bool}
    (hu : ∀ e ∈ t.toList, ∀ e' ∈ t.toList, p e.1 = true → p e'.1 = true → e = e') :
    (t.get? h p).any q = true ↔ ∃ e ∈ t.toList, e.1.hash = h ∧ p e.1 = true ∧ q e.2 = true := by
  have hmem {i : Nat} {e : Value × ν} (he : t.entries[i]? = some e) : e ∈ t.toList :=
    Array.mem_toList_iff.2 (Array.mem_of_getElem? he)
  constructor
  · intro hq
    obtain ⟨x, hx, hq⟩ := (Option.any_eq_true _ _).1 hq
    obtain ⟨i, hi, hx⟩ := Option.bind_eq_some_iff.1 hx
    obtain ⟨e, he, rfl⟩ := Option.map_eq_some_iff.1 hx
    obtain ⟨e', he', hh, hp⟩ := ht.of_position?_eq_some hi
    obtain rfl := Option.some.inj (he.symm.trans he')
    exact ⟨e, hmem he, hh, hp, hq⟩
  · rintro ⟨e, he, hh, hp, hq⟩
    cases hi : t.position? h p with
    | none =>
      have := ht.position?_eq_none_iff.1 hi e he hh
      rw [hp] at this
      cases this
    | some i =>
      obtain ⟨e', he', -, hp'⟩ := ht.of_position?_eq_some hi
      obtain rfl := hu e he e' (hmem he') hp hp'
      rw [get?, hi, Option.bind_some, he', Option.map_some]
      exact hq

end Table

namespace Value

/-- The table of a set or map is in order. -/
def TableSound : Value → Prop
  | set _ _ t => t.Sound
  | map _ _ t => t.Sound
  | _ => True

/-- All tables in the value are in order. -/
def Sound (v : Value) : Prop := ∀ w : Value, w.Within v → w.TableSound

theorem Sound.table {v : Value} (h : v.Sound) : v.TableSound := h v .refl

theorem Sound.part {v p : Value} (h : v.Sound) (hp : p ∈ v.parts) : p.Sound :=
  fun w hw => h w (hw.trans (.part hp .refl))

theorem Sound.key_of_set {t : Ty} {c : Cell} {es : Table Value Unit} (h : (set t c es).Sound)
    {e : Value × Unit} (he : e ∈ es.toList) : e.1.Sound :=
  h.part (Table.mem_keys.2 ⟨e, he, rfl⟩)

theorem Sound.key_of_map {t : Ty} {c : Cell} {es : Table Value Value} (h : (map t c es).Sound)
    {e : Value × Value} (he : e ∈ es.toList) : e.1.Sound :=
  h.part (List.mem_append_left _ (Table.mem_keys.2 ⟨e, he, rfl⟩))

theorem Sound.value_of_map {t : Ty} {c : Cell} {es : Table Value Value} (h : (map t c es).Sound)
    {e : Value × Value} (he : e ∈ es.toList) : e.2.Sound :=
  h.part (List.mem_append_right _ (Table.mem_values.2 ⟨e, he, rfl⟩))

theorem elemsIn_iff {es : List (Value × Unit)} {fs : Table Value Unit}
    (hf : fs.Indexed Value.hash) : elemsIn (fun _ _ => false) es fs = true ↔
    ∀ e ∈ es, ∃ f ∈ fs.toList, f.1.hash = e.1.hash ∧ e.1.same f.1 = true := by
  induction es with
  | nil => simp [elemsIn]
  | cons e es ih =>
    rw [elemsIn, Bool.and_eq_true, ih, List.forall_mem_cons, hf.contains_iff]
    rfl

theorem same_set_iff {t : Ty} {c : Cell} {es : Table Value Unit} {w : Value} (hw : w.Sound) :
    (set t c es).same w = true ↔ ∃ u c' fs, w = set u c' fs ∧ es.size = fs.size ∧
      ∀ e ∈ es.toList, ∃ f ∈ fs.toList, f.1.hash = e.1.hash ∧ e.1.same f.1 = true := by
  obtain ⟨⟨es⟩, index⟩ := es
  cases w with
  | set u c' fs =>
    simp only [same, eqWith, Bool.false_or, Bool.and_eq_true, beq_iff_eq,
      elemsIn_iff hw.table.indexed]
    constructor
    · rintro ⟨hsize, h⟩
      exact ⟨u, c', fs, rfl, hsize, h⟩
    · rintro ⟨_, _, _, h, hsize, hes⟩
      obtain ⟨-, -, rfl⟩ := set.inj h
      exact ⟨hsize, hes⟩
  | _ => simp [same, eqWith]

theorem entriesIn_iff {es : List (Value × Value)} {fs : Table Value Value} :
    entriesIn (fun _ _ => false) es fs = true ↔
    ∀ e ∈ es, (fs.get? e.1.hash (e.1.same ·)).any (e.2.same ·) = true := by
  induction es with
  | nil => simp [entriesIn]
  | cons e es ih =>
    rw [entriesIn, Bool.and_eq_true, ih, List.forall_mem_cons]
    rfl

/-- At most one entry of the table has a key that is the same as `k`. -/
def FindsOne (k : Value) (t : Table Value Value) : Prop :=
  ∀ e ∈ t.toList, ∀ e' ∈ t.toList, k.same e.1 = true → k.same e'.1 = true → e = e'

theorem same_map_iff {t : Ty} {c : Cell} {es : Table Value Value} {w : Value} (hw : w.Sound)
    (hone : ∀ u c' fs, w = map u c' fs → ∀ e ∈ es.toList, e.1.FindsOne fs) :
    (map t c es).same w = true ↔ ∃ u c' fs, w = map u c' fs ∧ es.size = fs.size ∧
      ∀ e ∈ es.toList, ∃ f ∈ fs.toList,
        f.1.hash = e.1.hash ∧ e.1.same f.1 = true ∧ e.2.same f.2 = true := by
  obtain ⟨⟨es⟩, index⟩ := es
  cases w with
  | map u c' fs =>
    have hfind : entriesIn (fun _ _ => false) es fs = true ↔ ∀ e ∈ es, ∃ f ∈ fs.toList,
        f.1.hash = e.1.hash ∧ e.1.same f.1 = true ∧ e.2.same f.2 = true := by
      rw [entriesIn_iff]
      refine forall₂_congr fun e he => ?_
      exact Table.any_get?_iff hw.table.indexed (hone u c' fs rfl e he)
    simp only [same, eqWith, Bool.false_or, Bool.and_eq_true, beq_iff_eq, hfind]
    constructor
    · rintro ⟨hsize, h⟩
      exact ⟨u, c', fs, rfl, hsize, h⟩
    · rintro ⟨_, _, _, h, hsize, hes⟩
      obtain ⟨-, -, rfl⟩ := map.inj h
      exact ⟨hsize, hes⟩
  | _ => simp [same, eqWith]

/-! ### From the parts to the whole -/

/-- `w` cannot be told from `v`, neither by comparing nor by hashing. -/
structure Alike (v w : Value) : Prop where
  same : v.same w = true
  symm : w.same v = true
  feed : ∀ digest, w.feed digest = v.feed digest
  congr : ∀ u : Value, u.Sound → w.same u = v.same u

/-- Values that are the same as `v` cannot be told from it. -/
def Classed (v : Value) : Prop := ∀ w : Value, w.Sound → v.same w = true → v.Alike w

theorem Alike.hash {v w : Value} (h : v.Alike w) : w.hash = v.hash := by
  rw [Value.hash, Value.hash, h.feed]

theorem Classed.of_same {v w : Value} (h : v.Classed) (hw : w.Sound) (hs : v.same w = true) :
    w.Classed := by
  intro u hu hwu
  have hvw := h w hw hs
  have hvu := h u hu (hvw.congr u hu ▸ hwu)
  refine ⟨hwu, ?_, fun digest => (hvu.feed digest).trans (hvw.feed digest).symm, fun x hx => ?_⟩
  · exact (hvu.congr w hw).trans hs
  · exact (hvu.congr x hx).trans (hvw.congr x hx).symm

/-- Two values that are the same as `v` are the same. -/
theorem Classed.same_of_same {v a b : Value} (h : v.Classed) (ha : a.Sound) (hb : b.Sound)
    (hva : v.same a = true) (hvb : v.same b = true) : a.same b = true :=
  ((h a ha hva).congr b hb).trans hvb

section Lists

variable {vs ws : List Value}

theorem forall₂_symm (hc : ∀ v ∈ vs, v.Classed) (hw : ∀ w ∈ ws, w.Sound)
    (h : List.Forall₂ (fun v w => v.same w = true) vs ws) :
    List.Forall₂ (fun v w => v.same w = true) ws vs := by
  induction h with
  | nil => exact .nil
  | cons hvw _ ih =>
    rw [List.forall_mem_cons] at hc hw
    exact .cons (hc.1 _ hw.1 hvw).symm (ih hc.2 hw.2)

theorem feedAll_congr (hc : ∀ v ∈ vs, v.Classed) (hw : ∀ w ∈ ws, w.Sound)
    (h : List.Forall₂ (fun v w => v.same w = true) vs ws) (digest : List Chunk → UInt64) :
    feedAll digest ws = feedAll digest vs := by
  induction h with
  | nil => rfl
  | cons hvw _ ih =>
    rw [List.forall_mem_cons] at hc hw
    rw [feedAll, feedAll, (hc.1 _ hw.1 hvw).feed, ih hc.2 hw.2]

theorem forall₂_congr_left (hc : ∀ v ∈ vs, v.Classed) (hw : ∀ w ∈ ws, w.Sound)
    (h : List.Forall₂ (fun v w => v.same w = true) vs ws) {us : List Value}
    (hu : ∀ u ∈ us, u.Sound) : List.Forall₂ (fun v w => v.same w = true) ws us ↔
      List.Forall₂ (fun v w => v.same w = true) vs us := by
  induction h generalizing us with
  | nil => rfl
  | cons hvw _ ih =>
    rw [List.forall_mem_cons] at hc hw
    cases us with
    | nil => simp
    | cons u us =>
      rw [List.forall_mem_cons] at hu
      rw [List.forall₂_cons, List.forall₂_cons, (hc.1 _ hw.1 hvw).congr u hu.1, ih hc.2 hw.2 hu.2]

end Lists

/-- Values made by `F` of a list of items, where `N` is what counts of their type. -/
theorem Classed.of_items {α : Type} (N : Ty → α) (F : Ty → Cell → List Value → Value)
    (hsame : ∀ t c vs w, (F t c vs).same w = true ↔ ∃ u c' ws, w = F u c' ws ∧ N t = N u ∧
      List.Forall₂ (fun v w => v.same w = true) vs ws)
    (hparts : ∀ t c vs, (F t c vs).parts = vs)
    (hfeed : ∀ t u c c' vs ws digest, N t = N u → vs.length = ws.length →
      feedAll digest ws = feedAll digest vs → (F u c' ws).feed digest = (F t c vs).feed digest)
    {t : Ty} {c : Cell} {vs : List Value} (hc : ∀ v ∈ vs, v.Classed) : (F t c vs).Classed := by
  intro w hw h
  obtain ⟨u, c', ws, rfl, hN, hvw⟩ := (hsame t c vs w).1 h
  have hitems {a : Ty} {d : Cell} {us : List Value} (hu : (F a d us).Sound) :
      ∀ x ∈ us, x.Sound := fun x hx => hu.part ((hparts a d us).symm ▸ hx)
  have hws := hitems hw
  refine ⟨h, (hsame u c' ws _).2 ⟨t, c, vs, rfl, hN.symm, forall₂_symm hc hws hvw⟩, ?_, ?_⟩
  · intro digest
    exact hfeed t u c c' vs ws digest hN hvw.length_eq (feedAll_congr hc hws hvw digest)
  · intro x hx
    rw [Bool.eq_iff_iff, hsame, hsame, hN]
    refine exists₃_congr fun a d us => and_congr_right ?_
    rintro rfl
    exact and_congr_right fun _ => forall₂_congr_left hc hws hvw (hitems hx)

theorem Classed.tuple {t : Ty} {c : Cell} {vs : List Value} (hc : ∀ v ∈ vs, v.Classed) :
    (tuple t c vs).Classed := by
  refine of_items (fun _ => ()) Value.tuple (fun t c vs w => ?_) (fun _ _ _ => rfl) ?_ hc
  · simp only [same_tuple_iff, true_and]
  · intro t u c c' vs ws digest _ hlength hfeed
    rw [feed, feed, hfeed, hlength]

theorem Classed.list {t : Ty} {c : Cell} {vs : List Value} (hc : ∀ v ∈ vs, v.Classed) :
    (list t c vs).Classed := by
  refine of_items (fun _ => ()) Value.list (fun t c vs w => ?_) (fun _ _ _ => rfl) ?_ hc
  · simp only [same_list_iff, true_and]
  · intro t u c c' vs ws digest _ hlength hfeed
    rw [feed, feed, hfeed, hlength]

theorem Classed.node {t : Ty} {c : Cell} {n : String} {vs : List Value}
    (hc : ∀ v ∈ vs, v.Classed) : (node t c n vs).Classed := by
  refine of_items (fun _ => ()) (Value.node · · n) (fun t c vs w => ?_) (fun _ _ _ => rfl) ?_ hc
  · simp only [same_node_iff, true_and]
  · intro t u c c' vs ws digest _ hlength hfeed
    rw [feed, feed, hfeed, hlength]

theorem Classed.constructor {t : Ty} {c : Cell} {vs : List Value} (hc : ∀ v ∈ vs, v.Classed) :
    (constructor t c vs).Classed := by
  refine of_items (fun t => (t.ownerName?, t.constructorName?)) Value.constructor
    (fun t c vs w => ?_) (fun _ _ _ => rfl) ?_ hc
  · simp only [same_constructor_iff, Prod.mk.injEq, and_assoc]
  · intro t u c c' vs ws digest hnames hlength hfeed
    obtain ⟨ho, hn⟩ := Prod.mk.inj hnames
    rw [feed, feed, hfeed, hlength, ho, hn]

/-! ### Sets and maps -/

section Tables

variable {ν : Type} {es fs : Table Value ν}

/-- A value is the same as at most one key of a table. -/
theorem Classed.eq_of_same (hf : fs.Sound) (hk : ∀ f ∈ fs.toList, f.1.Sound) {k : Value}
    (h : k.Classed) {f f' : Value × ν} (hmem : f ∈ fs.toList) (hmem' : f' ∈ fs.toList)
    (hs : k.same f.1 = true) (hs' : k.same f'.1 = true) : f = f' := by
  have hff' := h.same_of_same (hk f hmem) (hk f' hmem') hs hs'
  have hf'f := h.same_of_same (hk f' hmem') (hk f hmem) hs' hs
  have hsymm : Std.Symm fun e e' : Value × ν =>
      e.1.same e'.1 = true → e'.1.same e.1 = true → e = e' := ⟨fun _ _ h h₁ h₂ => (h h₂ h₁).symm⟩
  have hpair : fs.toList.Pairwise fun e e' : Value × ν =>
      e.1.same e'.1 = true → e'.1.same e.1 = true → e = e' := by
    refine hf.pairwise.imp fun hne _ hsame => ?_
    rw [hne] at hsame
    cases hsame
  exact hpair.forall_of_forall (fun _ _ _ _ => rfl) hmem hmem' hff' hf'f

/-- The entries of a table match those of another table that is no larger. -/
theorem exists_matching (hes : es.Sound) (hk : ∀ e ∈ es.toList, e.1.Sound)
    (hc : ∀ e ∈ es.toList, e.1.Classed) (hfs : ∀ f ∈ fs.toList, f.1.Sound)
    (hsize : fs.size ≤ es.size) {R : Value × ν → Value × ν → Prop}
    (hR : ∀ e f, R e f → e.1.same f.1 = true) (h : ∀ e ∈ es.toList, ∃ f ∈ fs.toList, R e f) :
    ∃ gs, gs.Perm fs.toList ∧ List.Forall₂ R es.toList gs := by
  have hlen : fs.toList.length ≤ es.toList.length := by
    rwa [Table.length_toList, Table.length_toList]
  have h' : ∀ e ∈ es.toList, ∃ f ∈ fs.toList, f.1.Sound ∧ R e f := fun e he =>
    let ⟨f, hf, hef⟩ := h e he
    ⟨f, hf, hfs f hf, hef⟩
  have hdistinct : es.toList.Pairwise fun e e' => ∀ f, (f.1.Sound ∧ R e f) →
      ¬ (f.1.Sound ∧ R e' f) := by
    refine hes.pairwise.imp_of_mem fun {e e'} he he' hne f ⟨hf, hef⟩ ⟨_, hef'⟩ => ?_
    have hfe := (hc e he f.1 hf (hR e f hef)).symm
    have hfe' := (hc e' he' f.1 hf (hR e' f hef')).congr e.1 (hk e he)
    rw [hfe, hne] at hfe'
    cases hfe'
  obtain ⟨gs, hgs, hR'⟩ := exists_perm_forall₂ hlen h' hdistinct
  exact ⟨gs, hgs, hR'.imp fun _ _ h => h.2⟩

end Tables

theorem elemSum_eq (digest : List Chunk → UInt64) (es : List (Value × Unit)) :
    elemSum digest es = es.foldr (fun e n => digest (e.1.feed digest) + n) 0 := by
  induction es with
  | nil => rfl
  | cons e es ih => rw [elemSum, ih, List.foldr_cons]

theorem entrySum_eq (digest : List Chunk → UInt64) (es : List (Value × Value)) :
    entrySum digest es =
      es.foldr (fun e n => digest (e.1.feed digest ++ e.2.feed digest) + n) 0 := by
  induction es with
  | nil => rfl
  | cons e es ih => rw [entrySum, ih, List.foldr_cons]

theorem feed_set (digest : List Chunk → UInt64) (t : Ty) (c : Cell) (es : Table Value Unit) :
    (set t c es).feed digest =
      [.kind .set, .word es.size.toUInt64, .word (elemSum digest es.toList)] := by
  obtain ⟨⟨es⟩, index⟩ := es
  rfl

theorem feed_map (digest : List Chunk → UInt64) (t : Ty) (c : Cell) (es : Table Value Value) :
    (map t c es).feed digest =
      [.kind .map, .word es.size.toUInt64, .word (entrySum digest es.toList)] := by
  obtain ⟨⟨es⟩, index⟩ := es
  rfl

/-- A sum does not depend on the order of its terms. -/
theorem foldr_add_perm {α : Type} {f : α → UInt64} {xs ys : List α} (h : xs.Perm ys) :
    xs.foldr (fun x n => f x + n) 0 = ys.foldr (fun x n => f x + n) 0 := by
  refine h.foldr_eq' (fun x _ y _ n => ?_) 0
  rw [← UInt64.add_assoc, UInt64.add_comm (f y), UInt64.add_assoc]

theorem foldr_add_congr {α : Type} {f : α → UInt64} {xs ys : List α}
    (h : List.Forall₂ (fun x y => f x = f y) xs ys) :
    xs.foldr (fun x n => f x + n) 0 = ys.foldr (fun x n => f x + n) 0 := by
  induction h with
  | nil => rfl
  | cons hxy _ ih => rw [List.foldr_cons, List.foldr_cons, hxy, ih]

theorem Classed.set {t : Ty} {c : Cell} {es : Table Value Unit} (hv : (set t c es).Sound)
    (hc : ∀ e ∈ es.toList, e.1.Classed) : (set t c es).Classed := by
  intro w hw h
  obtain ⟨u, c', fs, rfl, hsize, hall⟩ := (same_set_iff hw).1 h
  have hfs : ∀ f ∈ fs.toList, f.1.Sound := fun _ => hw.key_of_set
  have hpartner : ∀ e ∈ es.toList, ∃ f ∈ fs.toList, e.1.Alike f.1 := by
    intro e he
    obtain ⟨f, hf, -, hs⟩ := hall e he
    exact ⟨f, hf, hc e he f.1 (hfs f hf) hs⟩
  obtain ⟨gs, hperm, hmatch⟩ := exists_matching hv.table (fun _ => hv.key_of_set) hc hfs
    (Nat.le_of_eq hsize.symm) (fun _ _ => Alike.same) hpartner
  -- every element on the right has a partner on the left
  have hback : ∀ f ∈ fs.toList, ∃ e ∈ es.toList, e.1.Alike f.1 := fun f hf =>
    exists_of_forall₂_right hmatch f (hperm.mem_iff.2 hf)
  refine ⟨h, (same_set_iff hv).2 ⟨t, c, es, rfl, hsize.symm, fun f hf => ?_⟩, fun digest => ?_,
    fun x hx => ?_⟩
  · obtain ⟨e, he, hef⟩ := hback f hf
    exact ⟨e, he, hef.hash.symm, hef.symm⟩
  -- The feeds of the elements are added up, so their order is not seen.
  · have hsum : elemSum digest fs.toList = elemSum digest es.toList := by
      rw [elemSum_eq, elemSum_eq, ← foldr_add_perm hperm]
      exact (foldr_add_congr (hmatch.imp fun e f hef => by rw [hef.feed])).symm
    rw [feed_set, feed_set, hsum, hsize]
  · rw [Bool.eq_iff_iff, same_set_iff hx, same_set_iff hx, hsize]
    refine exists₃_congr fun a d hs => and_congr_right ?_
    rintro rfl
    refine and_congr_right fun _ => ⟨fun h e he => ?_, fun h f hf => ?_⟩
    -- What an element finds in a third set its partner finds as well.
    · obtain ⟨f, hf, hef⟩ := hpartner e he
      obtain ⟨g, hg, hhash, hfg⟩ := h f hf
      exact ⟨g, hg, hhash.trans hef.hash, hef.congr g.1 (hx.key_of_set hg) ▸ hfg⟩
    · obtain ⟨e, he, hef⟩ := hback f hf
      obtain ⟨g, hg, hhash, heg⟩ := h e he
      exact ⟨g, hg, hhash.trans hef.hash.symm, (hef.congr g.1 (hx.key_of_set hg)).trans heg⟩

theorem Classed.map {t : Ty} {c : Cell} {es : Table Value Value} (hv : (map t c es).Sound)
    (hc : ∀ e ∈ es.toList, e.1.Classed) (hc' : ∀ e ∈ es.toList, e.2.Classed) :
    (map t c es).Classed := by
  intro w hw h
  -- A key finds at most one entry, so that looking it up and having an entry for it agree.
  have hone : ∀ {x : Value}, x.Sound → ∀ u c' gs, x = .map u c' gs →
      ∀ k : Value, k.Classed → k.FindsOne gs := by
    rintro x hx u c' gs rfl k hk e he e' he' hs hs'
    exact hk.eq_of_same hx.table (fun _ => hx.key_of_map) he he' hs hs'
  obtain ⟨u, c', fs, rfl, hsize, hall⟩ :=
    (same_map_iff hw fun u c' gs hgs e he => hone hw u c' gs hgs e.1 (hc e he)).1 h
  have hfs : ∀ f ∈ fs.toList, f.1.Sound := fun _ => hw.key_of_map
  have hpartner : ∀ e ∈ es.toList, ∃ f ∈ fs.toList, e.1.Alike f.1 ∧ e.2.Alike f.2 := by
    intro e he
    obtain ⟨f, hf, -, hs, hs'⟩ := hall e he
    exact ⟨f, hf, hc e he f.1 (hfs f hf) hs, hc' e he f.2 (hw.value_of_map hf) hs'⟩
  obtain ⟨gs, hperm, hmatch⟩ := exists_matching hv.table (fun _ => hv.key_of_map) hc hfs
    (Nat.le_of_eq hsize.symm) (fun _ _ h => h.1.same) hpartner
  have hback : ∀ f ∈ fs.toList, ∃ e ∈ es.toList, e.1.Alike f.1 ∧ e.2.Alike f.2 := fun f hf =>
    exists_of_forall₂_right hmatch f (hperm.mem_iff.2 hf)
  have hcf : ∀ f ∈ fs.toList, f.1.Classed := by
    intro f hf
    obtain ⟨e, he, hef, -⟩ := hback f hf
    exact (hc e he).of_same (hfs f hf) hef.same
  refine ⟨h, (same_map_iff hv fun u c' gs hgs f hf => hone hv u c' gs hgs f.1 (hcf f hf)).2
    ⟨t, c, es, rfl, hsize.symm, fun f hf => ?_⟩, fun digest => ?_, fun x hx => ?_⟩
  · obtain ⟨e, he, hef, hef'⟩ := hback f hf
    exact ⟨e, he, hef.hash.symm, hef.symm, hef'.symm⟩
  · have hsum : entrySum digest fs.toList = entrySum digest es.toList := by
      rw [entrySum_eq, entrySum_eq, ← foldr_add_perm hperm]
      exact (foldr_add_congr (hmatch.imp fun e f hef => by rw [hef.1.feed, hef.2.feed])).symm
    rw [feed_map, feed_map, hsum, hsize]
  · rw [Bool.eq_iff_iff, same_map_iff hx fun u c' gs hgs f hf => hone hx u c' gs hgs f.1 (hcf f hf),
      same_map_iff hx fun u c' gs hgs e he => hone hx u c' gs hgs e.1 (hc e he), hsize]
    refine exists₃_congr fun a d hs => and_congr_right ?_
    rintro rfl
    refine and_congr_right fun _ => ⟨fun h e he => ?_, fun h f hf => ?_⟩
    · obtain ⟨f, hf, hef, hef'⟩ := hpartner e he
      obtain ⟨g, hg, hhash, hfg, hfg'⟩ := h f hf
      exact ⟨g, hg, hhash.trans hef.hash, hef.congr g.1 (hx.key_of_map hg) ▸ hfg,
        hef'.congr g.2 (hx.value_of_map hg) ▸ hfg'⟩
    · obtain ⟨e, he, hef, hef'⟩ := hback f hf
      obtain ⟨g, hg, hhash, heg, heg'⟩ := h e he
      exact ⟨g, hg, hhash.trans hef.hash.symm, (hef.congr g.1 (hx.key_of_map hg)).trans heg,
        (hef'.congr g.2 (hx.value_of_map hg)).trans heg'⟩

/-! ### Sameness is an equivalence -/

theorem Sound.classed {v : Value} (h : v.Sound) : v.Classed := by
  induction v using parts_induction with
  | h v ih =>
    have ih' : ∀ p ∈ v.parts, p.Classed := fun p hp => ih p hp (h.part hp)
    cases v with
    | int t n =>
      intro w hw hs
      obtain ⟨u, rfl⟩ := same_int_iff.1 hs
      exact ⟨hs, same_int_iff.2 ⟨t, rfl⟩, fun _ => rfl, fun x _ => by
        rw [Bool.eq_iff_iff, same_int_iff, same_int_iff]⟩
    | double t d =>
      intro w hw hs
      obtain ⟨u, e, rfl, he⟩ := same_double_iff.1 hs
      exact ⟨hs, same_double_iff.2 ⟨t, d, rfl, he.symm⟩, fun _ => by rw [feed, feed, he],
        fun x _ => by rw [Bool.eq_iff_iff, same_double_iff, same_double_iff, he]⟩
    | bool t b =>
      intro w hw hs
      obtain ⟨u, rfl⟩ := same_bool_iff.1 hs
      exact ⟨hs, same_bool_iff.2 ⟨t, rfl⟩, fun _ => rfl, fun x _ => by
        rw [Bool.eq_iff_iff, same_bool_iff, same_bool_iff]⟩
    | str t c s =>
      intro w hw hs
      obtain ⟨u, c', rfl⟩ := same_str_iff.1 hs
      exact ⟨hs, same_str_iff.2 ⟨t, c, rfl⟩, fun _ => rfl, fun x _ => by
        rw [Bool.eq_iff_iff, same_str_iff, same_str_iff]⟩
    | loc t c p r =>
      intro w hw hs
      obtain ⟨u, c', rfl⟩ := same_loc_iff.1 hs
      exact ⟨hs, same_loc_iff.2 ⟨t, c, rfl⟩, fun _ => rfl, fun x _ => by
        rw [Bool.eq_iff_iff, same_loc_iff, same_loc_iff]⟩
    | tuple => exact .tuple ih'
    | list => exact .list ih'
    | node => exact .node ih'
    | constructor => exact .constructor ih'
    | set t c es => exact .set h fun e he => ih' e.1 (Table.mem_keys.2 ⟨e, he, rfl⟩)
    | map t c es =>
      refine .map h (fun e he => ih' e.1 ?_) fun e he => ih' e.2 ?_
      · exact List.mem_append_left _ (Table.mem_keys.2 ⟨e, he, rfl⟩)
      · exact List.mem_append_right _ (Table.mem_values.2 ⟨e, he, rfl⟩)

/-- A key of one map finds at most one entry in another. -/
theorem Sound.findsOne {t : Ty} {c : Cell} {es : Table Value Value} {w : Value}
    (hv : (map t c es).Sound) (hw : w.Sound) :
    ∀ u c' fs, w = map u c' fs → ∀ e ∈ es.toList, e.1.FindsOne fs := by
  rintro u c' fs rfl e he f hf f' hf'
  exact (hv.key_of_map he).classed.eq_of_same hw.table (fun _ => hw.key_of_map) hf hf'

theorem same_symm {v w : Value} (hv : v.Sound) (hw : w.Sound) (h : v.same w = true) :
    w.same v = true := (hv.classed w hw h).symm

theorem same_trans {u v w : Value} (hu : u.Sound) (hv : v.Sound) (hw : w.Sound)
    (h : u.same v = true) (h' : v.same w = true) : u.same w = true :=
  (hu.classed v hv h).congr w hw ▸ h'

theorem feed_eq_of_same {v w : Value} (hv : v.Sound) (hw : w.Sound) (h : v.same w = true)
    (digest : List Chunk → UInt64) : w.feed digest = v.feed digest :=
  (hv.classed w hw h).feed digest

theorem same_refl {v : Value} (h : v.Sound) : v.same v = true := by
  induction v using parts_induction with
  | h v ih =>
    have ih' : ∀ p ∈ v.parts, p.same p = true := fun p hp => ih p hp (h.part hp)
    cases v with
    | int t n => exact same_int_iff.2 ⟨t, rfl⟩
    | double t d => exact same_double_iff.2 ⟨t, d, rfl, rfl⟩
    | bool t b => exact same_bool_iff.2 ⟨t, rfl⟩
    | str t c s => exact same_str_iff.2 ⟨t, c, rfl⟩
    | loc t c p r => exact same_loc_iff.2 ⟨t, c, rfl⟩
    | tuple t c vs => exact same_tuple_iff.2 ⟨t, c, vs, rfl, List.forall₂_same.2 ih'⟩
    | list t c vs => exact same_list_iff.2 ⟨t, c, vs, rfl, List.forall₂_same.2 ih'⟩
    | node t c n vs => exact same_node_iff.2 ⟨t, c, vs, rfl, List.forall₂_same.2 ih'⟩
    | constructor t c vs =>
      exact same_constructor_iff.2 ⟨t, c, vs, rfl, rfl, rfl, List.forall₂_same.2 ih'⟩
    | set t c es =>
      refine (same_set_iff h).2 ⟨t, c, es, rfl, rfl, fun e he => ⟨e, he, rfl, ?_⟩⟩
      exact ih' e.1 (Table.mem_keys.2 ⟨e, he, rfl⟩)
    | map t c es =>
      refine (same_map_iff h (h.findsOne h)).2 ⟨t, c, es, rfl, rfl, fun e he => ⟨e, he, rfl, ?_, ?_⟩⟩
      · exact ih' e.1 (List.mem_append_left _ (Table.mem_keys.2 ⟨e, he, rfl⟩))
      · exact ih' e.2 (List.mem_append_right _ (Table.mem_values.2 ⟨e, he, rfl⟩))

end Value

end ValueAlgebra
