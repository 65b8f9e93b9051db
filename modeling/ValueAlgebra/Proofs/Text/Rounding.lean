import Mathlib.Algebra.Order.Ring.Nat
import Mathlib.Tactic.Ring
import ValueAlgebra.Number.Decimal

/-!
# Printed doubles read as themselves

Printing picks a decimal in the interval of a rank and reading looks for the least rank whose upper
midpoint the decimal does not exceed. As midpoints grow with ranks, that is the rank whose interval
the decimal was picked from.

The two sides count in different units. A decimal `digits * 10 ^ -places` is a whole number of units
of `10 ^ -1074` for the printer, `Places` relates the two.
-/

namespace ValueAlgebra

namespace Double

/-! ### Magnitudes grow with ranks -/

theorem unitsOfRank_lt_succ (r : Nat) : unitsOfRank r < unitsOfRank (r + 1) := by
  unfold unitsOfRank fractionBound
  -- The step carries into the exponent exactly from the greatest fraction.
  by_cases hcarry : r % 0x10000000000000 + 1 = 0x10000000000000
  · have hmod : (r + 1) % 0x10000000000000 = 0 := by omega
    have hdiv : (r + 1) / 0x10000000000000 = r / 0x10000000000000 + 1 := by omega
    rw [hmod, hdiv]
    cases r / 0x10000000000000 with
    | zero =>
      simp only [Nat.pow_eq, Nat.pow_zero]
      omega
    | succ e =>
      have hpos : 0 < 2 ^ e := Nat.pow_pos (by decide)
      simp only [Nat.pow_eq]
      calc (r % 0x10000000000000 + 0x10000000000000) * 2 ^ e
          < (2 * 0x10000000000000) * 2 ^ e := Nat.mul_lt_mul_of_pos_right (by omega) hpos
        _ = (0 + 0x10000000000000) * 2 ^ (e + 1) := by ring
  · have hmod : (r + 1) % 0x10000000000000 = r % 0x10000000000000 + 1 := by omega
    have hdiv : (r + 1) / 0x10000000000000 = r / 0x10000000000000 := by omega
    rw [hmod, hdiv]
    cases r / 0x10000000000000 with
    | zero => exact Nat.lt_succ_self _
    | succ e => exact Nat.mul_lt_mul_of_pos_right (by omega) (Nat.pow_pos (by decide))

theorem doubledMidpoint_strictMono : StrictMono doubledMidpoint :=
  strictMono_nat_of_lt_succ fun r => Nat.add_lt_add (unitsOfRank_lt_succ r)
    (unitsOfRank_lt_succ (r + 1))

theorem doubledMidpoint_pos (r : Nat) : 0 < doubledMidpoint r :=
  Nat.lt_of_le_of_lt (Nat.zero_le _) (Nat.lt_add_left _ (unitsOfRank_lt_succ r))

/-! ### Searching -/

section Search

variable {p : Nat → Bool} {n : Nat}

theorem leastFrom_eq (hp : ∀ m, n ≤ m → p m = true) (hn : ∀ m < n, p m = false) :
    ∀ {bits base : Nat}, base ≤ n → n < base + 2 ^ bits → leastFrom p base bits = n
  | 0, base, hlow, hhigh => by
    rw [leastFrom]
    simp only [Nat.pow_zero] at hhigh
    omega
  | bits + 1, base, hlow, hhigh => by
    rw [Nat.pow_succ] at hhigh
    simp only [leastFrom, Nat.pow_eq]
    by_cases hm : n ≤ base + 2 ^ bits - 1
    -- The middle is no less than `n`, so `n` is in the lower half.
    · have hpos : 0 < 2 ^ bits := Nat.pow_pos (by decide)
      rw [if_pos (hp _ hm)]
      exact leastFrom_eq hp hn hlow (by omega)
    · rw [hn _ (by omega), if_neg (by decide)]
      exact leastFrom_eq hp hn (by omega) (by omega)

/-- The search finds the least number, wherever it starts. -/
theorem leastNear_eq (hp : ∀ m, n ≤ m → p m = true) (hn : ∀ m < n, p m = false) {bits : Nat}
    (hbits : n < 2 ^ bits) (guess : Nat) : leastNear p guess bits = n := by
  unfold leastNear
  split
  · next h =>
    rw [Bool.and_eq_true, Bool.or_eq_true, beq_iff_eq, Bool.not_eq_true'] at h
    have hlow : guess ≤ n := by
      by_contra hlt
      rcases h.1 with h0 | hprev
      · omega
      · rw [hp _ (by omega)] at hprev
        cases hprev
    have hhigh : n ≤ guess + 1 := by
      by_contra hlt
      have hnext := h.2
      rw [hn (guess + 1) (by omega)] at hnext
      cases hnext
    exact leastFrom_eq hp hn hlow (by omega)
  -- A guess that is off costs a search from zero.
  · exact leastFrom_eq hp hn (Nat.zero_le _) (by omega)

end Search

/-! ### What a decimal rounds to -/

/-- The units in one. -/
def unitsOfOne : Nat := Nat.pow 2 1074

/-- The exponent is a variable lest the power be computed. -/
theorem two_mul_unitsOfOne : ∃ n, n = 1075 ∧ 2 * unitsOfOne = 2 ^ n := by
  unfold unitsOfOne
  generalize hk : 1074 = k
  exact ⟨k + 1, by omega, (Nat.pow_succ' ..).symm⟩

/-- The decimal without an exponent above zero, `digits * 10 ^ -places`. -/
abbrev fixed (digits places : Nat) : Decimal := ⟨digits, -(places : Int)⟩

/-- `digits * 10 ^ -places` lies below the midpoint above the rank, or on it if that counts. -/
theorem roundsWithin_iff {digits places rank : Nat} : roundsWithin (fixed digits places) rank = true ↔
    if rank % 2 = 0 then 2 * digits * unitsOfOne ≤ doubledMidpoint rank * 10 ^ places
    else 2 * digits * unitsOfOne < doubledMidpoint rank * 10 ^ places := by
  have hup : (-(places : Int)).toNat = 0 := Int.toNat_eq_zero.2 (by omega)
  have hdown : (- -(places : Int)).toNat = places := by omega
  simp only [roundsWithin, Nat.pow_eq (m := 10), hup, hdown, Nat.pow_zero, Nat.mul_one]
  unfold unitsOfOne
  generalize Nat.pow 2 1074 = u
  split <;> rw [decide_eq_true_eq]

/-- What reaches no further than one rank reaches no further than any greater one. -/
theorem roundsWithin_mono {digits places r r' : Nat} (h : r ≤ r')
    (hr : roundsWithin (fixed digits places) r = true) :
    roundsWithin (fixed digits places) r' = true := by
  rcases Nat.eq_or_lt_of_le h with rfl | hlt
  · exact hr
  · have hpow : 0 < 10 ^ places := Nat.pow_pos (by decide)
    have hgrow : doubledMidpoint r * 10 ^ places < doubledMidpoint r' * 10 ^ places :=
      Nat.mul_lt_mul_of_pos_right (doubledMidpoint_strictMono hlt) hpow
    rw [roundsWithin_iff] at hr ⊢
    have hle : 2 * digits * unitsOfOne ≤ doubledMidpoint r * 10 ^ places := by
      split at hr
      · exact hr
      · exact Nat.le_of_lt hr
    split
    · exact Nat.le_trans hle (Nat.le_of_lt hgrow)
    · exact Nat.lt_of_le_of_lt hle hgrow

/-- `digits * 10 ^ -places` lies between the midpoints around the rank, which count if it is even. -/
structure Within (digits places rank : Nat) : Prop where
  above : if rank % 2 = 0 then doubledMidpoint (rank - 1) * 10 ^ places ≤ 2 * digits * unitsOfOne
    else doubledMidpoint (rank - 1) * 10 ^ places < 2 * digits * unitsOfOne
  below : roundsWithin (fixed digits places) rank = true

variable {digits places rank : Nat}

theorem Within.not_roundsWithin (h : Within digits places rank) (hrank : 0 < rank) :
    roundsWithin (fixed digits places) (rank - 1) = false := by
  rw [← Bool.not_eq_true, roundsWithin_iff]
  have habove := h.above
  by_cases heven : rank % 2 = 0
  · rw [if_pos heven] at habove
    rw [if_neg (by omega), Nat.not_lt]
    exact habove
  · rw [if_neg heven] at habove
    rw [if_pos (by omega), Nat.not_le]
    exact habove

theorem Within.digits_pos (h : Within digits places rank) : 0 < digits := by
  rcases Nat.eq_zero_or_pos digits with rfl | hpos
  · have habove := h.above
    have hmid : 0 < doubledMidpoint (rank - 1) * 10 ^ places :=
      Nat.mul_pos (doubledMidpoint_pos _) (Nat.pow_pos (by decide))
    split at habove <;> omega
  · exact hpos

/-- A decimal that belongs to a rank above zero is not small enough to be settled by its size. -/
theorem Within.not_tiny (h : Within digits places rank) :
    places ≤ Nat.log2 digits + 400 := by
  by_contra hlarge
  obtain ⟨n, hn, hunits⟩ := two_mul_unitsOfOne
  have hle : 10 ^ places ≤ digits * 2 ^ n := by
    have habove : doubledMidpoint (rank - 1) * 10 ^ places ≤ 2 * digits * unitsOfOne := by
      have habove := h.above
      split at habove
      · exact habove
      · exact Nat.le_of_lt habove
    calc 10 ^ places ≤ doubledMidpoint (rank - 1) * 10 ^ places :=
          Nat.le_mul_of_pos_left _ (doubledMidpoint_pos _)
      _ ≤ 2 * digits * unitsOfOne := habove
      _ = digits * 2 ^ n := by rw [← hunits, Nat.mul_comm 2 digits, Nat.mul_assoc]
  -- If the decimal were tiny, its digits would be few and even `8 ^ places` above `10 ^ places`.
  have hdigits : digits < 2 ^ (places - 400) :=
    Nat.lt_of_lt_of_le Nat.lt_log2_self (Nat.pow_le_pow_right (by decide) (by omega))
  have hlt : 10 ^ places < 10 ^ places := by
    calc 10 ^ places ≤ digits * 2 ^ n := hle
      _ < 2 ^ (places - 400) * 2 ^ n :=
          Nat.mul_lt_mul_of_pos_right hdigits (Nat.pow_pos (by decide))
      _ = 2 ^ (places - 400 + n) := by rw [Nat.pow_add]
      _ ≤ 2 ^ (3 * places) := Nat.pow_le_pow_right (by decide) (by omega)
      _ = 8 ^ places := by rw [Nat.pow_mul]
      _ ≤ 10 ^ places := Nat.pow_le_pow_left (by decide) _
  exact Nat.lt_irrefl _ hlt

/-- A decimal reads as the rank whose interval it lies in. -/
theorem nearestRank_eq (h : Within digits places rank) (hrank : 0 < rank)
    (hfinite : rank < infinityRank) : nearestRank (fixed digits places) = rank := by
  have hpos := h.digits_pos
  have htiny := h.not_tiny
  have hdigits : digits ≠ 0 := by omega
  have hexponent : ¬ 400 < -(places : Int) := by omega
  have hsize : ¬ -(places : Int) + Nat.log2 digits + 400 < 0 := by omega
  rw [nearestRank, if_neg hdigits, if_neg hexponent, if_neg hsize]
  -- Ranks from this one on take the decimal, those below it do not.
  refine leastNear_eq (fun m hm => ?_) (fun m hm => ?_) (Nat.lt_trans hfinite (by decide)) _
  · rw [roundsWithin_mono hm h.below, Bool.or_true]
  · have hprev : roundsWithin (fixed digits places) m = false := by
      rw [← Bool.not_eq_true]
      intro hr
      have := roundsWithin_mono (Nat.le_sub_one_of_lt hm) hr
      rw [h.not_roundsWithin hrank] at this
      cases this
    rw [hprev, Bool.or_false]
    exact decide_eq_false (by omega)

/-! ### What is printed for a rank -/

namespace Interval

theorem contains_of_gridPoint? {i : Interval} {step c : Nat} (h : i.gridPoint? step = some c) :
    i.contains (c * step) = true := by
  simp only [gridPoint?] at h
  split at h
  · next hlow hup =>
    obtain rfl := Option.some.inj h
    split
    · exact hlow
    · exact hup
  · next hlow _ =>
    obtain rfl := Option.some.inj h
    exact hlow
  · next _ hup =>
    obtain rfl := Option.some.inj h
    exact hup
  · cases h

/-- The printed decimal lies in the interval, in units of `10 ^ -1074`. -/
theorem shortestFrom_spec {i : Interval} (h : i.contains i.exact = true) :
    ∀ n, ∃ c k : Nat, i.shortestFrom n = ⟨c, (k : Int) - 1074⟩ ∧ i.contains (c * 10 ^ k) = true
  | 0 => ⟨i.exact, 0, by simp [shortestFrom], by simpa using h⟩
  | n + 1 => by
    rw [shortestFrom]
    split
    · next c hc => exact ⟨c, n + 1, rfl, contains_of_gridPoint? hc⟩
    · exact shortestFrom_spec h n

theorem contains_ofRank {rank n : Nat} (hrank : rank ≠ 0) : (ofRank rank).contains n = true ↔
    if rank % 2 = 0 then
      doubledMidpoint (rank - 1) * unitScale ≤ 2 * n ∧ 2 * n ≤ doubledMidpoint rank * unitScale
    else doubledMidpoint (rank - 1) * unitScale < 2 * n ∧ 2 * n < doubledMidpoint rank * unitScale := by
  rw [contains, ofRank]
  by_cases heven : rank % 2 = 0 <;> simp [heven, hrank]

theorem unitScale_pos : 0 < unitScale := by
  unfold unitScale
  generalize 1074 = k
  exact Nat.pow_pos (by decide)

/-- A magnitude lies between the midpoints to its neighbours. -/
theorem contains_exact {rank : Nat} (hrank : rank ≠ 0) :
    (ofRank rank).contains (ofRank rank).exact = true := by
  have hprev : unitsOfRank (rank - 1) < unitsOfRank (rank - 1 + 1) := unitsOfRank_lt_succ _
  rw [Nat.sub_add_cancel (Nat.pos_of_ne_zero hrank)] at hprev
  have hlow : doubledMidpoint (rank - 1) * unitScale < 2 * (unitsOfRank rank * unitScale) := by
    rw [← Nat.mul_assoc]
    refine Nat.mul_lt_mul_of_pos_right ?_ unitScale_pos
    rw [doubledMidpoint, Nat.sub_add_cancel (Nat.pos_of_ne_zero hrank)]
    omega
  have hhigh : 2 * (unitsOfRank rank * unitScale) < doubledMidpoint rank * unitScale := by
    rw [← Nat.mul_assoc]
    refine Nat.mul_lt_mul_of_pos_right ?_ unitScale_pos
    have := unitsOfRank_lt_succ rank
    rw [doubledMidpoint]
    omega
  rw [contains_ofRank hrank, ofRank]
  split
  · exact ⟨Nat.le_of_lt hlow, Nat.le_of_lt hhigh⟩
  · exact ⟨hlow, hhigh⟩

end Interval

/-! ### From one unit to the other -/

theorem le_iff_of_scaled {a b x y q r : Nat} (hq : 0 < q) (hr : 0 < r) (ha : a * q = r * x)
    (hb : b * q = r * y) : a ≤ b ↔ x ≤ y := by
  rw [← Nat.mul_le_mul_right_iff hq, ha, hb, Nat.mul_le_mul_left_iff hr]

theorem lt_iff_of_scaled {a b x y q r : Nat} (hq : 0 < q) (hr : 0 < r) (ha : a * q = r * x)
    (hb : b * q = r * y) : a < b ↔ x < y := by
  rw [← Nat.not_le, ← Nat.not_le, le_iff_of_scaled hq hr hb ha]

theorem unitsOfOne_pos : 0 < unitsOfOne := by
  unfold unitsOfOne
  generalize 1074 = k
  exact Nat.pow_pos (by decide)

theorem unitScale_mul_unitsOfOne : ∃ n, n = 1074 ∧ unitScale * unitsOfOne = 10 ^ n := by
  unfold unitScale unitsOfOne
  generalize hk : 1074 = k
  exact ⟨k, rfl, (Nat.mul_pow 5 2 k).symm⟩

/-- The same number in units of `10 ^ -1074` and with decimal places. -/
theorem within_of_contains {digits places rank n : Nat} (hrank : rank ≠ 0)
    (h : (Interval.ofRank rank).contains n = true)
    (hn : digits * (unitScale * unitsOfOne) = n * 10 ^ places) : Within digits places rank := by
  have hq : 0 < unitsOfOne * 10 ^ places := Nat.mul_pos unitsOfOne_pos (Nat.pow_pos (by decide))
  have hr : 0 < unitScale * unitsOfOne := Nat.mul_pos Interval.unitScale_pos unitsOfOne_pos
  -- Both sides are scaled to integers, which keeps each comparison with a midpoint.
  have hmid (m : Nat) : m * unitScale * (unitsOfOne * 10 ^ places) =
      unitScale * unitsOfOne * (m * 10 ^ places) := by ring
  have htwice : 2 * n * (unitsOfOne * 10 ^ places) =
      unitScale * unitsOfOne * (2 * digits * unitsOfOne) := by
    calc 2 * n * (unitsOfOne * 10 ^ places) = 2 * unitsOfOne * (n * 10 ^ places) := by ring
      _ = 2 * unitsOfOne * (digits * (unitScale * unitsOfOne)) := by rw [hn]
      _ = unitScale * unitsOfOne * (2 * digits * unitsOfOne) := by ring
  rw [Interval.contains_ofRank hrank] at h
  refine ⟨?_, roundsWithin_iff.2 ?_⟩
  · split at h
    · next heven =>
      rw [if_pos heven]
      exact (le_iff_of_scaled hq hr (hmid _) htwice).1 h.1
    · next hodd =>
      rw [if_neg hodd]
      exact (lt_iff_of_scaled hq hr (hmid _) htwice).1 h.1
  · split at h
    · next heven =>
      rw [if_pos heven]
      exact (le_iff_of_scaled hq hr htwice (hmid _)).1 h.2
    · next hodd =>
      rw [if_neg hodd]
      exact (lt_iff_of_scaled hq hr htwice (hmid _)).1 h.2

/-- The decimal with its exponent, if above zero, turned into digits. -/
def settled (d : Decimal) : Decimal :=
  fixed (d.digits * 10 ^ d.exponent.toNat) (-d.exponent).toNat

/-- Every finite rank is read back from what is printed for it. -/
theorem nearestRank_settled {rank : Nat} (hfinite : rank < infinityRank) :
    nearestRank (settled (shortestMagnitude rank)) = rank := by
  by_cases hrank : rank = 0
  · have hzero : (settled (shortestMagnitude rank)).digits = 0 := by
      rw [shortestMagnitude, if_pos hrank, settled, Nat.zero_mul]
    rw [nearestRank, if_pos hzero, hrank]
  · rw [shortestMagnitude, if_neg hrank]
    obtain ⟨c, k, hd, hin⟩ := Interval.shortestFrom_spec (Interval.contains_exact hrank)
      (Interval.ofRank rank).coarsestGrid
    obtain ⟨n, hn, hscale⟩ := unitScale_mul_unitsOfOne
    show nearestRank (settled ((Interval.ofRank rank).shortestFrom _)) = rank
    rw [hd, settled]
    refine nearestRank_eq (within_of_contains hrank hin ?_) (Nat.pos_of_ne_zero hrank) hfinite
    show c * 10 ^ ((k : Int) - 1074).toNat * (unitScale * unitsOfOne) =
      c * 10 ^ k * 10 ^ (-((k : Int) - 1074)).toNat
    have hexponent : ((k : Int) - 1074).toNat + n = k + (-((k : Int) - 1074)).toNat := by omega
    rw [hscale, Nat.mul_assoc, Nat.mul_assoc, ← Nat.pow_add, ← Nat.pow_add, hexponent]

end Double

end ValueAlgebra
