import BalancedLinks.Number.Numeral
import BalancedLinks.Number.Text
import Mathlib.Algebra.Order.Field.Power
import Mathlib.Tactic.FieldSimp
import Mathlib.Tactic.Linarith
import Mathlib.Tactic.Positivity
import Mathlib.Tactic.Ring

/-!
# The decimals of numbers

The shortest decimal of a number lies in the interval of what rounds to the number, and has as many digits before
its point as the number, or one more where it is rounded up to a power of ten. Seventeen digits are always
enough for one to be found. Between two numbers there is always the gap above the smaller one, so that a power of
ten that is a number, or lies just above one, parts the numbers written with fewer digits from those with more.

The main statement is `Number.point_within_iff`: which numbers are written in full.
-/

set_option autoImplicit false

namespace BalancedLinks

open Number

/-! ## What decimals are worth -/

/-- Powers of two are positive. -/
theorem powerOfTwo_pos (k : Nat) : 0 < powerOfTwo k :=
  Nat.two_pow_pos k

/-- A power of ten, as a rational number. -/
theorem powerOfTen_cast (k : Nat) : ((powerOfTen k : Nat) : ℚ) = 10 ^ k := by
  simp [powerOfTen]

/-- Powers of ten are positive. -/
theorem powerOfTen_pos (k : Nat) : (0 : ℚ) < (powerOfTen k : Nat) := by
  rw [powerOfTen_cast]
  positivity

/-- One is worth more than nothing. -/
theorem unitsOfOne_pos : (0 : ℚ) < unitsOfOne := by
  have hpos : 0 < unitsOfOne := powerOfTwo_pos unitPlaces
  exact_mod_cast hpos

/-- A power of ten, below one or not, is worth more than nothing. -/
theorem zpow_mul_unitsOfOne_pos (e : Int) : (0 : ℚ) < 10 ^ e * unitsOfOne :=
  mul_pos (by positivity) unitsOfOne_pos

/-- A power of ten is the quotient of its parts above and below one. -/
theorem zpow_mul_powerOfTen (e : Int) :
    (10 : ℚ) ^ e * (powerOfTen (-e).toNat : Nat) = (powerOfTen e.toNat : Nat) := by
  rw [powerOfTen_cast, powerOfTen_cast]
  rcases Int.eq_nat_or_neg e with ⟨k, rfl | rfl⟩
  · simp
  · simp

namespace DecimalDigits

/-- What a decimal is worth, in units. -/
def worth (d : DecimalDigits) : ℚ :=
  d.digits * 10 ^ d.exponent * unitsOfOne

/-- What a decimal is worth, over a common denominator. -/
theorem worth_mul_powerOfTen (d : DecimalDigits) :
    d.worth * (powerOfTen (-d.exponent).toNat : Nat) =
      (d.digits * (unitsOfOne * powerOfTen d.exponent.toNat) : Nat) := by
  rw [worth]
  push_cast
  rw [← zpow_mul_powerOfTen d.exponent]
  ring

/-- How many digits a decimal has before its point; none or fewer where zeros follow the point. -/
def point (d : DecimalDigits) : Int :=
  decimalLength d.digits + d.exponent

/-- A natural number has at most so many digits exactly if it is below that power of ten. -/
theorem decimalLength_le_iff (m k : Nat) (hk : 0 < k) : decimalLength m ≤ k ↔ m < 10 ^ k :=
  Nat.length_toDigits_le_iff (by decide) hk

/-- Every natural number is written with a digit at least. -/
theorem decimalLength_pos (m : Nat) : 0 < decimalLength m :=
  Nat.length_toDigits_pos

/-- The length of a positive number tells which powers of ten are below it. -/
theorem pow_le_iff {m : Nat} (hm : 0 < m) (k : Nat) : 10 ^ k ≤ m ↔ k < decimalLength m := by
  rcases Nat.eq_zero_or_pos k with rfl | hk
  · exact iff_of_true hm (decimalLength_pos m)
  · rw [← Nat.not_lt, ← decimalLength_le_iff m k hk, Nat.not_le]

/-- The length of a positive number tells which powers of ten are below it, those below one included. -/
theorem zpow_le_digits_iff {m : Nat} (hm : 0 < m) (k : Int) : (10 : ℚ) ^ k ≤ m ↔ k < decimalLength m := by
  rcases Int.lt_or_le k 0 with hneg | hnonneg
  · have hlow : (10 : ℚ) ^ k ≤ 1 := zpow_le_one_of_nonpos₀ (by norm_num) hneg.le
    have hone : (1 : ℚ) ≤ m := by exact_mod_cast hm
    exact iff_of_true (hlow.trans hone) (hneg.trans_le (Int.natCast_nonneg _))
  · lift k to Nat using hnonneg
    rw [zpow_natCast, Int.ofNat_lt, ← pow_le_iff hm]
    norm_cast

/-- The point of a decimal tells which powers of ten it is worth. -/
theorem lt_point_iff {d : DecimalDigits} (h : 0 < d.digits) (k : Int) :
    k < d.point ↔ 10 ^ k * unitsOfOne ≤ d.worth := by
  have hsplit : (10 : ℚ) ^ k = 10 ^ (k - d.exponent) * 10 ^ d.exponent := by
    rw [← zpow_add₀ (by norm_num : (10 : ℚ) ≠ 0), sub_add_cancel]
  have hpos : (0 : ℚ) < 10 ^ d.exponent := by positivity
  rw [worth, mul_le_mul_iff_of_pos_right unitsOfOne_pos, hsplit, mul_le_mul_iff_of_pos_right hpos,
    zpow_le_digits_iff h, point]
  omega

/-- Each trailing zero that is dropped moves to the exponent, however many are. -/
theorem trimWithin_spec (k : Nat) (d : DecimalDigits) (h : 0 < d.digits) :
    0 < (trimWithin k d).digits ∧ (trimWithin k d).worth = d.worth := by
  induction k generalizing d with
  | zero => exact ⟨h, rfl⟩
  | succ k ih =>
    unfold trimWithin
    split_ifs with hzero
    · obtain ⟨q, hq⟩ := Nat.dvd_of_mod_eq_zero hzero.2
      have hdiv : d.digits / 10 = q := by omega
      obtain ⟨hpos, hworth⟩ := ih ⟨d.digits / 10, d.exponent + 1⟩ (by simp only; omega)
      have hdigits : (d.digits : ℚ) = 10 * q := by exact_mod_cast hq
      refine ⟨hpos, hworth.trans ?_⟩
      simp only [worth, hdiv, hdigits, zpow_add₀ (by norm_num : (10 : ℚ) ≠ 0), zpow_one]
      ring
    · exact ⟨h, rfl⟩

/-- Dropping trailing zeros changes nothing that a decimal is worth. -/
theorem trim_spec (d : DecimalDigits) (h : 0 < d.digits) : 0 < d.trim.digits ∧ d.trim.worth = d.worth :=
  trimWithin_spec _ d h

end DecimalDigits

namespace Number

/-! ## Gaps -/

/-- How many units a number of some magnitude is apart from the next one. -/
def gap (units : Nat) : Nat :=
  powerOfTwo (units.log2 + 1 - significantBits)

/-- Whether a count of units is that of a number, with no more than the significant bits. -/
def Representable (units : Nat) : Prop :=
  gap units ∣ units

/-- No gap is zero. -/
theorem gap_pos (u : Nat) : 0 < gap u :=
  powerOfTwo_pos _

/-- A count of units is below 2^53 gaps, so that it has no more than the significant bits. -/
theorem lt_gap (u : Nat) : u < 2 ^ 53 * gap u := by
  have hlog : u < 2 ^ (u.log2 + 1) := Nat.lt_log2_self
  refine hlog.trans_le ?_
  unfold gap powerOfTwo significantBits
  rw [Nat.pow_eq, ← Nat.pow_add]
  exact Nat.pow_le_pow_right (by decide) (by omega)

/-- A gap is no wider than the number that it is above. -/
theorem gap_le {u : Nat} (h : 0 < u) : gap u ≤ u := by
  have hlog : 2 ^ u.log2 ≤ u := Nat.log2_self_le (by omega)
  refine le_trans ?_ hlog
  unfold gap powerOfTwo significantBits
  rw [Nat.pow_eq]
  exact Nat.pow_le_pow_right (by decide) (by omega)

/-- Gaps of larger numbers are multiples of those of smaller ones. -/
theorem gap_dvd_gap {u v : Nat} (h : u ≤ v) : gap u ∣ gap v := by
  have hlog : u.log2 ≤ v.log2 := by
    rcases Nat.eq_zero_or_pos u with rfl | hu
    · simp
    · exact (Nat.le_log2 (by omega)).mpr ((Nat.log2_self_le (by omega)).trans h)
  exact Nat.pow_dvd_pow 2 (by omega)

/-- Between two numbers there is the gap above the smaller one. -/
theorem add_gap_le {u v : Nat} (hu : Representable u) (hv : Representable v) (h : u < v) : u + gap u ≤ v := by
  have hdvd : gap u ∣ v - u := Nat.dvd_sub ((gap_dvd_gap h.le).trans hv) hu
  have hle := Nat.le_of_dvd (by omega) hdvd
  omega

/-! ## Rounding intervals -/

/-- The interval of a number reaches half the gap upward, and at most half the gap downward. -/
theorem roundingInterval_bounds {u : Nat} (hu : 0 < u) :
    (roundingInterval u).high = 4 * u + 2 * gap u ∧ 4 * u ≤ (roundingInterval u).low + 2 * gap u ∧
      (roundingInterval u).low < 4 * u ∧
      4 * u < 10 ^ 16 * ((roundingInterval u).high - (roundingInterval u).low) := by
  have hgap : (roundingInterval u).high = 4 * u + 2 * gap u := rfl
  have hlt := lt_gap u
  have hle := gap_le hu
  have hpos := gap_pos u
  -- the gap below is the gap above, but for the powers of two, where it is half as wide
  obtain ⟨below, hlow, hbelow⟩ : ∃ below, (roundingInterval u).low = 4 * u - 2 * below ∧
      (below = gap u ∨ u / gap u = 2 ^ 52 ∧ below = gap u / 2 ∧ 1 < gap u) := by
    have hchoice : (roundingInterval u).low = 4 * u - 2 * if u / gap u = powerOfTwo (significantBits - 1) ∧
        u.log2 + 1 - significantBits > 0 then gap u / 2 else gap u := rfl
    rw [hchoice]
    split_ifs with hpower
    · exact ⟨gap u / 2, rfl, Or.inr ⟨hpower.1, rfl, Nat.one_lt_two_pow (by omega)⟩⟩
    · exact ⟨gap u, rfl, Or.inl rfl⟩
  refine ⟨hgap, ?_⟩
  rw [hgap, hlow]
  rcases hbelow with rfl | ⟨hpower, rfl, hwide⟩
  · omega
  · have hsignificand : u < (2 ^ 52 + 1) * gap u := by
      rw [← hpower]
      have hdiv := Nat.lt_div_mul_add (a := u) hpos
      linarith
    omega

/-- A quarter of an end of an interval, compared with a decimal over a common denominator. -/
theorem scaled_le_iff (b : Nat) (d : DecimalDigits) :
    (b * powerOfTen (-d.exponent).toNat ≤ d.digits * (4 * unitsOfOne) * powerOfTen d.exponent.toNat ↔
        (b : ℚ) ≤ 4 * d.worth) ∧
      (d.digits * (4 * unitsOfOne) * powerOfTen d.exponent.toNat ≤ b * powerOfTen (-d.exponent).toNat ↔
        4 * d.worth ≤ b) := by
  have hscale := powerOfTen_pos (-d.exponent).toNat
  have hworth : ((d.digits * (4 * unitsOfOne) * powerOfTen d.exponent.toNat : Nat) : ℚ) =
      4 * d.worth * (powerOfTen (-d.exponent).toNat : Nat) := by
    rw [mul_assoc 4, d.worth_mul_powerOfTen]
    push_cast
    ring
  constructor
  · rw [← Nat.cast_le (α := ℚ), hworth, Nat.cast_mul, mul_le_mul_iff_of_pos_right hscale]
  · rw [← Nat.cast_le (α := ℚ), hworth, Nat.cast_mul, mul_le_mul_iff_of_pos_right hscale]

/-- A decimal is in an interval if it is worth as much as the values in it. -/
theorem RoundingInterval.contains_iff (i : RoundingInterval) (d : DecimalDigits) :
    i.contains d.digits d.exponent = true ↔
      if i.closed then (i.low : ℚ) ≤ 4 * d.worth ∧ 4 * d.worth ≤ i.high
      else (i.low : ℚ) < 4 * d.worth ∧ 4 * d.worth < i.high := by
  obtain ⟨hlow, hlow'⟩ := scaled_le_iff i.low d
  obtain ⟨hhigh, hhigh'⟩ := scaled_le_iff i.high d
  unfold RoundingInterval.contains
  split_ifs
  · rw [Bool.and_eq_true, decide_eq_true_eq, decide_eq_true_eq, hlow, hhigh']
  · rw [Bool.and_eq_true, decide_eq_true_eq, decide_eq_true_eq, ← not_le, ← not_le, hlow', hhigh, not_le, not_le]

/-- Whether an interval is closed or open, what it contains lies between its ends. -/
theorem RoundingInterval.of_contains {i : RoundingInterval} {d : DecimalDigits}
    (h : i.contains d.digits d.exponent = true) : (i.low : ℚ) ≤ 4 * d.worth ∧ 4 * d.worth ≤ i.high := by
  rw [contains_iff] at h
  split_ifs at h
  · exact h
  · exact ⟨h.1.le, h.2.le⟩

/-- What an interval does not contain lies outside its ends or on them. -/
theorem RoundingInterval.of_not_contains {i : RoundingInterval} {d : DecimalDigits}
    (h : i.contains d.digits d.exponent = false) : 4 * d.worth ≤ i.low ∨ (i.high : ℚ) ≤ 4 * d.worth := by
  by_contra hinside
  push Not at hinside
  have hcontains : i.contains d.digits d.exponent = true := by
    rw [contains_iff]
    split_ifs
    · exact ⟨hinside.1.le, hinside.2.le⟩
    · exact hinside
  cases h.symm.trans hcontains

/-! ## Grids of decimals -/

/-- The largest decimal on a grid that is worth no more than a count of units. -/
def belowOnGrid (u : Nat) (e : Int) : DecimalDigits :=
  ⟨u * powerOfTen (-e).toNat / (unitsOfOne * powerOfTen e.toNat), e⟩

/-- The next decimal on the grid. -/
def aboveOnGrid (u : Nat) (e : Int) : DecimalDigits :=
  ⟨(belowOnGrid u e).digits + 1, e⟩

/-- Two decimals that follow one another on a grid are one step of the grid apart. -/
theorem worth_aboveOnGrid (u : Nat) (e : Int) :
    (aboveOnGrid u e).worth = (belowOnGrid u e).worth + 10 ^ e * unitsOfOne := by
  simp only [DecimalDigits.worth, aboveOnGrid, belowOnGrid]
  push_cast
  ring

/-- A count of units lies between the two decimals of a grid around it. -/
theorem between_onGrid (u : Nat) (e : Int) : (belowOnGrid u e).worth ≤ u ∧ (u : ℚ) < (aboveOnGrid u e).worth := by
  have hscale := powerOfTen_pos (-e).toNat
  have hworth : ∀ m : Nat, DecimalDigits.worth ⟨m, e⟩ * (powerOfTen (-e).toNat : Nat) =
      (m * (unitsOfOne * powerOfTen e.toNat) : Nat) := fun m => DecimalDigits.worth_mul_powerOfTen ⟨m, e⟩
  have hden : 0 < unitsOfOne * powerOfTen e.toNat := Nat.mul_pos (powerOfTwo_pos unitPlaces) (Nat.pow_pos (by decide))
  constructor
  · rw [← mul_le_mul_iff_of_pos_right hscale, ← Nat.cast_mul, belowOnGrid, hworth, Nat.cast_le]
    exact Nat.div_mul_le_self _ _
  · rw [← mul_lt_mul_iff_of_pos_right hscale, ← Nat.cast_mul, aboveOnGrid, hworth, Nat.cast_lt]
    exact (Nat.div_lt_iff_lt_mul hden).mp (Nat.lt_succ_self _)

/-- A hit on a grid is one of the two decimals around the count of units, and in the interval. -/
theorem of_nearestOnGrid?_some {u : Nat} {i : RoundingInterval} {e : Int} {d : DecimalDigits}
    (h : nearestOnGrid? u i e = some d) :
    (d = belowOnGrid u e ∨ d = aboveOnGrid u e) ∧ i.contains d.digits d.exponent = true := by
  simp only [nearestOnGrid?] at h
  split at h
  · rename_i hbelow habove
    obtain rfl := Option.some.inj h
    simp only [roundHalfEven]
    split_ifs
    · exact ⟨Or.inl rfl, hbelow⟩
    · exact ⟨Or.inr rfl, habove⟩
    · exact ⟨Or.inl rfl, hbelow⟩
    · exact ⟨Or.inr rfl, habove⟩
  · rename_i hbelow _
    obtain rfl := Option.some.inj h
    exact ⟨Or.inl rfl, hbelow⟩
  · rename_i _ habove
    obtain rfl := Option.some.inj h
    exact ⟨Or.inr rfl, habove⟩
  · cases h

/-- A grid is missed only if neither of the decimals around the count of units is in the interval. -/
theorem of_nearestOnGrid?_none {u : Nat} {i : RoundingInterval} {e : Int} (h : nearestOnGrid? u i e = none) :
    i.contains (belowOnGrid u e).digits (belowOnGrid u e).exponent = false ∧
      i.contains (aboveOnGrid u e).digits (aboveOnGrid u e).exponent = false := by
  simp only [nearestOnGrid?] at h
  split at h
  · cases h
  · cases h
  · cases h
  · rename_i hbelow habove
    exact ⟨hbelow, habove⟩

/-- A grid that is finer than the interval is wide has a hit. -/
theorem exists_nearestOnGrid? {u : Nat} (hu : 0 < u) {e : Int} (h : 10 ^ 16 * (10 ^ e * unitsOfOne) ≤ (u : ℚ)) :
    ∃ d, nearestOnGrid? u (roundingInterval u) e = some d := by
  cases hgrid : nearestOnGrid? u (roundingInterval u) e with
  | some d => exact ⟨d, rfl⟩
  | none =>
    exfalso
    obtain ⟨hbelow, habove⟩ := of_nearestOnGrid?_none hgrid
    obtain ⟨hle, hlt⟩ := between_onGrid u e
    obtain ⟨hhigh, -, hlow, hwide⟩ := roundingInterval_bounds hu
    have hhigh' : ((roundingInterval u).high : ℚ) = 4 * u + 2 * gap u := by exact_mod_cast hhigh
    have hlow' : ((roundingInterval u).low : ℚ) < 4 * u := by exact_mod_cast hlow
    have hgap : (0 : ℚ) < gap u := by exact_mod_cast gap_pos u
    have hwide' : 4 * (u : ℚ) < 10 ^ 16 * ((roundingInterval u).high - (roundingInterval u).low) := by
      rw [← Nat.cast_sub (by omega)]
      exact_mod_cast hwide
    -- one of the two is below the interval, the other one above, and they are one step apart
    have hstep := worth_aboveOnGrid u e
    have hunder := (RoundingInterval.of_not_contains hbelow).resolve_right (by linarith)
    have hover := (RoundingInterval.of_not_contains habove).resolve_left (by linarith)
    linarith

/-! ## Shortest decimals -/

/-- A power of ten is in a whole quotient exactly if it is in the quotient. -/
theorem zpow_le_div_iff {num den : Nat} (hden : 0 < den) (hle : den ≤ num) (k : Int) :
    (10 : ℚ) ^ k ≤ (num / den : Nat) ↔ (10 : ℚ) ^ k * den ≤ num := by
  have hden' : (0 : ℚ) < den := by exact_mod_cast hden
  rcases Int.lt_or_le k 0 with hneg | hnonneg
  · have hsmall : (10 : ℚ) ^ k ≤ 1 := zpow_le_one_of_nonpos₀ (by norm_num) hneg.le
    have hone : (1 : ℚ) ≤ (num / den : Nat) := by exact_mod_cast Nat.div_pos hle hden
    have hfits : (den : ℚ) ≤ num := by exact_mod_cast hle
    exact iff_of_true (hsmall.trans hone) ((mul_le_of_le_one_left hden'.le hsmall).trans hfits)
  · lift k to Nat using hnonneg
    rw [zpow_natCast]
    exact_mod_cast Nat.le_div_iff_mul_le hden

/-- The leading digit of a count of units tells which powers of ten it has. -/
theorem le_leadingExponent_iff {u : Nat} (hu : 0 < u) (k : Int) :
    k ≤ leadingExponent u ↔ (10 : ℚ) ^ k * unitsOfOne ≤ u := by
  have hunit : unitsOfOne ≤ powerOfTen 400 := by decide +kernel
  have hpos : 0 < unitsOfOne := powerOfTwo_pos unitPlaces
  have hle : unitsOfOne ≤ u * powerOfTen 400 := hunit.trans (Nat.le_mul_of_pos_left _ hu)
  have hsplit : (10 : ℚ) ^ (k + 400) = 10 ^ k * 10 ^ 400 := by
    rw [zpow_add₀ (by norm_num : (10 : ℚ) ≠ 0), zpow_ofNat]
  have hten : (0 : ℚ) < 10 ^ 400 := by positivity
  calc k ≤ leadingExponent u
      ↔ k + 400 < decimalLength (u * powerOfTen 400 / unitsOfOne) := by
        rw [leadingExponent]
        omega
    _ ↔ (10 : ℚ) ^ (k + 400) * unitsOfOne ≤ (u * powerOfTen 400 : Nat) := by
        rw [← DecimalDigits.zpow_le_digits_iff (Nat.div_pos hle hpos), zpow_le_div_iff hpos hle]
    _ ↔ (10 : ℚ) ^ k * unitsOfOne ≤ u := by
        rw [Nat.cast_mul, powerOfTen_cast, hsplit, mul_right_comm, mul_le_mul_iff_of_pos_right hten]

/-- On a grid that has a place for the leading digit, the decimal below is worth as much as that digit stands for. -/
theorem leading_le_belowOnGrid {u : Nat} (hu : 0 < u) {c : Nat} (hc : 1 ≤ c) :
    10 ^ leadingExponent u * unitsOfOne ≤ (belowOnGrid u (leadingExponent u + 1 - c)).worth := by
  have hleading := (le_leadingExponent_iff hu _).mp le_rfl
  have habove := (between_onGrid u (leadingExponent u + 1 - c)).2
  have hstep := zpow_mul_unitsOfOne_pos (leadingExponent u + 1 - c)
  have hsplit : (10 : ℚ) ^ leadingExponent u * unitsOfOne =
      (10 ^ (c - 1) : Nat) * (10 ^ (leadingExponent u + 1 - c) * unitsOfOne) := by
    have hexponent : leadingExponent u = ((c - 1 : Nat) : Int) + (leadingExponent u + 1 - c) := by omega
    have hpower : (10 : ℚ) ^ leadingExponent u = 10 ^ (c - 1) * 10 ^ (leadingExponent u + 1 - c) := by
      conv_lhs => rw [hexponent]
      rw [zpow_add₀ (by norm_num : (10 : ℚ) ≠ 0), zpow_natCast]
    rw [hpower]
    push_cast
    ring
  rw [hsplit] at hleading ⊢
  have hworth : ∀ d : DecimalDigits, d.exponent = leadingExponent u + 1 - c →
      d.worth = d.digits * (10 ^ (leadingExponent u + 1 - c) * unitsOfOne) := by
    rintro d hd
    rw [DecimalDigits.worth, hd, mul_assoc]
  rw [hworth _ rfl] at habove ⊢
  have hlt := lt_of_mul_lt_mul_right (hleading.trans_lt habove) hstep.le
  refine mul_le_mul_of_nonneg_right ?_ hstep.le
  simp only [aboveOnGrid, Nat.cast_lt] at hlt
  exact_mod_cast Nat.lt_succ_iff.mp hlt

/-- The first hit of a search is on one of its grids, or none of them has one. -/
theorem shortestWithin_cases (u : Nat) (i : RoundingInterval) (leading : Int) (k count : Nat) :
    (∃ c d, count ≤ c ∧ c < count + k ∧ nearestOnGrid? u i (leading + 1 - c) = some d ∧
        shortestWithin u i leading k count = d.trim) ∨
      ∀ c, count ≤ c → c < count + k → nearestOnGrid? u i (leading + 1 - c) = none := by
  induction k generalizing count with
  | zero => exact Or.inr fun c hc hc' => absurd hc' (by omega)
  | succ k ih =>
    unfold shortestWithin
    cases hgrid : nearestOnGrid? u i (leading + 1 - count) with
    | some d => exact Or.inl ⟨count, d, le_rfl, by omega, hgrid, rfl⟩
    | none =>
      rcases ih (count + 1) with ⟨c, d, hc, hc', hhit, htrim⟩ | hmiss
      · exact Or.inl ⟨c, d, by omega, by omega, hhit, htrim⟩
      · refine Or.inr fun c hc hc' => ?_
        rcases Nat.eq_or_lt_of_le hc with rfl | hlt
        · exact hgrid
        · exact hmiss c (by omega) (by omega)

/-- The shortest decimal of a positive number rounds to it, and has the powers of ten that the number has. -/
theorem shortestDigits_spec {u : Nat} (hu : 0 < u) :
    0 < (shortestDigits u).digits ∧ 4 * (shortestDigits u).worth ≤ (roundingInterval u).high ∧
      ∀ k : Int, 10 ^ k * unitsOfOne ≤ (u : ℚ) → 10 ^ k * unitsOfOne ≤ (shortestDigits u).worth := by
  have hleading := (le_leadingExponent_iff hu _).mp le_rfl
  have hten : (10 : ℚ) ≠ 0 := by norm_num
  -- seventeen digits make a grid that is fine enough
  obtain ⟨last, hlast⟩ : ∃ d, nearestOnGrid? u (roundingInterval u) (leadingExponent u + 1 - (17 : Nat)) = some d := by
    apply exists_nearestOnGrid? hu
    have hsplit : (10 : ℚ) ^ leadingExponent u = 10 ^ (leadingExponent u + 1 - (17 : Nat)) * 10 ^ (16 : Int) := by
      rw [← zpow_add₀ hten]
      congr 1
      push_cast
      omega
    rw [hsplit] at hleading
    have hnorm : (10 : ℚ) ^ (16 : Int) = 10 ^ 16 := by norm_num
    rw [hnorm] at hleading
    linarith
  rcases shortestWithin_cases u (roundingInterval u) (leadingExponent u) 17 1 with
    ⟨c, d, hc, -, hhit, htrim⟩ | hmiss
  · obtain ⟨hplace, hinside⟩ := of_nearestOnGrid?_some hhit
    have hbelow := leading_le_belowOnGrid hu hc
    have hworth : 10 ^ leadingExponent u * unitsOfOne ≤ d.worth := by
      rcases hplace with rfl | rfl
      · exact hbelow
      · have hlt := (between_onGrid u (leadingExponent u + 1 - c)).2
        exact hleading.trans hlt.le
    have hdigits : 0 < d.digits := by
      rw [Nat.pos_iff_ne_zero]
      intro hzero
      have hpos := zpow_mul_unitsOfOne_pos (leadingExponent u)
      rw [DecimalDigits.worth, hzero, Nat.cast_zero, zero_mul, zero_mul] at hworth
      linarith
    obtain ⟨hpos, htrimmed⟩ := d.trim_spec hdigits
    have hresult : shortestDigits u = d.trim := htrim
    rw [hresult, htrimmed]
    refine ⟨hpos, (RoundingInterval.of_contains hinside).2, ?_⟩
    intro k hk
    have hpower : (10 : ℚ) ^ k ≤ 10 ^ leadingExponent u :=
      zpow_le_zpow_right₀ (by norm_num) ((le_leadingExponent_iff hu k).mpr hk)
    exact (mul_le_mul_of_nonneg_right hpower unitsOfOne_pos.le).trans hworth
  · cases (hmiss 17 (by decide) (by decide)).symm.trans hlast

/-! ## Numbers that are read -/

/-- The count of units of a number, without its sign. -/
def units : Number → Nat
  | .finite _ units => units
  | _ => 0

/-- Zero is a number. -/
theorem representable_zero : Representable 0 :=
  dvd_zero (gap 0)

/-- A significand that keeps to its bits, or is the power of two after them, makes a number. -/
theorem representable_mul {q : Nat} (h : q ≤ 2 ^ 53) (g : Nat) : Representable (q * powerOfTwo g) := by
  rcases Nat.eq_zero_or_pos (q * powerOfTwo g) with hzero | hpos
  · rw [hzero]
    exact representable_zero
  unfold Representable gap significantBits
  rcases Nat.lt_or_eq_of_le h with hlt | rfl
  · have hlog : (q * powerOfTwo g).log2 < 53 + g := by
      apply (Nat.log2_lt (by omega)).mpr
      rw [Nat.pow_add]
      exact Nat.mul_lt_mul_of_pos_right hlt (powerOfTwo_pos g)
    have hdvd : powerOfTwo ((q * powerOfTwo g).log2 + 1 - 53) ∣ powerOfTwo g := Nat.pow_dvd_pow 2 (by omega)
    exact hdvd.trans (Nat.dvd_mul_left _ _)
  · have hpower : 2 ^ 53 * powerOfTwo g = 2 ^ (53 + g) := (Nat.pow_add 2 53 g).symm
    rw [hpower, Nat.log2_two_pow]
    exact Nat.pow_dvd_pow 2 (by omega)

/-- Rounding goes up by one at most. -/
theorem roundHalfEven_le (num den : Nat) : roundHalfEven num den ≤ num / den + 1 := by
  simp only [roundHalfEven]
  split_ifs <;> omega

/-- What has been rounded is a number. -/
theorem representable_roundedUnits (num den : Nat) : Representable (roundedUnits num den) := by
  unfold roundedUnits
  apply representable_mul
  generalize num * unitsOfOne = scaled
  generalize hg : (scaled / den).log2 + 1 - significantBits = g
  have hlog : scaled / den < 2 ^ ((scaled / den).log2 + 1) := Nat.lt_log2_self
  have hwide : 2 ^ ((scaled / den).log2 + 1) ≤ 2 ^ 53 * powerOfTwo g := by
    unfold significantBits at hg
    exact (Nat.pow_le_pow_right (by decide) (by omega)).trans_eq (Nat.pow_add 2 53 g)
  have hsignificand : scaled / (den * powerOfTwo g) < 2 ^ 53 := by
    rw [← Nat.div_div_eq_div_mul, Nat.div_lt_iff_lt_mul (powerOfTwo_pos g)]
    exact hlog.trans_le hwide
  exact (roundHalfEven_le scaled (den * powerOfTwo g)).trans hsignificand

/-- What overflows has no units at all. -/
theorem representable_ite {u : Nat} (h : Representable u) (negative : Bool) (limit : Nat) :
    Representable (if u < limit then finite negative u else infinity negative).units := by
  split_ifs
  · exact h
  · exact representable_zero

/-- The number nearest to a quotient is one that can be represented, or infinite. -/
theorem representable_ofQuotient (negative : Bool) (num den : Nat) :
    Representable (ofQuotient negative num den).units :=
  representable_ite (representable_roundedUnits num den) negative overflow

/-- The number nearest to a decimal is one that can be represented, or infinite. -/
theorem representable_ofDecimal (negative : Bool) (digits : Nat) (exponent : Int) :
    Representable (ofDecimal negative digits exponent).units := by
  simp only [ofDecimal]
  split_ifs
  · exact representable_zero
  · exact representable_zero
  · exact representable_zero
  · exact representable_ofQuotient _ _ _
  · exact representable_ofQuotient _ _ _

/-- A text that is read as a decimal is read as a number that can be represented. -/
theorem representable_of_decimal? {negative : Bool} {text : List Char} {x : Number}
    (h : Numeral.decimal? negative text = some x) : Representable x.units := by
  simp only [Numeral.decimal?] at h
  split at h
  · obtain rfl := Option.some.inj h
    exact representable_ofDecimal _ _ _
  · cases h

/-- A text that is read as a natural number is read as one that can be represented. -/
theorem representable_of_map_ofInt {m : Option Nat} {x : Number} (h : m.map (fun m => ofInt m) = some x) :
    Representable x.units := by
  obtain ⟨m, -, rfl⟩ := Option.map_eq_some_iff.mp h
  exact representable_ofQuotient _ _ _

/-- A text is a numeral of numbers only. -/
theorem representable_of_ofText? {text : String} {x : Number} (h : ofText? text = some x) :
    Representable x.units := by
  simp only [ofText?, Numeral.number?] at h
  split at h
  · split_ifs at h
    · exact representable_of_map_ofInt h
    · exact representable_of_map_ofInt h
    · exact representable_of_map_ofInt h
    · exact representable_of_decimal? h
  · split_ifs at h
    · obtain rfl := Option.some.inj h
      exact representable_zero
    · exact representable_of_decimal? h

/-! ## Numbers that are written in full -/

/-- The least count of units that is written in full: the number nearest to 10^-6. -/
def leastInFull : Nat :=
  (ofDecimal false 1 (-6)).units

/-- The least count of units that is too large to be written in full: that of 10^21. -/
def leastBeyond : Nat :=
  (ofDecimal false 1 21).units

/-- The decimal of a number is worth less than the next number. -/
theorem worth_lt_add_gap {u : Nat} (hu : 0 < u) : (shortestDigits u).worth < u + gap u := by
  obtain ⟨-, hhigh, -⟩ := shortestDigits_spec hu
  rw [(roundingInterval_bounds hu).1, Nat.cast_add, Nat.cast_mul, Nat.cast_mul] at hhigh
  have hgap : (0 : ℚ) < gap u := by exact_mod_cast gap_pos u
  push_cast at hhigh
  linarith

/-- The decimals of the numbers below another number are worth less than that one. -/
theorem worth_lt {u v : Nat} (hu : 0 < u) (hr : Representable u) (hv : Representable v) (h : u < v) :
    (shortestDigits u).worth < v := by
  have hnext : (u : ℚ) + gap u ≤ v := by exact_mod_cast add_gap_le hr hv h
  exact (worth_lt_add_gap hu).trans_le hnext

/-- The point is no further to the right than a number written in full may have it, exactly below 10^21. -/
theorem point_le_iff {u : Nat} (hu : 0 < u) (hr : Representable u) :
    (shortestDigits u).point ≤ 21 ↔ u < leastBeyond := by
  have hexact : leastBeyond = powerOfTen 21 * unitsOfOne := by decide +kernel
  have hbeyond : (leastBeyond : ℚ) = 10 ^ (21 : Int) * unitsOfOne := by
    rw [hexact, Nat.cast_mul, powerOfTen_cast, zpow_ofNat]
  obtain ⟨hdigits, -, hpowers⟩ := shortestDigits_spec hu
  rw [← not_lt, DecimalDigits.lt_point_iff hdigits, ← hbeyond, not_le]
  constructor
  · intro hless
    by_contra hge
    have hpower : 10 ^ (21 : Int) * unitsOfOne ≤ (u : ℚ) := by
      rw [← hbeyond]
      exact Nat.cast_le.mpr (Nat.not_lt.mp hge)
    exact absurd (hpowers 21 hpower) (not_le.mpr (hbeyond ▸ hless))
  · exact worth_lt hu hr (representable_ofDecimal false 1 21)

/--
The point is no further to the left than a number written in full may have it, exactly from the number nearest to
10^-6 on. That number is a little less than 10^-6, and the next one more.
-/
theorem le_point_iff {u : Nat} (hu : 0 < u) (hr : Representable u) :
    -5 ≤ (shortestDigits u).point ↔ leastInFull ≤ u := by
  have hbelow : leastInFull * powerOfTen 6 < unitsOfOne := by decide +kernel
  have habove : unitsOfOne < (leastInFull + gap leastInFull) * powerOfTen 6 := by decide +kernel
  have hleast : Representable leastInFull := representable_ofDecimal false 1 (-6)
  have hmillion : (0 : ℚ) < 10 ^ 6 := by norm_num
  have hpower : (10 : ℚ) ^ (-6 : Int) * unitsOfOne * 10 ^ 6 = unitsOfOne := by
    have hinverse : (10 : ℚ) ^ (-6 : Int) * 10 ^ 6 = 1 := by norm_num
    rw [mul_right_comm, hinverse, one_mul]
  have hbelow' : (leastInFull : ℚ) < 10 ^ (-6 : Int) * unitsOfOne := by
    rw [← mul_lt_mul_iff_of_pos_right hmillion, hpower, ← powerOfTen_cast, ← Nat.cast_mul]
    exact Nat.cast_lt.mpr hbelow
  have habove' : (10 : ℚ) ^ (-6 : Int) * unitsOfOne < (leastInFull + gap leastInFull : Nat) := by
    rw [← mul_lt_mul_iff_of_pos_right hmillion, hpower, ← powerOfTen_cast, ← Nat.cast_mul]
    exact Nat.cast_lt.mpr habove
  obtain ⟨hdigits, -, hpowers⟩ := shortestDigits_spec hu
  constructor
  · intro hpoint
    by_contra hlt
    have hworth := worth_lt hu hr hleast (Nat.not_le.mp hlt)
    have hreach := (DecimalDigits.lt_point_iff hdigits (-6)).mp (by omega)
    linarith
  · intro hle
    rcases Nat.eq_or_lt_of_le hle with rfl | hlt
    · decide +kernel
    · have hnext : ((leastInFull + gap leastInFull : Nat) : ℚ) ≤ u := Nat.cast_le.mpr (add_gap_le hleast hr hlt)
      have hreach := hpowers (-6) (habove'.le.trans hnext)
      have hpoint := (DecimalDigits.lt_point_iff hdigits (-6)).mpr hreach
      omega

/-- Which numbers have their point where those have it that are written in full. -/
theorem point_within_iff {u : Nat} (hu : 0 < u) (hr : Representable u) :
    -5 ≤ (shortestDigits u).point ∧ (shortestDigits u).point ≤ 21 ↔ leastInFull ≤ u ∧ u < leastBeyond :=
  and_congr (le_point_iff hu hr) (point_le_iff hu hr)

end Number

end BalancedLinks
