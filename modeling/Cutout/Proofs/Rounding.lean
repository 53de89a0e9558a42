import Cutout.Location
import Mathlib.Algebra.Order.Ring.Nat
import Mathlib.Tactic.Ring
/-! Rounding to binary64. The number nearest to a quotient depends on nothing but the quotient, small
whole numbers are exact, and so close is the nearest number that degrees count the same units again. -/
namespace Cutout

namespace Binary64

theorem roundDivScaled {c : Nat} (pos : 0 < c) (n d : Nat) : roundDiv (c * n) (c * d) = roundDiv n d := by
  have less : c * d < 2 * (c * (n % d)) ↔ d < 2 * (n % d) := by
    rw [Nat.mul_left_comm]
    exact Nat.mul_lt_mul_left pos
  have same : 2 * (c * (n % d)) = c * d ↔ 2 * (n % d) = d := by
    rw [Nat.mul_left_comm]
    exact Nat.mul_right_inj (Nat.ne_of_gt pos)
  simp only [roundDiv, Nat.mul_div_mul_left _ _ pos, Nat.mul_mod_mul_left, less, beq_iff_eq, same,
    Bool.or_eq_true, Bool.and_eq_true, decide_eq_true_eq]

theorem roundDivExact {d : Nat} (pos : 0 < d) (n : Nat) : roundDiv (n * d) d = n := by
  simp [roundDiv, Nat.mul_div_cancel _ pos, Nat.ne_of_lt pos]

theorem roundDivNear {d : Nat} (pos : 0 < d) (n : Nat) :
    2 * (roundDiv n d * d) ≤ 2 * n + d ∧ 2 * n ≤ 2 * (roundDiv n d * d) + d := by
  have parts := Nat.div_add_mod n d
  have rest := Nat.mod_lt n pos
  rw [Nat.mul_comm] at parts
  unfold roundDiv
  dsimp only
  split
  · rename_i up
    have half : d ≤ 2 * (n % d) := by
      simp only [Bool.or_eq_true, Bool.and_eq_true, decide_eq_true_eq, beq_iff_eq] at up
      omega
    rw [Nat.add_mul, Nat.one_mul]
    omega
  · rename_i down
    have half : 2 * (n % d) ≤ d := by
      simp only [Bool.or_eq_true, Bool.and_eq_true, decide_eq_true_eq, beq_iff_eq] at down
      omega
    omega

theorem roundDivLe {n d k : Nat} (pos : 0 < d) (bound : n ≤ k * d) : roundDiv n d ≤ k := by
  obtain ⟨above, -⟩ := roundDivNear pos n
  have less : roundDiv n d * d < (k + 1) * d := by
    rw [Nat.add_mul]
    omega
  exact Nat.le_of_lt_succ (Nat.lt_of_mul_lt_mul_right less)

theorem roundDivGe {n d k : Nat} (pos : 0 < d) (bound : k * d ≤ n) : k ≤ roundDiv n d := by
  obtain ⟨-, below⟩ := roundDivNear pos n
  have less : k * d < (roundDiv n d + 1) * d := by
    rw [Nat.add_mul]
    omega
  exact Nat.le_of_lt_succ (Nat.lt_of_mul_lt_mul_right less)

theorem negFinite {x : Binary64} (finite : x.isFinite = true) : x.neg.isFinite = true := by
  cases x with
  | finite => rfl
  | nan => exact finite
  | infinite => exact finite

theorem nearestScaled {c : Nat} (pos : 0 < c) (negative : Bool) (n d : Nat) :
    nearest negative (c * n) (c * d) = nearest negative n d := by
  simp only [nearest, Nat.shiftLeft_eq, Nat.mul_assoc, Nat.mul_div_mul_left _ _ pos,
    roundDivScaled pos]

theorem nearestNeg (negative : Bool) (n d : Nat) :
    (nearest negative n d).neg = nearest (!negative) n d := by
  unfold nearest
  dsimp only
  split <;> rfl

theorem spacingLe {units k : Nat} (small : units < 2 ^ (53 + k)) : spacing units ≤ k := by
  unfold spacing
  by_cases none : units = 0
  · rw [none, Nat.log2_zero]
    omega
  · have places := (Nat.log2_lt none).mpr small
    omega

theorem belowRange {k n bits : Nat} (few : k < 1024) (small : n < 2 ^ k * 2 ^ bits) :
    n < 2 ^ (1024 + bits) := by
  rw [← Nat.pow_add] at small
  exact small.trans (Nat.pow_lt_pow_right (by omega) (by omega))

theorem nearestWhole {n : Nat} (small : n < 2 ^ 53) (negative : Bool) :
    nearest negative n 1 = finite negative (n * 2 ^ unitBits) := by
  unfold nearest
  generalize unitBits = bits
  simp only [Nat.shiftLeft_eq, Nat.div_one, Nat.one_mul]
  have unit : 0 < 2 ^ bits := Nat.two_pow_pos bits
  have bound : n * 2 ^ bits < 2 ^ 53 * 2 ^ bits := Nat.mul_lt_mul_of_pos_right small unit
  have high : n * 2 ^ bits < 2 ^ (1024 + bits) := belowRange (by omega) bound
  have low : spacing (n * 2 ^ bits) ≤ bits := by
    refine spacingLe ?_
    rw [Nat.pow_add]
    exact bound
  generalize spacing (n * 2 ^ bits) = step at low
  -- A whole number is a multiple of the spacing of the numbers around it.
  have multiple : n * 2 ^ bits = n * 2 ^ (bits - step) * 2 ^ step := by
    rw [Nat.mul_assoc, ← Nat.pow_add, Nat.sub_add_cancel low]
  have same : roundDiv (n * 2 ^ bits) (2 ^ step) * 2 ^ step = n * 2 ^ bits := by
    rw [multiple, roundDivExact (Nat.two_pow_pos step)]
  rw [same, if_pos high]

theorem divSmall {n d : Nat} (small : n < 2 ^ 53) (also : d < 2 ^ 53) (pos : 0 < d) :
    (ofNat n).div (ofNat d) = nearest false n d := by
  have unit : 0 < 2 ^ unitBits := Nat.two_pow_pos unitBits
  rw [ofNat, ofNat, nearestWhole small, nearestWhole also]
  simp only [div, Nat.ne_of_gt (Nat.mul_pos pos unit), if_false, bne_self_eq_false]
  rw [Nat.mul_comm n, Nat.mul_comm d, nearestScaled unit]

theorem nearestClose {k n d : Nat} (few : k < 1023) (pos : 0 < d) (normal : 2 ^ 52 * d ≤ n * 2 ^ unitBits)
    (small : n < 2 ^ k * d) (negative : Bool) : ∃ units, nearest negative n d = finite negative units ∧
      2 ^ 53 * (units * d) ≤ (2 ^ 53 + 1) * (n * 2 ^ unitBits) ∧
      (2 ^ 53 - 1) * (n * 2 ^ unitBits) ≤ 2 ^ 53 * (units * d) := by
  unfold nearest
  generalize unitBits = bits at normal ⊢
  simp only [Nat.shiftLeft_eq, Nat.one_mul]
  have quotient : 2 ^ 52 ≤ n * 2 ^ bits / d := (Nat.le_div_iff_mul_le pos).mpr normal
  have unit : 0 < 2 ^ bits := Nat.two_pow_pos bits
  have bound : n * 2 ^ bits < 2 ^ k * d * 2 ^ bits := Nat.mul_lt_mul_of_pos_right small unit
  generalize n * 2 ^ bits = scaled at quotient bound
  -- The spacing is small against the number.
  have narrow : 2 ^ 52 * (d * 2 ^ spacing (scaled / d)) ≤ scaled := by
    have some_units : scaled / d ≠ 0 := by omega
    have places : 52 ≤ (scaled / d).log2 := (Nat.le_log2 some_units).mpr quotient
    have power : 2 ^ 52 * 2 ^ spacing (scaled / d) ≤ scaled / d := by
      rw [← Nat.pow_add, spacing, Nat.add_sub_cancel' places]
      exact Nat.log2_self_le some_units
    calc 2 ^ 52 * (d * 2 ^ spacing (scaled / d))
        = d * (2 ^ 52 * 2 ^ spacing (scaled / d)) := Nat.mul_left_comm ..
      _ ≤ d * (scaled / d) := Nat.mul_le_mul_left d power
      _ ≤ scaled := Nat.mul_div_le scaled d
  generalize spacing (scaled / d) = step at narrow
  obtain ⟨above, below⟩ := roundDivNear (Nat.mul_pos pos (Nat.two_pow_pos step)) scaled
  have product : roundDiv scaled (d * 2 ^ step) * (d * 2 ^ step) =
      roundDiv scaled (d * 2 ^ step) * 2 ^ step * d := by
    rw [Nat.mul_assoc, Nat.mul_comm d]
  rw [product] at above below
  generalize roundDiv scaled (d * 2 ^ step) * 2 ^ step = units at above below
  have high : units < 2 ^ (1024 + bits) := by
    have doubled : units * d < 2 ^ (k + 1) * 2 ^ bits * d := by
      calc units * d ≤ 2 * scaled := by omega
        _ < 2 * (2 ^ k * d * 2 ^ bits) := Nat.mul_lt_mul_of_pos_left bound (by decide)
        _ = 2 ^ (k + 1) * 2 ^ bits * d := by ring
    exact belowRange (by omega) (Nat.lt_of_mul_lt_mul_right doubled)
  exact ⟨units, if_pos high, by omega, by omega⟩

theorem nearestMultiple {n d k units : Nat} {negative : Bool} (pos : 0 < d)
    (large : 2 ^ (52 + k) * d ≤ n * 2 ^ unitBits)
    (found : nearest negative n d = finite negative units) : 2 ^ k ∣ units := by
  unfold nearest at found
  generalize unitBits = bits at large found
  simp only [Nat.shiftLeft_eq] at found
  have quotient : 2 ^ (52 + k) ≤ n * 2 ^ bits / d := (Nat.le_div_iff_mul_le pos).mpr large
  have some_units : n * 2 ^ bits / d ≠ 0 :=
    Nat.ne_of_gt (Nat.lt_of_lt_of_le (Nat.two_pow_pos _) quotient)
  have wide : k ≤ spacing (n * 2 ^ bits / d) := by
    have places := (Nat.le_log2 some_units).mpr quotient
    unfold spacing
    omega
  split at found
  · obtain ⟨_, rfl⟩ := finite.inj found
    exact Nat.dvd_mul_left_of_dvd (Nat.pow_dvd_pow 2 wide) _
  · cases found

theorem nearestFrom {k n d units : Nat} {negative minus : Bool} (pos : 0 < d)
    (bound : 2 ^ k * d ≤ n * 2 ^ unitBits) (found : nearest negative n d = finite minus units) :
    2 ^ k ≤ units := by
  unfold nearest at found
  generalize unitBits = bits at bound found
  simp only [Nat.shiftLeft_eq] at found
  have quotient : 2 ^ k ≤ n * 2 ^ bits / d := (Nat.le_div_iff_mul_le pos).mpr bound
  have some_units : n * 2 ^ bits / d ≠ 0 :=
    Nat.ne_of_gt (Nat.lt_of_lt_of_le (Nat.two_pow_pos _) quotient)
  let places := (n * 2 ^ bits / d).log2
  have size : 2 ^ places * d ≤ n * 2 ^ bits :=
    (Nat.le_div_iff_mul_le pos).mp (Nat.log2_self_le some_units)
  have parts : 2 ^ (places - spacing (n * 2 ^ bits / d)) * 2 ^ spacing (n * 2 ^ bits / d) =
      2 ^ places := by
    have fewer : spacing (n * 2 ^ bits / d) ≤ places := Nat.sub_le ..
    rw [← Nat.pow_add, Nat.sub_add_cancel fewer]
  generalize spacing (n * 2 ^ bits / d) = step at parts found
  split at found
  · obtain ⟨-, rfl⟩ := finite.inj found
    calc 2 ^ k ≤ 2 ^ places := Nat.pow_le_pow_right (by decide) ((Nat.le_log2 some_units).mpr quotient)
      _ = 2 ^ (places - step) * 2 ^ step := parts.symm
      _ ≤ roundDiv (n * 2 ^ bits) (d * 2 ^ step) * 2 ^ step := by
        refine Nat.mul_le_mul_right _ (roundDivGe (Nat.mul_pos pos (Nat.two_pow_pos step)) ?_)
        rw [Nat.mul_left_comm, parts, Nat.mul_comm]
        exact size
  · cases found

theorem mulWhole {d : Nat} (small : d < 2 ^ 53) (negative : Bool) (units : Nat) :
    (finite negative units).mul (ofNat d) = nearest negative (units * d) (2 ^ unitBits) := by
  have square : 1 <<< (2 * unitBits) = 2 ^ unitBits * 2 ^ unitBits := by
    rw [Nat.one_shiftLeft, Nat.two_mul, Nat.pow_add]
  have product : units * (d * 2 ^ unitBits) = 2 ^ unitBits * (units * d) := by
    rw [← Nat.mul_assoc, Nat.mul_comm]
  rw [ofNat, nearestWhole small, mul, square, product, nearestScaled (Nat.two_pow_pos unitBits),
    Bool.bne_false]

theorem roundWhole {units k : Nat} (above : 2 * units < 2 * (k * 2 ^ unitBits) + 2 ^ unitBits)
    (below : 2 * (k * 2 ^ unitBits) ≤ 2 * units + 2 ^ unitBits) (negative : Bool) :
    (finite negative units).round? = some (if negative then -(k : Int) else k) := by
  have double : 2 ^ (unitBits + 1) = 2 * 2 ^ unitBits := by rw [Nat.pow_succ, Nat.mul_comm]
  have quotient : (2 * units + 2 ^ unitBits) / 2 ^ (unitBits + 1) = k := by
    refine Nat.div_eq_of_lt_le ?_ ?_
    · rw [double, Nat.mul_left_comm]
      exact below
    · rw [double, Nat.mul_left_comm, Nat.add_mul, Nat.one_mul]
      omega
  rw [round?, Nat.one_shiftLeft, Nat.shiftRight_eq_div_pow]
  simp only [quotient]

end Binary64

namespace Location
open Binary64

theorem clampSame (units : Int32) : clamp units.toInt = units := by
  have low := units.minValue_le_toInt
  have high := units.toInt_le
  rw [clamp, if_neg (by omega), if_neg (by omega), Int32.ofInt_toInt]

theorem unitsFew (units : Int32) : units.toInt.natAbs ≤ 2 ^ 31 := by
  have low := units.minValue_le_toInt
  have high := units.toInt_le
  have lowest : Int32.minValue.toInt = -2 ^ 31 := rfl
  have highest : Int32.maxValue.toInt = 2 ^ 31 - 1 := rfl
  omega

theorem unitsSome {units : Int32} (apart : units ≠ 0) : 0 < units.toInt.natAbs :=
  Int.natAbs_pos.mpr fun zero => apart (Int32.toInt_inj.mp zero)

theorem degreesClose {k : Nat} (some_unit : 0 < k) (few : k ≤ 2 ^ 31) (negative : Bool) : ∃ units,
    nearest negative k unitsPerDegree = finite negative units ∧
      2 ^ 53 * (units * unitsPerDegree) ≤ (2 ^ 53 + 1) * (k * 2 ^ unitBits) ∧
      (2 ^ 53 - 1) * (k * 2 ^ unitBits) ≤ 2 ^ 53 * (units * unitsPerDegree) := by
  have per : unitsPerDegree = 10000000 := rfl
  have tiny : 2 ^ 77 ≤ 2 ^ unitBits := Nat.pow_le_pow_right (by omega) (by decide)
  have low : 2 ^ unitBits ≤ k * 2 ^ unitBits := Nat.le_mul_of_pos_left _ some_unit
  have normal : 2 ^ 52 * unitsPerDegree ≤ k * 2 ^ unitBits := by
    generalize 2 ^ unitBits = one at *
    omega
  exact nearestClose (k := 64) (by decide) (by omega) normal (by omega) negative

theorem unitsClose {k : Nat} (some_unit : 0 < k) (few : k ≤ 2 ^ 31) (negative : Bool) : ∃ units,
    (nearest negative k unitsPerDegree).mul (ofNat unitsPerDegree) = finite negative units ∧
      2 * units < 2 * (k * 2 ^ unitBits) + 2 ^ unitBits ∧
      2 * (k * 2 ^ unitBits) ≤ 2 * units + 2 ^ unitBits := by
  have per : unitsPerDegree = 10000000 := rfl
  have tiny : 2 ^ 77 ≤ 2 ^ unitBits := Nat.pow_le_pow_right (by omega) (by decide)
  have low : 2 ^ unitBits ≤ k * 2 ^ unitBits := Nat.le_mul_of_pos_left _ some_unit
  have high : k * 2 ^ unitBits ≤ 2 ^ 31 * 2 ^ unitBits := Nat.mul_le_mul_right _ few
  obtain ⟨degrees, is_degrees, above, below⟩ := degreesClose some_unit few negative
  rw [is_degrees, mulWhole (by omega)]
  generalize degrees * unitsPerDegree = product at above below ⊢
  have normal : 2 ^ 52 * 2 ^ unitBits ≤ product * 2 ^ unitBits := by
    refine Nat.mul_le_mul_right _ ?_
    generalize 2 ^ unitBits = one at *
    omega
  have small : product < 2 ^ 64 * 2 ^ unitBits := by
    generalize 2 ^ unitBits = one at *
    omega
  have one : 0 < 2 ^ unitBits := Nat.two_pow_pos unitBits
  obtain ⟨units, is_units, higher, lower⟩ := nearestClose (by decide) one normal small negative
  rw [← Nat.mul_assoc, ← Nat.mul_assoc] at higher lower
  have higher := Nat.le_of_mul_le_mul_right higher one
  have lower := Nat.le_of_mul_le_mul_right lower one
  refine ⟨units, is_units, ?_, ?_⟩
  all_goals
    generalize 2 ^ unitBits = one at *
    omega

theorem fixedDegrees (units : Int32) : fixed (degrees units) = units := by
  by_cases none : units = 0
  · rw [none]
    decide +kernel
  · obtain ⟨found, is_found, above, below⟩ :=
      unitsClose (unitsSome none) (unitsFew units) (units.toInt < 0)
    have counted := roundWhole above below (units.toInt < 0)
    have signed : (if units.toInt < 0 then -(units.toInt.natAbs : Int) else units.toInt.natAbs) =
        units.toInt := by
      omega
    rw [fixed, degrees, ofRatio, is_found]
    simp only [counted, decide_eq_true_eq, signed, Option.getD_some, clampSame]

end Location
end Cutout
