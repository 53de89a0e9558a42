import Cutout.Proofs.Rounding
import Cutout.Turn
import Mathlib.Algebra.Order.Ring.Int
import Mathlib.Tactic.Ring
/-! The order of finite numbers, and turns by the values of coordinates. Where all coordinates are of
moderate size a turn is that of their values, whatever they are; those of locations are. -/
namespace Cutout

namespace Binary64

def value (x : Binary64) : Int := x.units?.getD 0

theorem compareFinite {a b : Binary64} (first : a.isFinite = true) (second : b.isFinite = true) :
    compare? a b = some (compare a.value b.value) := by
  cases a with
  | finite _ _ =>
    cases b with
    | finite _ _ => rfl
    | nan => exact absurd second Bool.false_ne_true
    | infinite _ => exact absurd second Bool.false_ne_true
  | nan => exact absurd first Bool.false_ne_true
  | infinite _ => exact absurd first Bool.false_ne_true

section Finite
variable {a b : Binary64} (first : a.isFinite = true) (second : b.isFinite = true)
include first second

theorem ltFinite : a.lt b = true ↔ a.value < b.value := by
  rw [lt, compareFinite first second, beq_iff_eq, Option.some_inj, compare_lt_iff_lt]

theorem sameFinite : a.same b = true ↔ a.value = b.value := by
  rw [same, compareFinite first second, beq_iff_eq, Option.some_inj, compare_eq_iff_eq]

theorem leFinite : a.le b = true ↔ a.value ≤ b.value := by
  rw [le, compareFinite first second, ← compare_le_iff_le]
  cases compare a.value b.value <;> simp

end Finite
end Binary64

def Point.isFinite (p : Point) : Bool := p.x.isFinite && p.y.isFinite

theorem Point.finiteIff {p : Point} :
    p.isFinite = true ↔ p.x.isFinite = true ∧ p.y.isFinite = true := Bool.and_eq_true_iff

namespace Turn
open Binary64

theorem determinantUp {x1 y1 x2 y2 x y : Int} (first : x < x1) (second : x < x2) (low : y1 ≤ y)
    (high : y < y2) : 0 < determinant x1 y1 x2 y2 x y := by
  have climbs : 0 < (x1 - x) * (y2 - y) := Int.mul_pos (by omega) (by omega)
  have drops : (y1 - y) * (x2 - x) ≤ 0 :=
    Int.mul_nonpos_of_nonpos_of_nonneg (by omega) (by omega)
  rw [determinant]
  omega

theorem determinantDown {x1 y1 x2 y2 x y : Int} (first : x < x1) (second : x < x2) (high : y < y1)
    (low : y2 ≤ y) : determinant x1 y1 x2 y2 x y < 0 := by
  have drops : (x1 - x) * (y2 - y) ≤ 0 :=
    Int.mul_nonpos_of_nonneg_of_nonpos (by omega) (by omega)
  have climbs : 0 < (y1 - y) * (x2 - x) := Int.mul_pos (by omega) (by omega)
  rw [determinant]
  omega

theorem determinantMirrored (x1 y1 x2 y2 x y : Int) :
    determinant (-x1) y1 (-x2) y2 (-x) y = -determinant x1 y1 x2 y2 x y := by
  simp only [determinant]
  ring

theorem determinantScaled (c x1 y1 x2 y2 x y : Int) :
    determinant (x1 * c) (y1 * c) (x2 * c) (y2 * c) (x * c) (y * c) =
      c * c * determinant x1 y1 x2 y2 x y := by
  simp only [determinant]
  ring

theorem ofIntLeft {d : Int} (pos : 0 < d) : ofInt d = .left := if_pos pos

theorem ofIntRight {d : Int} (neg : d < 0) : ofInt d = .right := by
  rw [ofInt, if_neg (by omega), if_pos neg]

theorem ofIntScaled {c : Int} (pos : 0 < c) (d : Int) : ofInt (c * d) = ofInt d := by
  rcases lt_trichotomy d 0 with neg | zero | positive
  · rw [ofIntRight neg, ofIntRight (Int.mul_neg_of_pos_of_neg pos neg)]
  · rw [zero, Int.mul_zero]
  · rw [ofIntLeft positive, ofIntLeft (Int.mul_pos pos positive)]

def exact (a b p : Point) : Turn :=
  ofInt (determinant a.x.value a.y.value b.x.value b.y.value p.x.value p.y.value)

theorem stepsValue {x : Binary64} {n : Int} (steps : steps? x = some n) :
    x.isFinite = true ∧ x.value = n * (1 <<< (unitBits - stepBits) : Nat) := by
  cases units : x.units? with
  | none =>
    rw [steps?, units] at steps
    cases steps
  | some u =>
    rw [steps?, units] at steps
    refine ⟨by rw [isFinite, units]; rfl, ?_⟩
    simp only [Option.bind_eq_bind, Option.bind_some] at steps
    split at steps
    · rename_i whole
      obtain rfl := Option.some.inj steps
      rw [value, units]
      exact (Int.ediv_mul_cancel (Int.dvd_of_emod_eq_zero whole.1)).symm
    · cases steps

theorem stepsSome {negative : Bool} {units : Nat} (whole : 2 ^ (unitBits - stepBits) ∣ units)
    (small : units < 2 ^ (unitBits + stepBits)) :
    (steps? (finite negative units)).isSome = true := by
  rw [← Nat.one_shiftLeft] at whole small
  have signed : ((1 <<< (unitBits - stepBits) : Nat) : Int) ∣
      (if negative then -(units : Int) else units) := by
    split
    · exact Int.dvd_neg.mpr (Int.natCast_dvd_natCast.mpr whole)
    · exact Int.natCast_dvd_natCast.mpr whole
  have size : (if negative then -(units : Int) else units).natAbs = units := by
    split <;> omega
  simp only [steps?, units?, Option.bind_eq_bind, Option.bind_some]
  rw [if_pos ⟨Int.emod_eq_zero_of_dvd signed, size.symm ▸ small⟩]
  rfl

end Turn

open Turn in
def Point.isModerate (p : Point) : Bool := (steps? p.x).isSome && (steps? p.y).isSome

theorem Turn.ofModerate {a b p : Point} (first : a.isModerate = true) (second : b.isModerate = true)
    (third : p.isModerate = true) : Turn.of a b p = exact a b p := by
  simp only [Point.isModerate, Bool.and_eq_true, Option.isSome_iff_exists] at first second third
  obtain ⟨⟨x1, isX1⟩, y1, isY1⟩ := first
  obtain ⟨⟨x2, isX2⟩, y2, isY2⟩ := second
  obtain ⟨⟨x, isX⟩, y, isY⟩ := third
  have step : (0 : Int) < (1 <<< (Binary64.unitBits - stepBits) : Nat) := by
    rw [Nat.one_shiftLeft]
    exact Int.natCast_pos.mpr (Nat.two_pow_pos _)
  rw [exact, (stepsValue isX1).2, (stepsValue isY1).2, (stepsValue isX2).2, (stepsValue isY2).2,
    (stepsValue isX).2, (stepsValue isY).2, determinantScaled, ofIntScaled (Int.mul_pos step step)]
  simp only [Turn.of, isX1, isY1, isX2, isY2, isX, isY]

namespace Location
open Binary64

theorem unitLarge {n d k bits : Nat} (some_units : 0 < n) (few : d ≤ 2 ^ 24)
    (room : 52 + k + 24 ≤ bits) : 2 ^ (52 + k) * d ≤ n * 2 ^ bits := by
  calc 2 ^ (52 + k) * d
      ≤ 2 ^ (52 + k) * 2 ^ 24 := Nat.mul_le_mul_left _ few
    _ = 2 ^ (52 + k + 24) := (Nat.pow_add ..).symm
    _ ≤ 2 ^ bits := Nat.pow_le_pow_right (by decide) room
    _ ≤ n * 2 ^ bits := Nat.le_mul_of_pos_left _ some_units

theorem degreesModerate (units : Int32) : (Turn.steps? (degrees units)).isSome = true := by
  by_cases none : units = 0
  · rw [none]
    decide +kernel
  · have per : unitsPerDegree = 10000000 := rfl
    have some_unit := unitsSome none
    have few := unitsFew units
    have normal : 2 ^ 52 * unitsPerDegree ≤ units.toInt.natAbs * 2 ^ unitBits :=
      unitLarge (k := 0) some_unit (by decide) (by decide)
    have large : 2 ^ (52 + (unitBits - Turn.stepBits)) * unitsPerDegree ≤
        units.toInt.natAbs * 2 ^ unitBits := unitLarge some_unit (by decide) (by decide)
    obtain ⟨found, is_found, above, _⟩ := nearestClose (k := 64) (by decide) (by omega) normal (by omega)
      (units.toInt < 0)
    rw [degrees, ofRatio, is_found]
    refine Turn.stepsSome (nearestMultiple (by omega) large is_found) ?_
    have wide : 2 ^ 32 * 2 ^ unitBits < 2 ^ (unitBits + Turn.stepBits) := by
      rw [← Nat.pow_add]
      exact Nat.pow_lt_pow_right (by decide) (by decide)
    have high : units.toInt.natAbs * 2 ^ unitBits ≤ 2 ^ 31 * 2 ^ unitBits :=
      Nat.mul_le_mul_right _ few
    rw [per] at above
    generalize 2 ^ unitBits = one at *
    omega

theorem locationModerate (l : Location) : (Point.ofLocation l).isModerate = true := by
  rw [Point.isModerate, Bool.and_eq_true]
  exact ⟨degreesModerate l.lon, degreesModerate l.lat⟩

end Location

theorem Point.finiteOfModerate {p : Point} (moderate : p.isModerate = true) :
    p.isFinite = true := by
  simp only [isModerate, Bool.and_eq_true, Option.isSome_iff_exists] at moderate
  obtain ⟨⟨_, isX⟩, _, isY⟩ := moderate
  exact finiteIff.mpr ⟨(Turn.stepsValue isX).1, (Turn.stepsValue isY).1⟩

theorem Location.locationFinite (l : Location) : (Point.ofLocation l).isFinite = true :=
  Point.finiteOfModerate l.locationModerate

end Cutout
