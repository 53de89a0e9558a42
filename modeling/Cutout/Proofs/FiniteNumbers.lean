import Cutout.Proofs.JsonNumbers
import Cutout.Proofs.Rounding
import Mathlib.Data.Nat.Log
/-! Numbers of JSON texts are finite. A quotient of limited size is rounded to a number of this size, and
the reader scales whole numbers of 64 bits, refuses products that are too large, and computes no others. -/
namespace Cutout

namespace Binary64

def Within (k : Nat) (x : Binary64) : Prop :=
  ∃ negative, ∃ units ≤ 2 ^ (k + unitBits), x = finite negative units

theorem Within.finite {k : Nat} {x : Binary64} (within : x.Within k) : x.isFinite = true := by
  obtain ⟨negative, units, -, rfl⟩ := within
  rfl

theorem Within.neg {k : Nat} {x : Binary64} (within : x.Within k) : x.neg.Within k := by
  obtain ⟨negative, units, bound, rfl⟩ := within
  exact ⟨!negative, units, bound, rfl⟩

theorem nearestUpTo {most n d : Nat} (grid : 2 ^ spacing most ∣ most) (room : most < 2 ^ (1024 + unitBits))
    (pos : 0 < d) (bound : n * 2 ^ unitBits ≤ most * d) (negative : Bool) :
    ∃ units ≤ most, nearest negative n d = finite negative units := by
  unfold nearest
  generalize unitBits = bits at room bound ⊢
  simp only [Nat.shiftLeft_eq, Nat.one_mul]
  have quotient : n * 2 ^ bits / d ≤ most := Nat.div_le_of_le_mul (Nat.mul_comm d most ▸ bound)
  have narrow : 2 ^ spacing (n * 2 ^ bits / d) ∣ 2 ^ spacing most := by
    refine Nat.pow_dvd_pow 2 (Nat.sub_le_sub_right ?_ 52)
    rw [Nat.log2_eq_log_two, Nat.log2_eq_log_two]
    exact Nat.log_mono_right quotient
  generalize spacing (n * 2 ^ bits / d) = step at narrow
  -- So the bound is a whole number of the steps in which the quotient is rounded.
  obtain ⟨count, parts⟩ := narrow.trans grid
  have rounded : roundDiv (n * 2 ^ bits) (d * 2 ^ step) * 2 ^ step ≤ most := by
    rw [parts, Nat.mul_comm (2 ^ step)]
    refine Nat.mul_le_mul_right _ (roundDivLe (Nat.mul_pos pos (Nat.two_pow_pos step)) ?_)
    rw [Nat.mul_left_comm, Nat.mul_comm count, ← parts, Nat.mul_comm d]
    exact bound
  rw [if_pos (rounded.trans_lt room)]
  exact ⟨_, rounded, rfl⟩

theorem nearestWithin {k n d : Nat} (few : k < 1024) (pos : 0 < d) (bound : n ≤ 2 ^ k * d)
    (negative : Bool) : (nearest negative n d).Within k := by
  have grid : 2 ^ spacing (2 ^ (k + unitBits)) ∣ 2 ^ (k + unitBits) := by
    rw [spacing, Nat.log2_two_pow]
    exact Nat.pow_dvd_pow 2 (Nat.sub_le ..)
  have scaled : n * 2 ^ unitBits ≤ 2 ^ (k + unitBits) * d := by
    rw [Nat.pow_add, Nat.mul_right_comm]
    exact Nat.mul_le_mul_right _ bound
  obtain ⟨units, most, found⟩ :=
    nearestUpTo grid (Nat.pow_lt_pow_right (by decide) (by omega)) pos scaled negative
  exact ⟨negative, units, most, found⟩

theorem ofNatWithin {k n : Nat} (few : k < 1024) (bound : n ≤ 2 ^ k) : (ofNat n).Within k :=
  nearestWithin few Nat.one_pos (by rwa [Nat.mul_one]) false

theorem ofIntWithin {k : Nat} {n : Int} (few : k < 1024) (bound : n.natAbs ≤ 2 ^ k) :
    (ofInt n).Within k :=
  nearestWithin few Nat.one_pos (by rwa [Nat.mul_one]) (n < 0)

theorem powersWhole {k : Nat} (few : k ≤ 308) : ∃ units, ofNat (Nat.pow 10 k) = finite false units ∧
    2 ^ unitBits ≤ units := by
  let largest : Nat := (2 ^ 53 - 1) * 2 ^ (971 + unitBits)
  have grid : 2 ^ spacing largest ∣ largest := by decide +kernel
  have room : largest < 2 ^ (1024 + unitBits) := by decide +kernel
  have bound : ∀ k < 309, Nat.pow 10 k * 2 ^ unitBits ≤ largest * 1 := by decide +kernel
  obtain ⟨units, -, found⟩ := nearestUpTo grid room Nat.one_pos (bound k (by omega)) false
  refine ⟨units, found, nearestFrom Nat.one_pos ?_ found⟩
  rw [Nat.mul_one]
  exact Nat.le_mul_of_pos_left _ (Nat.pow_pos (by decide))

theorem divPower {k : Nat} (few : k ≤ 308) {x : Binary64} (within : x.Within 64) :
    (x.div (ofNat (Nat.pow 10 k))).Within 64 := by
  obtain ⟨negative, count, bound, rfl⟩ := within
  obtain ⟨units, power, whole⟩ := powersWhole few
  have pos : 0 < units := (Nat.two_pow_pos unitBits).trans_le whole
  rw [power, div, if_neg pos.ne']
  refine nearestWithin (by decide) pos (bound.trans ?_) _
  rw [Nat.pow_add]
  exact Nat.mul_le_mul_left _ whole

end Binary64

namespace Json
open Binary64

theorem scaledFinite {n : Nat} {x y : Binary64} {exponent : Int} (within : x.Within 64)
    (found : scaled n x exponent = some y) : y.isFinite = true := by
  induction n generalizing x exponent with
  | zero => cases found
  | succ n ih =>
    unfold scaled at found
    dsimp only at found
    split at found
    · rename_i few
      split at found
      · split at found
        · rename_i finite
          rwa [← Option.some.inj found]
        · cases found
      · rw [← Option.some.inj found]
        exact (divPower few within).finite
    · split at found
      · rw [← Option.some.inj found]
        exact within.finite
      · split at found
        · cases found
        -- The exponent is made a variable, for the power is not to be computed.
        · generalize largest : (308 : Nat) = k at found
          exact ih (divPower (Nat.le_of_eq largest.symm) within) found

theorem gatherBound {mantissa : Nat} (bound : mantissa ≤ maxMantissa) (taken : Nat) (cs : List Char) :
    (gather mantissa taken cs).1 ≤ maxMantissa := by
  induction cs generalizing mantissa taken with
  | nil => exact bound
  | cons c rest ih =>
    unfold gather
    dsimp only
    split
    · rename_i fits
      exact ih fits (taken + 1)
    · exact bound

inductive Finite : Json → Prop
  | null : Finite .null
  | bool (b : Bool) : Finite (.bool b)
  | integer {n : Int} (finite : (ofInt n).isFinite = true) : Finite (.integer n)
  | real {x : Binary64} (finite : x.isFinite = true) : Finite (.real x)
  | string (s : String) : Finite (.string s)
  | array {items : List Json} (each : ∀ j ∈ items, Finite j) : Finite (.array items)
  | object {fields : List (String × Json)} (each : ∀ f ∈ fields, Finite f.2) : Finite (.object fields)

theorem partsFinite {negative : Bool} {whole fraction : List Char} {hasFraction : Bool}
    {exponent : Option (Bool × List Char)} {j : Json}
    (found : ofParts negative whole fraction hasFraction exponent = some j) : j.Finite := by
  have most : maxMantissa ≤ 2 ^ 64 := by decide
  have signed {x : Binary64} (finite : x.isFinite = true) :
      (if negative then x.neg else x).isFinite = true := by
    split
    · exact negFinite finite
    · exact finite
  have whole_bound := gatherBound (Nat.zero_le maxMantissa) 0 whole
  unfold ofParts at found
  generalize gather 0 0 whole = gathered at whole_bound found
  obtain ⟨mantissa, taken, left⟩ := gathered
  have few : mantissa ≤ 2 ^ 64 := whole_bound.trans most
  have all_bound := gatherBound whole_bound 0 fraction
  dsimp only at found all_bound
  generalize gather mantissa 0 fraction = gathered at all_bound found
  obtain ⟨all, taken, rest⟩ := gathered
  have within : (ofNat all).Within 64 := ofNatWithin (by decide) (all_bound.trans most)
  have scaled {power : Int} (found : (scaled 8 (ofNat all) power).map
      (fun x => Json.real (if negative then x.neg else x)) = some j) : j.Finite := by
    obtain ⟨x, product, rfl⟩ := Option.map_eq_some_iff.mp found
    exact .real (signed (scaledFinite within product))
  have shifted {power : Int} (found : (if all ≠ 0 ∧ power < -2000 then
      some (Json.real (if negative then Binary64.zero.neg else .zero))
      else (Json.scaled 8 (ofNat all) power).map
        (fun x => Json.real (if negative then x.neg else x))) = some j) : j.Finite := by
    split at found
    · rw [← Option.some.inj found]
      exact .real (signed rfl)
    · exact scaled found
  split at found
  · split at found
    · rw [← Option.some.inj found]
      exact .integer (ofIntWithin (by decide) few).finite
    · split at found
      · rw [← Option.some.inj found]
        exact .real (ofNatWithin (by decide) few).neg.finite
      · rw [← Option.some.inj found]
        rw [← Int.natAbs_natCast mantissa, ← Int.natAbs_neg] at few
        exact .integer (ofIntWithin (by decide) few).finite
  · cases exponent with
    | none => exact scaled found
    | some size =>
      dsimp only at found
      split at found
      · split at found
        · cases found
        · rw [← Option.some.inj found]
          exact .real (signed rfl)
      · exact shifted found

theorem powerFinite {negative hasFraction : Bool} {whole fraction cs rest : List Char} {j : Json}
    (found : readPower negative whole fraction hasFraction cs = some (j, rest)) : j.Finite := by
  unfold readPower at found
  simp only [Option.bind_eq_bind, Option.pure_def] at found
  split at found
  · split at found
    · simp only [Option.bind_eq_some_iff] at found
      obtain ⟨size, -, n, parts, same⟩ := found
      cases same
      exact partsFinite parts
    · obtain ⟨n, parts, same⟩ := Option.bind_eq_some_iff.mp found
      cases same
      exact partsFinite parts
  · obtain ⟨n, parts, same⟩ := Option.bind_eq_some_iff.mp found
    cases same
    exact partsFinite parts

theorem numberFinite {negative : Bool} {cs rest : List Char} {j : Json}
    (found : readNumber negative cs = some (j, rest)) : j.Finite := by
  rw [readNumberIs] at found
  dsimp only at found
  split at found
  · cases found
  · split at found
    · cases found
    · exact powerFinite found

theorem putEach {p : Json → Prop} {value : Json} {fields : List (String × Json)}
    (each : ∀ f ∈ fields, p f.2) (also : p value) (key : String) : ∀ f ∈ Keyed.put key value fields, p f.2 := by
  induction fields with
  | nil =>
    rw [Keyed.put]
    exact List.forall_mem_singleton.mpr also
  | cons f rest ih =>
    obtain ⟨first, others⟩ := List.forall_mem_cons.mp each
    rw [Keyed.put]
    split
    · exact List.forall_mem_cons.mpr ⟨also, others⟩
    · exact List.forall_mem_cons.mpr ⟨first, ih others⟩

theorem keywordFinite {word cs rest : List Char} {value j : Json} (finite : value.Finite)
    (found : keyword word value cs = some (j, rest)) : j.Finite := by
  unfold keyword at found
  split at found
  · cases found
    exact finite
  · cases found

mutual

theorem valueFinite {fuel depth : Nat} {cs rest : List Char} {j : Json}
    (found : readValue fuel depth cs = some (j, rest)) : j.Finite := by
  unfold readValue at found
  split at found
  · cases found
  · rename_i fuel
    split at found
    · cases found
    · rename_i c _ _
      split at found
      · exact keywordFinite .null found
      split at found
      · exact keywordFinite (.bool true) found
      split at found
      · exact keywordFinite (.bool false) found
      split at found
      · obtain ⟨text, -, same⟩ := Option.map_eq_some_iff.mp found
        cases same
        exact .string _
      split at found
      · exact numberFinite found
      split at found
      · exact numberFinite found
      split at found
      · split at found
        · cases found
        · split at found
          · cases found
            exact .array fun j mem => absurd mem List.not_mem_nil
          · obtain ⟨read, items, same⟩ := Option.map_eq_some_iff.mp found
            cases same
            exact .array (itemsFinite (fun j mem => absurd mem List.not_mem_nil) items)
      split at found
      · split at found
        · cases found
        · split at found
          · cases found
            exact .object fun f mem => absurd mem List.not_mem_nil
          · obtain ⟨read, fields, same⟩ := Option.map_eq_some_iff.mp found
            cases same
            exact .object (fieldsFinite (fun j mem => absurd mem List.not_mem_nil) fields)
      · cases found

theorem itemsFinite {fuel depth : Nat} {done items : List Json} {cs rest : List Char}
    (each : ∀ j ∈ done, j.Finite) (found : readItems fuel depth done cs = some (items, rest)) :
    ∀ j ∈ items, j.Finite := by
  unfold readItems at found
  split at found
  · cases found
  · split at found
    · cases found
    · rename_i value
      have more := List.forall_mem_cons.mpr ⟨valueFinite value, each⟩
      split at found
      · exact itemsFinite more found
      · cases found
        exact fun j mem => more j (List.mem_reverse.mp mem)
      · cases found

theorem fieldsFinite {fuel depth : Nat} {done fields : List (String × Json)} {cs rest : List Char}
    (each : ∀ f ∈ done, f.2.Finite) (found : readFields fuel depth done cs = some (fields, rest)) :
    ∀ f ∈ fields, f.2.Finite := by
  unfold readFields at found
  split at found
  · cases found
  · split at found
    · split at found
      · cases found
      · split at found
        · split at found
          · cases found
          · rename_i value
            have more := putEach each (valueFinite value)
            split at found
            · exact fieldsFinite (more _) found
            · cases found
              exact more _
            · cases found
        · cases found
    · cases found

end

theorem parseFinite {text : String} {j : Json} (found : parse text = some j) : j.Finite := by
  unfold parse at found
  dsimp only at found
  split at found
  · rename_i value
    split at found
    · cases found
      exact valueFinite value
    · cases found
  · cases found

end Json
end Cutout
