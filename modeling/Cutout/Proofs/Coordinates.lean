import Cutout.Proofs.Fractions
import Cutout.Proofs.Turns
import Cutout.Xml
import Mathlib.Algebra.Order.Field.Basic
import Mathlib.Algebra.Order.Field.Rat
import Mathlib.Algebra.Ring.Int.Parity
import Mathlib.Tactic.Linarith
/-! Texts of coordinates. A finite number rounds to one whole number of units of the last place, and its
text is the one that spells this number with no zero, point or sign too many. -/
namespace Cutout

def Binary64.rational (x : Binary64) : ℚ := x.value / 2 ^ unitBits

namespace Decimal
open Binary64 Timestamp

/-- `n` units of 10^-places are nearest to the number; of two such counts the even one is meant. -/
structure Rounds (places : Nat) (x : ℚ) (n : Int) : Prop where
  near : |x * 10 ^ places - n| ≤ 1 / 2
  even : |x * 10 ^ places - n| = 1 / 2 → Even n

namespace Rounds
variable {places : Nat} {x : ℚ} {m n : Int}

theorem notLess (first : Rounds places x m) (second : Rounds places x n) : ¬ m < n := by
  intro less
  have low := (abs_le.mp first.near).2
  have high := (abs_le.mp second.near).1
  have step : (m : ℚ) + 1 ≤ n := by exact_mod_cast less
  -- One apart they are both at a half, and not both even.
  have half : x * 10 ^ places - m = 1 / 2 := by linarith
  have half' : x * 10 ^ places - n = -(1 / 2) := by linarith
  have next : n = m + 1 := by
    have : (n : ℚ) = m + 1 := by linarith
    exact_mod_cast this
  obtain ⟨i, even⟩ := first.even (by rw [half, abs_of_pos (by norm_num)])
  obtain ⟨j, even'⟩ := second.even (by rw [half', abs_neg, abs_of_pos (by norm_num)])
  omega

theorem unique (first : Rounds places x m) (second : Rounds places x n) : m = n :=
  le_antisymm (not_lt.mp (second.notLess first)) (not_lt.mp (first.notLess second))

theorem neg (rounds : Rounds places x n) : Rounds places (-x) (-n) := by
  have mirrored : |-x * 10 ^ places - ((-n : Int) : ℚ)| = |x * 10 ^ places - n| := by
    rw [← abs_neg]
    congr 1
    push_cast
    ring
  exact ⟨mirrored ▸ rounds.near, fun half => (rounds.even (mirrored ▸ half)).neg⟩

end Rounds

theorem roundDivEven {d : Nat} (pos : 0 < d) (n : Nat) (tie : 2 * (roundDiv n d * d) = 2 * n + d ∨
    2 * n = 2 * (roundDiv n d * d) + d) : Even (roundDiv n d) := by
  have parts := Nat.div_add_mod n d
  have rest := Nat.mod_lt n pos
  rw [Nat.mul_comm] at parts
  unfold roundDiv at tie ⊢
  dsimp only at tie ⊢
  split at tie
  · rename_i up
    rw [if_pos up]
    simp only [Bool.or_eq_true, Bool.and_eq_true, decide_eq_true_eq, beq_iff_eq] at up
    rw [Nat.add_mul, Nat.one_mul] at tie
    rw [Nat.even_iff]
    omega
  · rename_i down
    rw [if_neg down]
    simp only [Bool.or_eq_true, Bool.and_eq_true, decide_eq_true_eq, beq_iff_eq] at down
    rw [Nat.even_iff]
    omega

theorem quotientRounds {d : Nat} (pos : 0 < d) (n places : Nat) :
    Rounds places (n / d) (roundDiv (n * Nat.pow 10 places) d) := by
  obtain ⟨above, below⟩ := roundDivNear pos (n * Nat.pow 10 places)
  have tie := roundDivEven pos (n * Nat.pow 10 places)
  have scaled : (n : ℚ) / d * 10 ^ places = (n * Nat.pow 10 places : Nat) / d := by
    push_cast [Nat.pow_eq]
    ring
  have some_units : (0 : ℚ) < d := by exact_mod_cast pos
  refine ⟨?_, ?_⟩
  all_goals
    rw [scaled]
    generalize n * Nat.pow 10 places = n at above below tie ⊢
    generalize roundDiv n d = q at above below tie ⊢
    have apart : (n : ℚ) / d - (q : Int) = (n - q * d) / d := by
      rw [sub_div, mul_div_cancel_right₀ _ some_units.ne']
      rfl
    rw [apart, abs_div, abs_of_pos some_units]
  · rw [div_le_iff₀ some_units, abs_le]
    have above : 2 * ((q : ℚ) * d) ≤ 2 * n + d := by exact_mod_cast above
    have below : 2 * (n : ℚ) ≤ 2 * (q * d) + d := by exact_mod_cast below
    exact ⟨by linarith, by linarith⟩
  · intro half
    rw [div_eq_iff some_units.ne'] at half
    refine (Int.even_coe_nat q).mpr (tie ?_)
    obtain same | same := eq_or_eq_neg_of_abs_eq half
    · right
      have same : 2 * (n : ℚ) = 2 * (q * d) + d := by linarith
      exact_mod_cast same
    · left
      have same : 2 * ((q : ℚ) * d) = 2 * n + d := by linarith
      exact_mod_cast same

theorem toPlacesRounds (places : Nat) (negative : Bool) (units : Nat) :
    Rounds places (finite negative units).rational (toPlaces places negative units) := by
  have rounds := quotientRounds (Nat.two_pow_pos unitBits) units places
  rw [Nat.cast_pow, Nat.cast_ofNat] at rounds
  rw [toPlaces, Nat.one_shiftLeft]
  cases negative with
  | false => exact rounds
  | true =>
    have value : (finite true units).rational = -((units : ℚ) / 2 ^ unitBits) := by
      rw [rational, value, units?, Option.getD_some, if_pos rfl, Int.cast_neg, neg_div]
      rfl
    rw [value]
    exact rounds.neg

def behind (places n : Nat) : List Char := (padded places (n % 10 ^ places)).toList

def printed (places : Nat) (negative : Bool) (n : Nat) : List Char :=
  (if negative then ['-'] else []) ++ Nat.toDigits 10 (n / 10 ^ places) ++ '.' :: behind places n

def tidied (text : List Char) : List Char :=
  let trimmed := (withoutZeros text).rdropWhile (· = '.')
  if trimmed ∈ [[], ['-'], ['-', '0']] then ['0'] else trimmed

theorem withoutPoints {cs : List Char} (digit : ∀ c ∈ cs.getLast?, c.isDigit) :
    cs.rdropWhile (· = '.') = cs := by
  refine List.rdropWhile_eq_self_iff.mpr fun some_char point => ?_
  have last := digit _ (List.getLast?_eq_some_getLast some_char)
  rw [of_decide_eq_true point] at last
  cases last

theorem trimmedIs {front fraction : List Char} (digit : ∀ c ∈ front.getLast?, c.isDigit)
    (digits : ∀ c ∈ fraction, c.isDigit) :
    (withoutZeros (front ++ '.' :: fraction)).rdropWhile (· = '.') =
      pointed front (withoutZeros fraction) := by
  -- The zeros that are dropped are those of the fraction, for a digit or a point stands before
  -- them.
  obtain ⟨k, parts⟩ := withoutZerosIs fraction
  have short := withoutZerosLast fraction
  generalize withoutZeros fraction = kept at parts short
  subst parts
  have last : (front ++ '.' :: kept).getLast? ≠ some '0' := by
    cases kept with
    | nil => simp
    | cons c rest => simpa using short
  rw [← List.cons_append, ← List.append_assoc, withoutZerosPadded last]
  cases kept with
  | nil =>
    rw [List.rdropWhile_concat_pos _ _ _ (by simp), withoutPoints digit]
    rfl
  | cons c rest =>
    refine withoutPoints fun d d_last => ?_
    refine digits d (List.mem_append_left _ (List.mem_of_getLast? ?_))
    simpa using d_last

section Places
variable {places : Nat} (some_place : 0 < places)
include some_place

theorem behindIs (n : Nat) : Field places (behind places n) ∧ natOf (behind places n) = n % 10 ^ places := by
  obtain ⟨cs, text, field, value⟩ :=
    paddedIs places (n % 10 ^ places) some_place (Nat.mod_lt _ (Nat.pow_pos (by decide)))
  rw [behind, text]
  exact ⟨field, value⟩

theorem spelledParts {n : Nat} {whole fraction : List Char} (spelled : Spelled places n whole fraction)
    (short : fraction.getLast? ≠ some '0') :
    whole = Nat.toDigits 10 (n / 10 ^ places) ∧ fraction = withoutZeros (behind places n) := by
  obtain ⟨field, behindValue⟩ := behindIs some_place n
  -- Filled up with zeros the fraction has all places, and a number decides its digits.
  let zeros := List.replicate (places - fraction.length) '0'
  have digits : ∀ c ∈ fraction ++ zeros, c.isDigit :=
    List.forall_mem_append.mpr ⟨spelled.fractions, digitsZeros _⟩
  have long : (fraction ++ zeros).length = places := by
    rw [List.length_append, List.length_replicate, Nat.add_sub_cancel' spelled.few]
  have low := natOfBound digits
  rw [long] at low
  have value : natOf whole * 10 ^ places + natOf (fraction ++ zeros) = n := by
    calc natOf whole * 10 ^ places + natOf (fraction ++ zeros)
        = natOf (whole ++ (fraction ++ zeros)) := by rw [natOfAppend whole, long]
      _ = natOf (whole ++ fraction) * 10 ^ (places - fraction.length) := by
        rw [← List.append_assoc, natOfZeros]
      _ = n := spelled.value
  have front : natOf whole = n / 10 ^ places := by
    rw [← value, Nat.mul_comm, Nat.mul_add_div (Nat.pow_pos (by decide)), Nat.div_eq_of_lt low,
      Nat.add_zero]
  have back : natOf (fraction ++ zeros) = n % 10 ^ places := by
    rw [← value, Nat.mul_comm, Nat.mul_add_mod, Nat.mod_eq_of_lt low]
  have same : fraction ++ zeros = behind places n :=
    digitsUnique digits field.digits (long.trans field.length.symm) (back.trans behindValue.symm)
  refine ⟨?_, ?_⟩
  · rw [← front, leadingIs spelled.some_digit spelled.wholes spelled.lead]
  · rw [← same, withoutZerosPadded short]

theorem Spelled.unique {n : Nat} {whole fraction whole' fraction' : List Char}
    (spelled : Spelled places n whole fraction) (short : fraction.getLast? ≠ some '0')
    (spelled' : Spelled places n whole' fraction') (short' : fraction'.getLast? ≠ some '0') :
    whole = whole' ∧ fraction = fraction' := by
  obtain ⟨front, back⟩ := spelledParts some_place spelled short
  obtain ⟨front', back'⟩ := spelledParts some_place spelled' short'
  exact ⟨front.trans front'.symm, back.trans back'.symm⟩

theorem Canonical.unique {amount : Int} {text other : List Char}
    (canonical : Canonical places amount text) (canonical' : Canonical places amount other) :
    text = other := by
  obtain ⟨whole, fraction, spelled, short, rfl⟩ := canonical
  obtain ⟨whole', fraction', spelled', short', rfl⟩ := canonical'
  obtain ⟨front, back⟩ := spelled.unique some_place short spelled' short'
  rw [front, back]

theorem spelledPrinted (n : Nat) : Spelled places n (Nat.toDigits 10 (n / 10 ^ places))
    (withoutZeros (behind places n)) := by
  obtain ⟨field, value⟩ := behindIs some_place n
  obtain ⟨k, parts⟩ := withoutZerosIs (behind places n)
  generalize withoutZeros (behind places n) = fraction at parts
  have long := field.length
  have digits := field.digits
  rw [parts, List.length_append, List.length_replicate] at long
  rw [parts] at digits value
  refine ⟨Nat.toDigits_ne_nil, digitsLead, by omega, digitsOf _, (List.forall_mem_append.mp digits).1, ?_⟩
  have left : places - fraction.length = k := by omega
  rw [left, Nat.pow_eq, ← natOfZeros, List.append_assoc, natOfAppend, natOfDigits, value,
    List.length_append, List.length_replicate, long, Nat.div_add_mod']

theorem printedTrimmed (negative : Bool) (n : Nat) : ∃ whole fraction,
    Spelled places n whole fraction ∧ fraction.getLast? ≠ some '0' ∧
    (withoutZeros (printed places negative n)).rdropWhile (· = '.') =
      (if negative then ['-'] else []) ++ pointed whole fraction := by
  have spelled := spelledPrinted some_place n
  refine ⟨_, _, spelled, withoutZerosLast _, ?_⟩
  rw [printed, trimmedIs _ (behindIs some_place _).1.digits]
  · unfold pointed
    split
    · rfl
    · exact List.append_assoc ..
  · intro c c_last
    rw [List.getLast?_append_of_ne_nil _ spelled.some_digit] at c_last
    exact spelled.wholes c (List.mem_of_getLast? c_last)

theorem tidiedPrinted {amount : Int} {negative : Bool}
    (signed : amount ≠ 0 → negative = decide (amount < 0)) :
    Canonical places amount (tidied (printed places negative amount.natAbs)) := by
  obtain ⟨whole, fraction, spelled, short, trimmed⟩ :=
    printedTrimmed some_place negative amount.natAbs
  simp only [tidied, trimmed]
  by_cases zero : amount = 0
  · subst zero
    obtain ⟨rfl, rfl⟩ := spelled.unique some_place short (spelledZero places) (by simp)
    refine ⟨['0'], [], spelledZero places, short, ?_⟩
    cases negative <;> rfl
  · have canonical : Canonical places amount ((if negative then ['-'] else []) ++ pointed whole fraction) :=
      ⟨whole, fraction, spelled, short, by rw [signed zero]; simp⟩
    have reads := amountCanonical canonical
    rw [if_neg]
    · exact canonical
    -- None of the three reads as an amount other than zero.
    · intro special
      simp only [List.mem_cons, List.not_mem_nil, or_false] at special
      obtain none | sign | digit := special
      · rw [none] at reads
        cases reads
      · rw [sign] at reads
        cases reads
      · have none : amount? places ['-', '0'] = some (-(0 * Nat.pow 10 places : Nat) : Int) := rfl
        rw [digit, none, Nat.zero_mul] at reads
        exact zero (Option.some.inj reads).symm

end Places

def rational? (text : List Char) : Option ℚ :=
  (amount? text.length text).map fun n : Int => (n : ℚ) / 10 ^ text.length

theorem placesShifted (m : Nat) {few places : Nat} (within : few ≤ places) :
    ((m * Nat.pow 10 (places - few) : Nat) : ℚ) / 10 ^ places = m / 10 ^ few := by
  have powers : (10 : ℚ) ^ places = 10 ^ (places - few) * 10 ^ few := by
    rw [← pow_add, Nat.sub_add_cancel within]
  rw [Nat.pow_eq, Nat.cast_mul, Nat.cast_pow, Nat.cast_ofNat, powers, mul_comm,
    mul_div_mul_left _ _ (pow_ne_zero _ (by norm_num))]

theorem pointedLong (whole fraction : List Char) : fraction.length ≤ (pointed whole fraction).length := by
  unfold pointed
  split
  · rename_i none_behind
    rw [List.isEmpty_iff.mp none_behind]
    exact Nat.zero_le _
  · rw [List.length_append, List.length_cons]
    omega

theorem rationalCanonical {places : Nat} {amount : Int} {text : List Char}
    (canonical : Canonical places amount text) :
    rational? text = some ((amount : ℚ) / 10 ^ places) := by
  obtain ⟨whole, fraction, spelled, -, text_is⟩ := canonical
  have within : fraction.length ≤ text.length := by
    have long := pointedLong whole fraction
    rw [text_is, List.length_append]
    omega
  have reads := amountPointed { spelled with few := within, value := rfl } (decide (amount < 0))
  simp only [decide_eq_true_eq, ← text_is] at reads
  have size : ((natOf (whole ++ fraction) * Nat.pow 10 (text.length - fraction.length) : Nat) : ℚ) /
      10 ^ text.length = (amount.natAbs : ℚ) / 10 ^ places := by
    rw [← spelled.value, placesShifted _ within, placesShifted _ spelled.few]
  rw [rational?, reads, Option.map_some, Option.some_inj]
  split
  · have signed : -(amount.natAbs : Int) = amount := by omega
    rw [Int.cast_neg, Int.cast_natCast, neg_div, size, ← neg_div, ← Int.cast_natCast, ← Int.cast_neg,
      signed]
  · have signed : (amount.natAbs : Int) = amount := by omega
    rw [Int.cast_natCast, size, ← Int.cast_natCast, signed]

theorem coordinateIs (negative : Bool) (units : Nat) : coordinate (finite negative units) =
    fixedPlain (toPlaces 7 negative units) 7 := rfl

theorem roundDivClose {n d k : Nat} (above : 2 * n < 2 * (k * d) + d)
    (below : 2 * (k * d) < 2 * n + d) : roundDiv n d = k := by
  obtain ⟨up, down⟩ := roundDivNear (by omega : 0 < d) n
  have less : roundDiv n d * d < (k + 1) * d := by
    rw [Nat.add_mul]
    omega
  have more : k * d < (roundDiv n d + 1) * d := by
    rw [Nat.add_mul]
    omega
  have less := Nat.lt_of_mul_lt_mul_right less
  have more := Nat.lt_of_mul_lt_mul_right more
  omega

theorem degreesTextIs (units : Int32) : Xml.degreesText units = coordinate (Location.degrees units) := by
  by_cases none : units = 0
  · rw [none]
    decide +kernel
  · have few := Location.unitsFew units
    have unit := Nat.two_pow_pos unitBits
    have low := Nat.le_mul_of_pos_left (2 ^ unitBits) (Location.unitsSome none)
    have high : units.toInt.natAbs * 2 ^ unitBits ≤ 2 ^ 31 * 2 ^ unitBits := Nat.mul_le_mul_right _ few
    obtain ⟨count, is_count, above, below⟩ :=
      Location.degreesClose (Location.unitsSome none) few (units.toInt < 0)
    rw [Location.degrees, ofRatio, is_count, coordinateIs, toPlaces, Nat.one_shiftLeft]
    have nearest : roundDiv (count * Nat.pow 10 7) (2 ^ unitBits) = units.toInt.natAbs := by
      change 2 ^ 53 * (count * Nat.pow 10 7) ≤ _ at above
      change _ ≤ 2 ^ 53 * (count * Nat.pow 10 7) at below
      generalize count * Nat.pow 10 7 = count at above below ⊢
      generalize 2 ^ unitBits = one at *
      exact roundDivClose (by omega) (by omega)
    have signed : (if units.toInt < 0 then -(units.toInt.natAbs : Int) else units.toInt.natAbs) =
        units.toInt := by
      omega
    simp only [nearest, decide_eq_true_eq, signed]
    rfl

/-- A finite number is nearest to one count of units of 10^-7, and its text is the one canonical text
of this count: what is left of the printed places without the zeros at the end, and what reads as the
count. So numbers with one text are those that are nearest to one count. The text of a location's units
is that of its degrees. -/
theorem coordinateCanonical (negative : Bool) (units : Nat) : ∃ n : Int,
    (∀ m, Rounds 7 (finite negative units).rational m ↔ m = n) ∧
    (∀ text, Canonical 7 n text ↔ text = (coordinate (finite negative units)).toList) ∧
    (∀ minus : Bool, (n ≠ 0 → minus = decide (n < 0)) →
      tidied (printed 7 minus n.natAbs) = (coordinate (finite negative units)).toList) ∧
    rational? (coordinate (finite negative units)).toList = some ((n : ℚ) / 10 ^ 7) ∧
    (∀ minus count, coordinate (finite minus count) = coordinate (finite negative units) ↔
      Rounds 7 (finite minus count).rational n) ∧
    ∀ place : Int32, Xml.degreesText place = coordinate (Location.degrees place) := by
  have canonical (minus : Bool) (count : Nat) :
      Canonical 7 (toPlaces 7 minus count) (coordinate (finite minus count)).toList := fixedIs _ 7
  have some_place : 0 < 7 := by decide
  refine ⟨toPlaces 7 negative units, ?_, ?_, ?_, rationalCanonical (canonical _ _), ?_, degreesTextIs⟩
  · intro m
    constructor
    · intro rounds
      exact rounds.unique (toPlacesRounds 7 negative units)
    · rintro rfl
      exact toPlacesRounds 7 negative units
  · intro text
    constructor
    · intro same
      exact same.unique some_place (canonical _ _)
    · rintro rfl
      exact canonical _ _
  · intro minus signed
    exact (tidiedPrinted some_place signed).unique some_place (canonical _ _)
  · intro minus count
    have nearest := toPlacesRounds 7 minus count
    constructor
    · intro same
      have first := amountCanonical (canonical minus count)
      rw [same, amountCanonical (canonical negative units)] at first
      rw [Option.some.inj first]
      exact nearest
    · intro rounds
      have same := rounds.unique nearest
      rw [coordinateIs, coordinateIs, same]

end Decimal
end Cutout
