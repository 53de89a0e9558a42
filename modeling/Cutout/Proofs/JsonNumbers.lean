import Cutout.JsonLines
import Cutout.Proofs.Decimals
import Cutout.Proofs.Rounding
/-! Numbers in JSON read back: whole numbers of 64 bits are found exactly, and from the digits of a
coordinate the reader computes the number whose digits they are. -/
namespace Cutout

open Decimal (natOf digitValue? isDigit pointed)

namespace Json

def Closes (rest : List Char) : Prop := ∀ c ∈ rest.head?, c = ',' ∨ c = ']' ∨ c = '\x7d'

theorem closesMark {mark : Char} (one : mark = ',' ∨ mark = ']' ∨ mark = '\x7d') (rest : List Char) :
    Closes (mark :: rest) := by
  intro c c_is
  cases c_is
  exact one

theorem Closes.noDigit {rest : List Char} (closes : Closes rest) :
    ∀ c ∈ rest.head?, isDigit c = false := by
  intro c c_in
  rcases closes c c_in with rfl | rfl | rfl <;> rfl

def appended (n : Nat) (cs : List Char) : Nat :=
  cs.foldl (fun n c => n * 10 + (digitValue? c).getD 0) n

theorem appendedGrows (n : Nat) (cs : List Char) : n ≤ appended n cs := by
  induction cs generalizing n with
  | nil => exact Nat.le_refl n
  | cons c rest ih =>
    have more := ih (n * 10 + (digitValue? c).getD 0)
    rw [appended, List.foldl_cons]
    exact Nat.le_trans (by omega) more

theorem gatherAll {mantissa : Nat} {cs : List Char} (taken : Nat)
    (small : appended mantissa cs ≤ maxMantissa) :
    gather mantissa taken cs = (appended mantissa cs, taken + cs.length, []) := by
  induction cs generalizing mantissa taken with
  | nil => rfl
  | cons c rest ih =>
    have next : mantissa * 10 + (digitValue? c).getD 0 ≤ maxMantissa :=
      (appendedGrows _ rest).trans small
    rw [gather]
    simp only [next, if_true, ih (taken + 1) small, List.length_cons, appended, List.foldl_cons]
    congr 2
    omega

theorem digitsEnd {cs rest : List Char} (digits : ∀ c ∈ cs, c.isDigit)
    (ends : ∀ c ∈ rest.head?, isDigit c = false) :
    (cs ++ rest).takeWhile isDigit = cs ∧ (cs ++ rest).dropWhile isDigit = rest := by
  have all := Decimal.allDigits digits
  rw [List.all_eq_true] at all
  rw [List.takeWhile_append_of_pos all, List.dropWhile_append_of_pos all]
  cases rest with
  | nil => simp
  | cons c rest => simp [ends c rfl]

def takeFraction : List Char → List Char × Bool × List Char
  | '.' :: r => (r.takeWhile isDigit, true, r.dropWhile isDigit)
  | r => ([], false, r)

def readPower (negative : Bool) (whole fraction : List Char) (hasFraction : Bool) :
    List Char → Option (Json × List Char)
  | c :: r =>
    if c = 'e' ∨ c = 'E' then do
      let (exponent, rest) ← readExponent r
      let n ← ofParts negative whole fraction hasFraction (some exponent)
      return (n, rest)
    else do return (← ofParts negative whole fraction hasFraction none, c :: r)
  | [] => do return (← ofParts negative whole fraction hasFraction none, [])

theorem readNumberIs (negative : Bool) (cs : List Char) : readNumber negative cs =
    let whole := cs.takeWhile isDigit
    if whole.isEmpty || (whole.head? == some '0' && 1 < whole.length) then none
    else
      let (fraction, hasFraction, rest) := takeFraction (cs.dropWhile isDigit)
      if hasFraction && fraction.isEmpty then none
      else readPower negative whole fraction hasFraction rest := by
  rfl

structure Numeral where
  whole : List Char
  fraction : List Char
  exponent : List Char
  some_digit : whole ≠ []
  lead : whole.head? = some '0' → whole = ['0']
  digits : ∀ c ∈ whole ++ fraction ++ exponent, c.isDigit

namespace Numeral

def point (n : Numeral) : List Char := if n.fraction.isEmpty then [] else '.' :: n.fraction

def power (n : Numeral) : List Char :=
  if n.exponent.isEmpty then [] else 'e' :: '-' :: n.exponent

def chars (n : Numeral) : List Char := n.whole ++ n.point ++ n.power

def mantissa (n : Numeral) : Nat := natOf (n.whole ++ n.fraction)

def places (n : Numeral) : Nat := n.fraction.length + natOf n.exponent

def parts (n : Numeral) (negative : Bool) : Option Json :=
  ofParts negative n.whole n.fraction (!n.fraction.isEmpty)
    (if n.exponent.isEmpty then none else some (true, n.exponent))

theorem readsPower (n : Numeral) {rest : List Char} (closes : Closes rest) (negative : Bool) :
    readPower negative n.whole n.fraction (!n.fraction.isEmpty) (n.power ++ rest) =
      (n.parts negative).map (·, rest) := by
  rw [Option.map_eq_bind]
  unfold power parts
  split
  · cases rest with
    | nil => rfl
    | cons c rest => rcases closes c rfl with rfl | rfl | rfl <;> rfl
  · rename_i some_exponent
    have exponents := (List.forall_mem_append.mp n.digits).2
    obtain ⟨taken, left⟩ := digitsEnd exponents closes.noDigit
    have read : readExponent ('-' :: n.exponent ++ rest) = some ((true, n.exponent), rest) := by
      simpa [readExponent, Decimal.sign, taken, left] using some_exponent
    simp only [List.cons_append] at read ⊢
    simp only [readPower, true_or, if_true, read]
    rfl

theorem powerEnds (n : Numeral) {rest : List Char} (closes : Closes rest) :
    ∀ c ∈ (n.power ++ rest).head?, isDigit c = false ∧ c ≠ '.' := by
  intro c c_in
  unfold power at c_in
  split at c_in
  · rcases closes c c_in with rfl | rfl | rfl <;> decide
  · cases c_in
    decide

theorem takesFraction (n : Numeral) {rest : List Char} (closes : Closes rest) :
    takeFraction (n.point ++ (n.power ++ rest)) = (n.fraction, !n.fraction.isEmpty, n.power ++ rest) := by
  have ends := n.powerEnds closes
  unfold point
  split
  · rename_i no_fraction
    rw [List.isEmpty_iff.mp no_fraction, List.nil_append]
    unfold takeFraction
    split
    · rename_i is_point
      rw [is_point] at ends
      exact absurd rfl (ends '.' rfl).2
    · rfl
  · rename_i some_fraction
    have fractions := (List.forall_mem_append.mp (List.forall_mem_append.mp n.digits).1).2
    obtain ⟨taken, left⟩ := digitsEnd fractions fun c c_in => (ends c c_in).1
    simp [takeFraction, taken, left, some_fraction]

theorem reads (n : Numeral) {rest : List Char} (closes : Closes rest) (negative : Bool) :
    readNumber negative (n.chars ++ rest) = (n.parts negative).map (·, rest) := by
  have wholes := (List.forall_mem_append.mp (List.forall_mem_append.mp n.digits).1).1
  have ends : ∀ c ∈ (n.point ++ (n.power ++ rest)).head?, isDigit c = false := by
    intro c c_in
    unfold point at c_in
    split at c_in
    · exact (n.powerEnds closes c c_in).1
    · cases c_in
      rfl
  obtain ⟨taken, left⟩ := digitsEnd wholes ends
  have proper : (n.whole.isEmpty || (n.whole.head? == some '0' && 1 < n.whole.length)) = false := by
    by_cases zero : n.whole.head? = some '0'
    · simp [n.lead zero]
    · simp [zero, n.some_digit]
  rw [chars, List.append_assoc, List.append_assoc, readNumberIs]
  simp only [taken, left, proper, n.takesFraction closes, n.readsPower closes]
  simp

theorem gathered (n : Numeral) (small : n.mantissa ≤ maxMantissa) :
    gather 0 0 n.whole = (natOf n.whole, n.whole.length, []) ∧
    gather (natOf n.whole) 0 n.fraction = (n.mantissa, n.fraction.length, []) := by
  have parts : n.mantissa = appended (natOf n.whole) n.fraction := List.foldl_append
  have first : appended 0 n.whole ≤ maxMantissa :=
    (appendedGrows (natOf n.whole) n.fraction).trans (parts ▸ small)
  have whole := gatherAll 0 first
  have fraction := gatherAll 0 (parts ▸ small)
  rw [Nat.zero_add] at whole fraction
  exact ⟨whole, parts ▸ fraction⟩

theorem wholeNumber (n : Numeral) (none_behind : n.fraction = []) (no_exponent : n.exponent = [])
    (small : n.mantissa ≤ maxMantissa) : n.parts false = some (.integer n.mantissa) := by
  have same : n.mantissa = natOf n.whole := by rw [mantissa, none_behind, List.append_nil]
  simp [parts, ofParts, (n.gathered small).1, none_behind, no_exponent, same]

theorem negativeNumber (n : Numeral) (none_behind : n.fraction = []) (no_exponent : n.exponent = [])
    (small : n.mantissa ≤ 2 ^ 63) (some_digit : n.mantissa ≠ 0) :
    n.parts true = some (.integer (-n.mantissa)) := by
  have same : n.mantissa = natOf n.whole := by rw [mantissa, none_behind, List.append_nil]
  have most : maxMantissa = 2 ^ 64 - 1 := rfl
  have gathered := (n.gathered (by omega)).1
  rw [same] at small some_digit
  simpa [parts, ofParts, gathered, none_behind, no_exponent, same] using And.intro some_digit small

theorem scaledDown (x : Binary64) {q : Nat} (some_place : 0 < q) (few : q ≤ 308) :
    scaled 8 x (-q) = some (x.div (.ofNat (Nat.pow 10 q))) := by
  have below : ¬ 0 ≤ -(q : Int) := by omega
  simp only [scaled, Int.natAbs_neg, Int.natAbs_natCast, few, if_true, below, if_false]

theorem placesNumber (n : Numeral) (small : n.mantissa ≤ maxMantissa) (some_place : 0 < n.places)
    (few : n.places ≤ 308) (negative : Bool) : n.parts negative =
      let x := (Binary64.ofNat n.mantissa).div (.ofNat (Nat.pow 10 n.places))
      some (.real (if negative then x.neg else x)) := by
  obtain ⟨whole, fraction⟩ := n.gathered small
  have down := scaledDown (.ofNat n.mantissa) some_place few
  unfold parts
  split
  · rename_i no_exponent
    have own : n.places = n.fraction.length := by
      rw [places, List.isEmpty_iff.mp no_exponent]
      rfl
    have some_fraction : n.fraction.isEmpty = false := by
      rw [List.isEmpty_eq_false_iff]
      exact List.ne_nil_of_length_pos (own ▸ some_place)
    simp [ofParts, whole, fraction, some_fraction, ← own, down]
  · have size : ¬ maxExponent < natOf n.exponent := by
      have most : maxExponent = 2 ^ 31 - 1 := rfl
      rw [places] at few
      omega
    have shift : -(n.fraction.length : Int) + -(natOf n.exponent : Int) = -(n.places : Int) := by
      rw [places]
      omega
    have near : ¬ -(n.places : Int) < -2000 := by omega
    simp [ofParts, whole, fraction, size, shift, near, down]

def signed (negative : Bool) (n : Numeral) : List Char :=
  (if negative then ['-'] else []) ++ n.chars

def ofNat (n : Nat) : Numeral where
  whole := Nat.toDigits 10 n
  fraction := []
  exponent := []
  some_digit := Nat.toDigits_ne_nil
  lead := Decimal.digitsLead
  digits := by simpa using Decimal.digitsOf n

theorem mantissaOfNat (n : Nat) : (ofNat n).mantissa = n := by
  simp [mantissa, ofNat]

theorem charsOfNat (n : Nat) : (ofNat n).chars = Nat.toDigits 10 n := by
  simp [chars, point, power, ofNat]

theorem intIs (n : Int) : (toString n).toList = (ofNat n.natAbs).signed (n < 0) := by
  rw [signed, charsOfNat]
  cases n with
  | ofNat n =>
    have natural : ¬ Int.ofNat n < 0 := Int.not_lt.mpr (Int.natCast_nonneg n)
    simp only [natural, decide_false, Bool.false_eq_true, if_false, List.nil_append]
    exact Nat.toList_repr
  | negSucc n =>
    simp only [Int.negSucc_lt_zero, decide_true, if_true, Int.natAbs_negSucc, ← Nat.toList_repr]
    exact String.toList_append

theorem intValue {n : Int} (low : -2 ^ 63 ≤ n) (high : n < 2 ^ 63) :
    (ofNat n.natAbs).parts (n < 0) = some (.integer n) := by
  have mantissa := mantissaOfNat n.natAbs
  have most : maxMantissa = 2 ^ 64 - 1 := rfl
  by_cases negative : n < 0
  · have value := (ofNat n.natAbs).negativeNumber rfl rfl (by omega) (by omega)
    rw [mantissa] at value
    simp only [negative, decide_true, value, Option.some.injEq, integer.injEq]
    omega
  · have value := (ofNat n.natAbs).wholeNumber rfl rfl (by omega)
    rw [mantissa] at value
    simp only [negative, decide_false, value, Option.some.injEq, integer.injEq]
    omega

structure Counts (n : Numeral) (units : Nat) : Prop where
  some_place : 0 < n.places
  few : n.places ≤ Location.places
  mantissa : n.mantissa * Nat.pow 10 (Location.places - n.places) = units

theorem Counts.value {n : Numeral} {units : Int32} (counts : n.Counts units.toInt.natAbs) :
    n.parts (units.toInt < 0) = some (.real (Location.degrees units)) := by
  obtain ⟨some_place, few, amount⟩ := counts
  have seven : Location.places = 7 := rfl
  have factor : 0 < 10 ^ (Location.places - n.places) := Nat.pow_pos (by omega)
  have per : 10 ^ (Location.places - n.places) * 10 ^ n.places = Location.unitsPerDegree := by
    rw [← Nat.pow_add, Nat.sub_add_cancel few]
    rfl
  have power : 10 ^ n.places ≤ 10 ^ Location.places := Nat.pow_le_pow_right (by omega) few
  have ten_million : 10 ^ Location.places = 10000000 := rfl
  have small : n.mantissa ≤ 2 ^ 31 := by
    have low := units.minValue_le_toInt
    have high := units.toInt_le
    have lowest : Int32.minValue.toInt = -2 ^ 31 := rfl
    have highest : Int32.maxValue.toInt = 2 ^ 31 - 1 := rfl
    have less : n.mantissa ≤ units.toInt.natAbs := amount ▸ Nat.le_mul_of_pos_right _ factor
    omega
  have most : maxMantissa = 2 ^ 64 - 1 := rfl
  have value : (Binary64.ofNat n.mantissa).div (.ofNat (10 ^ n.places)) =
      .nearest false units.toInt.natAbs Location.unitsPerDegree := by
    rw [Binary64.divSmall (by omega) (by omega) (Nat.pow_pos (by omega)), ← per, ← amount,
      Nat.mul_comm n.mantissa]
    exact (Binary64.nearestScaled factor false ..).symm
  rw [n.placesNumber (by omega) some_place (by omega)]
  simp only [Nat.pow_eq, value, Location.degrees, Binary64.ofRatio, Binary64.nearestNeg]
  by_cases negative : units.toInt < 0 <;> simp [negative]

theorem pointedIs (whole fraction : List Char) : pointed whole fraction =
    whole ++ if fraction.isEmpty then [] else '.' :: fraction := by
  unfold pointed
  split <;> simp

theorem plainIs (m : Nat) {p : Nat} (some_place : 0 < p) (few : p ≤ Location.places) :
    ∃ n : Numeral, n.Counts (m * Nat.pow 10 (Location.places - p)) ∧
      (Decimal.Digits.plain ⟨m, -p⟩).toList = n.chars := by
  obtain ⟨whole, fraction, some_digit, lead, count, digits, value, text⟩ := Decimal.Digits.plainIs m p
  subst count
  let n : Numeral := ⟨whole, fraction, [], some_digit, lead, by simpa using digits⟩
  have same : n.mantissa = m := value
  refine ⟨n, ⟨some_place, few, ?_⟩, ?_⟩
  · rw [same]
    rfl
  · simpa [text, n, chars, point, power] using pointedIs whole fraction

theorem wholeIs (m : Nat) : ∃ n : Numeral, n.Counts (m * Nat.pow 10 Location.places) ∧
    (Decimal.Digits.plain ⟨m, 0⟩ ++ ".0").toList = n.chars := by
  have digits := Decimal.digitsOf m
  let n : Numeral := ⟨Nat.toDigits 10 m, ['0'], [], Nat.toDigits_ne_nil, Decimal.digitsLead, by
    rw [List.append_nil, List.forall_mem_append]
    exact ⟨digits, List.forall_mem_singleton.mpr rfl⟩⟩
  have tenfold : n.mantissa = m * 10 := by
    have zero : n.mantissa = natOf (Nat.toDigits 10 m) * 10 + 0 := List.foldl_append
    rw [zero, Decimal.natOfDigits, Nat.add_zero]
  have one : n.places = 1 := rfl
  have text : (Decimal.Digits.plain ⟨m, 0⟩).toList = Nat.toDigits 10 m := by
    simp [Decimal.Digits.plain, Decimal.zeros]
  refine ⟨n, ⟨?_, ?_, ?_⟩, ?_⟩
  · rw [one]
    exact Nat.one_pos
  · rw [one]
    decide
  · rw [one, tenfold, Nat.mul_assoc]
    rfl
  · simp [text, n, chars, point, power]

theorem scientificIs {m p : Nat} {c : Char} {cs : List Char} (digits : Nat.toDigits 10 m = c :: cs)
    (few : p ≤ Location.places) (small : cs.length < p) :
    ∃ n : Numeral, n.Counts (m * Nat.pow 10 (Location.places - p)) ∧ n.chars =
      c :: (if cs.isEmpty then [] else '.' :: cs) ++ 'e' :: '-' :: Nat.toDigits 10 (p - cs.length) := by
  let n : Numeral := ⟨[c], cs, Nat.toDigits 10 (p - cs.length), by simp, by simp, by
    have all := Decimal.digitsOf m
    rw [digits] at all
    exact List.forall_mem_append.mpr ⟨all, Decimal.digitsOf _⟩⟩
  have mantissa : n.mantissa = m := by
    rw [← Decimal.natOfDigits m, digits]
    rfl
  have places : n.places = p := by
    have sum : n.places = cs.length + natOf (Nat.toDigits 10 (p - cs.length)) := rfl
    rw [sum, Decimal.natOfDigits]
    omega
  refine ⟨n, ⟨by omega, by omega, by rw [mantissa, places]⟩, ?_⟩
  simp [n, chars, point, power, Nat.toDigits_ne_nil]

theorem realIs (m : Nat) {p : Nat} (few : p ≤ Location.places) : ∃ n : Numeral,
    n.Counts (m * Nat.pow 10 (Location.places - p)) ∧
      (JsonLines.realText ⟨m, -p⟩).toList = n.chars := by
  obtain ⟨c, cs, digits⟩ := List.exists_cons_of_ne_nil (Nat.toDigits_ne_nil : Nat.toDigits 10 m ≠ [])
  have text : toString m = .ofList (c :: cs) := digits ▸ Nat.toString_eq_ofList_toDigits
  unfold JsonLines.realText
  simp only [text, String.length_ofList, String.toList_ofList, List.length_cons]
  split
  · rename_i whole
    obtain rfl : p = 0 := by omega
    exact wholeIs m
  · split
    · exact plainIs m (by omega) few
    · rename_i far
      obtain ⟨n, counts, chars⟩ := scientificIs digits few (by omega)
      have exponent : ((cs.length + 1 : Nat) : Int) + -(p : Int) - 1 = -((p - cs.length : Nat) : Int) := by
        omega
      have below : -((p - cs.length : Nat) : Int) < 0 := by omega
      have power := intIs (-((p - cs.length : Nat) : Int))
      simp only [signed, below, decide_true, if_true, Int.natAbs_neg, Int.natAbs_natCast,
        charsOfNat, List.singleton_append] at power
      refine ⟨n, counts, ?_⟩
      rw [chars, exponent, String.toList_append, power]
      cases cs <;> simp

theorem degreesIs (units : Int32) : ∃ n : Numeral, n.Counts units.toInt.natAbs ∧
    (JsonLines.degreesText units).toList = n.signed (units.toInt < 0) := by
  unfold JsonLines.degreesText
  simp only
  split
  · rename_i zero
    obtain ⟨n, counts, text⟩ := wholeIs 0
    refine ⟨n, ?_, ?_⟩
    · simpa [zero] using counts
    · rw [zero, signed, ← text]
      rfl
  · obtain ⟨m, p, few, trimmed, digits⟩ := Decimal.Digits.trimmed units.toInt.natAbs Location.places
    obtain ⟨n, counts, text⟩ := realIs m few
    refine ⟨n, digits ▸ counts, ?_⟩
    rw [String.toList_append, trimmed, text, signed]
    by_cases negative : units.toInt < 0 <;> simp [negative]

end Numeral
end Json
end Cutout
