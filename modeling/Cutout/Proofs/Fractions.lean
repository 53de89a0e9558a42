import Cutout.Proofs.Decimals
import Cutout.Timestamp
import Mathlib.Algebra.Order.Ring.Nat
import Mathlib.Data.List.DropRight
import Mathlib.Tactic.Ring
/-! Digits by their values. Of one width, or without a zero in front of others, they are told apart by the
number they stand for, and behind a point by their fraction if no zero stands at their end. -/
namespace Cutout.Decimal
open Timestamp (withoutZeros)

theorem digitLow {c : Char} (digit : c.isDigit) : (digitValue? c).getD 0 < 10 := by
  have last : '9'.toNat = '0'.toNat + 9 := rfl
  obtain ⟨-, high⟩ := Char.isDigit_iff_toNat.mp digit
  rw [digitValueOf digit, Option.getD_some]
  omega

theorem digitUnique {c d : Char} (digit : c.isDigit) (other : d.isDigit)
    (same : (digitValue? c).getD 0 = (digitValue? d).getD 0) : c = d := by
  obtain ⟨low, -⟩ := Char.isDigit_iff_toNat.mp digit
  obtain ⟨low', -⟩ := Char.isDigit_iff_toNat.mp other
  rw [digitValueOf digit, digitValueOf other, Option.getD_some, Option.getD_some] at same
  exact Char.toNat_inj.mp (by omega)

theorem natOfBound {cs : List Char} (digits : ∀ c ∈ cs, c.isDigit) : natOf cs < 10 ^ cs.length := by
  induction cs using List.reverseRecOn with
  | nil => simp [natOf]
  | append_singleton cs c ih =>
    obtain ⟨front, last⟩ := List.forall_mem_append.mp digits
    have low := digitLow (last c (by simp))
    have := ih front
    rw [natOfSnoc, List.length_append, List.length_singleton, pow_succ]
    omega

theorem natOfZeros (cs : List Char) (k : Nat) :
    natOf (cs ++ List.replicate k '0') = natOf cs * 10 ^ k := by
  induction k with
  | zero => simp
  | succ k ih =>
    rw [List.replicate_succ', ← List.append_assoc, natOfSnoc, ih, pow_succ, ← Nat.mul_assoc]
    rfl

theorem digitsUnique {cs ds : List Char} (digits : ∀ c ∈ cs, c.isDigit) (others : ∀ d ∈ ds, d.isDigit)
    (long : cs.length = ds.length) (same : natOf cs = natOf ds) : cs = ds := by
  induction cs using List.reverseRecOn generalizing ds with
  | nil => exact (List.eq_nil_of_length_eq_zero long.symm).symm
  | append_singleton cs c ih =>
    obtain rfl | ⟨ds, d, rfl⟩ := ds.eq_nil_or_concat'
    · simp at long
    obtain ⟨front, last⟩ := List.forall_mem_append.mp digits
    obtain ⟨front', last'⟩ := List.forall_mem_append.mp others
    have digit := last c (by simp)
    have digit' := last' d (by simp)
    have low := digitLow digit
    have low' := digitLow digit'
    rw [natOfSnoc, natOfSnoc] at same
    obtain rfl : cs = ds := ih front front' (by simpa using long) (by omega)
    obtain rfl : c = d := digitUnique digit digit' (by omega)
    rfl

theorem natOfAppend (cs ds : List Char) :
    natOf (cs ++ ds) = natOf cs * 10 ^ ds.length + natOf ds := by
  induction ds using List.reverseRecOn with
  | nil => simp [natOf]
  | append_singleton ds d ih =>
    rw [← List.append_assoc, natOfSnoc, natOfSnoc, ih, List.length_append, List.length_singleton]
    ring

theorem leadingIs {cs : List Char} (some_digit : cs ≠ []) (digits : ∀ c ∈ cs, c.isDigit)
    (lead : cs.head? = some '0' → cs = ['0']) : Nat.toDigits 10 (natOf cs) = cs := by
  obtain ⟨c, rest, rfl⟩ := List.exists_cons_of_ne_nil some_digit
  by_cases zero : c = '0'
  · rw [lead (congrArg some zero)]
    rfl
  · have digit := digits c List.mem_cons_self
    have above : 0 < (digitValue? c).getD 0 := by
      refine Nat.pos_of_ne_zero fun none => zero ?_
      exact digitUnique digit (by decide) none
    have large : 10 ^ rest.length ≤ natOf (c :: rest) := by
      have split : natOf (c :: rest) = natOf [c] * 10 ^ rest.length + natOf rest := natOfAppend [c] rest
      have first : natOf [c] = (digitValue? c).getD 0 := by simp [natOf]
      rw [split, first]
      exact (Nat.le_mul_of_pos_left _ above).trans (Nat.le_add_right _ _)
    have short := (Nat.length_toDigits_le_iff (by decide) (Nat.succ_pos _)).mpr (natOfBound digits)
    have long : ¬ (Nat.toDigits 10 (natOf (c :: rest))).length ≤ rest.length := by
      intro short
      have some_more : 0 < rest.length := Nat.length_toDigits_pos.trans_le short
      exact Nat.not_lt.mpr large ((Nat.length_toDigits_le_iff (by decide) some_more).mp short)
    refine digitsUnique (digitsOf _) digits ?_ (natOfDigits _)
    rw [List.length_cons]
    omega

theorem withoutZerosIs (cs : List Char) : ∃ k, cs = withoutZeros cs ++ List.replicate k '0' := by
  let zero (c : Char) : Bool := c = '0'
  have zeros : cs.rtakeWhile zero = List.replicate (cs.rtakeWhile zero).length '0' :=
    List.eq_replicate_of_mem fun c c_in =>
      of_decide_eq_true (List.mem_rtakeWhile_imp (p := zero) c_in)
  refine ⟨(cs.rtakeWhile zero).length, ?_⟩
  rw [← zeros]
  exact List.rdropWhile_append_rtakeWhile.symm

theorem withoutZerosLast (cs : List Char) : (withoutZeros cs).getLast? ≠ some '0' := by
  intro zero
  obtain ⟨front, parts⟩ := List.getLast?_eq_some_iff.mp zero
  have some_digit : withoutZeros cs ≠ [] := by simp [parts]
  have last : (withoutZeros cs).getLast some_digit = '0' := by simp [parts]
  exact List.rdropWhile_last_not _ _ some_digit (decide_eq_true last)

theorem withoutZerosPadded {cs : List Char} (short : cs.getLast? ≠ some '0') (k : Nat) :
    withoutZeros (cs ++ List.replicate k '0') = cs := by
  induction k with
  | zero =>
    rw [List.replicate_zero, List.append_nil]
    refine List.rdropWhile_eq_self_iff.mpr fun some_digit zero => short ?_
    rw [List.getLast?_eq_some_getLast some_digit, of_decide_eq_true zero]
  | succ k ih =>
    have drop : withoutZeros (cs ++ List.replicate k '0' ++ ['0']) =
        withoutZeros (cs ++ List.replicate k '0') :=
      List.rdropWhile_concat_pos (fun c => decide (c = '0')) _ _ rfl
    rw [List.replicate_succ', ← List.append_assoc, drop, ih]

theorem fractionUnique {cs ds : List Char} (digits : ∀ c ∈ cs, c.isDigit)
    (others : ∀ d ∈ ds, d.isDigit) (short : cs.getLast? ≠ some '0') (short' : ds.getLast? ≠ some '0')
    (same : natOf cs * 10 ^ ds.length = natOf ds * 10 ^ cs.length) : cs = ds := by
  -- With zeros behind them both have one width.
  have padded : cs ++ List.replicate ds.length '0' = ds ++ List.replicate cs.length '0' := by
    refine digitsUnique ?_ ?_ ?_ ?_
    · exact List.forall_mem_append.mpr ⟨digits, digitsZeros _⟩
    · exact List.forall_mem_append.mpr ⟨others, digitsZeros _⟩
    · rw [List.length_append, List.length_append, List.length_replicate, List.length_replicate,
        Nat.add_comm]
    · rw [natOfZeros, natOfZeros, same]
  rw [← withoutZerosPadded short ds.length, padded, withoutZerosPadded short']

end Cutout.Decimal

namespace Cutout.Timestamp
open Decimal

structure Field (width : Nat) (digits : List Char) : Prop where
  length : digits.length = width
  digits : ∀ c ∈ digits, c.isDigit

theorem Field.unique {width : Nat} {cs ds : List Char} (field : Field width cs)
    (other : Field width ds) (same : natOf cs = natOf ds) : cs = ds :=
  digitsUnique field.digits other.digits (field.length.trans other.length.symm) same

theorem paddedIs (width n : Nat) (wide : 0 < width) (small : n < 10 ^ width) :
    ∃ cs, (padded width n).toList = cs ∧ Field width cs ∧ natOf cs = n := by
  have short := (Nat.length_toDigits_le_iff (by decide) wide).mpr small
  refine ⟨List.replicate (width - (Nat.toDigits 10 n).length) '0' ++ Nat.toDigits 10 n, ?_,
    ⟨?_, List.forall_mem_append.mpr ⟨digitsZeros _, digitsOf n⟩⟩, natOfPadded _ n⟩
  · rw [padded, String.toList_append, String.toList_ofList, Nat.toString_eq_ofList_toDigits,
      String.length_ofList, String.toList_ofList]
  · rw [List.length_append, List.length_replicate]
    omega

end Cutout.Timestamp
