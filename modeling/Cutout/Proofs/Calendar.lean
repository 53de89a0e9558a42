import Cutout.Timestamp
import Mathlib.Algebra.BigOperators.Intervals
import Mathlib.Algebra.Order.BigOperators.Group.Finset
import Mathlib.Tactic.IntervalCases
/-! The proleptic Gregorian calendar. Days are counted by the lengths of the years and months before them.
No two dates have one count, and the date of a day is the one with its count. -/
namespace Cutout.Timestamp

def IsLeap (year : Int) : Prop := 4 ∣ year ∧ (¬ 100 ∣ year ∨ 400 ∣ year)

instance (year : Int) : Decidable (IsLeap year) := by unfold IsLeap; infer_instance

def monthLength (year : Int) : Nat → Nat
  | 2 => if IsLeap year then 29 else 28
  | 4 | 6 | 9 | 11 => 30
  | _ => 31

def yearLength (year : Int) : Nat := ∑ month ∈ Finset.Ico 1 13, monthLength year month

def daysTo (year month day : Nat) : Nat :=
  ∑ y ∈ Finset.Ico 0 year, yearLength y + (∑ m ∈ Finset.Ico 1 month, monthLength year m + (day - 1))

structure Date.Valid (date : Date) : Prop where
  ofYear : 1 ≤ date.month ∧ date.month ≤ 12
  ofMonth : 1 ≤ date.day ∧ date.day ≤ monthLength date.year date.month

theorem monthSum (year : Int) {month : Nat} (first : 1 ≤ month) (last : month ≤ 13) :
    (∑ m ∈ Finset.Ico 1 month, monthLength year m : Nat) =
      if month ≤ 2 then 31 * (month - 1)
      else 59 + (if IsLeap year then 1 else 0) + (153 * (month - 3) + 2) / 5 := by
  by_cases leap : IsLeap year <;> interval_cases month <;>
    simp [Finset.sum_Ico_succ_top, monthLength, leap]

theorem yearLengthIs (year : Int) : yearLength year = 365 + if IsLeap year then 1 else 0 := by
  rw [yearLength, monthSum year (by decide) (by decide), if_neg (by decide)]
  split_ifs <;> rfl

theorem monthLengthBound (year : Int) (month : Nat) : monthLength year month ≤ 31 := by
  unfold monthLength
  split
  · split_ifs <;> decide
  all_goals decide

def yearStart (year : Int) : Int :=
  365 * year + (year + 3) / 4 - (year + 99) / 100 + (year + 399) / 400

theorem yearStartNext (year : Int) : yearStart (year + 1) = yearStart year + yearLength year := by
  rw [yearLengthIs, yearStart, yearStart]
  split_ifs with leap <;> rw [IsLeap] at leap <;> omega

theorem yearSum (year : Nat) : (∑ y ∈ Finset.Ico 0 year, yearLength y : Nat) = yearStart year := by
  induction year with
  | zero => rfl
  | succ year ih =>
    rw [Finset.sum_Ico_succ_top (Nat.zero_le year), Nat.cast_add, ih, Nat.cast_succ, yearStartNext]

theorem sumUnique {f : Nat → Nat} {start a b m n : Nat} (first : start ≤ a) (second : start ≤ b)
    (same : ∑ i ∈ Finset.Ico start a, f i + m = ∑ i ∈ Finset.Ico start b, f i + n)
    (inside : m < f a) (within : n < f b) : a = b ∧ m = n := by
  have later {c d : Nat} (low : start ≤ c) (less : c < d) :
      ∑ i ∈ Finset.Ico start c, f i + f c ≤ ∑ i ∈ Finset.Ico start d, f i := by
    rw [← Finset.sum_Ico_succ_top low]
    exact Finset.sum_le_sum_of_subset (Finset.Ico_subset_Ico_right less)
  rcases lt_trichotomy a b with less | rfl | more
  · have := later first less
    omega
  · exact ⟨rfl, by omega⟩
  · have := later second more
    omega

theorem Date.Valid.inMonth {date : Date} (valid : date.Valid) :
    date.day - 1 < monthLength date.year date.month := by
  have := valid.ofMonth
  omega

theorem Date.Valid.inYear {date : Date} (valid : date.Valid) :
    ∑ m ∈ Finset.Ico 1 date.month, monthLength date.year m + (date.day - 1) <
      yearLength date.year := by
  have inside := valid.inMonth
  have last := valid.ofYear.2
  have months : ∑ m ∈ Finset.Ico 1 date.month, monthLength date.year m +
      monthLength date.year date.month ≤ yearLength date.year := by
    rw [yearLength, ← Finset.sum_Ico_succ_top valid.ofYear.1]
    exact Finset.sum_le_sum_of_subset (Finset.Ico_subset_Ico_right (by omega))
  omega

theorem daysToUnique {year month day year' month' day' : Nat} (valid : Date.Valid ⟨year, month, day⟩)
    (other : Date.Valid ⟨year', month', day'⟩)
    (same : daysTo year month day = daysTo year' month' day') :
    year = year' ∧ month = month' ∧ day = day' := by
  obtain ⟨rfl, rest⟩ := sumUnique (f := fun y => yearLength y) (Nat.zero_le _) (Nat.zero_le _) same
    valid.inYear other.inYear
  obtain ⟨rfl, last⟩ := sumUnique valid.ofYear.1 other.ofYear.1 rest valid.inMonth other.inMonth
  have some_day : 1 ≤ day := valid.ofMonth.1
  have other_day : 1 ≤ day' := other.ofMonth.1
  exact ⟨rfl, rfl, by omega⟩

def marchStart (year : Int) : Int := 365 * year + year / 4 - year / 100 + year / 400

theorem marchStartIs (era : Int) {century cycle year : Nat} (centuries : century ≤ 3)
    (cycles : cycle ≤ 24) (years : year ≤ 3) :
    marchStart (400 * era + (100 * century + 4 * cycle + year : Nat)) =
      146097 * era + (36524 * century + 1461 * cycle + 365 * year : Nat) := by
  unfold marchStart
  omega

theorem marchLeapIs (era : Int) {century cycle year : Nat} (centuries : century ≤ 3)
    (cycles : cycle ≤ 24) (years : year ≤ 3) :
    IsLeap (400 * era + (100 * century + 4 * cycle + year : Nat) + 1) ↔
      year = 3 ∧ (cycle < 24 ∨ century = 3) := by
  unfold IsLeap
  omega

theorem marchYearIs (days : Int) : ∃ year : Int, ∃ day : Nat, marchYear days = (year, day) ∧
    days = marchStart year + day ∧ day < 365 + if IsLeap (year + 1) then 1 else 0 := by
  refine ⟨_, _, rfl, ?_⟩
  have era : days.fdiv eraDays = days / 146097 := Int.fdiv_eq_ediv_of_nonneg days (by decide)
  have ofEra : days.fmod eraDays = days % 146097 := Int.fmod_eq_emod_of_nonneg days (by decide)
  obtain ⟨dayOfEra, inEra⟩ := Int.eq_ofNat_of_zero_le (Int.emod_nonneg days (b := 146097) (by decide))
  have endOfEra : dayOfEra < 146097 := by omega
  simp only [era, ofEra, inEra, Int.toNat_natCast, centuryDays, cycleDays]
  -- The last century of an era and the last year of a cycle may have a day more, which stays with them.
  generalize century : min (dayOfEra / 36524) 3 = c
  generalize cycle : (dayOfEra - 36524 * c) / 1461 = q
  generalize year : min ((dayOfEra - 36524 * c) % 1461 / 365) 3 = y
  have centuries : c ≤ 3 := by omega
  have cycles : q ≤ 24 := by omega
  have years : y ≤ 3 := by omega
  rw [marchStartIs _ centuries cycles years]
  split_ifs with leap <;> rw [marchLeapIs _ centuries cycles years] at leap <;> omega

def Date.count (date : Date) : Int :=
  yearStart date.year + (∑ m ∈ Finset.Ico 1 date.month, monthLength date.year m : Nat) +
    (date.day - 1 : Nat)

theorem marchStartOf (year : Int) :
    yearStart year + (59 + if IsLeap year then 1 else 0 : Nat) = marchStart year + 60 := by
  unfold yearStart marchStart
  split_ifs with leap <;> rw [IsLeap] at leap <;> omega

theorem yearStartOf (year : Int) : yearStart (year + 1) = marchStart year + 366 := by
  have march := marchStartOf year
  have next := yearStartNext year
  rw [yearLengthIs] at next
  split_ifs at march next <;> omega

theorem ofMarchIs {year : Int} {days : Nat}
    (within : days < 365 + if IsLeap (year + 1) then 1 else 0) :
    (Date.ofMarch year days).Valid ∧ (Date.ofMarch year days).count = marchStart year + days + 60 := by
  have march := marchStartOf year
  have next := yearStartOf year
  have some_month : (5 * days + 2) / 153 ≤ 11 := by split_ifs at within <;> omega
  unfold Date.ofMarch Date.count
  dsimp only
  generalize index : (5 * days + 2) / 153 = month at some_month ⊢
  split_ifs with same
  · have inside : days - (153 * month + 2) / 5 + 1 ≤ monthLength year (month + 3) := by
      interval_cases month <;> simp only [monthLength] <;> omega
    refine ⟨⟨⟨?_, ?_⟩, ?_, inside⟩, ?_⟩ <;> dsimp only
    · omega
    · omega
    · omega
    · rw [monthSum _ (by omega) (by omega), if_neg (by omega)]
      omega
  · -- January and February are of the next year.
    have inside : days - (153 * month + 2) / 5 + 1 ≤ monthLength (year + 1) (month - 9) := by
      interval_cases month <;> simp only [monthLength] <;> split_ifs at within ⊢ <;> omega
    refine ⟨⟨⟨?_, ?_⟩, ?_, inside⟩, ?_⟩ <;> dsimp only
    · omega
    · omega
    · omega
    · rw [monthSum _ (by omega) (by omega), if_pos (by omega)]
      omega

theorem ofDaysIs (days : Int) :
    (Date.ofDays days).Valid ∧ (Date.ofDays days).count = days + 719528 := by
  obtain ⟨year, day, march, count, within⟩ := marchYearIs (days + epochShift)
  have dated := ofMarchIs within
  rw [Date.ofDays, march]
  refine ⟨dated.1, ?_⟩
  rw [dated.2, ← count, epochShift]
  omega

theorem yearStartMono {year later : Int} (order : year ≤ later) : yearStart year ≤ yearStart later := by
  have next (year : Int) : yearStart year ≤ yearStart (year + 1) := by
    rw [yearStartNext]
    omega
  exact monotone_int_of_le_succ next order

theorem Date.Valid.before {date : Date} (valid : date.Valid) (year : Int) :
    date.year < year ↔ date.count < yearStart year := by
  have inside := valid.inYear
  have next := yearStartNext date.year
  unfold Date.count
  constructor
  · intro less
    have := yearStartMono (Int.add_one_le_of_lt less)
    omega
  · intro less
    by_contra later
    have := yearStartMono (Int.not_lt.mp later)
    omega

theorem countIs (year month day : Nat) : Date.count ⟨year, month, day⟩ = daysTo year month day := by
  rw [Date.count, daysTo, Nat.cast_add, Nat.cast_add, yearSum, Int.add_assoc]

theorem epochIs : daysTo 1970 1 1 = 719528 := by
  have count : Date.count ⟨1970, 1, 1⟩ = 719528 := by simp [Date.count, yearStart]
  exact Int.ofNat_inj.mp ((countIs 1970 1 1).symm.trans count)

end Cutout.Timestamp
