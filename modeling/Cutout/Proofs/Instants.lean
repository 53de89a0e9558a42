import Cutout.Proofs.Calendar
import Cutout.Proofs.Fractions
import Mathlib.Data.Rat.Floor
import Mathlib.Tactic.Linarith
/-! What a timestamp says. A text has the fields of RFC 3339, these denote an instant, and every instant
of the years 0 to 9999 has one such text. -/
namespace Cutout.Timestamp
open Decimal

structure Written where
  year : List Char
  month : List Char
  day : List Char
  hour : List Char
  minute : List Char
  second : List Char
  fraction : List Char

namespace Written

def date (w : Written) : Date := ⟨natOf w.year, natOf w.month, natOf w.day⟩

def inDay (w : Written) : Nat := natOf w.hour * 3600 + natOf w.minute * 60 + natOf w.second

def whole (w : Written) : Int :=
  (daysTo (natOf w.year) (natOf w.month) (natOf w.day) - daysTo 1970 1 1) * 86400 + w.inDay

def part (w : Written) : ℚ := natOf w.fraction / 10 ^ w.fraction.length

def instant (w : Written) : ℚ := w.whole + w.part

def chars (w : Written) : List Char :=
  w.year ++ '-' :: (w.month ++ '-' :: (w.day ++ 'T' :: (w.hour ++ ':' :: (w.minute ++ ':' ::
    (pointed w.second w.fraction ++ ['Z'])))))

structure Canonical (w : Written) : Prop where
  year : Field 4 w.year
  month : Field 2 w.month
  day : Field 2 w.day
  hour : Field 2 w.hour
  minute : Field 2 w.minute
  second : Field 2 w.second
  fraction : ∀ c ∈ w.fraction, c.isDigit
  valid : w.date.Valid
  hours : natOf w.hour < 24
  minutes : natOf w.minute < 60
  seconds : natOf w.second < 60
  short : w.fraction.getLast? ≠ some '0'

end Written

def Denotes (text : String) (seconds : ℚ) : Prop :=
  ∃ w : Written, w.Canonical ∧ .ofList w.chars = text ∧ w.instant = seconds

theorem pointedInj {whole fraction whole' fraction' : List Char} (long : whole.length = whole'.length)
    (same : pointed whole fraction = pointed whole' fraction') :
    whole = whole' ∧ fraction = fraction' := by
  have parts (whole fraction : List Char) :
      pointed whole fraction = whole ++ if fraction.isEmpty then [] else '.' :: fraction := by
    unfold pointed
    split <;> simp
  rw [parts, parts] at same
  obtain ⟨front, rest⟩ := List.append_inj same long
  refine ⟨front, ?_⟩
  cases fraction <;> cases fraction' <;> simp_all

theorem Written.read {w other : Written} (canonical : w.Canonical) (canonical' : other.Canonical)
    (same : w.chars = other.chars) : w = other := by
  have split {width : Nat} {cs ds cs' ds' : List Char} {c : Char} (field : Field width cs)
      (field' : Field width ds) (same : cs ++ c :: cs' = ds ++ c :: ds') : cs = ds ∧ cs' = ds' := by
    obtain ⟨front, rest⟩ := List.append_inj same (field.length.trans field'.length.symm)
    exact ⟨front, (List.cons.inj rest).2⟩
  obtain ⟨year, same⟩ := split canonical.year canonical'.year same
  obtain ⟨month, same⟩ := split canonical.month canonical'.month same
  obtain ⟨day, same⟩ := split canonical.day canonical'.day same
  obtain ⟨hour, same⟩ := split canonical.hour canonical'.hour same
  obtain ⟨minute, same⟩ := split canonical.minute canonical'.minute same
  obtain ⟨second, fraction⟩ := pointedInj
    (canonical.second.length.trans canonical'.second.length.symm) (List.append_cancel_right same)
  cases w
  cases other
  congr

theorem Denotes.instantUnique {text : String} {seconds other : ℚ} (denotes : Denotes text seconds)
    (denotes' : Denotes text other) : seconds = other := by
  obtain ⟨w, canonical, text, rfl⟩ := denotes
  obtain ⟨w', canonical', text', rfl⟩ := denotes'
  rw [Written.read canonical canonical' (String.ofList_injective (text.trans text'.symm))]

theorem Written.Canonical.part {w : Written} (canonical : w.Canonical) : 0 ≤ w.part ∧ w.part < 1 := by
  have bound : (natOf w.fraction : ℚ) < 10 ^ w.fraction.length :=
    mod_cast natOfBound canonical.fraction
  exact ⟨by unfold Written.part; positivity, (div_lt_one (by positivity)).mpr bound⟩

theorem wholeUnique {w other : Written} (canonical : w.Canonical) (canonical' : other.Canonical)
    (same : w.instant = other.instant) : w.whole = other.whole ∧ w.part = other.part := by
  have floor {w : Written} (canonical : w.Canonical) : ⌊w.instant⌋ = w.whole := by
    obtain ⟨low, high⟩ := canonical.part
    unfold Written.instant
    exact Int.floor_eq_iff.mpr ⟨by linarith, by linarith⟩
  have whole : w.whole = other.whole := by rw [← floor canonical, same, floor canonical']
  refine ⟨whole, ?_⟩
  unfold Written.instant at same
  rw [whole] at same
  exact add_left_cancel same

theorem Written.Canonical.inDay {w : Written} (canonical : w.Canonical) : w.inDay < 86400 := by
  have hours := canonical.hours
  have minutes := canonical.minutes
  have seconds := canonical.seconds
  unfold Written.inDay
  omega

theorem Written.dateUnique {w other : Written} (canonical : w.Canonical) (canonical' : other.Canonical)
    (same : daysTo (natOf w.year) (natOf w.month) (natOf w.day) =
      daysTo (natOf other.year) (natOf other.month) (natOf other.day)) :
    w.year = other.year ∧ w.month = other.month ∧ w.day = other.day := by
  obtain ⟨year, month, day⟩ := daysToUnique canonical.valid canonical'.valid same
  exact ⟨canonical.year.unique canonical'.year year, canonical.month.unique canonical'.month month,
    canonical.day.unique canonical'.day day⟩

theorem Written.clockUnique {w other : Written} (canonical : w.Canonical) (canonical' : other.Canonical)
    (same : w.inDay = other.inDay) :
    w.hour = other.hour ∧ w.minute = other.minute ∧ w.second = other.second := by
  have minutes := canonical.minutes
  have seconds := canonical.seconds
  have minutes' := canonical'.minutes
  have seconds' := canonical'.seconds
  unfold Written.inDay at same
  exact ⟨canonical.hour.unique canonical'.hour (by omega),
    canonical.minute.unique canonical'.minute (by omega),
    canonical.second.unique canonical'.second (by omega)⟩

theorem Written.unique {w other : Written} (canonical : w.Canonical) (canonical' : other.Canonical)
    (same : w.instant = other.instant) : w = other := by
  obtain ⟨whole, part⟩ := wholeUnique canonical canonical' same
  have ofDay := canonical.inDay
  have ofDay' := canonical'.inDay
  unfold Written.whole at whole
  obtain ⟨year, month, day⟩ := dateUnique canonical canonical' (by omega)
  obtain ⟨hour, minute, second⟩ := clockUnique canonical canonical' (by omega)
  have fraction : w.fraction = other.fraction := by
    refine fractionUnique canonical.fraction canonical'.fraction canonical.short canonical'.short ?_
    rw [Written.part, Written.part, div_eq_div_iff (by positivity) (by positivity)] at part
    exact_mod_cast part
  cases w
  cases other
  congr

theorem Denotes.textUnique {text other : String} {seconds : ℚ} (denotes : Denotes text seconds)
    (denotes' : Denotes other seconds) : text = other := by
  obtain ⟨w, canonical, rfl, instant⟩ := denotes
  obtain ⟨w', canonical', rfl, instant'⟩ := denotes'
  rw [Written.unique canonical canonical' (instant.trans instant'.symm)]

theorem fractionIs {nanos : Nat} (small : nanos < 10 ^ 9) : ∃ cs,
    (∀ second, second ++ (fraction nanos).toList = pointed second cs) ∧ (∀ c ∈ cs, c.isDigit) ∧
    cs.getLast? ≠ some '0' ∧ natOf cs * 1000000000 = nanos * 10 ^ cs.length := by
  obtain ⟨all, text, field, value⟩ := paddedIs 9 nanos (by decide) small
  obtain ⟨k, parts⟩ := withoutZerosIs all
  have last := withoutZerosLast all
  have behind (second : List Char) :
      second ++ (fraction nanos).toList = pointed second (withoutZeros all) := by
    unfold fraction pointed
    rw [text]
    split_ifs with whole none_behind none_behind
    · simp
    · subst whole text
      exact absurd (by decide) none_behind
    · rw [List.isEmpty_iff.mp none_behind, List.nil_append] at parts
      have zero := natOfZeros [] k
      rw [List.nil_append, ← parts, value] at zero
      exact absurd (zero.trans (Nat.zero_mul _)) whole
    · simp
  generalize withoutZeros all = cs at parts last behind
  subst parts
  rw [natOfZeros] at value
  have long := field.length
  rw [List.length_append, List.length_replicate] at long
  refine ⟨cs, behind, (List.forall_mem_append.mp field.digits).1, last, ?_⟩
  calc natOf cs * 10 ^ 9 = natOf cs * 10 ^ (cs.length + k) := by rw [long]
    _ = natOf cs * 10 ^ k * 10 ^ cs.length := by rw [Nat.add_comm, pow_add, Nat.mul_assoc]
    _ = nanos * 10 ^ cs.length := by rw [value]

theorem writtenIs {date : Date} {inDay nanos : Nat} (valid : date.Valid)
    (some_year : 0 ≤ date.year ∧ date.year < 10000) (ofDay : inDay < 86400) (small : nanos < 10 ^ 9) :
    Denotes (padded 4 date.year.toNat ++ "-" ++ padded 2 date.month ++ "-" ++ padded 2 date.day ++
      "T" ++ padded 2 (inDay / 3600) ++ ":" ++ padded 2 (inDay / 60 % 60) ++ ":" ++
      padded 2 (inDay % 60) ++ fraction nanos ++ "Z")
      (((date.count - 719528) * 86400 + inDay : Int) + (nanos : ℚ) / 1000000000) := by
  have some_month := valid.ofYear
  have some_day := valid.ofMonth
  have months := monthLengthBound date.year date.month
  obtain ⟨year, yearText, ofYear, yearIs⟩ := paddedIs 4 date.year.toNat (by decide) (by omega)
  obtain ⟨month, monthText, ofMonth, monthIs⟩ := paddedIs 2 date.month (by decide) (by omega)
  obtain ⟨day, dayText, ofDay, dayIs⟩ := paddedIs 2 date.day (by decide) (by omega)
  obtain ⟨hour, hourText, ofHour, hourIs⟩ := paddedIs 2 (inDay / 3600) (by decide) (by omega)
  obtain ⟨minute, minuteText, ofMinute, minuteIs⟩ :=
    paddedIs 2 (inDay / 60 % 60) (by decide) (by omega)
  obtain ⟨second, secondText, ofSecond, secondIs⟩ := paddedIs 2 (inDay % 60) (by decide) (by omega)
  have hours : natOf hour < 24 := by omega
  have minutes : natOf minute < 60 := by omega
  have seconds : natOf second < 60 := by omega
  obtain ⟨behind, behindText, digits, last, behindIs⟩ := fractionIs small
  have sameYear : (natOf year : Int) = date.year := by omega
  have sameDate : (⟨natOf year, natOf month, natOf day⟩ : Date) = date := by
    rw [sameYear, monthIs, dayIs]
  have ofDate : Date.Valid ⟨natOf year, natOf month, natOf day⟩ := sameDate ▸ valid
  have whole : Written.whole ⟨year, month, day, hour, minute, second, behind⟩ =
      (date.count - 719528) * 86400 + inDay := by
    simp only [Written.whole, Written.inDay, ← countIs, sameDate, epochIs]
    omega
  have part : Written.part ⟨year, month, day, hour, minute, second, behind⟩ = nanos / 1000000000 := by
    rw [Written.part, div_eq_div_iff (by positivity) (by norm_num)]
    exact_mod_cast behindIs
  refine ⟨⟨year, month, day, hour, minute, second, behind⟩, ⟨ofYear, ofMonth, ofDay, ofHour, ofMinute,
    ofSecond, digits, ofDate, hours, minutes, seconds, last⟩, ?_, ?_⟩
  · apply String.toList_injective
    simp only [String.toList_ofList, Written.chars, String.toList_append, yearText, monthText, dayText,
      hourText, minuteText, secondText, ← behindText]
    simp
  · rw [Written.instant, whole, part]

def startOf (year : Nat) : Int := (daysTo year 1 1 - daysTo 1970 1 1) * 86400

theorem startOfIs (year : Nat) : startOf year = (yearStart year - 719528) * 86400 := by
  have start := countIs year 1 1
  simp only [Date.count, Finset.Ico_self, Finset.sum_empty] at start
  rw [startOf, epochIs]
  omega

theorem startOfFirst : startOf 0 = -62167219200 := startOfIs 0

theorem startOfEnd : startOf 10000 = 253402300800 := startOfIs 10000

theorem Denotes.inYears {text : String} {seconds : ℚ} (denotes : Denotes text seconds) :
    startOf 0 ≤ seconds ∧ seconds < startOf 10000 := by
  obtain ⟨w, canonical, -, rfl⟩ := denotes
  obtain ⟨low, high⟩ := canonical.part
  have ofDay := canonical.inDay
  have year := natOfBound canonical.year.digits
  rw [canonical.year.length] at year
  have year : w.date.year < 10000 := Int.ofNat_lt.mpr year
  have end_count : w.date.count < 3652425 := (canonical.valid.before 10000).mp year
  rw [Written.date, countIs] at end_count
  have first : startOf 0 ≤ w.whole := by
    rw [startOfFirst, Written.whole, epochIs]
    omega
  have last : w.whole + 1 ≤ startOf 10000 := by
    rw [startOfEnd, Written.whole, epochIs]
    omega
  have first : (startOf 0 : ℚ) ≤ w.whole := mod_cast first
  have last : (w.whole + 1 : ℚ) ≤ startOf 10000 := mod_cast last
  unfold Written.instant
  exact ⟨by linarith, by linarith⟩

theorem secondsIs (nanos : Int) :
    ((nanos / 1000000000 : Int) : ℚ) + (nanos % 1000000000).toNat / 1000000000 = nanos / 1000000000 := by
  have parts : nanos / 1000000000 * 1000000000 + ((nanos % 1000000000).toNat : Int) = nanos := by omega
  have parts : ((nanos / 1000000000 : Int) : ℚ) * 1000000000 + (nanos % 1000000000).toNat = nanos :=
    mod_cast parts
  rw [add_div' _ _ _ (by norm_num), parts]

theorem ofNanosCases (nanos : Int) :
    ((startOf 0 * 1000000000 ≤ nanos ∧ nanos < startOf 10000 * 1000000000) ∧
      ∃ text, ofNanos nanos = some text ∧ Denotes text (nanos / 1000000000)) ∨
    (¬ (startOf 0 * 1000000000 ≤ nanos ∧ nanos < startOf 10000 * 1000000000) ∧
      ofNanos nanos = none) := by
  -- Rounded down, so that before 1970 too the rest is a time of the day.
  have seconds : nanos.fdiv nanosPerSecond = nanos / 1000000000 :=
    Int.fdiv_eq_ediv_of_nonneg nanos (by decide)
  have behind : nanos.fmod nanosPerSecond = nanos % 1000000000 :=
    Int.fmod_eq_emod_of_nonneg nanos (by decide)
  have days (seconds : Int) : seconds.fdiv secondsPerDay = seconds / 86400 :=
    Int.fdiv_eq_ediv_of_nonneg seconds (by decide)
  have inDay (seconds : Int) : seconds.fmod secondsPerDay = seconds % 86400 :=
    Int.fmod_eq_emod_of_nonneg seconds (by decide)
  obtain ⟨valid, count⟩ := ofDaysIs (nanos / 1000000000 / 86400)
  have first := valid.before 0
  have last := valid.before 10000
  rw [startOfFirst, startOfEnd]
  unfold ofNanos
  simp only [seconds, behind, days, inDay]
  generalize Date.ofDays (nanos / 1000000000 / 86400) = date at valid count first last ⊢
  rw [show yearStart 0 = 0 from rfl] at first
  rw [show yearStart 10000 = 3652425 from rfl] at last
  split_ifs with outside <;> simp only [Bool.or_eq_true, decide_eq_true_eq] at outside
  · right
    refine ⟨?_, rfl⟩
    omega
  · left
    refine ⟨by omega, _, rfl, ?_⟩
    have denotes := writtenIs valid (by omega)
      (show (nanos / 1000000000 % 86400).toNat < 86400 by omega)
      (show (nanos % 1000000000).toNat < 10 ^ 9 by omega)
    have whole : (date.count - 719528) * 86400 + ((nanos / 1000000000 % 86400).toNat : Int) =
        nanos / 1000000000 := by omega
    rw [whole, secondsIs] at denotes
    exact denotes

theorem ofNanosExact (nanos : Int) (text : String) :
    ofNanos nanos = some text ↔ Denotes text (nanos / 1000000000) := by
  obtain ⟨inside, written, is_some, denotes⟩ | ⟨outside, is_none⟩ := ofNanosCases nanos
  · rw [is_some, Option.some_inj]
    constructor
    · rintro rfl
      exact denotes
    · exact denotes.textUnique
  · rw [is_none]
    refine ⟨nofun, fun denotes => absurd ?_ outside⟩
    obtain ⟨first, last⟩ := denotes.inYears
    rw [le_div_iff₀ (by norm_num)] at first
    rw [div_lt_iff₀ (by norm_num)] at last
    exact ⟨mod_cast first, mod_cast last⟩

theorem instantsExact (millis : Int64) :
    (∀ text, ofMillis millis.toInt = some text ↔ Denotes text (millis.toInt / 1000)) ∧
    ((ofMillis millis.toInt).isSome ↔
      startOf 0 * 1000 ≤ millis.toInt ∧ millis.toInt < startOf 10000 * 1000) ∧
    (∀ (other : Int64) (text : String), ofMillis millis.toInt = some text →
      ofMillis other.toInt = some text → other = millis) ∧
    -2 ^ 127 ≤ nanos millis.toInt ∧ nanos millis.toInt < 2 ^ 127 := by
  have texts (millis : Int64) (text : String) :
      ofMillis millis.toInt = some text ↔ Denotes text (millis.toInt / 1000) := by
    have scaled : ((nanos millis.toInt : Int) : ℚ) / 1000000000 = millis.toInt / 1000 := by
      rw [nanos, Int.cast_mul]
      norm_num
      ring
    rw [ofMillis, ofNanosExact, scaled]
  refine ⟨texts millis, ?_, ?_, ?_⟩
  · have cases := ofNanosCases (nanos millis.toInt)
    unfold ofMillis
    obtain ⟨inside, written, is_some, -⟩ | ⟨outside, is_none⟩ := cases
    · rw [is_some]
      unfold nanos at inside
      exact iff_of_true rfl ⟨by omega, by omega⟩
    · rw [is_none]
      unfold nanos at outside
      exact iff_of_false nofun fun inside => outside ⟨by omega, by omega⟩
  · intro other text denotes denotes'
    have same := ((texts millis text).mp denotes).instantUnique ((texts other text).mp denotes')
    rw [div_left_inj' (by norm_num)] at same
    exact Int64.toInt_inj.mp (mod_cast same.symm)
  · have low := millis.le_toInt
    have high := millis.toInt_lt
    unfold nanos
    omega

example : ofMillis (-1) = some "1969-12-31T23:59:59.999Z" := by decide +kernel

end Cutout.Timestamp
