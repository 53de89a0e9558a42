/-! Instants as RFC 3339 texts in UTC, by the proleptic Gregorian calendar.
Leap seconds are not held: a day has 86400 seconds. Years are counted from March, so that a leap day
is the last day of its year. -/
namespace Cutout.Timestamp

structure Date where
  year : Int
  month : Nat
  day : Nat
  deriving DecidableEq, Repr

def epochShift : Int := 719468

def eraDays : Int := 146097

def centuryDays : Nat := 36524

def cycleDays : Nat := 1461

/-- The year that a day is in, and the days of this year before it, for a number of days after
1 March of the year 0. The last of four centuries may be longer than the others, and so may the last
of four years. -/
def marchYear (days : Int) : Int × Nat :=
  let era := days.fdiv eraDays
  let dayOfEra := (days.fmod eraDays).toNat
  let century := min (dayOfEra / centuryDays) 3
  let dayOfCentury := dayOfEra - centuryDays * century
  let cycle := dayOfCentury / cycleDays
  let dayOfCycle := dayOfCentury % cycleDays
  let year := min (dayOfCycle / 365) 3
  (400 * era + (100 * century + 4 * cycle + year : Nat), dayOfCycle - 365 * year)

def Date.ofMarch (year : Int) (days : Nat) : Date :=
  let month := (5 * days + 2) / 153
  let day := days - (153 * month + 2) / 5 + 1
  if month < 10 then ⟨year, month + 3, day⟩ else ⟨year + 1, month - 9, day⟩

def Date.ofDays (days : Int) : Date :=
  let (year, day) := marchYear (days + epochShift)
  .ofMarch year day

def padded (width n : Nat) : String :=
  let text := toString n
  String.ofList (List.replicate (width - text.length) '0') ++ text

def withoutZeros (digits : List Char) : List Char :=
  (digits.reverse.dropWhile fun c => c = '0').reverse

def fraction (nanos : Nat) : String :=
  if nanos = 0 then "" else "." ++ String.ofList (withoutZeros (padded 9 nanos).toList)

def nanosPerSecond : Int := 1000000000

def secondsPerDay : Int := 86400

def ofNanos (nanos : Int) : Option String :=
  let seconds := nanos.fdiv nanosPerSecond
  let date := Date.ofDays (seconds.fdiv secondsPerDay)
  let inDay := (seconds.fmod secondsPerDay).toNat
  if date.year < 0 || 9999 < date.year then none
  else some <| padded 4 date.year.toNat ++ "-" ++ padded 2 date.month ++ "-" ++ padded 2 date.day ++
    "T" ++ padded 2 (inDay / 3600) ++ ":" ++ padded 2 (inDay / 60 % 60) ++ ":" ++
    padded 2 (inDay % 60) ++ fraction (nanos.fmod nanosPerSecond).toNat ++ "Z"

def nanos (millis : Int) : Int := millis * 1000000

def ofMillis (millis : Int) : Option String := ofNanos (nanos millis)

end Cutout.Timestamp
