import Cutout.Binary64
/-! Decimal texts of binary64 numbers, read and written. `shortest` finds the fewest digits that
read back as the number; `fixed` rounds its exact value to a number of places. -/
namespace Cutout.Decimal

structure Digits where
  digits : Nat
  exponent : Int
  deriving DecidableEq, Repr

def scale (n : Nat) (e : Int) : Nat × Nat :=
  if 0 ≤ e then (n * Nat.pow 10 e.natAbs, 1) else (n, Nat.pow 10 e.natAbs)

/-- The reals that read back as `units`, in quarters of a unit: both ends, and whether they
belong. -/
structure Span where
  low : Nat
  high : Nat
  closed : Bool

def Span.of (units : Nat) : Span :=
  let step := 1 <<< Binary64.spacing units
  let below := if Binary64.spacing units ≠ 0 ∧ units = step <<< 52 then step else 2 * step
  { low := 4 * units - below
    high := 4 * units + 2 * step
    closed := (units / step) % 2 == 0 }

def Span.holds (s : Span) (n : Nat) (e : Int) : Bool :=
  let (num, den) := scale n e
  let at4 := num <<< (Binary64.unitBits + 2)
  if s.closed then s.low * den ≤ at4 && at4 ≤ s.high * den
  else s.low * den < at4 && at4 < s.high * den

def onGrid (s : Span) (units : Nat) (e : Int) : Option Digits :=
  let (num, den) := scale 1 e
  let grid := num <<< Binary64.unitBits
  let lower := units * den / grid
  let rest := units * den - lower * grid
  let downFirst := 2 * rest ≤ grid
  match s.holds lower e && lower ≠ 0, s.holds (lower + 1) e with
  | true, true => some ⟨if downFirst then lower else lower + 1, e⟩
  | true, false => some ⟨lower, e⟩
  | false, true => some ⟨lower + 1, e⟩
  | false, false => none

def firstOnGrid (s : Span) (units : Nat) : Nat → Int → Digits
  | 0, e => (onGrid s units e).getD ⟨0, 0⟩
  | n + 1, e => (onGrid s units e).getD (firstOnGrid s units n (e - 1))

def magnitude (units : Nat) : Int :=
  ((units.log2 : Int) - Binary64.unitBits) * 30103 / 100000 + 1

def Digits.trim : Nat → Digits → Digits
  | 0, d => d
  | n + 1, d =>
    if d.digits ≠ 0 ∧ d.digits % 10 = 0 then trim n ⟨d.digits / 10, d.exponent + 1⟩ else d

def shortest (units : Nat) : Digits :=
  (firstOnGrid (.of units) units 20 (magnitude units)).trim 20

def zeros (n : Nat) : String := String.ofList (List.replicate n '0')

def Digits.plain (d : Digits) : String :=
  let text := toString d.digits
  if 0 ≤ d.exponent then text ++ zeros d.exponent.natAbs
  else
    let places := d.exponent.natAbs
    if places < text.length then
      String.ofList (text.toList.take (text.length - places)) ++ "." ++
        String.ofList (text.toList.drop (text.length - places))
    else "0." ++ zeros (places - text.length) ++ text

def plain : Binary64 → String
  | .nan => "NaN"
  | .infinite negative => if negative then "-inf" else "inf"
  | .finite negative units =>
    (if negative then "-" else "") ++ if units = 0 then "0" else (shortest units).plain

def fixedPlain (amount : Int) (places : Nat) : String :=
  if amount = 0 then "0"
  else (if amount < 0 then "-" else "") ++ (Digits.trim places ⟨amount.natAbs, -places⟩).plain

def toPlaces (places : Nat) (negative : Bool) (units : Nat) : Int :=
  let n := Binary64.roundDiv (units * Nat.pow 10 places) (1 <<< Binary64.unitBits)
  if negative then -(n : Int) else n

def coordinate : Binary64 → String
  | .nan => "NaN"
  | .infinite negative => if negative then "-inf" else "inf"
  | .finite negative units => fixedPlain (toPlaces 7 negative units) 7

def digitValue? (c : Char) : Option Nat :=
  if '0' ≤ c ∧ c ≤ '9' then some (c.toNat - '0'.toNat) else none

def isDigit (c : Char) : Bool := (digitValue? c).isSome

def natOf (cs : List Char) : Nat :=
  cs.foldl (fun n c => n * 10 + (digitValue? c).getD 0) 0

def sign : List Char → Bool × List Char
  | '-' :: r => (true, r)
  | '+' :: r => (false, r)
  | r => (false, r)

def int? (cs : List Char) : Option Int :=
  let (negative, ds) := sign cs
  if ds.isEmpty || !ds.all isDigit then none
  else some (if negative then -(natOf ds : Int) else natOf ds)

def number? (negative : Bool) (cs : List Char) : Option Binary64 :=
  let whole := cs.takeWhile isDigit
  let rest := cs.dropWhile isDigit
  let (fraction, rest) := match rest with
    | '.' :: r => (r.takeWhile isDigit, r.dropWhile isDigit)
    | r => ([], r)
  if whole.isEmpty && fraction.isEmpty then none
  else
    let power : Option Int := match rest with
      | [] => some 0
      | c :: r => if c = 'e' ∨ c = 'E' then int? r else none
    power.map fun p =>
      .ofDecimal negative (natOf (whole ++ fraction)) (p - fraction.length)

def read? (text : String) : Option Binary64 :=
  let (negative, cs) := sign text.toList
  match String.ofList (cs.map Char.toLower) with
  | "inf" | "infinity" => some (.infinite negative)
  | "nan" => some .nan
  | _ => number? negative cs

end Cutout.Decimal
