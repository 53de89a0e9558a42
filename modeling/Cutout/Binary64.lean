/-! IEEE 754 binary64 numbers by exact integers: a finite number is a count of units of 2^-1074,
the smallest spacing of the format. Every operation that rounds goes through `nearest`.
NaN has one form; signalling and payloads are not held. -/
namespace Cutout

inductive Binary64 where
  | nan
  | infinite (negative : Bool)
  | finite (negative : Bool) (units : Nat)
  deriving DecidableEq, Repr

namespace Binary64

def unitBits : Nat := 1074

def zero : Binary64 := finite false 0

def roundDiv (n d : Nat) : Nat :=
  let q := n / d
  let twice := 2 * (n % d)
  if d < twice || (twice == d && q % 2 == 1) then q + 1 else q

def spacing (units : Nat) : Nat := units.log2 - 52

def nearest (negative : Bool) (n d : Nat) : Binary64 :=
  let scaled := n <<< unitBits
  let step := spacing (scaled / d)
  let units := roundDiv scaled (d <<< step) <<< step
  if units < 1 <<< (1024 + unitBits) then finite negative units else infinite negative

def ofInt (i : Int) : Binary64 := nearest (i < 0) i.natAbs 1

def ofRatio (i : Int) (d : Nat) : Binary64 := nearest (i < 0) i.natAbs d

def ofNat (n : Nat) : Binary64 := nearest false n 1

def ofDecimal (negative : Bool) (digits : Nat) (exponent : Int) : Binary64 :=
  if digits = 0 then finite negative 0
  else if exponent > 400 then infinite negative
  else
    let length : Int := (digits.log2 : Int) + 1
    if exponent < -400 - length then finite negative 0
    else if exponent < 0 then nearest negative digits (Nat.pow 10 exponent.natAbs)
    else nearest negative (digits * Nat.pow 10 exponent.natAbs) 1

def units? : Binary64 → Option Int
  | finite negative units => some (if negative then -units else units)
  | _ => none

def isFinite (x : Binary64) : Bool := x.units?.isSome

def compare? : Binary64 → Binary64 → Option Ordering
  | nan, _ => none
  | _, nan => none
  | infinite a, infinite b => some (compare (!a).toNat (!b).toNat)
  | infinite a, finite _ _ => some (if a then .lt else .gt)
  | finite _ _, infinite b => some (if b then .gt else .lt)
  | finite a m, finite b n =>
    some (compare (if a then -(m : Int) else m) (if b then -(n : Int) else n))

def lt (a b : Binary64) : Bool := compare? a b == some .lt

def le (a b : Binary64) : Bool :=
  match compare? a b with
  | some .lt | some .eq => true
  | _ => false

def same (a b : Binary64) : Bool := compare? a b == some .eq

def neg : Binary64 → Binary64
  | nan => nan
  | infinite a => infinite !a
  | finite a m => finite (!a) m

def abs : Binary64 → Binary64
  | nan => nan
  | infinite _ => infinite false
  | finite _ m => finite false m

def mul : Binary64 → Binary64 → Binary64
  | nan, _ => nan
  | _, nan => nan
  | infinite a, infinite b => infinite (a != b)
  | infinite a, finite b n => if n = 0 then nan else infinite (a != b)
  | finite a m, infinite b => if m = 0 then nan else infinite (a != b)
  | finite a m, finite b n => nearest (a != b) (m * n) (1 <<< (2 * unitBits))

def div : Binary64 → Binary64 → Binary64
  | nan, _ => nan
  | _, nan => nan
  | infinite _, infinite _ => nan
  | infinite a, finite b _ => infinite (a != b)
  | finite a _, infinite b => finite (a != b) 0
  | finite a m, finite b n =>
    if n = 0 then (if m = 0 then nan else infinite (a != b)) else nearest (a != b) m n

def add : Binary64 → Binary64 → Binary64
  | nan, _ => nan
  | _, nan => nan
  | infinite a, infinite b => if a = b then infinite a else nan
  | infinite a, finite _ _ => infinite a
  | finite _ _, infinite b => infinite b
  | finite a m, finite b n =>
    let sum : Int := (if a then -(m : Int) else m) + (if b then -(n : Int) else n)
    if sum = 0 then finite (a && b) 0 else nearest (sum < 0) sum.natAbs (1 <<< unitBits)

def sub (a b : Binary64) : Binary64 := add a b.neg

def round? : Binary64 → Option Int
  | finite negative units =>
    let n := (2 * units + (1 <<< unitBits)) >>> (unitBits + 1)
    some (if negative then -(n : Int) else n)
  | _ => none

end Binary64
end Cutout
