import Cutout.Decimal
import Cutout.Keyed
/-! JSON values: reader and printer. The reader takes what RFC 8259 allows, to a limited depth; of
duplicate keys the last value counts. Numbers with a fraction or an exponent are computed by one
rounded multiplication or division, so the last bit may differ from the nearest number. -/
namespace Cutout

inductive Json where
  | null
  | bool (value : Bool)
  | integer (value : Int)
  | real (value : Binary64)
  | string (value : String)
  | array (items : List Json)
  | object (fields : List (String × Json))
  deriving Repr

namespace Json

def maxMantissa : Nat := 1 <<< 64 - 1

def gather : Nat → Nat → List Char → Nat × Nat × List Char
  | mantissa, taken, [] => (mantissa, taken, [])
  | mantissa, taken, c :: cs =>
    let next := mantissa * 10 + (Decimal.digitValue? c).getD 0
    if next ≤ maxMantissa then gather next (taken + 1) cs else (mantissa, taken, c :: cs)

def scaled : Nat → Binary64 → Int → Option Binary64
  | 0, _, _ => none
  | n + 1, x, exponent =>
    if exponent.natAbs ≤ 308 then
      let power := Binary64.ofNat (Nat.pow 10 exponent.natAbs)
      if 0 ≤ exponent then
        let product := x.mul power
        if product.isFinite then some product else none
      else some (x.div power)
    else if x = .zero then some x
    else if 0 ≤ exponent then none
    else scaled n (x.div (.ofNat (Nat.pow 10 308))) (exponent + 308)

def maxExponent : Nat := 1 <<< 31 - 1

def ofParts (negative : Bool) (whole fraction : List Char) (hasFraction : Bool)
    (exponent : Option (Bool × List Char)) : Option Json :=
  let (mantissa, _, left) := gather 0 0 whole
  if left.isEmpty && !hasFraction && exponent.isNone then
    if !negative then some (.integer mantissa)
    else if mantissa = 0 ∨ 1 <<< 63 < mantissa then some (.real (.neg (.ofNat mantissa)))
    else some (.integer (-mantissa))
  else
    let (mantissa, taken, _) := gather mantissa 0 fraction
    let shift : Int := left.length - taken
    let signed (x : Binary64) := if negative then x.neg else x
    match exponent with
    | none => (scaled 8 (.ofNat mantissa) shift).map fun x => .real (signed x)
    | some (down, digits) =>
      let size := Decimal.natOf digits
      if maxExponent < size then
        if mantissa ≠ 0 && !down then none else some (.real (signed .zero))
      else
        let power := shift + (if down then -(size : Int) else size)
        if mantissa ≠ 0 ∧ power < -2000 then some (.real (signed .zero))
        else (scaled 8 (.ofNat mantissa) power).map fun x => .real (signed x)

def readExponent (cs : List Char) : Option ((Bool × List Char) × List Char) :=
  let (down, rest) := Decimal.sign cs
  let digits := rest.takeWhile Decimal.isDigit
  if digits.isEmpty then none else some ((down, digits), rest.dropWhile Decimal.isDigit)

def readNumber (negative : Bool) (cs : List Char) : Option (Json × List Char) := do
  let whole := cs.takeWhile Decimal.isDigit
  let rest := cs.dropWhile Decimal.isDigit
  if whole.isEmpty || (whole.head? == some '0' && 1 < whole.length) then none
  else
    let (fraction, hasFraction, rest) := match rest with
      | '.' :: r => (r.takeWhile Decimal.isDigit, true, r.dropWhile Decimal.isDigit)
      | r => ([], false, r)
    if hasFraction && fraction.isEmpty then none
    else match rest with
      | c :: r =>
        if c = 'e' ∨ c = 'E' then do
          let (exponent, rest) ← readExponent r
          let n ← ofParts negative whole fraction hasFraction (some exponent)
          return (n, rest)
        else do return (← ofParts negative whole fraction hasFraction none, c :: r)
      | [] => do return (← ofParts negative whole fraction hasFraction none, [])

def hexValue? (c : Char) : Option Nat :=
  if '0' ≤ c ∧ c ≤ '9' then some (c.toNat - '0'.toNat)
  else if 'a' ≤ c ∧ c ≤ 'f' then some (c.toNat - 'a'.toNat + 10)
  else if 'A' ≤ c ∧ c ≤ 'F' then some (c.toNat - 'A'.toNat + 10)
  else none

def hexNumber : Nat → Nat → List Char → Option (Nat × List Char)
  | 0, value, cs => some (value, cs)
  | n + 1, value, c :: cs => do hexNumber n (value * 16 + (← hexValue? c)) cs
  | _, _, [] => none

def unit? (cs : List Char) : Option (Nat × List Char) := hexNumber 4 0 cs

def escapedUnit (cs : List Char) : Option (Char × List Char) := do
  let (n, rest) ← unit? cs
  if 0xd800 ≤ n ∧ n < 0xdc00 then
    match rest with
    | '\\' :: 'u' :: more =>
      let (low, rest) ← unit? more
      if 0xdc00 ≤ low ∧ low < 0xe000 then
        return (Char.ofNat (0x10000 + (n - 0xd800) * 0x400 + (low - 0xdc00)), rest)
      else none
    | _ => none
  else if 0xdc00 ≤ n ∧ n < 0xe000 then none
  else return (Char.ofNat n, rest)

def escaped : List Char → Option (Char × List Char)
  | '"' :: r => some ('"', r)
  | '\\' :: r => some ('\\', r)
  | '/' :: r => some ('/', r)
  | 'b' :: r => some ('\x08', r)
  | 'f' :: r => some ('\x0c', r)
  | 'n' :: r => some ('\n', r)
  | 'r' :: r => some ('\r', r)
  | 't' :: r => some ('\t', r)
  | 'u' :: r => escapedUnit r
  | _ => none

def readText : Nat → List Char → List Char → Option (String × List Char)
  | 0, _, _ => none
  | _, _, [] => none
  | n + 1, done, c :: cs =>
    if c = '"' then some (String.ofList done.reverse, cs)
    else if c = '\\' then
      match escaped cs with
      | some (e, rest) => readText n (e :: done) rest
      | none => none
    else if c.toNat < 0x20 then none
    else readText n (c :: done) cs

def isSpace (c : Char) : Bool := c = ' ' || c = '\n' || c = '\r' || c = '\t'

def skip (cs : List Char) : List Char := cs.dropWhile isSpace

def keyword (word : List Char) (value : Json) (cs : List Char) : Option (Json × List Char) :=
  if cs.take word.length = word then some (value, cs.drop word.length) else none

mutual

def readValue (fuel depth : Nat) (cs : List Char) : Option (Json × List Char) :=
  match fuel with
  | 0 => none
  | fuel + 1 =>
    match skip cs with
    | [] => none
    | c :: rest =>
      if c = 'n' then keyword ['n', 'u', 'l', 'l'] .null (c :: rest)
      else if c = 't' then keyword ['t', 'r', 'u', 'e'] (.bool true) (c :: rest)
      else if c = 'f' then keyword ['f', 'a', 'l', 's', 'e'] (.bool false) (c :: rest)
      else if c = '"' then (readText (rest.length + 1) [] rest).map fun (s, r) => (.string s, r)
      else if c = '-' then readNumber true rest
      else if Decimal.isDigit c then readNumber false (c :: rest)
      else if c = '[' then
        match depth with
        | 0 => none
        | depth + 1 =>
          match skip rest with
          | ']' :: r => some (.array [], r)
          | r => (readItems fuel depth [] r).map fun (items, r) => (.array items, r)
      else if c = '{' then
        match depth with
        | 0 => none
        | depth + 1 =>
          match skip rest with
          | '}' :: r => some (.object [], r)
          | r => (readFields fuel depth [] r).map fun (fields, r) => (.object fields, r)
      else none

def readItems (fuel depth : Nat) (done : List Json) (cs : List Char) :
    Option (List Json × List Char) :=
  match fuel with
  | 0 => none
  | fuel + 1 =>
    match readValue fuel depth cs with
    | none => none
    | some (item, rest) =>
      match skip rest with
      | ',' :: r => readItems fuel depth (item :: done) r
      | ']' :: r => some ((item :: done).reverse, r)
      | _ => none

def readFields (fuel depth : Nat) (done : List (String × Json)) (cs : List Char) :
    Option (List (String × Json) × List Char) :=
  match fuel with
  | 0 => none
  | fuel + 1 =>
    match skip cs with
    | '"' :: r =>
      match readText (r.length + 1) [] r with
      | none => none
      | some (key, r) =>
        match skip r with
        | ':' :: r =>
          match readValue fuel depth r with
          | none => none
          | some (value, rest) =>
            match skip rest with
            | ',' :: r => readFields fuel depth (Keyed.put key value done) r
            | '}' :: r => some (Keyed.put key value done, r)
            | _ => none
        | _ => none
    | _ => none

end

def maxDepth : Nat := 127

def parse (text : String) : Option Json :=
  let cs := text.toList
  match readValue (2 * cs.length + 2) maxDepth cs with
  | some (value, rest) => if (skip rest).isEmpty then some value else none
  | none => none

def get? (j : Json) (key : String) : Option Json :=
  match j with
  | object fields => Keyed.get? fields key
  | _ => none

def number? : Json → Option Binary64
  | integer n => some (.ofInt n)
  | real x => some x
  | _ => none

def hexDigit (n : Nat) : Char :=
  if n < 10 then Char.ofNat ('0'.toNat + n) else Char.ofNat ('a'.toNat + (n - 10))

def printChar (c : Char) : List Char :=
  if c = '"' then ['\\', '"']
  else if c = '\\' then ['\\', '\\']
  else if c = '\x08' then ['\\', 'b']
  else if c = '\x0c' then ['\\', 'f']
  else if c = '\n' then ['\\', 'n']
  else if c = '\r' then ['\\', 'r']
  else if c = '\t' then ['\\', 't']
  else if c.toNat < 0x20 then
    ['\\', 'u', '0', '0', hexDigit (c.toNat / 16), hexDigit (c.toNat % 16)]
  else [c]

def printRun (run : List Char) : List String :=
  if run.isEmpty then [] else [String.ofList run.reverse]

def printRuns (run : List Char) : List Char → List String
  | [] => printRun run
  | c :: cs =>
    if printChar c = [c] then printRuns (c :: run) cs
    else printRun run ++ String.ofList (printChar c) :: printRuns [] cs

def printText (s : String) : List String := "\"" :: printRuns [] s.toList ++ ["\""]

end Json
end Cutout
