import Cutout.Setting
/-! Single values of TOML: quoted texts, numbers, dates and times. Dates and times are kept as texts
in their usual form. -/
namespace Cutout.Toml

def isControl (c : Char) : Bool := (c.toNat < 0x20 && c ≠ '\t') || c.toNat = 0x7f

def escapes : List (Char × Char) :=
  [('b', '\x08'), ('t', '\t'), ('n', '\n'), ('f', '\x0c'), ('r', '\r'), ('e', '\x1b'), ('"', '"'),
    ('\\', '\\')]

def numbered : List (Char × Nat) := [('x', 2), ('u', 4), ('U', 8)]

def escaped : List Char → Option (Char × List Char)
  | [] => none
  | c :: cs =>
    match numbered.lookup c with
    | none => (escapes.lookup c).map fun e => (e, cs)
    | some digits => do
      let (n, rest) ← Json.hexNumber digits 0 cs
      if n.isValidChar then some (Char.ofNat n, rest) else none

def shortText (quote : Char) : Nat → List Char → List Char → Option (String × List Char)
  | 0, _, _ => none
  | _, _, [] => none
  | n + 1, done, c :: cs =>
    if c = quote then some (String.ofList done.reverse, cs)
    else if c = '\\' && quote = '"' then
      match escaped cs with
      | some (e, rest) => shortText quote n (e :: done) rest
      | none => none
    else if isControl c then none
    else shortText quote n (c :: done) cs

def isSpace (c : Char) : Bool := c = ' ' || c = '\t'

def lineBreak? : List Char → Option (List Char)
  | '\n' :: rest => some rest
  | '\r' :: '\n' :: rest => some rest
  | _ => none

def skipBlank : List Char → List Char
  | '\n' :: rest => skipBlank rest
  | '\r' :: '\n' :: rest => skipBlank rest
  | c :: rest => if isSpace c then skipBlank rest else c :: rest
  | [] => []

def continued (cs : List Char) : Option (List Char) :=
  (lineBreak? (cs.dropWhile isSpace)).map skipBlank

def longText (quote : Char) : Nat → List Char → List Char → Option (String × List Char)
  | 0, _, _ => none
  | _, _, [] => none
  | n + 1, done, c :: cs =>
    let quotes := (c :: cs).takeWhile (· = quote)
    if 3 ≤ quotes.length then
      if 5 < quotes.length then none
      else
        let text := done.reverse ++ List.replicate (quotes.length - 3) quote
        some (String.ofList text, (c :: cs).drop quotes.length)
    else if c = '\\' && quote = '"' then
      match continued cs with
      | some rest => longText quote n done rest
      | none =>
        match escaped cs with
        | some (e, rest) => longText quote n (e :: done) rest
        | none => none
    else if isControl c && (lineBreak? (c :: cs)).isNone then none
    else longText quote n (c :: done) cs

def quoted (quote : Char) (fuel : Nat) (cs : List Char) : Option (String × List Char) :=
  match cs with
  | a :: b :: rest =>
    if a = quote ∧ b = quote then
      let rest := (lineBreak? rest).getD rest
      longText quote fuel [] rest
    else shortText quote fuel [] cs
  | cs => shortText quote fuel [] cs

def digitsIn (isDigit : Char → Bool) : List Char → Option (List Char)
  | [] => none
  | [c] => if isDigit c then some [c] else none
  | c :: '_' :: rest => if isDigit c then (digitsIn isDigit rest).map (c :: ·) else none
  | c :: rest => if isDigit c then (digitsIn isDigit rest).map (c :: ·) else none

def inBase (base : Nat) (cs : List Char) : Option Int := do
  let isDigit (c : Char) : Bool := (Json.hexValue? c).any (· < base)
  let digits ← digitsIn isDigit cs
  let n := digits.foldl (fun n c => n * base + (Json.hexValue? c).getD 0) 0
  if Setting.isInteger n then some n else none

def whole (cs : List Char) : Option (List Char) := do
  let digits ← digitsIn Decimal.isDigit cs
  if digits.head? == some '0' && 1 < digits.length then none else some digits

def integer (cs : List Char) : Option Int :=
  match cs with
  | '0' :: 'x' :: digits => inBase 16 digits
  | '0' :: 'o' :: digits => inBase 8 digits
  | '0' :: 'b' :: digits => inBase 2 digits
  | cs => do
    let (negative, digits) := Decimal.sign cs
    let n := Decimal.natOf (← whole digits)
    let n : Int := if negative then -(n : Int) else n
    if Setting.isInteger n then some n else none

def real (cs : List Char) : Option Binary64 := do
  let (negative, body) := Decimal.sign cs
  let mantissa := body.takeWhile fun c => c ≠ 'e' && c ≠ 'E'
  if mantissa.length = body.length && !mantissa.contains '.' then none
  let before ← whole (mantissa.takeWhile (· ≠ '.'))
  let fraction ← match mantissa.dropWhile (· ≠ '.') with
    | [] => some []
    | _ :: digits => digitsIn Decimal.isDigit digits
  let power ← match body.drop mantissa.length with
    | [] => some 0
    | _ :: exponent => do
      let (down, digits) := Decimal.sign exponent
      let n := Decimal.natOf (← digitsIn Decimal.isDigit digits)
      pure (if down then -(n : Int) else n)
  let digits := Decimal.natOf (before ++ fraction)
  let x := Binary64.ofDecimal negative digits (power - fraction.length)
  if x.isFinite then some x else none

def number? (size : Nat) (cs : List Char) : Option (Nat × List Char) :=
  let digits := cs.take size
  if digits.length = size ∧ digits.all Decimal.isDigit then
    some (Decimal.natOf digits, cs.drop size)
  else none

def expect (c : Char) : List Char → Option (List Char)
  | d :: rest => if c = d then some rest else none
  | [] => none

def daysIn (year month : Nat) : Nat :=
  if month = 2 then
    if (year % 4 = 0 ∧ year % 100 ≠ 0) ∨ year % 400 = 0 then 29 else 28
  else if [4, 6, 9, 11].contains month then 30 else 31

def date (cs : List Char) : Option (List Char × List Char) := do
  let (year, r) ← number? 4 cs
  let (month, r) ← number? 2 (← expect '-' r)
  let (day, r) ← number? 2 (← expect '-' r)
  if 1 ≤ month ∧ month ≤ 12 ∧ 1 ≤ day ∧ day ≤ daysIn year month then some (cs.take 10, r) else none

def second (cs : List Char) : Option (List Char × List Char) :=
  match cs with
  | ':' :: r => do
    let (value, r') ← number? 2 r
    if 60 < value then none
    else match r' with
      | '.' :: fraction =>
        let places := fraction.takeWhile Decimal.isDigit
        let kept := ((places.take 9).reverse.dropWhile (· = '0')).reverse
        if places.isEmpty then none
        else
          some (':' :: r.take 2 ++ '.' :: (if kept.isEmpty then ['0'] else kept),
            fraction.drop places.length)
      | r' => some (':' :: r.take 2, r')
  | cs => some ([], cs)

def time (cs : List Char) : Option (List Char × List Char) := do
  let (hour, r) ← number? 2 cs
  let (minute, r) ← number? 2 (← expect ':' r)
  if 23 < hour ∨ 59 < minute then none
  else do
    let (second, r) ← second r
    return (cs.take 5 ++ second, r)

def offset (cs : List Char) : Option (List Char) :=
  match cs with
  | [] => some []
  | ['Z'] | ['z'] => some ['Z']
  | c :: clock => do
    let (hour, r) ← number? 2 clock
    let (minute, r) ← number? 2 (← expect ':' r)
    if (c = '+' ∨ c = '-') ∧ hour ≤ 23 ∧ minute ≤ 59 ∧ r.isEmpty then
      some ((if hour = 0 ∧ minute = 0 then '+' else c) :: clock)
    else none

def instant (cs : List Char) : Option String :=
  match date cs with
  | some (day, []) => some (String.ofList day)
  | some (day, c :: r) => do
    let (clock, r) ← time r
    let zone ← offset r
    if c = 'T' ∨ c = 't' ∨ c = ' ' then some (String.ofList (day ++ 'T' :: clock ++ zone)) else none
  | none =>
    match time cs with
    | some (clock, []) => some (String.ofList clock)
    | _ => none

def isWordChar (c : Char) : Bool := c.isAlphanum || ['_', '+', '-', '.', ':'].contains c

def word (cs : List Char) : List Char :=
  let first := cs.takeWhile isWordChar
  match date first, cs.drop first.length with
  | some (_, []), ' ' :: rest =>
    let second := rest.takeWhile isWordChar
    if second.head?.any Decimal.isDigit then first ++ ' ' :: second else first
  | _, _ => first

def wordValue (cs : List Char) : Option Setting :=
  match String.ofList cs with
  | "true" => some (.bool true)
  | "false" => some (.bool false)
  | "inf" | "+inf" => some (.real (.infinite false))
  | "-inf" => some (.real (.infinite true))
  | "nan" | "+nan" | "-nan" => some (.real .nan)
  | _ =>
    ((integer cs).map .integer).orElse fun _ =>
      ((real cs).map .real).orElse fun _ => (instant cs).map .text

end Cutout.Toml
