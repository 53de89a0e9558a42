import Cutout.Json
import Cutout.Yaml.Cursor
/-! The three ways to write a text in YAML: plain, in quotes and as a block of lines. Each reader
gives the text and the place behind it; fuel is more than the number of characters that follow. -/
namespace Cutout.Yaml

def folded (breaks : Nat) : List Char :=
  if breaks = 1 then [' '] else List.replicate (breaks - 1) '\n'

def joint (word next : Cursor) : List Char :=
  if word.line = next.line then word.upTo next else folded (next.line - word.line)

def plainWord (flow : Bool) : List Char → List Char
  | [] => []
  | c :: cs =>
    let ends := isGap c || (flow && isFlowMark c) ||
      (c = ':' && (endsHere cs || (flow && cs.head?.any isFlowMark)))
    if ends then [] else c :: plainWord flow cs

def plainWords (flow : Bool) (least : Nat) : Nat → List Char → List Char → Cursor →
    Option (List Char × Cursor)
  | 0, _, _, _ => none
  | n + 1, done, between, c =>
    if (c.fresh && isDocumentMark c.rest) || c.rest.head? == some '#' then some (done, c)
    else if flow && c.rest.head? == some '-' && c.rest[1]?.any isFlowMark then none
    else do
      let word := plainWord flow c.rest
      let done := if word.isEmpty then done else done ++ between ++ word
      let behind := c.skip word.length
      if behind.rest.head?.any isGap then
        let next ← behind.gap least (n + 1)
        if !flow && next.column < least then return (done, next)
        else plainWords flow least n done (joint behind next) next
      else return (done, behind)

def plain (fuel : Nat) (flow : Bool) (least : Nat) (c : Cursor) : Option (List Char × Cursor) := do
  if flow && c.column < least then none
  else
    let (text, rest) ← plainWords flow least fuel [] [] c
    if text.isEmpty then none else return (text, rest)

def escapes : List (Char × Char) :=
  [('0', '\x00'), ('a', '\x07'), ('b', '\x08'), ('t', '\t'), ('\t', '\t'), ('n', '\n'),
    ('v', '\x0b'), ('f', '\x0c'), ('r', '\r'), ('e', '\x1b'), (' ', ' '), ('"', '"'),
    ('/', '/'), ('\\', '\\'), ('N', '\u0085'), ('_', '\u00a0'), ('L', '\u2028'),
    ('P', '\u2029')]

def numbered : List (Char × Nat) := [('x', 2), ('u', 4), ('U', 8)]

def escaped : List Char → Option (Char × List Char)
  | [] => none
  | c :: cs =>
    match numbered.lookup c with
    | none => (escapes.lookup c).map fun e => (e, cs)
    | some digits => do
      let (n, rest) ← Json.hexNumber digits 0 cs
      if n.isValidChar then some (Char.ofNat n, rest) else none

def quotedWord (quote : Char) : Nat → List Char → Cursor → Option (List Char × Bool × Cursor)
  | 0, _, _ => none
  | n + 1, done, c =>
    match c.rest with
    | [] => some (done.reverse, false, c)
    | x :: cs =>
      if isGap x then some (done.reverse, false, c)
      else if x = quote then
        if quote = '\'' && cs.head? == some '\'' then quotedWord quote n ('\'' :: done) (c.skip 2)
        else some (done.reverse, false, c)
      else if x = '\\' && quote = '"' then
        if cs.head? == some '\n' then some (done.reverse, true, c.skip 2)
        else do
          let (e, rest) ← escaped cs
          quotedWord quote n (e :: done) (c.skip (cs.length + 1 - rest.length))
      else quotedWord quote n (x :: done) c.next

def quotedGap (least : Int) : Nat → Cursor → Option Cursor
  | 0, _ => none
  | n + 1, c =>
    match c.rest with
    | [] => some c
    | x :: _ =>
      if x = '\t' && c.fresh && c.column < least then none
      else if isGap x then quotedGap least n c.next
      else some c

def quotedWords (quote : Char) (least : Int) : Nat → List Char → Cursor →
    Option (List Char × Cursor)
  | 0, _, _ => none
  | n + 1, done, c =>
    if c.rest.isEmpty || c.column < least || (c.column = 0 && isDocumentMark c.rest) then none
    else do
      let (word, broken, behind) ← quotedWord quote (n + 1) [] c
      let done := done ++ word
      if behind.rest.head? == some quote then return (done, behind.next)
      else
        let next ← quotedGap least (n + 1) behind
        let between :=
          if broken then List.replicate (next.line - behind.line) '\n' else joint behind next
        quotedWords quote least n (done ++ between) next

def quoted (fuel : Nat) (flow : Bool) (least : Int) (c : Cursor) :
    Option (List Char × Cursor) := do
  let quote ← c.rest.head?
  let (text, behind) ← quotedWords quote least fuel [] c.next
  let after := (← behind.trail).after
  let closed := match after.rest.head? with
    | none | some '\n' => true
    | some ':' => flow || after.line = c.line
    | some x => flow && [',', ']', '}'].contains x
  if closed then return (text, after) else none

inductive Chomp where
  | clip
  | strip
  | keep
  deriving DecidableEq, Repr

def chompOf : Char → Option Chomp
  | '-' => some .strip
  | '+' => some .keep
  | _ => none

def indentDigit (cs : List Char) : Option (Nat × Nat) :=
  match cs.head?.bind Decimal.digitValue? with
  | some n => if n = 0 then none else some (n, 1)
  | none => some (0, 0)

def blockMarks (cs : List Char) : Option (Chomp × Nat × Nat) := do
  match cs.head?.bind chompOf with
  | some chomp =>
    let (indent, size) ← indentDigit (cs.drop 1)
    return (chomp, indent, 1 + size)
  | none =>
    let (indent, size) ← indentDigit cs
    match (cs.drop size).head?.bind chompOf with
    | some chomp => return (chomp, indent, size + 1)
    | none => return (.clip, indent, size)

def firstIndent : Nat → Nat → Nat → Cursor → Nat × Nat × Cursor
  | 0, indent, breaks, c => (indent, breaks, c)
  | n + 1, indent, breaks, c =>
    let c := c.skipWhile (· = ' ')
    let indent := max indent c.column
    if c.rest.head? == some '\n' then firstIndent n indent (breaks + 1) c.next
    else (indent, breaks, c)

def passIndent (indent : Nat) : Nat → Nat → Cursor → Nat × Cursor
  | 0, breaks, c => (breaks, c)
  | n + 1, breaks, c =>
    let c := c.skip (min (indent - c.column) (c.rest.takeWhile (· = ' ')).length)
    if c.rest.head? == some '\n' then passIndent indent n (breaks + 1) c.next else (breaks, c)

structure Block where
  text : List Char := []
  ended : Bool := false
  breaks : Nat := 0
  spaced : Bool := false

namespace Block

def between (b : Block) (fold spaced : Bool) : List Char :=
  if fold && b.ended && !b.spaced && !spaced then folded (b.breaks + 1)
  else List.replicate (b.breaks + if b.ended then 1 else 0) '\n'

def lines (fold : Bool) (indent : Nat) : Nat → Block → Cursor → Block × Cursor
  | 0, b, c => (b, c)
  | n + 1, b, c =>
    if c.rest.isEmpty || c.column ≠ indent || (indent = 0 && isDocumentMark c.rest) then (b, c)
    else
      let spaced := c.rest.head?.any isSpace
      let line := c.rest.takeWhile (· ≠ '\n')
      let text := b.text ++ b.between fold spaced ++ line
      let behind := c.skip line.length
      if behind.rest.isEmpty then (⟨text, false, 0, spaced⟩, behind)
      else
        let (breaks, next) := passIndent indent n 0 behind.next
        lines fold indent n ⟨text, true, breaks, spaced⟩ next

def close (b : Block) (chomp : Chomp) (cut : Bool) : List Char :=
  let ending := List.replicate ((if b.ended then 1 else 0) + if cut then 1 else 0) '\n'
  match chomp with
  | .strip => b.text
  | .clip => b.text ++ ending
  | .keep => b.text ++ ending ++ List.replicate b.breaks '\n'

end Block

def blockText (fuel : Nat) (fold : Bool) (outer : Int) (c : Cursor) :
    Option (List Char × Cursor) := do
  let (chomp, given, size) ← blockMarks (c.rest.drop 1)
  let head := (← (c.skip (1 + size)).trail).after
  if !head.isLineEnd || head.next.rest.head? == some '\t' then none
  else
    let first := head.next
    let (indent, breaks, start) :=
      if given = 0 then
        let (widest, breaks, start) := firstIndent fuel 0 0 first
        (max widest (outer + 1).toNat, breaks, start)
      else
        let indent := (max outer 0).toNat + given
        let (breaks, start) := passIndent indent fuel 0 first
        (indent, breaks, start)
    if start.rest.isEmpty then
      let ending := match chomp with
        | .strip => 0
        | .clip => 1
        | .keep => max breaks 1
      return (List.replicate (if start.line = c.line then 0 else ending) '\n', start)
    else if start.column < indent && outer < start.column then none
    else
      let (block, rest) := Block.lines fold indent fuel ⟨[], false, breaks, false⟩ start
      return (block.close chomp (rest.rest.isEmpty && max indent 1 ≤ rest.column), rest)

end Cutout.Yaml
