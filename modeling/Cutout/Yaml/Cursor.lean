/-! A place in a text of YAML: what follows, and the line and column that indents are measured by.
Line breaks are line feeds. -/
namespace Cutout.Yaml

def isSpace (c : Char) : Bool := c = ' ' || c = '\t'

def isGap (c : Char) : Bool := isSpace c || c = '\n'

def endsHere (cs : List Char) : Bool := cs.head?.all isGap

def isFlowMark (c : Char) : Bool := [',', '[', ']', '{', '}'].contains c

def isDocumentMark (cs : List Char) : Bool :=
  (cs.take 3 = ['-', '-', '-'] || cs.take 3 = ['.', '.', '.']) && endsHere (cs.drop 3)

structure Cursor where
  rest : List Char
  index : Nat := 0
  line : Nat := 0
  column : Nat := 0
  fresh : Bool := true

namespace Cursor

def next (c : Cursor) : Cursor :=
  match c.rest with
  | [] => c
  | x :: rest =>
    if x = '\n' then ⟨rest, c.index + 1, c.line + 1, 0, true⟩
    else ⟨rest, c.index + 1, c.line, c.column + 1, c.fresh && isSpace x⟩

def skip : Nat → Cursor → Cursor
  | 0, c => c
  | n + 1, c => skip n c.next

def skipWhile (p : Char → Bool) (c : Cursor) : Cursor := c.skip (c.rest.takeWhile p).length

def isLineEnd (c : Cursor) : Bool := c.rest.head?.all (· = '\n')

def upTo (c last : Cursor) : List Char := c.rest.take (last.index - c.index)

structure Trail where
  after : Cursor
  tabbed : Bool
  spaced : Bool

def trail (c : Cursor) : Option Trail :=
  let after := c.skipWhile isSpace
  let space := c.upTo after
  let found (after : Cursor) : Trail := ⟨after, space.contains '\t', space.contains ' '⟩
  if after.rest.head? == some '#' then
    if space.isEmpty then none else some (found (after.skipWhile (· ≠ '\n')))
  else some (found after)

def gap (least : Int) : Nat → Cursor → Option Cursor
  | 0, _ => none
  | n + 1, c =>
    match c.rest with
    | [] => some c
    | x :: _ =>
      if x = '\t' && c.fresh && c.column < least then do
        let t ← c.trail
        if t.after.isLineEnd then gap least n t.after else none
      else if isGap x then gap least n c.next
      else some c

def toToken (least : Int) : Nat → Cursor → Option Cursor
  | 0, _ => none
  | n + 1, c => do
    let c ← gap least (n + 1) c
    if c.rest.head? == some '#' then toToken least n (c.skipWhile (· ≠ '\n')) else some c

end Cursor
end Cutout.Yaml
