import Cutout.Yaml.Text
/-! The tokens of a text of YAML. Where a block starts and ends is told by indents; that a text or a
bracket starts a key is only known at the colon behind it, so tokens in front of a key are put in
where it was noted that one may start. -/
namespace Cutout.Yaml

inductive Token where
  | directive (handles : List (String × String))
  | documentStart
  | documentEnd
  | blockList
  | blockTable
  | blockEnd
  | listOpen
  | listClose
  | tableOpen
  | tableClose
  | item
  | comma
  | key
  | value
  | anchor (name : String)
  | alias (name : String)
  | tag (handle suffix : String)
  | scalar (plain : Bool) (text : List Char)
  deriving DecidableEq, Repr

structure Indent where
  column : Nat
  block : Bool

structure Pending where
  place : Nat
  line : Nat
  index : Nat
  column : Nat
  required : Bool

structure Scan where
  fuel : Nat
  here : Cursor
  tokens : Array Token := #[]
  indents : List Indent := []
  keys : List (Option Pending) := [none]
  keyAllowed : Bool := true
  adjacent : Nat := 0
  pairs : List Bool := []
  braced : Bool := false

namespace Scan

def maxDepth : Nat := 255

def maxKey : Nat := 1024

def inFlow (s : Scan) : Bool := 1 < s.keys.length

def columnOf : List Indent → Int
  | [] => -1
  | i :: _ => i.column

def indent (s : Scan) : Int := columnOf s.indents

def push (token : Token) (s : Scan) : Scan := { s with tokens := s.tokens.push token }

def insert (place : Nat) (token : Token) (s : Scan) : Scan :=
  { s with tokens := s.tokens.insertIdxIfInBounds place token }

def leave (column : Int) (s : Scan) : Scan :=
  if s.inFlow then s
  else
    let isRight (i : Indent) : Bool := column < i.column
    let ended := (s.indents.takeWhile isRight).filter (·.block)
    { s with
      indents := s.indents.dropWhile isRight
      tokens := s.tokens ++ ended.map fun _ => Token.blockEnd }

def openBlock (column place : Nat) (token : Token) (s : Scan) : Scan :=
  if s.inFlow then s
  else
    let indents := match s.indents with
      | i :: outer => if !i.block && i.column ≤ column then outer else i :: outer
      | [] => []
    if columnOf indents < column then
      insert place token { s with indents := ⟨column, true⟩ :: indents }
    else { s with indents }

def indentMore (s : Scan) : Scan :=
  match s.indents with
  | i :: outer =>
    if i.block && !s.inFlow then { s with indents := ⟨i.column + 1, false⟩ :: i :: outer } else s
  | [] => s

def indentLess (s : Scan) : Scan := { s with indents := s.indents.dropWhile (!·.block) }

def noteKey (s : Scan) : Scan :=
  if s.keyAllowed then
    let required := !s.inFlow && match s.indents with
      | i :: _ => i.block && i.column = s.here.column
      | [] => false
    let c := s.here
    { s with keys := some ⟨s.tokens.size, c.line, c.index, c.column, required⟩ :: s.keys.tail }
  else s

def isRequired (key : Option Pending) : Bool := key.any (·.required)

def dropKey (s : Scan) : Option Scan :=
  if isRequired (s.keys.headD none) then none else some { s with keys := none :: s.keys.tail }

def dropStale (s : Scan) : Option Scan :=
  match s.keys with
  | [some key] =>
    if key.line < s.here.line || key.index + maxKey < s.here.index then s.dropKey else some s
  | _ => some s

def behind (c : Cursor) (s : Scan) : Option Scan := do
  return { s with here := (← c.trail).after }

def toToken (s : Scan) : Option Scan := do
  let here ← s.here.toToken s.indent s.fuel
  let keyAllowed := s.keyAllowed || (!s.inFlow && s.here.line < here.line)
  return { s with here, keyAllowed }

def leaveAll (s : Scan) : Option Scan := do
  return { ← (s.leave (-1)).dropKey with keyAllowed := false }

def documentMark (s : Scan) : Option Scan := do
  let ending := s.here.rest.head? == some '.'
  let s ← s.leaveAll
  let s := { s with here := s.here.skip 3 }.push (if ending then .documentEnd else .documentStart)
  if ending then
    let s ← s.behind s.here
    if s.here.isLineEnd then return s else none
  else return s

def openBracket (token : Token) (s : Scan) : Option Scan := do
  let s := s.noteKey.indentMore
  if maxDepth < s.keys.length then none
  else
    let s := { s with
      keys := none :: s.keys
      keyAllowed := true
      pairs := if token = Token.listOpen then false :: s.pairs else s.pairs
      braced := s.braced || token = Token.tableOpen }
    return (← s.behind s.here.next).push token

def closePair (s : Scan) : Scan :=
  match s.pairs with
  | true :: outer => { s with pairs := false :: outer, braced := false }.push .tableClose
  | _ => s

def closeBracket (token : Token) (s : Scan) : Option Scan := do
  let s ← s.dropKey
  let s := { s with keys := if s.inFlow then s.keys.tail else s.keys, keyAllowed := false }
  let s := if token = Token.listClose then
      let s := s.closePair
      { s with pairs := s.pairs.tail }
    else s
  let s ← s.behind s.here.next
  return { s with adjacent := if s.inFlow then s.here.index else s.adjacent }.push token

def comma (s : Scan) : Option Scan := do
  let s := { ← s.dropKey with keyAllowed := true }.closePair
  return (← s.behind s.here.next).push .comma

def item (s : Scan) : Option Scan := do
  if s.inFlow || !s.keyAllowed then none
  else
    let s := s.openBlock s.here.column s.tokens.size .blockList
    let t ← s.here.next.trail
    let rest := t.after.rest
    if t.tabbed && rest.head? == some '-' && endsHere (rest.drop 1) then none
    else
      let s := { s with here := t.after }
      let s := if rest.head?.any fun c => c = '\n' || isFlowMark c then s.indentMore else s
      return { ← s.dropKey with keyAllowed := true }.push .item

def question (s : Scan) : Option Scan := do
  if !s.inFlow && !s.keyAllowed then none
  else
    let s := if s.inFlow then { s with braced := true }
      else s.openBlock s.here.column s.tokens.size .blockTable
    let here := s.here.next.skipWhile fun c => c = ' ' || c = '\n'
    if here.rest.head? == some '\t' then none
    else return { ← s.dropKey with here, keyAllowed := !s.inFlow }.push .key

def isNameChar (c : Char) : Bool := c.isAlphanum || c = '_' || c = '-'

def colon (s : Scan) : Option Scan := do
  let start := s.here
  let key := s.keys.headD none
  let single := !s.pairs.isEmpty && !s.braced
  let s := if single then { s with pairs := true :: s.pairs.tail } else s
  let here ← if start.next.rest.head? == some '\t' then do
      let t ← start.next.trail
      if !t.spaced && t.after.rest.head?.any isNameChar then none else pure t.after
    else pure start.next
  let s := { s with here }
  match key with
  | some key =>
    if single && key.line < start.line then none
    else
      let s := s.insert key.place .key
      let s := if single then s.insert key.place .tableOpen else s
      let s := (s.openBlock key.column key.place .blockTable).indentMore
      return { s with keys := none :: s.keys.tail, keyAllowed := false }.push .value
  | none =>
    let s := if single then s.push .tableOpen else s
    if !s.inFlow && !s.keyAllowed then none
    else
      let s := (s.openBlock start.column s.tokens.size .blockTable).indentMore
      return { s with keyAllowed := !s.inFlow }.push .value

def isAnchorChar (c : Char) : Bool :=
  0x20 < c.toNat && c.toNat ≠ 0x7f && !(0x80 ≤ c.toNat && c.toNat < 0xa0 && c.toNat ≠ 0x85) &&
    c ≠ '\ufeff' && !isFlowMark c

def anchor (token : String → Token) (s : Scan) : Option Scan := do
  let s := s.noteKey
  let start := s.here.next
  let here := start.skipWhile isAnchorChar
  let name := start.upTo here
  if name.isEmpty then none
  else return { s with here, keyAllowed := false }.push (token (String.ofList name))

def isUriChar (c : Char) : Bool := isNameChar c || "#;/?:@&=+$,.!~*'()[]%".toList.contains c

def isSuffixChar (c : Char) : Bool := isUriChar c && !isFlowMark c && c ≠ '!'

def handle (c : Cursor) : Cursor :=
  let named := c.next.skipWhile isNameChar
  if named.rest.head? == some '!' then named.next else c.next

def tag (s : Scan) : Option Scan := do
  let s := s.noteKey
  let c := s.here
  let (token, here) ← if c.rest[1]? == some '<' then
      let name := c.skip 2
      let after := name.skipWhile isUriChar
      if after.rest.head? == some '>' then
        pure (Token.tag "" (String.ofList (name.upTo after)), after.next)
      else none
    else
      let behind := handle c
      let after := behind.skipWhile isSuffixChar
      let suffix := String.ofList (behind.upTo after)
      let head := String.ofList (c.upTo behind)
      if head ≠ "!" then if suffix.isEmpty then none else pure (Token.tag head suffix, after)
      else pure (if suffix.isEmpty then Token.tag "" "!" else Token.tag "!" suffix, after)
  if endsHere here.rest || (s.inFlow && here.rest.head?.any isFlowMark) then
    return { s with here, keyAllowed := false }.push token
  else none

def version (c : Cursor) : Option Cursor :=
  let after := c.skipWhile Decimal.isDigit
  let size := (c.upTo after).length
  if 0 < size && size ≤ 9 then some after else none

def directive (s : Scan) : Option Scan := do
  let s ← s.leaveAll
  let start := s.here.next
  let named := start.skipWhile isNameChar
  if named.index = start.index || !endsHere named.rest then none
  else
    let word := String.ofList (start.upTo named)
    let c := named.skipWhile isSpace
    let (handles, after) ←
      if word = "YAML" then do
        let major ← version c
        if major.rest.head? == some '.' then pure ([], ← version major.next) else none
      else if word = "TAG" then
        let behind := handle c
        let head := String.ofList (c.upTo behind)
        let name := behind.skipWhile isSpace
        let after := name.skipWhile isUriChar
        if head.startsWith "!" && behind.rest.head?.any isSpace && !name.isLineEnd &&
            endsHere after.rest then
          pure ([(head, String.ofList (name.upTo after))], after)
        else none
      else pure ([("", "")], named.skipWhile (· ≠ '\n'))
    let s ← s.behind after
    if s.here.isLineEnd then return { s with here := s.here.next }.push (.directive handles)
    else none

def quotedText (s : Scan) : Option Scan := do
  let s := { s.noteKey with keyAllowed := false }
  let (text, here) ← quoted s.fuel s.inFlow s.indent s.here
  let s ← { s with here }.toToken
  return { s with adjacent := s.here.index }.push (.scalar false text)

def plainText (s : Scan) : Option Scan := do
  let s := { s.noteKey with keyAllowed := false }.indentLess
  let (text, here) ← plain s.fuel s.inFlow (s.indent + 1).toNat s.here
  return { s with here, keyAllowed := here.fresh }.push (.scalar true text)

def block (fold : Bool) (s : Scan) : Option Scan := do
  let s := { s.noteKey with keyAllowed := true }.indentLess
  let (text, here) ← blockText s.fuel fold s.indent s.here
  return { s with here }.push (.scalar false text)

def token (s : Scan) : Option Scan :=
  match s.here.rest with
  | [] => none
  | c :: cs =>
    let first := s.here.column = 0
    if first && c = '%' then s.directive
    else if first && isDocumentMark (c :: cs) then s.documentMark
    else if s.here.column < s.indent then none
    else match c with
      | '[' => s.openBracket .listOpen
      | '{' => s.openBracket .tableOpen
      | ']' => s.closeBracket .listClose
      | '}' => s.closeBracket .tableClose
      | ',' => s.comma
      | '*' => s.anchor .alias
      | '&' => s.anchor .anchor
      | '!' => s.tag
      | '\'' | '"' => s.quotedText
      | '%' | '@' | '\x60' => none
      | _ =>
        if c = '-' && endsHere cs then s.item
        else if c = '?' && endsHere cs then s.question
        else if c = ':' && (endsHere cs || (s.inFlow &&
            (cs.head?.any isFlowMark || s.here.index = s.adjacent))) then s.colon
        else if c = '|' && !s.inFlow then s.block false
        else if c = '>' && !s.inFlow then s.block true
        else s.plainText

def all : Nat → Scan → Option (List Token)
  | 0, _ => none
  | n + 1, s => do
    let s ← (← s.toToken).dropStale
    let s := s.leave s.here.column
    if s.here.rest.isEmpty then
      if s.keys.any isRequired then none else return (s.leave (-1)).tokens.toList
    else all n (← s.token)

end Scan

def tokens (cs : List Char) : Option (List Token) :=
  let cs := cs.takeWhile (· ≠ '\x00')
  let fuel := cs.length + 2
  Scan.all fuel { fuel, here := { rest := cs } }

end Cutout.Yaml
