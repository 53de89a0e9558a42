import Cutout.Path.Hidden
/-! File paths as texts of components between slashes, and how messages quote them.
Symbolic links are not followed. -/
namespace Cutout

structure Path where
  text : String
  deriving DecidableEq, Repr

namespace Path

inductive Component where
  | root
  | here
  | up
  | name (text : String)
  deriving DecidableEq, Repr

def segments : Nat → List Char → List (List Char × Nat)
  | pos, cs => go pos [] cs
where
  go : Nat → List Char → List Char → List (List Char × Nat)
    | pos, part, [] => [(part.reverse, pos)]
    | pos, part, c :: cs =>
      if c = '/' then (part.reverse, pos) :: go (pos + 1) [] cs else go (pos + 1) (c :: part) cs

def isAbsolute (p : Path) : Bool := p.text.toList.head? == some '/'

def component : List Char → Component
  | ['.'] => .here
  | ['.', '.'] => .up
  | cs => .name (String.ofList cs)

def located (p : Path) : List (Component × Nat) :=
  let cs := p.text.toList
  let parts := (segments 0 cs).zipIdx.filterMap fun ((part, after), index) =>
    if part.isEmpty then none
    else if part = ['.'] ∧ (p.isAbsolute ∨ index ≠ 0) then none
    else some (component part, after)
  if p.isAbsolute then (.root, 1) :: parts else parts

def components (p : Path) : List Component := p.located.map (·.1)

def same (a b : Path) : Bool := a.components == b.components

def isDash (p : Path) : Bool := p.same ⟨"-"⟩

def isEmpty (p : Path) : Bool := p.text.isEmpty

def parent? (p : Path) : Option Path :=
  match p.located.reverse with
  | [] | (.root, _) :: _ => none
  | _ :: before =>
    let length := (before.head?.map (·.2)).getD 0
    some ⟨String.ofList (p.text.toList.take length)⟩

def fileName? (p : Path) : Option String :=
  match p.components.getLast? with
  | some (.name text) => some text
  | _ => none

def extension? (p : Path) : Option String := do
  let name ← p.fileName?
  let behind := name.toList.reverse.takeWhile (· ≠ '.')
  let before := name.toList.reverse.drop (behind.length + 1)
  if before.isEmpty then none else some (String.ofList behind.reverse)

def join (base next : Path) : Path :=
  if next.isAbsolute || base.isEmpty then next
  else if base.text.toList.getLast? == some '/' then ⟨base.text ++ next.text⟩
  else ⟨base.text ++ "/" ++ next.text⟩

def quotedChar (c : Char) : String :=
  match c with
  | '"' => "\\\""
  | '\\' => "\\\\"
  | '\t' => "\\t"
  | '\n' => "\\n"
  | '\r' => "\\r"
  | '\x00' => "\\0"
  | c =>
    if isHidden c then "\\u\x7b" ++ String.ofList (Nat.toDigits 16 c.toNat) ++ "\x7d"
    else String.singleton c

def quoted (p : Path) : String :=
  "\"" ++ String.join (p.text.toList.map quotedChar) ++ "\""

end Path
end Cutout
