import Cutout.Setting
/-! Keys at the top of a configuration as paths into it: a name, then names behind dots and
positions in brackets. A key of another form is a name as it stands. -/
namespace Cutout.Setting

inductive PathStep where
  | key (name : String)
  | index (position : Int)
  deriving DecidableEq, Repr

def isNameChar (c : Char) : Bool := c.isAlphanum || c = '_' || c = '-'

def readPosition (cs : List Char) : Option (Int × List Char) :=
  let (negative, rest) := match cs with
    | '-' :: r => (true, r)
    | r => (false, r)
  let digits := rest.takeWhile Decimal.isDigit
  let n := (if negative then -(Decimal.natOf digits : Int) else Decimal.natOf digits)
  if digits.isEmpty || !isInteger n then none else some (n, rest.dropWhile Decimal.isDigit)

def readSteps : Nat → List Char → Option (List PathStep)
  | _, [] => some []
  | n + 1, '.' :: cs =>
    let name := cs.takeWhile isNameChar
    if name.isEmpty then none
    else (readSteps n (cs.dropWhile isNameChar)).map (.key (String.ofList name) :: ·)
  | n + 1, '[' :: cs =>
    match readPosition cs with
    | some (position, ']' :: rest) => (readSteps n rest).map (.index position :: ·)
    | _ => none
  | _, _ => none

def steps (key : String) : List PathStep :=
  match readSteps (key.length + 1) ('.' :: key.toList) with
  | some steps => steps
  | none => [.key key]

def fieldsOf : Setting → List (String × Setting)
  | table fields => fields
  | _ => []

def itemsOf : Setting → List Setting
  | list items => items
  | _ => []

mutual

def merge (old : Setting) : Setting → Setting
  | table incoming => table (mergeFields (fieldsOf old) incoming)
  | value => value

def mergeFields (fields : List (String × Setting)) :
    List (String × Setting) → List (String × Setting)
  | [] => fields
  | (key, value) :: rest =>
    mergeFields (Keyed.put key (merge ((Keyed.get? fields key).getD null) value) fields) rest

end

def updateItem (update : Setting → Setting) (position : Int) (items : List Setting) :
    List Setting :=
  let absolute := if position < 0 then position + items.length else position
  if absolute < 0 then
    update null :: (List.replicate (absolute.natAbs - 1) null ++ items)
  else
    let n := absolute.toNat
    let grown := items ++ List.replicate (n + 1 - items.length) null
    grown.take n ++ update (grown[n]?.getD null) :: grown.drop (n + 1)

def place (value : Setting) : List PathStep → Setting → Setting
  | [], old => merge old value
  | .key name :: rest, old =>
    let fields := fieldsOf old
    table (Keyed.put name (place value rest ((Keyed.get? fields name).getD null)) fields)
  | .index position :: rest, old => list (updateItem (place value rest) position (itemsOf old))

def assemble (fields : List (String × Setting)) : Setting :=
  fields.foldl (fun root (key, value) => place value (steps key) root) (table [])

end Cutout.Setting
