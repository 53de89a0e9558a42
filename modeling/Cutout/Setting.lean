import Cutout.Json
/-! Values of a configuration, whatever format they were written in, and what they stand for where a
text or a number is wanted. -/
namespace Cutout

inductive Setting where
  | null
  | bool (value : Bool)
  | integer (value : Int)
  | real (value : Binary64)
  | text (value : String)
  | list (items : List Setting)
  | table (fields : List (String × Setting))
  deriving Repr

namespace Setting

def maxInteger : Nat := 1 <<< 63 - 1

def isInteger (n : Int) : Bool := -(maxInteger + 1 : Int) ≤ n ∧ n ≤ maxInteger

def ofInteger (n : Int) : Setting :=
  if isInteger n || (0 ≤ n && n < (1 <<< 64 : Nat)) then integer n else real (.ofInt n)

mutual

def ofJson : Json → Setting
  | .null => null
  | .bool b => bool b
  | .integer n => ofInteger n
  | .real x => real x
  | .string s => text s
  | .array items => list (ofItems items)
  | .object fields => table (ofFields fields)

def ofItems : List Json → List Setting
  | [] => []
  | item :: rest => ofJson item :: ofItems rest

def ofFields : List (String × Json) → List (String × Setting)
  | [] => []
  | (key, value) :: rest => (key, ofJson value) :: ofFields rest

end

def text? : Setting → Option String
  | text s => some s
  | bool b => some (if b then "true" else "false")
  | integer n => some (toString n)
  | real x => some (Decimal.plain x)
  | null | list _ | table _ => none

def switch? (word : String) : Option Binary64 :=
  if ["true", "on", "yes"].contains word then some (.ofNat 1)
  else if ["false", "off", "no"].contains word then some .zero
  else none

def number? : Setting → Option Binary64
  | real x => some x
  | integer n => some (.ofInt n)
  | bool b => some (if b then .ofNat 1 else .zero)
  | text s => (switch? (String.ofList (s.toList.map Char.toLower))).orElse fun _ => Decimal.read? s
  | null | list _ | table _ => none

def list? : Setting → Option (List Setting)
  | list items => some items
  | _ => none

def listOf? {α : Type} (read : Setting → Option α) (s : Setting) : Option (List α) := do
  (← s.list?).mapM read

def optional? {α : Type} (read : Setting → Option α) : Setting → Option (Option α)
  | null => some none
  | s => (read s).map some

end Setting
end Cutout
