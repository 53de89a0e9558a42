import Cutout.Setting
/-! What single texts of YAML stand for, by how they are written or by a tag in front of them. -/
namespace Cutout.Yaml

inductive Scalar where
  | null
  | bool (value : Bool)
  | integer (value : Int)
  | real (text : String)
  | text (text : String)
  | invalid
  deriving DecidableEq, Repr

def integerIn (base : Nat) (cs : List Char) : Option Int := do
  let (negative, digits) := Decimal.sign cs
  let values ← digits.mapM Json.hexValue?
  if values.isEmpty || values.any (base ≤ ·) then none
  else
    let n := values.foldl (fun n d => n * base + d) 0
    let n : Int := if negative then -(n : Int) else n
    if Setting.isInteger n then some n else none

def integer? (cs : List Char) : Option Int :=
  match cs with
  | '0' :: 'x' :: digits => integerIn 16 digits
  | '0' :: 'o' :: digits => integerIn 8 digits
  | '+' :: digits => integerIn 10 digits
  | cs => integerIn 10 cs

def truth? (s : String) : Option Bool :=
  if ["true", "True", "TRUE"].contains s then some true
  else if ["false", "False", "FALSE"].contains s then some false
  else none

def infinities : List String :=
  [".inf", ".Inf", ".INF", "+.inf", "+.Inf", "+.INF", "-.inf", "-.Inf", "-.INF", ".nan", ".NaN",
    ".NAN"]

def isReal (cs : List Char) : Bool :=
  infinities.contains (String.ofList cs) ||
    (cs.any Decimal.isDigit && (Decimal.read? (String.ofList cs)).isSome)

namespace Scalar

def ofPlain (cs : List Char) : Scalar :=
  let s := String.ofList cs
  if ["", "~", "null"].contains s then null
  else match truth? s, integer? cs with
    | some b, _ => bool b
    | none, some n => integer n
    | none, none => if isReal cs then real s else text s

def commonTags : String := "tag:yaml.org,2002:"

def ofTagged (place type : String) (cs : List Char) : Scalar :=
  let s := String.ofList cs
  if place ≠ commonTags then text s
  else match type with
    | "bool" => (truth? s).elim invalid bool
    | "int" => (integerIn 10 cs).elim invalid integer
    | "float" => if isReal cs then real s else invalid
    | "null" => if ["~", "null"].contains s then null else invalid
    | _ => text s

def setting? : Scalar → Option Setting
  | null | invalid => some .null
  | bool b => some (.bool b)
  | integer n => some (.integer n)
  | real s => (Decimal.read? s).map .real
  | text s => some (.text s)

def key? : Scalar → Option String
  | null | invalid => none
  | bool b => some (if b then "true" else "false")
  | integer n => some (toString n)
  | real s | text s => some s

end Scalar
end Cutout.Yaml
