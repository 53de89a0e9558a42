import Cutout.Ascending
import Cutout.Json
import Cutout.MetaAttribute
/-! Extracts as lines of JSON, one object for each element, with keys in ascending order. Visibility
is not written. A line is made of pieces: marks, quotes, runs of characters, escapes and numbers. -/
namespace Cutout.JsonLines

def realText (d : Decimal.Digits) : String :=
  let text := toString d.digits
  let point : Int := text.length + d.exponent
  if 0 ≤ d.exponent then d.plain ++ ".0"
  else if -5 < point then d.plain
  else
    let fraction := String.ofList (text.toList.drop 1)
    String.ofList (text.toList.take 1) ++ (if fraction.isEmpty then "" else "." ++ fraction) ++
      "e" ++ toString (point - 1)

def degreesText (units : Int32) : String :=
  let n := units.toInt
  if n = 0 then "0.0"
  else (if n < 0 then "-" else "") ++
    realText (Decimal.Digits.trim Location.places ⟨n.natAbs, -Location.places⟩)

def field (name : String) (value : List String) : List String :=
  Json.printText name ++ ":" :: value

def listed : List (List String) → List String
  | [] => []
  | [item] => item
  | item :: rest => item ++ "," :: listed rest

def object (fields : List (List String)) : List String := "\x7b" :: listed fields ++ ["\x7d"]

def array (items : List (List String)) : List String := "[" :: listed items ++ ["]"]

def number (name : String) (value : Option Int) : List (List String) :=
  value.toList.map fun n => field name [toString n]

def text (name : String) (value : Option String) : List (List String) :=
  value.toList.map fun s => field name (Json.printText s)

def member (m : Member) : List String :=
  object [field "ref" [toString m.id], field "role" (Json.printText m.role),
    field "type" (Json.printText m.kind.label)]

def tagsObject (tags : Tags) : List String :=
  object ((Ascending.ofPairs tags).map fun (key, value) => field key (Json.printText value))

def element (clean : List MetaAttribute) (e : Element) : List String :=
  let m := (e.metadata.getD .blank).cleaned clean
  object <|
    number "changeset" m.changeset ++
    [field "id" [toString e.id]] ++
    (match e with
      | .node n =>
        [field "lat" [degreesText n.location.lat], field "lon" [degreesText n.location.lon]]
      | .way w => [field "nodes" (array (w.refs.map fun id => [toString id]))]
      | .relation r => [field "members" (array (r.members.map member))]) ++
    (if e.tags.isEmpty then [] else [field "tags" (tagsObject e.tags)]) ++
    text "timestamp" m.timestamp ++
    [field "type" (Json.printText e.kind.label)] ++
    number "uid" m.uid ++
    text "user" m.user ++
    number "version" m.version

def line (clean : List MetaAttribute) (e : Element) : List String := element clean e ++ ["\n"]

end Cutout.JsonLines
