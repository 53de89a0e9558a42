import Cutout.Area
import Cutout.MetaAttribute
/-! Extracts as XML documents: one root, one element of the map after the other, each tag on a line
of its own. Attribute values escape the five characters of the predefined entities and no others. A
document is made of pieces: line ends, indents, the marks around a tag, and what is between them. -/
namespace Cutout.Xml

structure Tag where
  name : String
  attributes : List (String × String)
  deriving DecidableEq, Repr

inductive Markup where
  | opening (tag : Tag)
  | closing (name : String)
  | single (tag : Tag)
  deriving DecidableEq, Repr

def escapeChar (c : Char) : List Char :=
  if c = '<' then ['&', 'l', 't', ';']
  else if c = '>' then ['&', 'g', 't', ';']
  else if c = '&' then ['&', 'a', 'm', 'p', ';']
  else if c = '\'' then ['&', 'a', 'p', 'o', 's', ';']
  else if c = '"' then ['&', 'q', 'u', 'o', 't', ';']
  else [c]

def escape (s : String) : String := String.ofList (s.toList.flatMap escapeChar)

def attributeText (a : String × String) : String := " " ++ a.1 ++ "=\"" ++ escape a.2 ++ "\""

def Tag.text (t : Tag) : String := t.name ++ String.join (t.attributes.map attributeText)

def Markup.pieces : Markup → List String
  | opening t => ["<", t.text, ">"]
  | closing name => ["</", name, ">"]
  | single t => ["<", t.text, "/>"]

def indent (depth : Nat) : String := String.ofList (List.replicate (2 * depth) ' ')

def Markup.depth (depth : Nat) : Markup → Nat
  | closing _ => depth - 1
  | _ => depth

def Markup.depthAfter (depth : Nat) : Markup → Nat
  | opening _ => depth + 1
  | closing _ => depth - 1
  | single _ => depth

def lay : Nat → List Markup → List String
  | _, [] => []
  | depth, m :: rest =>
    "\n" :: indent (m.depth depth) :: m.pieces ++ lay (m.depthAfter depth) rest

def optional (name : String) (value : Option String) : List (String × String) :=
  value.toList.map fun v => (name, v)

def metadataAttributes (m : Metadata) : List (String × String) :=
  optional "version" (m.version.map toString) ++ optional "timestamp" m.timestamp ++
  optional "uid" (m.uid.map toString) ++ optional "user" m.user ++
  optional "changeset" (m.changeset.map toString) ++
  if m.visible then [] else [("visible", "false")]

def commonAttributes (clean : List MetaAttribute) (e : Element) : List (String × String) :=
  ("id", toString e.id) :: (match e.metadata with
    | some m => metadataAttributes (m.cleaned clean)
    | none => [])

def tagMarkup (tag : String × String) : Markup := .single ⟨"tag", [("k", tag.1), ("v", tag.2)]⟩

def refMarkup (id : Int) : Markup := .single ⟨"nd", [("ref", toString id)]⟩

def memberMarkup (m : Member) : Markup :=
  .single ⟨"member", [("type", m.kind.label), ("ref", toString m.id), ("role", m.role)]⟩

def degreesText (units : Int32) : String := Decimal.fixedPlain units.toInt Location.places

def elementMarkup (clean : List MetaAttribute) (e : Element) : List Markup :=
  let common := commonAttributes clean e
  let around (children : List Markup) : List Markup :=
    .opening ⟨e.kind.label, common⟩ :: children ++ e.tags.map tagMarkup ++
      [.closing e.kind.label]
  match e with
  | .node n =>
    let attributes := common ++
      [("lat", degreesText n.location.lat), ("lon", degreesText n.location.lon)]
    if n.tags.isEmpty then [.single ⟨e.kind.label, attributes⟩]
    else .opening ⟨e.kind.label, attributes⟩ :: n.tags.map tagMarkup ++ [.closing e.kind.label]
  | .way w => around (w.refs.map refMarkup)
  | .relation r => around (r.members.map memberMarkup)

def declaration : List String := ["<?", "xml version=\"1.0\" encoding=\"UTF-8\"", "?>"]

def generator : String := "carve/0.1.0"

def root : Markup := .opening ⟨"osm", [("version", "0.6"), ("generator", generator)]⟩

def boundsMarkup (r : Rect) : Markup :=
  .single ⟨"bounds",
    [("minlat", Decimal.coordinate r.min.y), ("minlon", Decimal.coordinate r.min.x),
      ("maxlat", Decimal.coordinate r.max.y), ("maxlon", Decimal.coordinate r.max.x)]⟩

def start (bounds : Option Rect) : List String :=
  declaration ++ lay 0 (root :: bounds.toList.map boundsMarkup)

def element (depth : Nat) (clean : List MetaAttribute) (e : Element) : List String :=
  lay depth (elementMarkup clean e)

def finish : List String := lay 1 [.closing "osm"] ++ ["\n"]

end Cutout.Xml
