import Cutout.Location
/-! Elements of a map: nodes, ways and relations, with their tags and their editing metadata.
Ids are signed; `key` is the absolute value by which id sets know an element. -/
namespace Cutout

inductive Kind where
  | node
  | way
  | relation
  deriving DecidableEq, Repr

namespace Kind

def label : Kind → String
  | node => "node"
  | way => "way"
  | relation => "relation"

def rank : Kind → Nat
  | node => 0
  | way => 1
  | relation => 2

def all : List Kind := [node, way, relation]

end Kind

structure Kinds where
  nodes : Bool
  ways : Bool
  relations : Bool
  deriving DecidableEq, Repr

namespace Kinds

def all : Kinds := ⟨true, true, true⟩
def onlyNodes : Kinds := ⟨true, false, false⟩
def onlyWays : Kinds := ⟨false, true, false⟩
def onlyRelations : Kinds := ⟨false, false, true⟩

def contains (k : Kinds) : Kind → Bool
  | .node => k.nodes
  | .way => k.ways
  | .relation => k.relations

def label (k : Kinds) : String :=
  "+".intercalate ((Kind.all.filter k.contains).map fun kind => kind.label ++ "s")

end Kinds

abbrev Tags := List (String × String)

def Tags.get? (tags : Tags) (key : String) : Option String :=
  (tags.find? fun tag => tag.1 == key).map (·.2)

structure Metadata where
  version : Option Int
  changeset : Option Int
  timestamp : Option String
  uid : Option Int
  user : Option String
  visible : Bool
  deriving DecidableEq, Repr

def Metadata.blank : Metadata := ⟨none, none, none, none, none, true⟩

structure Node where
  id : Int
  location : Location
  tags : Tags
  metadata : Option Metadata
  deriving DecidableEq, Repr

structure Way where
  id : Int
  refs : List Int
  tags : Tags
  metadata : Option Metadata
  deriving DecidableEq, Repr

structure Member where
  kind : Kind
  id : Int
  role : String
  deriving DecidableEq, Repr

structure Relation where
  id : Int
  members : List Member
  tags : Tags
  metadata : Option Metadata
  deriving DecidableEq, Repr

namespace Way

def key (w : Way) : Nat := w.id.natAbs

def nodeKeys (w : Way) : List Nat := w.refs.map Int.natAbs

end Way

def Node.key (n : Node) : Nat := n.id.natAbs
def Member.key (m : Member) : Nat := m.id.natAbs
def Relation.key (r : Relation) : Nat := r.id.natAbs

inductive Element where
  | node (n : Node)
  | way (w : Way)
  | relation (r : Relation)
  deriving DecidableEq, Repr

namespace Element

def kind : Element → Kind
  | node _ => .node
  | way _ => .way
  | relation _ => .relation

def id : Element → Int
  | node n => n.id
  | way w => w.id
  | relation r => r.id

def key (e : Element) : Nat := e.id.natAbs

def tags : Element → Tags
  | node n => n.tags
  | way w => w.tags
  | relation r => r.tags

def metadata : Element → Option Metadata
  | node n => n.metadata
  | way w => w.metadata
  | relation r => r.metadata

end Element
end Cutout
