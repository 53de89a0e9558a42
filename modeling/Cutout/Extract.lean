import Cutout.IdSet
import Cutout.RelationGraph
import Cutout.TagRules
/-! What an extract collects on its way through the input. Primary elements are found directly,
extra ones are pulled in to complete ways and relations; both sets only grow. -/
namespace Cutout

structure Region where
  contains : Location → Bool
  conflicting : Tags → Bool
  matching : Tags → Bool

def Region.separator : Char := ':'

def Region.ofRules (contains : Location → Bool) (conflicting matching : TagRules) : Region :=
  ⟨contains, conflicting.matchesAny, matching.matchesAny⟩

structure Extract where
  region : Region
  primary : IdSets
  extra : IdSets
  written : Array Element

namespace Extract

def start (region : Region) : Extract := ⟨region, ∅, ∅, #[]⟩

def includes (x : Extract) (kind : Kind) (key : Nat) : Bool :=
  x.primary.contains kind key || x.extra.contains kind key

def addPrimary (x : Extract) (kind : Kind) (key : Nat) : Extract :=
  { x with primary := x.primary.insert kind key }

def pullIn (x : Extract) (kind : Kind) (key : Nat) : Extract :=
  if x.primary.contains kind key then x else { x with extra := x.extra.insert kind key }

def addWayNodes (x : Extract) (w : Way) : Extract :=
  w.nodeKeys.foldl (fun x key => x.pullIn .node key) x

def addMembers (x : Extract) (r : Relation) : Extract :=
  r.members.foldl (fun x m => if m.kind = .relation then x else x.pullIn m.kind m.key) x

/-- Adds to a set what can be reached from `pending` by `next`, going neither into nor through
blocked ids and not on from ids that were in the set before. -/
def absorb (next : Nat → List Nat) (blocked : Nat → Bool) : Nat → List Nat → IdSet → IdSet
  | 0, _, s => s
  | _, [], s => s
  | n + 1, id :: pending, s =>
    if blocked id || s.contains id then absorb next blocked n pending s
    else absorb next blocked n (next id ++ pending) (s.insert id)

def addNetwork (x : Extract) (g : RelationGraph) : Extract :=
  let pending := x.primary.relations.toList.flatMap g.neighbors
  let steps := pending.length + (g.members.size + g.parents.size)
  let found := absorb g.neighbors x.primary.relations.contains steps pending x.extra.relations
  { x with extra := { x.extra with relations := found } }

def addParents (x : Extract) (parents : Adjacency) : Extract :=
  let pending := x.primary.relations.toList.flatMap parents.get
  let steps := pending.length + parents.size
  let found := absorb parents.get x.extra.relations.contains steps pending x.primary.relations
  { x with primary := { x.primary with relations := found } }

def writeIncluded (x : Extract) (e : Element) : Extract :=
  if x.includes e.kind e.key then { x with written := x.written.push e } else x

def since (x earlier : Extract) : List Element := x.written.toList.drop earlier.written.size

def hasExtra (x : Extract) (kind : Kind) : Bool := !x.extra.isEmpty kind

end Extract

def anyExtra (xs : List Extract) (kind : Kind) : Bool := xs.any fun x => x.hasExtra kind

end Cutout
