import Cutout.Pass
/-! What the first pass of every strategy shares: the check of the input's order, the
memberships of relations, and the tests by which elements are found. -/
namespace Cutout.Strategy

def unknownOption (strategy key : String) : Note :=
  .warn s!"Ignoring unknown option '{key}' for '{strategy}' strategy."

structure Survey where
  order : InputOrder
  memberships : Memberships

namespace Survey

def start : Survey := ⟨.start, .empty⟩

def observe (counts : Relation → Bool) (s : Survey) (e : Element) : Except Fault Survey :=
  match s.order.checkElement e with
  | (.error fault, _) => .error fault
  | (.ok (), order) =>
    match e with
    | .relation r => .ok ⟨order, if counts r then s.memberships.add r else s.memberships⟩
    | _ => .ok ⟨order, s.memberships⟩

end Survey

def findNode (x : Extract) (n : Node) : Extract :=
  if x.region.contains n.location then x.addPrimary .node n.key else x

def byFirstNode (x : Extract) (w : Way) : Bool :=
  let firstInside := w.nodeKeys.head?.any fun key => x.primary.nodes.contains key
  (firstInside && !x.region.conflicting w.tags) || x.region.matching w.tags

def byAnyNode (x : Extract) (w : Way) : Bool :=
  w.nodeKeys.any fun key => x.primary.nodes.contains key

def isInside (x : Extract) (m : Member) : Bool :=
  m.kind ≠ .relation && x.primary.contains m.kind m.key

end Cutout.Strategy
