import Cutout.Adjacency
import Cutout.Element
/-! Which relations are members of which. Memberships are collected as they are found, and frozen into
indexes that answer in ascending order, each id once. -/
namespace Cutout

structure RelationGraph where
  members : Adjacency
  parents : Adjacency

namespace RelationGraph

def membersOf (g : RelationGraph) (id : Nat) : List Nat := g.members.get id

def parentsOf (g : RelationGraph) (id : Nat) : List Nat := g.parents.get id

def neighbors (g : RelationGraph) (id : Nat) : List Nat := g.parentsOf id ++ g.membersOf id

def edgeCount (g : RelationGraph) : Nat := g.members.size

end RelationGraph

def Relation.relationKeys (r : Relation) : List Nat :=
  (r.members.filter fun m => m.kind == .relation).map Member.key

structure Memberships where
  pairs : Array (Nat × Nat)

namespace Memberships

def empty : Memberships := ⟨#[]⟩

def add (m : Memberships) (r : Relation) : Memberships :=
  ⟨r.relationKeys.foldl (fun pairs member => pairs.push (r.key, member)) m.pairs⟩

def ofRelations (rs : List Relation) : Memberships := rs.foldl add empty

def size (m : Memberships) : Nat := m.pairs.size

def upward (m : Memberships) : Adjacency := .ofPairs (m.pairs.toList.map Prod.swap)

def graph (m : Memberships) : RelationGraph := ⟨.ofPairs m.pairs.toList, m.upward⟩

end Memberships

def RelationGraph.ofRelations (rs : List Relation) : RelationGraph := (Memberships.ofRelations rs).graph

end Cutout
