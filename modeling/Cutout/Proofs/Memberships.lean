import Mathlib.Data.Finset.Dedup
import Mathlib.Logic.Relation
import Cutout.Proofs.Adjacencies
import Cutout.Proofs.Closure
/-! The membership graph of relations holds their edges and no others, and the two walks over it add
what is connected to the primary relations, and what is above them. -/
namespace Cutout

def RelationEdge (rs : List Relation) (parent member : Nat) : Prop :=
  ∃ r ∈ rs, r.key = parent ∧ ∃ m ∈ r.members, m.kind = .relation ∧ m.key = member

def Related (rs : List Relation) (a b : Nat) : Prop := RelationEdge rs a b ∨ RelationEdge rs b a

namespace RelationGraph

theorem memRelationKeys {r : Relation} {id : Nat} :
    id ∈ r.relationKeys ↔ ∃ m ∈ r.members, m.kind = .relation ∧ m.key = id := by
  simp [Relation.relationKeys, and_assoc]

def entries (rs : List Relation) : List (Nat × Nat) :=
  rs.flatMap fun r => r.relationKeys.map (r.key, ·)

theorem memEntries {rs : List Relation} {a b : Nat} : (a, b) ∈ entries rs ↔ RelationEdge rs a b := by
  simp only [entries, List.mem_flatMap, List.mem_map, memRelationKeys, Prod.mk.injEq, RelationEdge]
  grind

theorem pushAll (keys : List Nat) (parent : Nat) (pairs : Array (Nat × Nat)) :
    (keys.foldl (fun pairs member => pairs.push (parent, member)) pairs).toList =
      pairs.toList ++ keys.map (parent, ·) := by
  induction keys generalizing pairs with
  | nil => simp
  | cons key keys ih =>
    rw [List.foldl_cons, ih, Array.toList_push, List.append_assoc]
    rfl

theorem collected (rs : List Relation) : (Memberships.ofRelations rs).pairs.toList = entries rs := by
  have grows (m : Memberships) : (rs.foldl Memberships.add m).pairs.toList =
      m.pairs.toList ++ entries rs := by
    induction rs generalizing m with
    | nil => simp [entries]
    | cons r rs ih =>
      rw [List.foldl_cons, ih, Memberships.add, pushAll, List.append_assoc]
      rfl
  exact grows .empty

theorem memMembersOf {rs : List Relation} {a b : Nat} :
    b ∈ (ofRelations rs).membersOf a ↔ RelationEdge rs a b := by
  rw [← memEntries, ← collected]
  exact Adjacency.memGetOfPairs

theorem memUpward {rs : List Relation} {a b : Nat} :
    a ∈ (Memberships.ofRelations rs).upward.get b ↔ RelationEdge rs a b := by
  rw [Memberships.upward, Adjacency.memGetOfPairs, List.mem_map_swap, collected, memEntries]

theorem memNeighbors {rs : List Relation} {a b : Nat} :
    b ∈ (ofRelations rs).neighbors a ↔ Related rs a b := by
  rw [neighbors, List.mem_append, memMembersOf, Related, or_comm]
  exact or_congr_right memUpward

def sources (g : RelationGraph) : Finset Nat := g.members.sources ∪ g.parents.sources

theorem neighborsOutside (g : RelationGraph) {id : Nat} (outside : id ∉ g.sources) :
    g.neighbors id = [] := by
  rw [sources, Finset.mem_union, not_or] at outside
  rw [neighbors, parentsOf, membersOf, Adjacency.getOutside outside.1, Adjacency.getOutside outside.2,
    List.append_nil]

end RelationGraph

namespace Extract

theorem networkLoad (g : RelationGraph) (s : IdSet) :
    load g.neighbors g.sources s ≤ g.members.size + g.parents.size := by
  refine (loadLe _ s).trans ?_
  simp only [RelationGraph.neighbors, List.length_append, Finset.sum_add_distrib]
  rw [Nat.add_comm]
  exact Nat.add_le_add (g.members.sumLe _) (g.parents.sumLe _)

theorem parentsLoad (parents : Adjacency) (s : IdSet) :
    load parents.get parents.sources s ≤ parents.size :=
  (loadLe _ s).trans (parents.sumLe _)

theorem addNetworkRelations (x : Extract) (g : RelationGraph) (v : Nat) :
    (x.addNetwork g).extra.relations.contains v = true ↔ x.extra.relations.contains v = true ∨
      Reach g.neighbors
        (fun u => x.primary.relations.contains u = true ∨ x.extra.relations.contains u = true)
        (x.primary.relations.toList.flatMap g.neighbors) v :=
  absorbExact g.sources (fun _ => g.neighborsOutside) _ _ _ _
    (Nat.add_le_add_left (networkLoad g _) _) v

theorem addParentsRelations (x : Extract) (parents : Adjacency) (v : Nat) :
    (x.addParents parents).primary.relations.contains v = true ↔
      x.primary.relations.contains v = true ∨
      Reach parents.get
        (fun u => x.extra.relations.contains u = true ∨ x.primary.relations.contains u = true)
        (x.primary.relations.toList.flatMap parents.get) v :=
  absorbExact parents.sources (fun _ => Adjacency.getOutside) _ _ _ _
    (Nat.add_le_add_left (parentsLoad parents _) _) v

theorem reachAround {next : Nat → List Nat} {edge : Nat → Nat → Prop} {stop : Nat → Prop}
    {seeds : List Nat} (barred : Nat → Prop) (edges : ∀ a b, b ∈ next a ↔ edge a b)
    (stops : ∀ u, stop u ↔ u ∈ seeds ∨ barred u) (v : Nat) :
    Reach next stop (seeds.flatMap next) v ↔
      v ∉ seeds ∧ ∃ p ∈ seeds, Relation.TransGen (fun a b => edge a b ∧ ¬ barred b) p v := by
  -- Stopping at the seeds as well as at what is barred loses nothing, since the walk sets out from
  -- all of them.
  constructor
  · intro reached
    refine ⟨fun mem => reached.notStopped ((stops v).mpr (.inl mem)), ?_⟩
    induction reached with
    | start mem free =>
      obtain ⟨p, seed, mem⟩ := List.mem_flatMap.mp mem
      exact ⟨p, seed, .single ⟨(edges _ _).mp mem, fun bar => free ((stops _).mpr (.inr bar))⟩⟩
    | step before mem free ih =>
      obtain ⟨p, seed, path⟩ := ih
      exact ⟨p, seed, path.tail ⟨(edges _ _).mp mem, fun bar => free ((stops _).mpr (.inr bar))⟩⟩
  · intro given
    obtain ⟨outside, p, seed, path⟩ := given
    -- A path may come by other seeds. From the last of them on it meets no stop.
    have found : v ∈ seeds ∨ Reach next stop (seeds.flatMap next) v := by
      clear outside
      induction path with
      | @single v last =>
        by_cases inside : v ∈ seeds
        · exact .inl inside
        · have free := mt (stops v).mp (not_or.mpr ⟨inside, last.2⟩)
          exact .inr (.start (List.mem_flatMap.mpr ⟨p, seed, (edges _ _).mpr last.1⟩) free)
      | @tail u v path last ih =>
        by_cases inside : v ∈ seeds
        · exact .inl inside
        · have free := mt (stops v).mp (not_or.mpr ⟨inside, last.2⟩)
          have mem := (edges _ _).mpr last.1
          rcases ih with ih | ih
          · exact .inr (.start (List.mem_flatMap.mpr ⟨u, ih, mem⟩) free)
          · exact .inr (.step ih mem free)
    exact found.resolve_left outside

theorem reachFromSeeds {next : Nat → List Nat} {edge : Nat → Nat → Prop} {stop : Nat → Prop}
    {seeds : List Nat} (edges : ∀ a b, b ∈ next a ↔ edge a b) (stops : ∀ u, stop u ↔ u ∈ seeds)
    (v : Nat) : Reach next stop (seeds.flatMap next) v ↔
      v ∉ seeds ∧ ∃ p ∈ seeds, Relation.ReflTransGen edge p v := by
  rw [reachAround (fun _ => False) edges (fun u => (stops u).trans (or_false _).symm.to_iff)]
  refine and_congr_right fun outside => exists_congr fun p => and_congr_right fun seed => ?_
  simp only [not_false_eq_true, and_true]
  refine ⟨Relation.TransGen.to_reflTransGen, fun path => ?_⟩
  rcases Relation.reflTransGen_iff_eq_or_transGen.mp path with rfl | path
  · exact absurd seed outside
  · exact path

theorem addNetworkConnected (x : Extract) (rs : List Relation)
    (fresh : ∀ id, x.extra.relations.contains id = false) (v : Nat) :
    (x.addNetwork (.ofRelations rs)).extra.relations.contains v = true ↔
      x.primary.relations.contains v = false ∧
        ∃ p, x.primary.relations.contains p = true ∧ Relation.ReflTransGen (Related rs) p v := by
  rw [addNetworkRelations, reachFromSeeds (fun _ _ => RelationGraph.memNeighbors)]
  · simp [fresh]
  · simp [fresh]

theorem addParentsAncestors (x : Extract) (rs : List Relation)
    (fresh : ∀ id, x.extra.relations.contains id = false) (v : Nat) :
    (x.addParents (Memberships.ofRelations rs).upward).primary.relations.contains v = true ↔
      ∃ p, x.primary.relations.contains p = true ∧
        Relation.ReflTransGen (fun member parent => RelationEdge rs parent member) p v := by
  rw [addParentsRelations, reachFromSeeds fun _ _ => RelationGraph.memUpward]
  · simp only [IdSet.memToList]
    constructor
    · intro given
      rcases given with known | ⟨_, found⟩
      · exact ⟨v, known, .refl⟩
      · exact found
    · intro found
      by_cases known : x.primary.relations.contains v = true
      · exact .inl known
      · exact .inr ⟨known, found⟩
  · simp [fresh]

end Extract
end Cutout
