import Cutout.Proofs.Memberships
/-! The index of memberships. In either direction it answers by the entries that were collected, whatever
their order and however often they came, and each answer ascends. -/
namespace Cutout.RelationGraph

theorem indexExact (rs : List Relation) :
    let memberships := Memberships.ofRelations rs
    let g := memberships.graph
    (∀ a b, b ∈ g.membersOf a ↔ RelationEdge rs a b) ∧
    (∀ a b, b ∈ g.membersOf a ↔ a ∈ g.parentsOf b) ∧
    (∀ a, (g.membersOf a).Pairwise (· < ·) ∧ (g.parentsOf a).Pairwise (· < ·)) ∧
    (∀ a b, b ∈ g.neighbors a ↔ a ∈ g.neighbors b) ∧
    (∀ a, g.neighbors a = g.parentsOf a ++ g.membersOf a) ∧
    g.edgeCount = (entries rs).toFinset.card ∧
    memberships.size = (entries rs).length ∧
    (∀ key, memberships.upward.get key = g.parentsOf key) ∧
    (∀ key, (∀ b, ¬ RelationEdge rs key b) → g.membersOf key = []) ∧
    ∀ key, (∀ a, ¬ RelationEdge rs a key) → memberships.upward.get key = [] := by
  intro memberships g
  have converse (a b : Nat) : b ∈ g.membersOf a ↔ a ∈ g.parentsOf b := memMembersOf.trans memUpward.symm
  refine ⟨fun a b => memMembersOf, converse, fun a => ⟨g.members.getAscending a, g.parents.getAscending a⟩,
    fun a b => ?_, fun a => rfl, ?_, ?_, fun key => rfl, fun key alone => ?_, fun key alone => ?_⟩
  · rw [neighbors, neighbors, List.mem_append, List.mem_append, converse a b, ← converse b a, or_comm]
  · rw [← collected]
    exact Adjacency.sizeOfPairs _
  · rw [← collected]
    rfl
  · exact List.eq_nil_iff_forall_not_mem.mpr fun b mem => alone b (memMembersOf.mp mem)
  · exact List.eq_nil_iff_forall_not_mem.mpr fun a mem => alone a (memUpward.mp mem)

end Cutout.RelationGraph
