import Cutout.Proofs.Meaning
import Cutout.Proofs.Slots
/-! What each element gains an extract, hook by hook. The tests of the hooks are read as tests on the
primary nodes and ways that the extract holds at that moment. -/
namespace Cutout

def Extract.held (x : Extract) (part : Part) (kind : Kind) : Set Nat :=
  {key | ⟨part, kind, key⟩ ∈ x}

namespace Extract

theorem heldOfPrimary {x y : Extract} (same : y.primary = x.primary) {kind : Kind} :
    y.held .primary kind = x.held .primary kind := by
  ext key
  simp only [held, Set.mem_ofPred_eq, memPrimary, same]

theorem writtenFoldWrite {x : Extract} (fresh : x.written = #[]) (elements : List Element) :
    (elements.foldl writeIncluded x).written.toList =
      elements.filter fun e => (elements.foldl writeIncluded x).includes e.kind e.key := by
  rw [foldWrite, fresh]
  simp [includes]

theorem pulledNodesCongr {x y : Extract} (nodes : y.held .primary .node = x.held .primary .node)
    {w : Way} {slot : Slot} : y.PulledNodes w slot ↔ x.PulledNodes w slot := by
  refine exists_congr fun key => and_congr_right fun _ => and_congr_right fun _ => ?_
  exact not_congr (Set.ext_iff.mp nodes key)

theorem pulledMembersCongr {x y : Extract} (nodes : y.held .primary .node = x.held .primary .node)
    (ways : y.held .primary .way = x.held .primary .way) {r : Relation} {slot : Slot} :
    y.PulledMembers r slot ↔ x.PulledMembers r slot := by
  refine exists_congr fun m => and_congr_right fun _ => and_congr_right fun other =>
    and_congr_right fun _ => not_congr ?_
  cases kind : m.kind with
  | node => exact Set.ext_iff.mp nodes m.key
  | way => exact Set.ext_iff.mp ways m.key
  | relation => exact absurd kind other

end Extract

namespace Strategy
open Extract

theorem memFindNode {x : Extract} {n : Node} {slot : Slot} : slot ∈ findNode x n ↔
    slot ∈ x ∨ (x.region.contains n.location = true ∧ slot = ⟨.primary, .node, n.key⟩) := by
  rw [findNode, memIf memAddPrimary]

theorem frameFindNode {x : Extract} {n : Node} : (findNode x n).frame = x.frame := by
  rw [findNode]
  exact viewIf frame rfl

theorem memFoldNodes {x : Extract} {nodes : List Node} {slot : Slot} :
    slot ∈ nodes.foldl findNode x ↔ slot ∈ x ∨
      ∃ n ∈ nodes, x.region.contains n.location = true ∧ slot = ⟨.primary, .node, n.key⟩ :=
  memFold (fun x n slot => x.region.contains n.location = true ∧ slot = ⟨.primary, .node, n.key⟩)
    (fun _ _ _ => memFindNode) (fun _ _ _ _ => by rw [regionOfFrame frameFindNode]) nodes x slot

def withNodes (elements : List Element) (x : Extract) : Extract :=
  (nodesOf elements).foldl findNode x

theorem frameWithNodes {elements : List Element} {x : Extract} :
    (withNodes elements x).frame = x.frame := foldKeeps (fun _ _ => frameFindNode) _ x

theorem memWithNodes {region : Region} {elements : List Element} {slot : Slot} :
    slot ∈ withNodes elements (start region) ↔
      ∃ key ∈ region.nodes elements, slot = ⟨.primary, .node, key⟩ := by
  rw [withNodes, memFoldNodes, or_iff_right (notMemStart region slot)]
  constructor
  · intro given
    obtain ⟨n, mem, inside, rfl⟩ := given
    exact ⟨n.key, ⟨n, memNodesOf.mp mem, inside, rfl⟩, rfl⟩
  · intro given
    obtain ⟨_, ⟨n, mem, inside, rfl⟩, rfl⟩ := given
    exact ⟨n, memNodesOf.mpr mem, inside, rfl⟩

theorem heldWithNodes {region : Region} {elements : List Element} :
    (withNodes elements (start region)).held .primary .node = region.nodes elements := by
  ext key
  refine memWithNodes.trans ?_
  simp

theorem byFirstNodeIff {x : Extract} {w : Way} :
    byFirstNode x w = true ↔ x.region.StartsWay (x.held .primary .node) w := by
  rw [byFirstNode, Region.StartsWay, Way.nodeKeys, List.head?_map]
  simp only [Bool.or_eq_true, Bool.and_eq_true, Bool.not_eq_true', Option.any_eq_true,
    Option.map_eq_some_iff]
  refine or_congr_left (and_congr_left fun _ => ?_)
  constructor
  · intro given
    obtain ⟨key, ⟨ref, first, rfl⟩, inside⟩ := given
    exact ⟨ref, first, inside⟩
  · intro given
    obtain ⟨ref, first, inside⟩ := given
    exact ⟨_, ⟨ref, first, rfl⟩, inside⟩

theorem byAnyNodeIff {x : Extract} {w : Way} :
    byAnyNode x w = true ↔ ∃ ref ∈ w.refs, ref.natAbs ∈ x.held .primary .node := by
  rw [byAnyNode, Way.nodeKeys, List.any_eq_true]
  constructor
  · intro given
    obtain ⟨key, listed, inside⟩ := given
    obtain ⟨ref, mem, rfl⟩ := List.mem_map.mp listed
    exact ⟨ref, mem, inside⟩
  · intro given
    obtain ⟨ref, mem, inside⟩ := given
    exact ⟨_, List.mem_map.mpr ⟨ref, mem, rfl⟩, inside⟩

theorem isInsideIff {x : Extract} {m : Member} :
    isInside x m = true ↔ m.IsOf (x.held .primary .node) (x.held .primary .way) := by
  simp only [isInside, Member.IsOf, held, Set.mem_ofPred_eq, memPrimary]
  cases m.kind <;> simp

theorem anyInsideIff {x : Extract} {r : Relation} : r.members.any (isInside x) = true ↔
    r.Touches (x.held .primary .node) (x.held .primary .way) := by
  simp only [List.any_eq_true, isInsideIff, Relation.Touches]

def GainedWay (x : Extract) (w : Way) (slot : Slot) : Prop :=
  slot = ⟨.primary, .way, w.key⟩ ∨ x.PulledNodes w slot

theorem pulledAfter {x : Extract} {kind other : Kind} {key id : Nat} (different : other ≠ kind)
    {slot : Slot} : (x.addPrimary kind key).Pulled other id slot ↔ x.Pulled other id slot := by
  rw [Pulled, Pulled, memAddPrimary]
  simp [different]

theorem memTakeWay {x : Extract} {w : Way} {slot : Slot} :
    slot ∈ (x.addPrimary .way w.key).addWayNodes w ↔ slot ∈ x ∨ GainedWay x w slot := by
  rw [memAddWayNodes, memAddPrimary, or_assoc, GainedWay, PulledNodes, PulledNodes]
  simp only [pulledAfter (show Kind.node ≠ .way by decide)]

def GainedRelation (x : Extract) (r : Relation) (complete : Prop) (slot : Slot) : Prop :=
  slot = ⟨.primary, .relation, r.key⟩ ∨ (complete ∧ x.PulledMembers r slot)

theorem pulledMembersAfter {x : Extract} {r : Relation} {key : Nat} {slot : Slot} :
    (x.addPrimary .relation key).PulledMembers r slot ↔ x.PulledMembers r slot := by
  refine exists_congr fun m => and_congr_right fun _ => and_congr_right fun kind => ?_
  exact pulledAfter kind

namespace SystemOptions
variable {o : SystemOptions} {x : Extract} {slot : Slot}

theorem memFindWay {w : Way} : slot ∈ o.findWay x w ↔
    slot ∈ x ∨ (o.TakesWay x.region (x.held .primary .node) w ∧ GainedWay x w slot) := by
  have test : (if o.byFirstNode then Strategy.byFirstNode x w else byAnyNode x w) = true ↔
      o.TakesWay x.region (x.held .primary .node) w := by
    rw [TakesWay]
    split
    · exact byFirstNodeIff
    · exact byAnyNodeIff
  rw [findWay, memIf memTakeWay, test]

theorem memFindRelation {r : Relation} : slot ∈ o.findRelation x r ↔ slot ∈ x ∨
    (r.Touches (x.held .primary .node) (x.held .primary .way) ∧
      GainedRelation x r (o.isRelevant r = true ∨ o.isPartOfSystem r = true) slot) := by
  rw [findRelation, memIf, anyInsideIff]
  rw [memIf memAddMembers, memAddPrimary, or_assoc, pulledMembersAfter, Bool.or_eq_true,
    GainedRelation]

theorem memCompleteSystem {r : Relation} : slot ∈ o.completeSystem x (.relation r) ↔ slot ∈ x ∨
    ((r.key ∈ x.held .extra .relation ∧ o.isPartOfSystem r = true) ∧ x.PulledMembers r slot) := by
  rw [completeSystem, memIf memAddMembers, Bool.and_eq_true]
  exact Iff.rfl

theorem memCompleteExtraWay {w : Way} : slot ∈ completeExtraWay x (.way w) ↔ slot ∈ x ∨
    (w.key ∈ x.held .extra .way ∧ x.PulledNodes w slot) := by
  rw [completeExtraWay, memIf memAddWayNodes]
  exact Iff.rfl

theorem frameFindWay {w : Way} : (o.findWay x w).frame = x.frame := by
  have completed := frameOfBase (baseAddWayNodes (x.addPrimary .way w.key) w)
  rw [findWay]
  exact viewIf frame completed

theorem frameFindRelation {r : Relation} : (o.findRelation x r).frame = x.frame := by
  have completed := frameOfBase (baseAddMembers (x.addPrimary .relation r.key) r)
  rw [findRelation]
  exact viewIf frame (viewIf frame completed)

theorem baseCompleteSystem {r : Relation} : (o.completeSystem x (.relation r)).base = x.base :=
  viewIf base (baseAddMembers x r)

theorem baseCompleteExtraWay {w : Way} : (completeExtraWay x (.way w)).base = x.base :=
  viewIf base (baseAddWayNodes x w)

end SystemOptions

namespace FirstNodeOptions
variable {o : FirstNodeOptions} {x : Extract} {slot : Slot}

theorem memFindWay {w : Way} : slot ∈ findWay x w ↔ slot ∈ x ∨
    (x.region.StartsWay (x.held .primary .node) w ∧ slot = ⟨.primary, .way, w.key⟩) := by
  rw [findWay, memIf memAddPrimary, byFirstNodeIff]

theorem memCompleteWay {w : Way} : slot ∈ completeWay x (.way w) ↔ slot ∈ x ∨
    ((w.key ∈ x.held .primary .way ∨ w.key ∈ x.held .extra .way) ∧ x.PulledNodes w slot) := by
  rw [completeWay, memIf memAddWayNodes, includesIff]
  exact Iff.rfl

theorem frameFindWay {w : Way} : (findWay x w).frame = x.frame := by
  rw [findWay]
  exact viewIf frame rfl

theorem baseCompleteWay {w : Way} : (completeWay x (.way w)).base = x.base :=
  viewIf base (baseAddWayNodes x w)

def Settles (o : FirstNodeOptions) (r : Relation) (inside : Nat) : Prop :=
  o.acceptsTags r = true ∧ ((0 < inside ∧ o.acceptsType r = true) ∨
    o.acceptsShare r.members.length inside = true)

instance (o : FirstNodeOptions) (r : Relation) (inside : Nat) : Decidable (o.Settles r inside) :=
  inferInstanceAs (Decidable (_ ∧ _))

def settle (o : FirstNodeOptions) (r : Relation) (inside : Nat) (x : Extract) : Extract :=
  let y := if 0 < inside then x.addPrimary .relation r.key else x
  if o.Settles r inside then y.addMembers r else y

theorem settlesAtOnce {r : Relation} {inside : Nat} (some : 0 < inside)
    (accepted : (o.acceptsType r && o.acceptsTags r) = true) : o.Settles r inside := by
  rw [Bool.and_eq_true] at accepted
  exact ⟨accepted.2, .inl ⟨some, accepted.1⟩⟩

theorem settlesByShare {r : Relation} {inside : Nat}
    (open' : 0 < inside → ¬ (o.acceptsType r && o.acceptsTags r) = true) : o.Settles r inside ↔
      (o.acceptsShare r.members.length inside && o.acceptsTags r) = true := by
  rw [Bool.and_eq_true] at open' ⊢
  rw [Settles]
  tauto

theorem weighOn {r : Relation} (members : List Member) (before : Nat) (met : 0 < before)
    (open' : ¬ (o.acceptsType r && o.acceptsTags r) = true) : o.weigh r members before x =
      if o.Settles r (before + members.countP (isInside x)) then x.addMembers r else x := by
  induction members generalizing before with
  | nil => simp only [weigh, List.countP_nil, Nat.add_zero, settlesByShare fun _ => open']
  | cons m rest ih =>
    rw [weigh]
    by_cases inside : isInside x m = true
    · rw [List.countP_cons_of_pos inside]
      simp only [inside, Bool.not_true, Bool.false_eq_true, if_false, Nat.ne_of_gt met]
      rw [ih (before + 1) (by omega), Nat.add_right_comm, Nat.add_assoc]
    · rw [List.countP_cons_of_neg inside]
      simp only [inside, Bool.not_false, if_true]
      exact ih before met

theorem insideAfter {m : Member} {key : Nat} :
    isInside (x.addPrimary .relation key) m = isInside x m := by
  simp only [isInside, addPrimary, IdSets.containsInsert]
  cases m.kind <;> simp

theorem weighFirst {r : Relation} (members : List Member) :
    o.weigh r members 0 x = o.settle r (members.countP (isInside x)) x := by
  induction members with
  | nil =>
    have share := o.settlesByShare (r := r) fun some => absurd some (Nat.lt_irrefl 0)
    simp only [weigh, settle, List.countP_nil, share, Nat.lt_irrefl, if_false]
  | cons m rest ih =>
    rw [weigh]
    by_cases inside : isInside x m = true
    · have found : 0 < rest.countP (isInside x) + 1 := by omega
      rw [List.countP_cons_of_pos inside, settle, if_pos found]
      simp only [inside, Bool.not_true, Bool.false_eq_true, if_false, if_true]
      by_cases accepted : (o.acceptsType r && o.acceptsTags r) = true
      · rw [if_pos accepted, if_pos (settlesAtOnce found accepted)]
      · have counts : rest.countP (isInside (x.addPrimary .relation r.key)) =
            rest.countP (isInside x) := List.countP_congr fun m _ => by rw [insideAfter]
        rw [if_neg accepted, weighOn rest 1 (by omega) accepted, counts, Nat.add_comm 1]
    · rw [List.countP_cons_of_neg inside]
      simp only [inside, Bool.not_false, if_true]
      exact ih

theorem findRelationIs {r : Relation} :
    o.findRelation x r = o.settle r (r.members.countP (isInside x)) x := weighFirst r.members

theorem frameFindRelation {r : Relation} : (o.findRelation x r).frame = x.frame := by
  rw [findRelationIs, settle]
  exact (viewIf frame (frameOfBase (baseAddMembers _ r))).trans (viewIf frame rfl)

theorem memFindRelation {r : Relation} : slot ∈ o.findRelation x r ↔ slot ∈ x ∨
    (0 < r.members.countP (isInside x) ∧ slot = ⟨.primary, .relation, r.key⟩) ∨
      (o.Settles r (r.members.countP (isInside x)) ∧ x.PulledMembers r slot) := by
  rw [findRelationIs, settle, memIf memAddMembers, memIf memAddPrimary, or_assoc]
  split
  · rw [pulledMembersAfter]
  · rfl

end FirstNodeOptions
end Strategy
end Cutout
