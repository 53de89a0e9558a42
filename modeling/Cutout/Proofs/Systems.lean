import Cutout.Proofs.Hooks
/-! What the passes of relation systems make of one extract. After each pass the slots are those of
the pass before with the gains of its elements; after the last they are the meaning of the input. -/
namespace Cutout.Strategy.SystemOptions
open Extract

section Stages
variable (o : SystemOptions) (elements : List Element)

def withWays (x : Extract) : Extract := (waysOf elements).foldl o.findWay (withNodes elements x)

def found (x : Extract) : Extract :=
  (relationsOf elements).foldl o.findRelation (o.withWays elements x)

def networked (x : Extract) : Extract :=
  (o.found elements x).addNetwork (.ofRelations (o.systemRelations elements))

def joined (x : Extract) : Extract :=
  (relationsOf elements).foldl (fun x r => o.completeSystem x (.relation r)) (o.networked elements x)

def gathered (x : Extract) : Extract :=
  (waysOf elements).foldl (fun x w => completeExtraWay x (.way w)) (o.joined elements x)

def finished (x : Extract) : Extract := elements.foldl Extract.writeIncluded (o.gathered elements x)

end Stages

section Gains
variable {o : SystemOptions} {x : Extract}

theorem nodesFindWay {w : Way} :
    (o.findWay x w).held .primary .node = x.held .primary .node := by
  ext key
  refine memFindWay.trans ?_
  simp [GainedWay, held]

theorem memFoldWays {ways : List Way} {slot : Slot} : slot ∈ ways.foldl o.findWay x ↔ slot ∈ x ∨
    ∃ w ∈ ways, o.TakesWay x.region (x.held .primary .node) w ∧ GainedWay x w slot := by
  refine memFold (fun x w slot => o.TakesWay x.region (x.held .primary .node) w ∧
    GainedWay x w slot) (fun _ _ _ => memFindWay) (fun x v w slot => ?_) ways x slot
  rw [regionOfFrame frameFindWay, nodesFindWay, GainedWay, pulledNodesCongr nodesFindWay]
  exact Iff.rfl

theorem keepsFindRelation {r : Relation} {kind : Kind} (other : kind ≠ .relation) :
    (o.findRelation x r).held .primary kind = x.held .primary kind := by
  ext key
  refine memFindRelation.trans ?_
  simp [GainedRelation, held, other]

theorem memFoldRelations {relations : List Relation} {slot : Slot} :
    slot ∈ relations.foldl o.findRelation x ↔ slot ∈ x ∨ ∃ r ∈ relations,
      r.Touches (x.held .primary .node) (x.held .primary .way) ∧
        GainedRelation x r (o.isRelevant r = true ∨ o.isPartOfSystem r = true) slot := by
  refine memFold (fun x r slot => r.Touches (x.held .primary .node) (x.held .primary .way) ∧
    GainedRelation x r (o.isRelevant r = true ∨ o.isPartOfSystem r = true) slot)
    (fun _ _ _ => memFindRelation) (fun x q r slot => ?_) relations x slot
  have nodes := keepsFindRelation (o := o) (x := x) (r := q) (show Kind.node ≠ .relation by decide)
  have ways := keepsFindRelation (o := o) (x := x) (r := q) (show Kind.way ≠ .relation by decide)
  rw [nodes, ways, GainedRelation, pulledMembersCongr nodes ways]
  exact Iff.rfl

theorem memFoldSystems {relations : List Relation} {slot : Slot} :
    slot ∈ relations.foldl (fun x r => o.completeSystem x (.relation r)) x ↔ slot ∈ x ∨
      ∃ r ∈ relations, (r.key ∈ x.held .extra .relation ∧ o.isPartOfSystem r = true) ∧
        x.PulledMembers r slot := by
  refine memFold (fun x (r : Relation) slot => (r.key ∈ x.held .extra .relation ∧
    o.isPartOfSystem r = true) ∧ x.PulledMembers r slot) (fun _ _ _ => memCompleteSystem)
    (fun x q r slot => ?_) relations x slot
  have primary := primaryOfBase (baseCompleteSystem (o := o) (x := x) (r := q))
  have system : (o.completeSystem x (.relation q)).held .extra .relation =
      x.held .extra .relation := by
    ext key
    refine memCompleteSystem.trans ?_
    simp [pulledMembersIff, held]
  rw [system, pulledMembersCongr (heldOfPrimary primary) (heldOfPrimary primary)]

theorem memFoldExtraWays {ways : List Way} {slot : Slot} :
    slot ∈ ways.foldl (fun x w => completeExtraWay x (.way w)) x ↔ slot ∈ x ∨
      ∃ w ∈ ways, w.key ∈ x.held .extra .way ∧ x.PulledNodes w slot := by
  refine memFold (fun x (w : Way) slot => w.key ∈ x.held .extra .way ∧ x.PulledNodes w slot)
    (fun _ _ _ => memCompleteExtraWay) (fun x v w slot => ?_) ways x slot
  have primary := primaryOfBase (baseCompleteExtraWay (x := x) (w := v))
  have extra : (completeExtraWay x (.way v)).held .extra .way = x.held .extra .way := by
    ext key
    refine memCompleteExtraWay.trans ?_
    simp [pulledNodesIff, held]
  rw [extra, pulledNodesCongr (heldOfPrimary primary)]

theorem memAddNetwork {relations : List Relation} {slot : Slot}
    (fresh : x.held .extra .relation = ∅) :
    slot ∈ x.addNetwork (.ofRelations relations) ↔ slot ∈ x ∨ ∃ key,
      slot = ⟨.extra, .relation, key⟩ ∧ key ∉ x.held .primary .relation ∧
        ∃ p ∈ x.held .primary .relation, Relation.ReflTransGen (Related relations) p key := by
  have none : ∀ id, x.extra.relations.contains id = false := fun id =>
    Bool.eq_false_iff.mpr fun known => (Set.ext_iff.mp fresh id).mp known
  obtain ⟨part, kind, key⟩ := slot
  cases part with
  | primary => exact (or_iff_left fun ⟨_, other, _⟩ => by cases other).symm
  | extra =>
    cases kind with
    | node => exact (or_iff_left fun ⟨_, other, _⟩ => by cases other).symm
    | way => exact (or_iff_left fun ⟨_, other, _⟩ => by cases other).symm
    | relation =>
      refine (addNetworkConnected x relations none key).trans ?_
      have absent : (⟨.extra, .relation, key⟩ : Slot) ∉ x := (Set.ext_iff.mp fresh key).mp
      rw [or_iff_right absent, ← Bool.not_eq_true]
      constructor
      · intro given
        obtain ⟨outside, connected⟩ := given
        exact ⟨key, rfl, outside, connected⟩
      · intro given
        obtain ⟨_, same, outside, connected⟩ := given
        cases same
        exact ⟨outside, connected⟩

end Gains

section Fresh
variable {o : SystemOptions} {region : Region} {elements : List Element}

theorem memWithWays {slot : Slot} : slot ∈ o.withWays elements (start region) ↔
    slot ∈ withNodes elements (start region) ∨ ∃ w, .way w ∈ elements ∧
      o.TakesWay region (region.nodes elements) w ∧
        GainedWay (withNodes elements (start region)) w slot := by
  have place : (withNodes elements (start region)).region = region := regionOfFrame frameWithNodes
  rw [withWays, memFoldWays, heldWithNodes, place]
  simp only [memWaysOf]

theorem nodesWithWays :
    (o.withWays elements (start region)).held .primary .node = region.nodes elements := by
  ext key
  refine memWithWays.trans ?_
  simp [memWithNodes, GainedWay]

theorem waysWithWays :
    (o.withWays elements (start region)).held .primary .way = o.primaryWays region elements := by
  ext key
  refine memWithWays.trans ?_
  simp [memWithNodes, GainedWay, primaryWays, eq_comm (a := key)]

theorem memFound {slot : Slot} : slot ∈ o.found elements (start region) ↔
    slot ∈ o.withWays elements (start region) ∨ ∃ r, .relation r ∈ elements ∧
      o.Finds region elements r ∧ GainedRelation (o.withWays elements (start region)) r
        (o.isRelevant r = true ∨ o.isPartOfSystem r = true) slot := by
  rw [found, memFoldRelations, nodesWithWays, waysWithWays]
  simp only [memRelationsOf, Finds]

theorem nodesFound :
    (o.found elements (start region)).held .primary .node = region.nodes elements := by
  rw [← nodesWithWays (o := o)]
  ext key
  refine memFound.trans ?_
  simp [GainedRelation, held]

theorem waysFound :
    (o.found elements (start region)).held .primary .way = o.primaryWays region elements := by
  rw [← waysWithWays]
  ext key
  refine memFound.trans ?_
  simp [GainedRelation, held]

theorem relationsFound : (o.found elements (start region)).held .primary .relation =
    o.primaryRelations region elements := by
  ext key
  refine memFound.trans ?_
  simp [GainedRelation, memWithWays, memWithNodes, GainedWay, primaryRelations, eq_comm (a := key)]

theorem noExtraRelations : (o.found elements (start region)).held .extra .relation = ∅ := by
  ext key
  refine memFound.trans ?_
  simp [GainedRelation, memWithWays, memWithNodes, GainedWay, pulledMembersIff, pulledNodesIff]

theorem memNetworked {slot : Slot} : slot ∈ o.networked elements (start region) ↔
    slot ∈ o.found elements (start region) ∨
      ∃ key ∈ o.extraRelations region elements, slot = ⟨.extra, .relation, key⟩ := by
  rw [networked, memAddNetwork noExtraRelations, relationsFound]
  refine or_congr_right (exists_congr fun key => ?_)
  rw [and_comm]
  exact Iff.rfl

theorem primaryNetworked {kind : Kind} : (o.networked elements (start region)).held .primary kind =
    (o.found elements (start region)).held .primary kind := by
  ext key
  refine memNetworked.trans ?_
  simp [held]

theorem relationsNetworked : (o.networked elements (start region)).held .extra .relation =
    o.extraRelations region elements := by
  ext key
  refine memNetworked.trans ?_
  have fresh : ⟨.extra, .relation, key⟩ ∉ o.found elements (start region) :=
    (Set.ext_iff.mp noExtraRelations key).mp
  simp [fresh]

theorem memJoined {slot : Slot} : slot ∈ o.joined elements (start region) ↔
    slot ∈ o.networked elements (start region) ∨ ∃ r, .relation r ∈ elements ∧
      (r.key ∈ o.extraRelations region elements ∧ o.isPartOfSystem r = true) ∧
        (o.networked elements (start region)).PulledMembers r slot := by
  rw [joined, memFoldSystems, relationsNetworked]
  simp only [memRelationsOf]

theorem memberJoined {kind : Kind} (other : kind ≠ .relation) {key : Nat} :
    ⟨.extra, kind, key⟩ ∈ o.joined elements (start region) ↔
      ⟨.extra, kind, key⟩ ∈ o.withWays elements (start region) ∨
      (key ∉ (o.withWays elements (start region)).held .primary kind ∧
        ∃ r, .relation r ∈ elements ∧ o.Completes region elements r ∧ r.HasMember kind key) := by
  have primary : (⟨.primary, kind, key⟩ : Slot) ∈ o.networked elements (start region) ↔
      ⟨.primary, kind, key⟩ ∈ o.withWays elements (start region) := by
    rw [memNetworked, memFound]
    simp [GainedRelation, other]
  rw [memJoined, memNetworked, memFound]
  simp only [GainedRelation, pulledMembersIff, primary, Slot.mk.injEq, reduceCtorEq, other,
    false_and, and_false, exists_false, or_false, false_or, ne_eq, not_false_eq_true, true_and]
  constructor
  · intro given
    rcases given with (before | ⟨r, mem, finds, complete, member, free⟩) | ⟨r, mem, reached, member, free⟩
    · exact .inl before
    · exact .inr ⟨free, r, mem, .inl ⟨finds, complete⟩, member⟩
    · exact .inr ⟨free, r, mem, .inr reached, member⟩
  · intro given
    rcases given with before | ⟨free, r, mem, ⟨finds, complete⟩ | reached, member⟩
    · exact .inl (.inl before)
    · exact .inl (.inr ⟨r, mem, finds, complete, member, free⟩)
    · exact .inr ⟨r, mem, reached, member, free⟩

theorem waysJoined : (o.joined elements (start region)).held .extra .way =
    o.extraWays region elements := by
  ext key
  refine (memberJoined (by decide)).trans ?_
  have fresh : ⟨.extra, .way, key⟩ ∉ o.withWays elements (start region) := by
    simp [memWithWays, memWithNodes, GainedWay, pulledNodesIff]
  rw [or_iff_right fresh, waysWithWays]
  exact Iff.rfl

theorem baseJoined {x : Extract} : (o.joined elements x).base = (o.networked elements x).base :=
  foldKeeps (fun _ _ => baseCompleteSystem) _ _

theorem baseGathered {x : Extract} : (o.gathered elements x).base = (o.networked elements x).base :=
  (foldKeeps (fun _ _ => baseCompleteExtraWay) _ _).trans baseJoined

theorem frameGathered {x : Extract} : (o.gathered elements x).frame = x.frame := by
  have networked : (o.networked elements x).frame = (o.found elements x).frame := rfl
  rw [frameOfBase baseGathered, networked, found, withWays,
    foldKeeps (fun _ _ => frameFindRelation), foldKeeps (fun _ _ => frameFindWay), frameWithNodes]

theorem memGathered {slot : Slot} : slot ∈ o.gathered elements (start region) ↔
    slot ∈ o.joined elements (start region) ∨ ∃ w, .way w ∈ elements ∧
      w.key ∈ o.extraWays region elements ∧
        (o.joined elements (start region)).PulledNodes w slot := by
  rw [gathered, memFoldExtraWays, waysJoined]
  simp only [memWaysOf]

theorem primaryGathered {kind : Kind} : (o.gathered elements (start region)).held .primary kind =
    (o.found elements (start region)).held .primary kind := by
  rw [← primaryNetworked]
  exact heldOfPrimary (primaryOfBase baseGathered)

theorem relationsGathered : (o.gathered elements (start region)).held .extra .relation =
    o.extraRelations region elements := by
  rw [← relationsNetworked]
  ext key
  refine memGathered.trans ?_
  rw [memJoined]
  simp [pulledNodesIff, pulledMembersIff, held]

theorem waysGathered : (o.gathered elements (start region)).held .extra .way =
    o.extraWays region elements := by
  rw [← waysJoined]
  ext key
  refine memGathered.trans ?_
  simp [pulledNodesIff, held]

theorem nodesGathered : (o.gathered elements (start region)).held .extra .node =
    o.extraNodes region elements := by
  ext key
  have primary : (⟨.primary, .node, key⟩ : Slot) ∈ o.joined elements (start region) ↔
      key ∈ region.nodes elements := by
    rw [← nodesFound (o := o), ← primaryNetworked]
    exact Set.ext_iff.mp (heldOfPrimary (primaryOfBase baseJoined)) key
  have inside : (⟨.primary, .node, key⟩ : Slot) ∈ withNodes elements (start region) ↔
      key ∈ region.nodes elements := Set.ext_iff.mp heldWithNodes key
  refine memGathered.trans ?_
  rw [memberJoined (by decide), nodesWithWays, memWithWays, memWithNodes]
  simp only [GainedWay, pulledNodesIff, primary, inside, Slot.mk.injEq, reduceCtorEq, false_and,
    and_false, exists_false, false_or, true_and]
  constructor
  · intro given
    rcases given with (⟨w, mem, takes, listed, free⟩ | ⟨free, found⟩) | ⟨w, mem, pulled, listed, free⟩
    · exact ⟨free, .inr ⟨w, mem, .inl takes, listed⟩⟩
    · exact ⟨free, .inl found⟩
    · exact ⟨free, .inr ⟨w, mem, .inr pulled, listed⟩⟩
  · intro given
    obtain ⟨free, found | ⟨w, mem, takes | pulled, listed⟩⟩ := given
    · exact .inl (.inr ⟨free, found⟩)
    · exact .inl (.inl ⟨w, mem, takes, listed, free⟩)
    · exact .inr ⟨w, mem, pulled, listed, free⟩

theorem meaningOfHeld {x : Extract} (frame : x.frame = (start region).frame)
    (nodes : x.held .primary .node = region.nodes elements)
    (ways : x.held .primary .way = o.primaryWays region elements)
    (relations : x.held .primary .relation = o.primaryRelations region elements)
    (extraNodes : x.held .extra .node = o.extraNodes region elements)
    (extraWays : x.held .extra .way = o.extraWays region elements)
    (extraRelations : x.held .extra .relation = o.extraRelations region elements) :
    o.Meaning region elements (elements.foldl writeIncluded x) := by
  have written := writtenFoldWrite (writtenOfFrame frame) elements
  rw [foldWrite] at written ⊢
  exact ⟨regionOfFrame frame, nodes, ways, relations, extraNodes, extraWays, extraRelations, written⟩

theorem finishedMeaning : o.Meaning region elements (o.finished elements (start region)) := by
  rw [finished]
  exact meaningOfHeld frameGathered (primaryGathered.trans nodesFound)
    (primaryGathered.trans waysFound) (primaryGathered.trans relationsFound) nodesGathered
    waysGathered relationsGathered

end Fresh
end Cutout.Strategy.SystemOptions
