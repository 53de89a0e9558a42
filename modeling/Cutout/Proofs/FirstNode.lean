import Cutout.Proofs.Hooks
/-! What the passes of the first-node strategy make of one extract, pass by pass, and that this is the
meaning of the input once untouched relations cannot be completed by their share. -/
namespace Cutout.Strategy.FirstNodeOptions
open Extract

section Stages
variable (o : FirstNodeOptions) (elements : List Element)

def withWays (x : Extract) : Extract := (waysOf elements).foldl findWay (withNodes elements x)

def found (x : Extract) : Extract :=
  (relationsOf elements).foldl o.findRelation (withWays elements x)

def raised (x : Extract) : Extract :=
  (o.found elements x).addParents (Memberships.ofRelations (relationsOf elements)).upward

def gathered (x : Extract) : Extract :=
  (waysOf elements).foldl (fun x w => completeWay x (.way w)) (o.raised elements x)

def finished (x : Extract) : Extract := elements.foldl Extract.writeIncluded (o.gathered elements x)

end Stages

section Gains
variable {o : FirstNodeOptions} {x : Extract}

theorem nodesFindWay {w : Way} : (findWay x w).held .primary .node = x.held .primary .node := by
  ext key
  refine memFindWay.trans ?_
  simp [held]

theorem memFoldWays {ways : List Way} {slot : Slot} : slot ∈ ways.foldl findWay x ↔ slot ∈ x ∨
    ∃ w ∈ ways, x.region.StartsWay (x.held .primary .node) w ∧ slot = ⟨.primary, .way, w.key⟩ := by
  refine memFold (fun x (w : Way) slot => x.region.StartsWay (x.held .primary .node) w ∧
    slot = ⟨.primary, .way, w.key⟩) (fun _ _ _ => memFindWay) (fun x v w slot => ?_) ways x slot
  rw [regionOfFrame frameFindWay, nodesFindWay]

theorem keepsFindRelation {r : Relation} {kind : Kind} (other : kind ≠ .relation) :
    (o.findRelation x r).held .primary kind = x.held .primary kind := by
  ext key
  refine memFindRelation.trans ?_
  simp [held, other]

theorem insideCongr {y : Extract} (nodes : y.held .primary .node = x.held .primary .node)
    (ways : y.held .primary .way = x.held .primary .way) (m : Member) :
    isInside y m = isInside x m := by
  rw [Bool.eq_iff_iff, isInsideIff, isInsideIff, nodes, ways]

theorem memFoldRelations {relations : List Relation} {slot : Slot} :
    slot ∈ relations.foldl o.findRelation x ↔ slot ∈ x ∨ ∃ r ∈ relations,
      (0 < r.members.countP (isInside x) ∧ slot = ⟨.primary, .relation, r.key⟩) ∨
        (o.Settles r (r.members.countP (isInside x)) ∧ x.PulledMembers r slot) := by
  refine memFold (fun x (r : Relation) slot =>
    (0 < r.members.countP (isInside x) ∧ slot = ⟨.primary, .relation, r.key⟩) ∨
      (o.Settles r (r.members.countP (isInside x)) ∧ x.PulledMembers r slot))
    (fun _ _ _ => memFindRelation) (fun x q r slot => ?_) relations x slot
  have nodes := keepsFindRelation (o := o) (x := x) (r := q) (show Kind.node ≠ .relation by decide)
  have ways := keepsFindRelation (o := o) (x := x) (r := q) (show Kind.way ≠ .relation by decide)
  rw [funext (insideCongr nodes ways), pulledMembersCongr nodes ways]

theorem memFoldCompleteWays {ways : List Way} {slot : Slot} :
    slot ∈ ways.foldl (fun x w => completeWay x (.way w)) x ↔ slot ∈ x ∨ ∃ w ∈ ways,
      (w.key ∈ x.held .primary .way ∨ w.key ∈ x.held .extra .way) ∧ x.PulledNodes w slot := by
  refine memFold (fun x (w : Way) slot => (w.key ∈ x.held .primary .way ∨
    w.key ∈ x.held .extra .way) ∧ x.PulledNodes w slot) (fun _ _ _ => memCompleteWay)
    (fun x v w slot => ?_) ways x slot
  have primary := primaryOfBase (baseCompleteWay (x := x) (w := v))
  have extra : (completeWay x (.way v)).held .extra .way = x.held .extra .way := by
    ext key
    refine memCompleteWay.trans ?_
    simp [pulledNodesIff, held]
  rw [extra, heldOfPrimary primary, pulledNodesCongr (heldOfPrimary primary)]

theorem memAddParents {relations : List Relation} {slot : Slot}
    (fresh : x.held .extra .relation = ∅) :
    slot ∈ x.addParents (Memberships.ofRelations relations).upward ↔ slot ∈ x ∨ ∃ key,
      slot = ⟨.primary, .relation, key⟩ ∧ ∃ p ∈ x.held .primary .relation,
        Relation.ReflTransGen (fun member parent => RelationEdge relations parent member) p key := by
  have none : ∀ id, x.extra.relations.contains id = false := fun id =>
    Bool.eq_false_iff.mpr fun known => (Set.ext_iff.mp fresh id).mp known
  obtain ⟨part, kind, key⟩ := slot
  cases part with
  | extra => exact (or_iff_left fun ⟨_, other, _⟩ => by cases other).symm
  | primary =>
    cases kind with
    | node => exact (or_iff_left fun ⟨_, other, _⟩ => by cases other).symm
    | way => exact (or_iff_left fun ⟨_, other, _⟩ => by cases other).symm
    | relation =>
      refine (addParentsAncestors x relations none key).trans ?_
      constructor
      · exact fun above => .inr ⟨key, rfl, above⟩
      · intro given
        rcases given with known | ⟨_, same, above⟩
        · exact ⟨key, known, .refl⟩
        · cases same
          exact above

end Gains

section Fresh
variable {o : FirstNodeOptions} {region : Region} {elements : List Element}

theorem memWithWays {slot : Slot} : slot ∈ withWays elements (start region) ↔
    slot ∈ withNodes elements (start region) ∨
      ∃ key ∈ primaryWays region elements, slot = ⟨.primary, .way, key⟩ := by
  have place : (withNodes elements (start region)).region = region := regionOfFrame frameWithNodes
  rw [withWays, memFoldWays, heldWithNodes, place]
  refine or_congr_right ⟨?_, ?_⟩
  · intro given
    obtain ⟨w, mem, starts, rfl⟩ := given
    exact ⟨w.key, ⟨w, memWaysOf.mp mem, starts, rfl⟩, rfl⟩
  · intro given
    obtain ⟨_, ⟨w, mem, starts, rfl⟩, rfl⟩ := given
    exact ⟨w, memWaysOf.mpr mem, starts, rfl⟩

theorem nodesWithWays :
    (withWays elements (start region)).held .primary .node = region.nodes elements := by
  ext key
  refine memWithWays.trans ?_
  simp [memWithNodes]

theorem waysWithWays :
    (withWays elements (start region)).held .primary .way = primaryWays region elements := by
  ext key
  refine memWithWays.trans ?_
  simp [memWithNodes]

open Classical in
theorem countInside {r : Relation} :
    r.members.countP (isInside (withWays elements (start region))) =
      insideCount region elements r := by
  refine List.countP_congr fun m _ => ?_
  rw [isInsideIff, nodesWithWays, waysWithWays]
  exact decide_eq_true_iff.symm

theorem findsIff {r : Relation} : Finds region elements r ↔ 0 < insideCount region elements r := by
  rw [insideCount, List.countP_pos_iff, Finds, Relation.Touches]
  simp only [decide_eq_true_eq]

theorem memFound {slot : Slot} : slot ∈ o.found elements (start region) ↔
    slot ∈ withWays elements (start region) ∨ ∃ r, .relation r ∈ elements ∧
      ((Finds region elements r ∧ slot = ⟨.primary, .relation, r.key⟩) ∨
        (o.Settles r (insideCount region elements r) ∧
          (withWays elements (start region)).PulledMembers r slot)) := by
  rw [found, memFoldRelations]
  simp only [memRelationsOf, countInside, findsIff]

theorem keepsFound {kind : Kind} (other : kind ≠ .relation) :
    (o.found elements (start region)).held .primary kind =
      (withWays elements (start region)).held .primary kind := by
  ext key
  refine memFound.trans ?_
  simp [held, other]

theorem relationsFound : (o.found elements (start region)).held .primary .relation =
    foundRelations region elements := by
  ext key
  refine memFound.trans ?_
  simp [memWithWays, memWithNodes, foundRelations, eq_comm (a := key)]

theorem noExtraRelations : (o.found elements (start region)).held .extra .relation = ∅ := by
  ext key
  refine memFound.trans ?_
  simp [memWithWays, memWithNodes, pulledMembersIff]

theorem memRaised {slot : Slot} : slot ∈ o.raised elements (start region) ↔
    slot ∈ o.found elements (start region) ∨
      ∃ key ∈ primaryRelations region elements, slot = ⟨.primary, .relation, key⟩ := by
  rw [raised, memAddParents noExtraRelations, relationsFound]
  refine or_congr_right (exists_congr fun key => ?_)
  rw [and_comm]
  exact Iff.rfl

theorem keepsRaised {kind : Kind} (other : kind ≠ .relation) :
    (o.raised elements (start region)).held .primary kind =
      (withWays elements (start region)).held .primary kind := by
  rw [← keepsFound (o := o) other]
  ext key
  refine memRaised.trans ?_
  simp [held, other]

theorem relationsRaised : (o.raised elements (start region)).held .primary .relation =
    primaryRelations region elements := by
  ext key
  have found : (⟨.primary, .relation, key⟩ : Slot) ∈ o.found elements (start region) ↔
      key ∈ foundRelations region elements := Set.ext_iff.mp relationsFound key
  refine memRaised.trans ?_
  rw [found]
  constructor
  · intro given
    rcases given with known | ⟨_, above, same⟩
    · exact ⟨key, known, .refl⟩
    · cases same
      exact above
  · exact fun above => .inr ⟨key, above, rfl⟩

theorem settlesIff (percent : 0 < o.percent) {r : Relation} {kind : Kind} {key : Nat}
    (member : r.HasMember kind key) :
    o.Settles r (insideCount region elements r) ↔ o.Completes region elements r := by
  -- An untouched relation can settle by its share only if it has no members to pull in.
  have listed : 0 < r.members.length := by
    obtain ⟨m, mem, _⟩ := member
    exact List.length_pos_of_mem mem
  have types : o.acceptsType r = true ↔
      o.types = [] ∨ ∃ value ∈ o.types, Tags.get? r.tags "type" = some value := by
    rw [acceptsType, Bool.or_eq_true, List.isEmpty_iff]
    refine or_congr_right ?_
    cases Tags.get? r.tags "type" <;> simp
  have share : o.acceptsShare r.members.length (insideCount region elements r) = true ↔
      o.percent * r.members.length ≤ 100 * insideCount region elements r := by
    rw [acceptsShare, decide_eq_true_eq, Nat.mul_comm, Nat.mul_comm 100]
  have cost : 0 < o.percent * r.members.length := Nat.mul_pos percent listed
  rw [Settles, Completes, findsIff, types, share, acceptsTags]
  constructor
  · intro given
    obtain ⟨tags, ⟨inside, type⟩ | enough⟩ := given
    · exact ⟨inside, tags, .inl type⟩
    · exact ⟨by omega, tags, .inr enough⟩
  · intro given
    obtain ⟨inside, tags, type | enough⟩ := given
    · exact ⟨tags, .inl ⟨inside, type⟩⟩
    · exact ⟨tags, .inr enough⟩

theorem memberRaised (percent : 0 < o.percent) {kind : Kind} (other : kind ≠ .relation) {key : Nat} :
    ⟨.extra, kind, key⟩ ∈ o.raised elements (start region) ↔
      key ∉ (withWays elements (start region)).held .primary kind ∧
        ∃ r, .relation r ∈ elements ∧ o.Completes region elements r ∧ r.HasMember kind key := by
  have fresh : ⟨.extra, kind, key⟩ ∉ withWays elements (start region) := by
    simp [memWithWays, memWithNodes]
  rw [memRaised, memFound, or_iff_right fresh]
  simp only [pulledMembersIff, Slot.mk.injEq, reduceCtorEq, false_and, and_false, exists_false,
    or_false, false_or]
  constructor
  · intro given
    obtain ⟨r, mem, settles, _, member, free⟩ := given
    exact ⟨free, r, mem, (settlesIff percent member).mp settles, member⟩
  · intro given
    obtain ⟨free, r, mem, completes, member⟩ := given
    exact ⟨r, mem, (settlesIff percent member).mpr completes, other, member, free⟩

theorem extraRaised {kind : Kind} : (o.raised elements (start region)).held .extra kind =
    (o.found elements (start region)).held .extra kind := by
  ext key
  refine memRaised.trans ?_
  simp [held]

theorem waysRaised (percent : 0 < o.percent) :
    (o.raised elements (start region)).held .extra .way = o.extraWays region elements := by
  ext key
  refine (memberRaised percent (by decide)).trans ?_
  rw [waysWithWays]
  exact Iff.rfl

theorem baseGathered {x : Extract} : (o.gathered elements x).base = (o.raised elements x).base :=
  foldKeeps (fun _ _ => baseCompleteWay) _ _

theorem frameGathered {x : Extract} : (o.gathered elements x).frame = x.frame := by
  have raised : (o.raised elements x).frame = (o.found elements x).frame := rfl
  rw [frameOfBase baseGathered, raised, found, withWays,
    foldKeeps (fun _ _ => frameFindRelation), foldKeeps (fun _ _ => frameFindWay),
    frameWithNodes]

theorem primaryGathered {kind : Kind} : (o.gathered elements (start region)).held .primary kind =
    (o.raised elements (start region)).held .primary kind :=
  heldOfPrimary (primaryOfBase baseGathered)

theorem memGathered {slot : Slot} : slot ∈ o.gathered elements (start region) ↔
    slot ∈ o.raised elements (start region) ∨ ∃ w, .way w ∈ elements ∧
      (w.key ∈ (o.raised elements (start region)).held .primary .way ∨
        w.key ∈ (o.raised elements (start region)).held .extra .way) ∧
      (o.raised elements (start region)).PulledNodes w slot := by
  rw [gathered, memFoldCompleteWays]
  simp only [memWaysOf]

theorem keepsGathered {kind : Kind} (other : kind ≠ .node) :
    (o.gathered elements (start region)).held .extra kind =
      (o.raised elements (start region)).held .extra kind := by
  ext key
  refine memGathered.trans ?_
  simp [pulledNodesIff, held, other]

theorem nodesGathered (percent : 0 < o.percent) :
    (o.gathered elements (start region)).held .extra .node = o.extraNodes region elements := by
  ext key
  have primary : (⟨.primary, .node, key⟩ : Slot) ∈ o.raised elements (start region) ↔
      key ∈ region.nodes elements := by
    rw [← nodesWithWays]
    exact Set.ext_iff.mp (keepsRaised (by decide)) key
  refine memGathered.trans ?_
  rw [memberRaised percent (by decide), nodesWithWays, keepsRaised (by decide), waysWithWays,
    waysRaised percent]
  simp only [pulledNodesIff, primary, true_and]
  constructor
  · intro given
    rcases given with ⟨free, found⟩ | ⟨w, mem, included, listed, free⟩
    · exact ⟨free, .inl found⟩
    · exact ⟨free, .inr ⟨w, mem, included, listed⟩⟩
  · intro given
    obtain ⟨free, found | ⟨w, mem, included, listed⟩⟩ := given
    · exact .inl ⟨free, found⟩
    · exact .inr ⟨w, mem, included, listed, free⟩

theorem nodesKept :
    (o.gathered elements (start region)).held .primary .node = region.nodes elements :=
  primaryGathered.trans ((keepsRaised (by decide)).trans nodesWithWays)

theorem waysKept :
    (o.gathered elements (start region)).held .primary .way = primaryWays region elements :=
  primaryGathered.trans ((keepsRaised (by decide)).trans waysWithWays)

theorem noRelationsPulledIn : (o.gathered elements (start region)).held .extra .relation = ∅ :=
  (keepsGathered (by decide)).trans (extraRaised.trans noExtraRelations)

theorem meaningOfHeld {x : Extract} (frame : x.frame = (start region).frame)
    (nodes : x.held .primary .node = region.nodes elements)
    (ways : x.held .primary .way = primaryWays region elements)
    (relations : x.held .primary .relation = primaryRelations region elements)
    (extraNodes : x.held .extra .node = o.extraNodes region elements)
    (extraWays : x.held .extra .way = o.extraWays region elements)
    (extraRelations : x.held .extra .relation = ∅) :
    o.Meaning region elements (elements.foldl writeIncluded x) := by
  have written := writtenFoldWrite (writtenOfFrame frame) elements
  rw [foldWrite] at written ⊢
  exact ⟨regionOfFrame frame, nodes, ways, relations, extraNodes, extraWays, extraRelations, written⟩

theorem finishedMeaning (percent : 0 < o.percent) :
    o.Meaning region elements (o.finished elements (start region)) := by
  rw [finished]
  exact meaningOfHeld frameGathered nodesKept waysKept (primaryGathered.trans relationsRaised)
    (nodesGathered percent) ((keepsGathered (by decide)).trans (waysRaised percent))
    noRelationsPulledIn

end Fresh
end Cutout.Strategy.FirstNodeOptions
