import Cutout.Proofs.Completeness
/-! Where both strategies are asked for the same, they agree on nodes and ways. What remains between
them are the ancestors of the relations found, which only one of them keeps. -/
namespace Cutout

def ParentOf (elements : List Element) (member parent : Nat) : Prop :=
  RelationEdge (relationsOf elements) parent member

def touching (elements : List Element) (nodes ways : Set Nat) : Set Nat :=
  {key | ∃ r, .relation r ∈ elements ∧ r.Touches nodes ways ∧ r.key = key}

def ancestorsBeyond (elements : List Element) (found : Set Nat) : Set Nat :=
  {key | key ∉ found ∧ ∃ p ∈ found, Relation.TransGen (ParentOf elements) p key}

structure Extract.Agrees (elements : List Element) (x y : Extract) : Prop where
  primaryNodes : x.primary.nodes.ids = y.primary.nodes.ids
  primaryWays : x.primary.ways.ids = y.primary.ways.ids
  extraNodes : x.extra.nodes.ids = y.extra.nodes.ids
  extraWays : x.extra.ways.ids = y.extra.ways.ids
  written : (x.written.toList.filter fun e => e.kind ≠ .relation) =
    y.written.toList.filter fun e => e.kind ≠ .relation
  fewer : x.included .relation ⊆ y.included .relation
  beyond : y.included .relation \ x.included .relation =
    ancestorsBeyond elements (touching elements x.primary.nodes.ids x.primary.ways.ids)

theorem TagRules.noneMatches (tags : Tags) : (∅ : TagRules).matchesAny tags = false :=
  List.any_eq_false.mpr fun _ _ => Bool.false_ne_true

namespace Strategy

def byFirstNodes (rules : TagRules) : SystemOptions := ⟨rules, ∅, true⟩

def ofAnyType (rules : TagRules) (percent : Nat) : FirstNodeOptions := ⟨[], percent, rules⟩

section Meaning
variable {rules : TagRules} (percent : Nat) {region : Region} {elements : List Element}

theorem noSystem (r : Relation) : ¬ (byFirstNodes rules).isPartOfSystem r = true := by
  rw [SystemOptions.isPartOfSystem, byFirstNodes, TagRules.noneMatches]
  exact Bool.false_ne_true

theorem waysAgree : (byFirstNodes rules).primaryWays region elements =
    FirstNodeOptions.primaryWays region elements := rfl

theorem findsAgree {r : Relation} : (byFirstNodes rules).Finds region elements r ↔
    FirstNodeOptions.Finds region elements r := Iff.rfl

theorem completesAgree {r : Relation} : (byFirstNodes rules).Completes region elements r ↔
    (ofAnyType rules percent).Completes region elements r := by
  constructor
  · intro completes
    rcases completes with ⟨finds, relevant | system⟩ | ⟨_, system⟩
    · exact ⟨findsAgree.mp finds, relevant, .inl (.inl rfl)⟩
    · exact absurd system (noSystem r)
    · exact absurd system (noSystem r)
  · intro completes
    obtain ⟨finds, relevant, _⟩ := completes
    exact .inl ⟨findsAgree.mpr finds, .inl relevant⟩

theorem extraWaysAgree : (byFirstNodes rules).extraWays region elements =
    (ofAnyType rules percent).extraWays region elements := by
  ext key
  unfold SystemOptions.extraWays FirstNodeOptions.extraWays
  simp only [waysAgree, completesAgree percent]

theorem extraNodesAgree (apart : WaysApart elements) :
    (byFirstNodes rules).extraNodes region elements =
      (ofAnyType rules percent).extraNodes region elements := by
  have ways : FirstNodeOptions.primaryWays region elements =
      (byFirstNodes rules).primaryWays region elements := rfl
  ext key
  unfold SystemOptions.extraNodes FirstNodeOptions.extraNodes
  simp only [ways, extraWaysAgree percent, completesAgree percent]
  refine and_congr_right fun _ => or_congr_right (exists_congr fun w => and_congr_right fun mem => ?_)
  exact and_congr_left fun _ => or_congr_left (SystemOptions.takesIff apart mem)

theorem noNetwork : (byFirstNodes rules).extraRelations region elements = ∅ := by
  have unrelated {a b : Nat} : ¬ Related ((byFirstNodes rules).systemRelations elements) a b := by
    intro related
    rcases related with ⟨r, system, _⟩ | ⟨r, system, _⟩ <;>
      exact noSystem r (List.mem_filter.mp system).2
  refine Set.eq_empty_iff_forall_notMem.mpr fun key extra => ?_
  obtain ⟨outside, p, primary, path⟩ := extra
  cases path with
  | refl => exact outside primary
  | tail before last => exact unrelated last

section Extracts
variable {percent} {x y : Extract} (left : (byFirstNodes rules).Meaning region elements x)
  (right : (ofAnyType rules percent).Meaning region elements y)
include left right

theorem includedAgree (apart : WaysApart elements) {kind : Kind} (other : kind ≠ .relation) :
    x.included kind = y.included kind := by
  cases kind with
  | node =>
    rw [SystemOptions.includedNodes left, FirstNodeOptions.includedNodes right,
      extraNodesAgree percent apart]
  | way =>
    rw [SystemOptions.includedWays left, FirstNodeOptions.includedWays right, waysAgree,
      extraWaysAgree percent]
  | relation => exact absurd rfl other

theorem writtenAgree (apart : WaysApart elements) :
    (x.written.toList.filter fun e => e.kind ≠ .relation) =
      y.written.toList.filter fun e => e.kind ≠ .relation := by
  rw [left.written, right.written, List.filter_filter, List.filter_filter]
  refine List.filter_congr fun e _ => ?_
  by_cases relation : e.kind = .relation
  · simp [relation]
  · have included := Set.ext_iff.mp (includedAgree left right apart relation) e.key
    rw [Bool.eq_iff_iff.mpr included]

theorem relationsAgree : x.included .relation = FirstNodeOptions.foundRelations region elements ∧
    y.included .relation = FirstNodeOptions.primaryRelations region elements := by
  rw [SystemOptions.includedRelations left, noNetwork, Set.union_empty]
  exact ⟨rfl, FirstNodeOptions.includedRelations right⟩

theorem ancestorsApart : y.included .relation \ x.included .relation =
    ancestorsBeyond elements (FirstNodeOptions.foundRelations region elements) := by
  obtain ⟨found, raised⟩ := relationsAgree left right
  rw [found, raised]
  ext key
  constructor
  · intro given
    obtain ⟨⟨p, seed, path⟩, outside⟩ := given
    rcases Relation.reflTransGen_iff_eq_or_transGen.mp path with rfl | path
    · exact absurd seed outside
    · exact ⟨outside, p, seed, path⟩
  · intro given
    obtain ⟨outside, p, seed, path⟩ := given
    exact ⟨⟨p, seed, path.to_reflTransGen⟩, outside⟩

theorem agrees (apart : WaysApart elements) : x.Agrees elements y where
  primaryNodes := left.primaryNodes.trans right.primaryNodes.symm
  primaryWays := left.primaryWays.trans right.primaryWays.symm
  extraNodes := left.extraNodes.trans ((extraNodesAgree percent apart).trans right.extraNodes.symm)
  extraWays := left.extraWays.trans ((extraWaysAgree percent).trans right.extraWays.symm)
  written := writtenAgree left right apart
  fewer := by
    obtain ⟨found, raised⟩ := relationsAgree left right
    rw [found, raised]
    exact fun key seed => ⟨key, seed, .refl⟩
  beyond := by
    rw [ancestorsApart left right, left.primaryNodes, left.primaryWays]
    rfl

end Extracts
end Meaning

theorem strategiesAgree {source : Source} {elements : List Element}
    (held : source.Delivers elements) (accepted : InputOrder.Accepts elements)
    (apart : WaysApart elements) (rules : TagRules) (share : String) (region : Region) :
    (systems (byFirstNodes rules)).Gives source region fun x =>
      (firstNode (ofAnyType rules (FirstNodeOptions.parsePercent share))).Gives source region
        fun y => x.Agrees elements y := by
  have percent : 0 < FirstNodeOptions.parsePercent share :=
    (FirstNodeOptions.parsePercentRange share).1
  refine givesFinished _ held accepted (givesFinished _ held accepted ?_)
  exact agrees SystemOptions.finishedMeaning (FirstNodeOptions.finishedMeaning percent) apart

theorem crossingAgrees :
    let rules := TagRules.parse "type=route" '='
    let routes := systems (byFirstNodes rules)
    let halves := firstNode (ofAnyType rules (FirstNodeOptions.parsePercent "50"))
    let found (s : Strategy) :=
      (s.run (.inMemory crossing) [.start meridian]).session.extracts.map idsOf
    (routes.Gives (.inMemory crossing) meridian fun x =>
      halves.Gives (.inMemory crossing) meridian fun y => x.Agrees crossing y) ∧
    found routes = [[[1], [1], [1], [2, 3], [2], []]] ∧
      found halves = [[[1], [1], [1, 2], [2, 3], [2], []]] :=
  ⟨strategiesAgree (deliversInMemory crossing) (by decide) (waysApartOfNodup (by decide)) _ "50"
    meridian, by decide +kernel, by decide +kernel⟩

end Strategy
end Cutout
