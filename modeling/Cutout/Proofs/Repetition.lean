import Cutout.Proofs.Completeness
/-! What is written, read again. Every element that decided anything in a run is written, so a second
run over the written elements decides the same, and leaves the same ids and the same elements. -/
namespace Cutout

theorem edgeAmong {rs others : List Relation} {inside : Set Nat}
    (among : ∀ r, r ∈ others ↔ r ∈ rs ∧ r.key ∈ inside) {parent member : Nat} :
    RelationEdge others parent member ↔ RelationEdge rs parent member ∧ parent ∈ inside := by
  constructor
  · intro edge
    obtain ⟨r, mem, rfl, listed⟩ := edge
    obtain ⟨given, kept⟩ := (among r).mp mem
    exact ⟨⟨r, given, rfl, listed⟩, kept⟩
  · intro edge
    obtain ⟨⟨r, given, rfl, listed⟩, kept⟩ := edge
    exact ⟨r, (among r).mpr ⟨given, kept⟩, rfl, listed⟩

theorem pathWithin {step other : Nat → Nat → Prop} {inside : Set Nat}
    (stays : ∀ a b, a ∈ inside → step a b → b ∈ inside ∧ other a b) {p key : Nat}
    (start : p ∈ inside) (path : Relation.ReflTransGen step p key) :
    Relation.ReflTransGen other p key := by
  -- The steps are only known inside, so the induction carries that the path has not left.
  have kept : key ∈ inside ∧ Relation.ReflTransGen other p key := by
    induction path with
    | refl => exact ⟨start, .refl⟩
    | tail before last ih =>
      obtain ⟨reached, path⟩ := ih
      obtain ⟨next, taken⟩ := stays _ _ reached last
      exact ⟨next, path.tail taken⟩
  exact kept.2

theorem InputOrder.Accepts.filter {elements : List Element} (accepted : Accepts elements)
    (p : Element → Bool) : Accepts (elements.filter p) :=
  ⟨accepted.sorted.filter p, fun e mem => accepted.fits e (List.mem_filter.mp mem).1⟩

namespace Extract

structure Same (x y : Extract) : Prop where
  primary : ∀ kind, (x.primary.of kind).ids = (y.primary.of kind).ids
  extra : ∀ kind, (x.extra.of kind).ids = (y.extra.of kind).ids
  written : x.written.toList = y.written.toList

section Written
variable {x : Extract} {elements : List Element}
  (written : x.written.toList = elements.filter fun e => x.includes e.kind e.key)
include written

theorem existsWritten {α : Type} {make : α → Element} {p : α → Prop}
    (inside : ∀ a, make a ∈ elements → p a → (make a).key ∈ x.included (make a).kind) :
    (∃ a, make a ∈ x.written.toList ∧ p a) ↔ ∃ a, make a ∈ elements ∧ p a := by
  simp only [memWritten written]
  constructor
  · intro found
    obtain ⟨a, ⟨mem, _⟩, holds⟩ := found
    exact ⟨a, mem, holds⟩
  · intro found
    obtain ⟨a, mem, holds⟩ := found
    exact ⟨a, ⟨mem, inside a mem holds⟩, holds⟩

theorem keysWritten {α : Type} (make : α → Element) {kind : Kind} (ofKind : ∀ a, (make a).kind = kind)
    {p : α → Prop}
    (inside : {key | ∃ a, make a ∈ elements ∧ p a ∧ (make a).key = key} ⊆ x.included kind) :
    {key | ∃ a, make a ∈ x.written.toList ∧ p a ∧ (make a).key = key} =
      {key | ∃ a, make a ∈ elements ∧ p a ∧ (make a).key = key} := by
  ext key
  refine existsWritten written fun a mem given => ?_
  rw [ofKind]
  exact inside ⟨a, mem, given.1, rfl⟩

theorem memRelationsWritten {r : Relation} : r ∈ relationsOf x.written.toList ↔
    r ∈ relationsOf elements ∧ r.key ∈ x.included .relation := by
  rw [memRelationsOf, memRelationsOf]
  exact memWritten written

theorem sameOfSets {y : Extract}
    (again : y.written.toList = x.written.toList.filter fun e => y.includes e.kind e.key)
    (nodes : y.primary.nodes.ids = x.primary.nodes.ids)
    (ways : y.primary.ways.ids = x.primary.ways.ids)
    (relations : y.primary.relations.ids = x.primary.relations.ids)
    (extraNodes : y.extra.nodes.ids = x.extra.nodes.ids)
    (extraWays : y.extra.ways.ids = x.extra.ways.ids)
    (extraRelations : y.extra.relations.ids = x.extra.relations.ids) : y.Same x := by
  have primary : ∀ kind, (y.primary.of kind).ids = (x.primary.of kind).ids := by
    intro kind
    cases kind with
    | node => exact nodes
    | way => exact ways
    | relation => exact relations
  have extra : ∀ kind, (y.extra.of kind).ids = (x.extra.of kind).ids := by
    intro kind
    cases kind with
    | node => exact extraNodes
    | way => exact extraWays
    | relation => exact extraRelations
  refine ⟨primary, extra, ?_⟩
  rw [again, List.filter_eq_self]
  intro e mem
  have included : y.included e.kind = x.included e.kind := by
    rw [includedUnion, includedUnion, primary, extra]
  have held := ((memWritten written).mp mem).2
  rw [← included] at held
  exact held

end Written
end Extract

namespace Strategy
open Extract

namespace SystemOptions
variable {o : SystemOptions} {region : Region} {elements : List Element} {x y : Extract}

section Meaning
variable (means : o.Meaning region elements x)
include means

theorem nodesAgain : region.nodes x.written.toList = region.nodes elements :=
  keysWritten means.written .node (fun _ => rfl)
    (Set.subset_union_left.trans (includedNodes means).symm.subset)

theorem waysAgain : o.primaryWays region x.written.toList = o.primaryWays region elements := by
  unfold primaryWays
  rw [nodesAgain means]
  exact keysWritten means.written .way (fun _ => rfl)
    (Set.subset_union_left.trans (includedWays means).symm.subset)

theorem findsAgain {r : Relation} :
    o.Finds region x.written.toList r ↔ o.Finds region elements r := by
  rw [Finds, nodesAgain means, waysAgain means, Finds]

theorem relationsAgain :
    o.primaryRelations region x.written.toList = o.primaryRelations region elements := by
  unfold primaryRelations
  simp only [findsAgain means]
  exact keysWritten means.written .relation (fun _ => rfl)
    (Set.subset_union_left.trans (includedRelations means).symm.subset)

theorem systemEdgeAgain {parent member : Nat} :
    RelationEdge (o.systemRelations x.written.toList) parent member ↔
      RelationEdge (o.systemRelations elements) parent member ∧ parent ∈ x.included .relation := by
  refine edgeAmong fun r => ?_
  rw [systemRelations, systemRelations, List.mem_filter, List.mem_filter,
    memRelationsWritten means.written, and_right_comm]

theorem relatedBefore {a b : Nat}
    (related : Related (o.systemRelations x.written.toList) a b) :
    Related (o.systemRelations elements) a b :=
  related.imp (fun edge => ((systemEdgeAgain means).mp edge).1)
    fun edge => ((systemEdgeAgain means).mp edge).1

theorem relatedAgain {a b : Nat} (included : a ∈ x.included .relation)
    (related : Related (o.systemRelations elements) a b) :
    Related (o.systemRelations x.written.toList) a b := by
  have next : b ∈ x.included .relation := relatedIncluded means included related
  rcases related with edge | edge
  · exact .inl ((systemEdgeAgain means).mpr ⟨edge, included⟩)
  · exact .inr ((systemEdgeAgain means).mpr ⟨edge, next⟩)

theorem pathAgain {p key : Nat} (included : p ∈ x.included .relation) :
    Relation.ReflTransGen (Related (o.systemRelations x.written.toList)) p key ↔
      Relation.ReflTransGen (Related (o.systemRelations elements)) p key := by
  constructor
  · exact Relation.ReflTransGen.mono (fun _ _ => relatedBefore means) p key
  · refine pathWithin (fun a b inside related => ?_) included
    exact ⟨relatedIncluded means inside related, relatedAgain means inside related⟩

theorem networkAgain :
    o.extraRelations region x.written.toList = o.extraRelations region elements := by
  ext key
  unfold extraRelations
  rw [relationsAgain means]
  refine and_congr_right fun _ => exists_congr fun p => and_congr_right fun primary => ?_
  refine pathAgain means ?_
  rw [includedRelations means]
  exact .inl primary

theorem completesAgain {r : Relation} :
    o.Completes region x.written.toList r ↔ o.Completes region elements r := by
  rw [Completes, findsAgain means, networkAgain means, Completes]

theorem completingIncluded {r : Relation} (mem : .relation r ∈ elements)
    (completes : o.Completes region elements r) : r.key ∈ x.included .relation := by
  rw [includedRelations means]
  rcases completes with ⟨finds, _⟩ | ⟨extra, _⟩
  · exact .inl ⟨r, mem, finds, rfl⟩
  · exact .inr extra

theorem membersAgain {kind : Kind} {key : Nat} :
    (∃ r, .relation r ∈ x.written.toList ∧ o.Completes region x.written.toList r ∧
      r.HasMember kind key) ↔
    ∃ r, .relation r ∈ elements ∧ o.Completes region elements r ∧ r.HasMember kind key := by
  simp only [completesAgain means]
  exact existsWritten means.written fun r mem given => completingIncluded means mem given.1

theorem extraWaysAgain : o.extraWays region x.written.toList = o.extraWays region elements := by
  ext key
  unfold extraWays
  rw [waysAgain means]
  exact and_congr_right fun _ => membersAgain means

theorem extraNodesAgain :
    o.extraNodes region x.written.toList = o.extraNodes region elements := by
  ext key
  unfold extraNodes
  rw [nodesAgain means, extraWaysAgain means]
  refine and_congr_right fun _ => or_congr (membersAgain means) ?_
  refine existsWritten means.written fun w mem given => ?_
  show w.key ∈ x.included .way
  rw [includedWays means]
  rcases given.1 with takes | pulled
  · exact .inl ⟨w, mem, takes, rfl⟩
  · exact .inr pulled

theorem sameAgain (again : o.Meaning region x.written.toList y) : y.Same x :=
  sameOfSets means.written again.written
    (again.primaryNodes.trans ((nodesAgain means).trans means.primaryNodes.symm))
    (again.primaryWays.trans ((waysAgain means).trans means.primaryWays.symm))
    (again.primaryRelations.trans ((relationsAgain means).trans means.primaryRelations.symm))
    (again.extraNodes.trans ((extraNodesAgain means).trans means.extraNodes.symm))
    (again.extraWays.trans ((extraWaysAgain means).trans means.extraWays.symm))
    (again.extraRelations.trans ((networkAgain means).trans means.extraRelations.symm))

end Meaning
end SystemOptions

namespace FirstNodeOptions
variable {o : FirstNodeOptions} {region : Region} {elements : List Element} {x y : Extract}

section Meaning
variable (means : o.Meaning region elements x)
include means

theorem nodesAgain : region.nodes x.written.toList = region.nodes elements :=
  keysWritten means.written .node (fun _ => rfl)
    (Set.subset_union_left.trans (includedNodes means).symm.subset)

theorem waysAgain : primaryWays region x.written.toList = primaryWays region elements := by
  unfold primaryWays
  rw [nodesAgain means]
  exact keysWritten means.written .way (fun _ => rfl)
    (Set.subset_union_left.trans (includedWays means).symm.subset)

theorem findsAgain {r : Relation} : Finds region x.written.toList r ↔ Finds region elements r := by
  rw [Finds, nodesAgain means, waysAgain means, Finds]

theorem foundIncluded : foundRelations region elements ⊆ x.included .relation := by
  rw [includedRelations means]
  exact fun key found => ⟨key, found, .refl⟩

theorem foundAgain : foundRelations region x.written.toList = foundRelations region elements := by
  unfold foundRelations
  simp only [findsAgain means]
  exact keysWritten means.written .relation (fun _ => rfl) (foundIncluded means)

theorem ancestorsAgain {p key : Nat} (included : p ∈ x.included .relation) :
    Relation.ReflTransGen
        (fun member parent => RelationEdge (relationsOf x.written.toList) parent member) p key ↔
      Relation.ReflTransGen
        (fun member parent => RelationEdge (relationsOf elements) parent member) p key := by
  have edges {parent member : Nat} : RelationEdge (relationsOf x.written.toList) parent member ↔
      RelationEdge (relationsOf elements) parent member ∧ parent ∈ x.included .relation :=
    edgeAmong fun _ => memRelationsWritten means.written
  constructor
  · exact Relation.ReflTransGen.mono (fun _ _ edge => (edges.mp edge).1) p key
  · refine pathWithin (fun member parent inside edge => ?_) included
    have above : parent ∈ x.included .relation := by
      rw [includedRelations means] at inside ⊢
      obtain ⟨found, given, path⟩ := inside
      exact ⟨found, given, path.tail edge⟩
    exact ⟨above, edges.mpr ⟨edge, above⟩⟩

theorem relationsAgain :
    primaryRelations region x.written.toList = primaryRelations region elements := by
  ext key
  unfold primaryRelations
  rw [foundAgain means]
  refine exists_congr fun p => and_congr_right fun found => ancestorsAgain means ?_
  exact foundIncluded means found

theorem completesAgain {r : Relation} :
    o.Completes region x.written.toList r ↔ o.Completes region elements r := by
  rw [Completes, findsAgain means, insideCount, nodesAgain means, waysAgain means]
  exact Iff.rfl

theorem membersAgain {kind : Kind} {key : Nat} :
    (∃ r, .relation r ∈ x.written.toList ∧ o.Completes region x.written.toList r ∧
      r.HasMember kind key) ↔
    ∃ r, .relation r ∈ elements ∧ o.Completes region elements r ∧ r.HasMember kind key := by
  simp only [completesAgain means]
  refine existsWritten means.written fun r mem given => ?_
  exact foundIncluded means ⟨r, mem, given.1.1, rfl⟩

theorem extraWaysAgain : o.extraWays region x.written.toList = o.extraWays region elements := by
  ext key
  unfold extraWays
  rw [waysAgain means]
  exact and_congr_right fun _ => membersAgain means

theorem extraNodesAgain :
    o.extraNodes region x.written.toList = o.extraNodes region elements := by
  ext key
  unfold extraNodes
  rw [nodesAgain means, waysAgain means, extraWaysAgain means]
  refine and_congr_right fun _ => or_congr (membersAgain means) ?_
  refine existsWritten means.written fun w mem given => ?_
  show w.key ∈ x.included .way
  rw [includedWays means]
  exact given.1

theorem sameAgain (again : o.Meaning region x.written.toList y) : y.Same x :=
  sameOfSets means.written again.written
    (again.primaryNodes.trans ((nodesAgain means).trans means.primaryNodes.symm))
    (again.primaryWays.trans ((waysAgain means).trans means.primaryWays.symm))
    (again.primaryRelations.trans ((relationsAgain means).trans means.primaryRelations.symm))
    (again.extraNodes.trans ((extraNodesAgain means).trans means.extraNodes.symm))
    (again.extraWays.trans ((extraWaysAgain means).trans means.extraWays.symm))
    (again.extraRelations.trans means.extraRelations.symm)

end Meaning
end FirstNodeOptions

def Repeats (s : Strategy) (source : Source) (region : Region) : Prop :=
  s.Gives source region fun x => ∀ again : Source, again.Delivers x.written.toList →
    s.Gives again region fun y => y.Same x

theorem repeatsOfSame (s : Strategy) {source : Source} {elements : List Element}
    (held : source.Delivers elements) (accepted : InputOrder.Accepts elements) {region : Region}
    (written : (s.finished elements (.start region)).written.toList =
      elements.filter fun e => (s.finished elements (.start region)).includes e.kind e.key)
    (same : (s.finished (s.finished elements (.start region)).written.toList (.start region)).Same
      (s.finished elements (.start region))) : s.Repeats source region := by
  refine s.givesFinished held accepted fun again delivers => ?_
  have accepted : InputOrder.Accepts (s.finished elements (.start region)).written.toList := by
    rw [written]
    exact accepted.filter _
  exact s.givesFinished delivers accepted same

theorem extractionRepeats {source : Source} {elements : List Element}
    (held : source.Delivers elements) (accepted : InputOrder.Accepts elements) (region : Region) :
    (∀ o : SystemOptions, (systems o).Repeats source region) ∧
      ∀ options : Options, (firstNode (FirstNodeOptions.parse options).1).Repeats source region := by
  refine ⟨fun o => ?_, fun options => ?_⟩
  · have means : o.Meaning region elements (o.finished elements (.start region)) :=
      SystemOptions.finishedMeaning
    exact repeatsOfSame (systems o) held accepted means.written
      (SystemOptions.sameAgain means SystemOptions.finishedMeaning)
  · let o := (FirstNodeOptions.parse options).1
    have percent : 0 < o.percent := (FirstNodeOptions.parseRange options).1
    have means : o.Meaning region elements (o.finished elements (.start region)) :=
      FirstNodeOptions.finishedMeaning percent
    exact repeatsOfSame (firstNode o) held accepted means.written
      (FirstNodeOptions.sameAgain means (FirstNodeOptions.finishedMeaning percent))

/-! The crossing with a way beyond it, which no extract of the meridian holds. -/

def outskirts : List Element := [
  .node ⟨1, ⟨0, 0⟩, [], none⟩, .node ⟨2, ⟨1, 0⟩, [], none⟩, .node ⟨3, ⟨1, 0⟩, [], none⟩,
  .node ⟨4, ⟨2, 0⟩, [], none⟩,
  .way ⟨1, [1, 2], [], none⟩, .way ⟨2, [2, 3], [], none⟩, .way ⟨3, [3, 4], [], none⟩,
  .relation ⟨1, [⟨.way, 1, ""⟩, ⟨.way, 2, ""⟩], [("type", "route")], none⟩,
  .relation ⟨2, [⟨.relation, 1, ""⟩, ⟨.way, 2, ""⟩], [("type", "network")], none⟩,
  .relation ⟨3, [⟨.way, 3, ""⟩], [("type", "route")], none⟩]

theorem crossingRepeats :
    let written (s : Strategy) := (s.run (.inMemory outskirts) [.start meridian]).session.extracts.map
      fun x => x.written.toList
    let halves := firstNode (FirstNodeOptions.parse halfRoutes).1
    ((systems networks).Repeats (.inMemory outskirts) meridian ∧
      halves.Repeats (.inMemory outskirts) meridian) ∧
    written (systems networks) = [crossing] ∧ written halves = [crossing] := by
  have repeats := extractionRepeats (deliversInMemory outskirts) (by decide) meridian
  exact ⟨⟨repeats.1 networks, repeats.2 halfRoutes⟩, by decide +kernel, by decide +kernel⟩

end Strategy
end Cutout
