import Cutout.Proofs.Exactness
/-! What is written is complete: ways come with all their nodes, relations of systems with all their
members, selected primary relations with their nodes and ways. Where two ways share an id, a strategy
that takes ways as it meets them may take one and write both; so for relations. -/
namespace Cutout

def Extract.included (x : Extract) (kind : Kind) : Set Nat := {key | x.includes kind key = true}

theorem Extract.includedUnion (x : Extract) (kind : Kind) :
    x.included kind = (x.primary.of kind).ids ∪ (x.extra.of kind).ids := by
  ext key
  exact Bool.or_eq_true_iff

theorem Extract.memWritten {x : Extract} {elements : List Element}
    (written : x.written.toList = elements.filter fun e => x.includes e.kind e.key) {e : Element} :
    e ∈ x.written.toList ↔ e ∈ elements ∧ e.key ∈ x.included e.kind := by
  rw [written, List.mem_filter]
  exact Iff.rfl

def Extract.WaysComplete (x : Extract) (elements : List Element) : Prop :=
  ∀ w, .way w ∈ x.written.toList → ∀ ref ∈ w.refs, ref.natAbs ∈ x.included .node ∧
    ∀ n, .node n ∈ elements → n.key = ref.natAbs → .node n ∈ x.written.toList

def WaysApart (elements : List Element) : Prop :=
  ∀ v w, .way v ∈ elements → .way w ∈ elements → v.key = w.key → v = w

def RelationsApart (elements : List Element) : Prop :=
  ∀ q r, .relation q ∈ elements → .relation r ∈ elements → q.key = r.key → q = r

theorem waysApartOfNodup {elements : List Element}
    (distinct : ((waysOf elements).map Way.key).Nodup) : WaysApart elements :=
  fun _ _ v w same => List.inj_on_of_nodup_map distinct (memWaysOf.mpr v) (memWaysOf.mpr w) same

theorem relationsApartOfNodup {elements : List Element}
    (distinct : ((relationsOf elements).map Relation.key).Nodup) : RelationsApart elements :=
  fun _ _ q r same =>
    List.inj_on_of_nodup_map distinct (memRelationsOf.mpr q) (memRelationsOf.mpr r) same

namespace Strategy

structure SystemOptions.RelationsComplete (o : SystemOptions) (elements : List Element)
    (x : Extract) : Prop where
  systems : ∀ r, .relation r ∈ x.written.toList → o.isPartOfSystem r = true →
    ∀ m ∈ r.members, m.key ∈ x.included m.kind
  relevant : ∀ r, .relation r ∈ x.written.toList → r.key ∈ x.primary.relations.ids →
    o.isRelevant r = true → ∀ m ∈ r.members, m.kind ≠ .relation → m.key ∈ x.included m.kind
  network : ∀ a ∈ x.included .relation,
    ∀ b ∈ (RelationGraph.ofRelations (o.systemRelations elements)).neighbors a,
      b ∈ x.included .relation

theorem waysCompleteOfNodes {x : Extract} {elements : List Element}
    (written : x.written.toList = elements.filter fun e => x.includes e.kind e.key)
    (nodes : ∀ w, .way w ∈ elements → w.key ∈ x.included .way →
      ∀ key ∈ w.nodeKeys, key ∈ x.included .node) : x.WaysComplete elements := by
  -- To have the nodes of the written ways is enough, since what is included is written.
  intro w mem ref listed
  obtain ⟨given, taken⟩ := (Extract.memWritten written).mp mem
  have included := nodes w given taken ref.natAbs (List.mem_map_of_mem listed)
  refine ⟨included, fun n given same => (Extract.memWritten written).mpr ⟨given, ?_⟩⟩
  rw [← same] at included
  exact included

namespace SystemOptions
variable {o : SystemOptions} {region : Region} {elements : List Element} {x : Extract}

section Meaning
variable (means : o.Meaning region elements x)
include means

theorem includedNodes :
    x.included .node = region.nodes elements ∪ o.extraNodes region elements := by
  rw [← means.primaryNodes, ← means.extraNodes]
  exact x.includedUnion .node

theorem includedWays :
    x.included .way = o.primaryWays region elements ∪ o.extraWays region elements := by
  rw [← means.primaryWays, ← means.extraWays]
  exact x.includedUnion .way

theorem includedRelations :
    x.included .relation = o.primaryRelations region elements ∪ o.extraRelations region elements := by
  rw [← means.primaryRelations, ← means.extraRelations]
  exact x.includedUnion .relation

omit means in
theorem takesIff (apart : WaysApart elements) {w : Way} (mem : .way w ∈ elements) :
    o.TakesWay region (region.nodes elements) w ↔ w.key ∈ o.primaryWays region elements := by
  constructor
  · exact fun takes => ⟨w, mem, takes, rfl⟩
  · intro primary
    obtain ⟨v, given, takes, same⟩ := primary
    rw [apart w v mem given same.symm]
    exact takes

theorem nodesIncluded (apart : WaysApart elements) {w : Way} (mem : .way w ∈ elements)
    (included : w.key ∈ x.included .way) {key : Nat} (listed : key ∈ w.nodeKeys) :
    key ∈ x.included .node := by
  rw [includedWays means] at included
  rw [includedNodes means]
  by_cases inside : key ∈ region.nodes elements
  · exact .inl inside
  · refine .inr ⟨inside, .inr ⟨w, mem, ?_, listed⟩⟩
    exact included.imp_left (takesIff apart mem).mpr

theorem membersIncluded {r : Relation} (mem : .relation r ∈ elements)
    (completes : o.Completes region elements r) {m : Member} (listed : m ∈ r.members)
    (other : m.kind ≠ .relation) : m.key ∈ x.included m.kind := by
  cases kind : m.kind with
  | node =>
    rw [includedNodes means]
    by_cases inside : m.key ∈ region.nodes elements
    · exact .inl inside
    · exact .inr ⟨inside, .inl ⟨r, mem, completes, m, listed, kind, rfl⟩⟩
  | way =>
    rw [includedWays means]
    by_cases inside : m.key ∈ o.primaryWays region elements
    · exact .inl inside
    · exact .inr ⟨inside, r, mem, completes, m, listed, kind, rfl⟩
  | relation => exact absurd kind other

theorem relatedIncluded {a b : Nat} (included : a ∈ x.included .relation)
    (related : Related (o.systemRelations elements) a b) : b ∈ x.included .relation := by
  rw [includedRelations means] at included ⊢
  by_cases inside : b ∈ o.primaryRelations region elements
  · exact .inl inside
  · refine .inr ⟨inside, ?_⟩
    rcases included with primary | ⟨_, p, primary, path⟩
    · exact ⟨a, primary, .single related⟩
    · exact ⟨p, primary, path.tail related⟩

omit means in
theorem findsOfPrimary (apart : RelationsApart elements) {r : Relation}
    (mem : .relation r ∈ elements) (primary : r.key ∈ o.primaryRelations region elements) :
    o.Finds region elements r := by
  obtain ⟨q, given, finds, same⟩ := primary
  rw [apart r q mem given same.symm]
  exact finds

theorem relationsComplete (apart : RelationsApart elements) : o.RelationsComplete elements x := by
  have network : ∀ a ∈ x.included .relation,
      ∀ b ∈ (RelationGraph.ofRelations (o.systemRelations elements)).neighbors a,
        b ∈ x.included .relation := fun a included b neighbor =>
    relatedIncluded means included (RelationGraph.memNeighbors.mp neighbor)
  refine ⟨fun r written system m listed => ?_, fun r written primary relevant m listed other => ?_,
    network⟩
  · obtain ⟨mem, taken⟩ := (Extract.memWritten means.written).mp written
    have included : r.key ∈ x.included .relation := taken
    -- Relations among the members come by the network, nodes and ways by the passes.
    by_cases other : m.kind = .relation
    · have edge : RelationEdge (o.systemRelations elements) r.key m.key :=
        ⟨r, List.mem_filter.mpr ⟨memRelationsOf.mpr mem, system⟩, rfl, m, listed, other, rfl⟩
      rw [other]
      exact relatedIncluded means included (.inl edge)
    · refine membersIncluded means mem ?_ listed other
      rw [includedRelations means] at included
      rcases included with primary | extra
      · exact .inl ⟨findsOfPrimary apart mem primary, .inr system⟩
      · exact .inr ⟨extra, system⟩
  · obtain ⟨mem, _⟩ := (Extract.memWritten means.written).mp written
    rw [means.primaryRelations] at primary
    exact membersIncluded means mem
      (.inl ⟨findsOfPrimary apart mem primary, .inl relevant⟩) listed other

end Meaning
end SystemOptions

namespace FirstNodeOptions
variable {o : FirstNodeOptions} {region : Region} {elements : List Element}

section Meaning
variable {x : Extract} (means : o.Meaning region elements x)
include means

theorem includedNodes :
    x.included .node = region.nodes elements ∪ o.extraNodes region elements := by
  rw [← means.primaryNodes, ← means.extraNodes]
  exact x.includedUnion .node

theorem includedWays :
    x.included .way = primaryWays region elements ∪ o.extraWays region elements := by
  rw [← means.primaryWays, ← means.extraWays]
  exact x.includedUnion .way

theorem includedRelations : x.included .relation = primaryRelations region elements := by
  rw [← means.primaryRelations, ← Set.union_empty (IdSet.ids _), ← means.extraRelations]
  exact x.includedUnion .relation

end Meaning

theorem nodesIncluded {w : Way} (mem : .way w ∈ elements)
    (included : w.key ∈ (o.finished elements (.start region)).included .way) {key : Nat}
    (listed : key ∈ w.nodeKeys) : key ∈ (o.finished elements (.start region)).included .node := by
  have same (kind : Kind) : (o.finished elements (.start region)).included kind =
      (o.gathered elements (.start region)).included kind := by
    rw [finished, Extract.foldWrite]
    rfl
  rw [same] at included ⊢
  by_cases inside : ⟨.primary, .node, key⟩ ∈ o.raised elements (.start region)
  · exact Extract.includesIff.mpr (.inl ((Set.ext_iff.mp primaryGathered key).mpr inside))
  · have pulled : (o.raised elements (.start region)).PulledNodes w ⟨.extra, .node, key⟩ :=
      Extract.pulledNodesIff.mpr ⟨rfl, listed, inside⟩
    refine Extract.includesIff.mpr (.inr (memGathered.mpr (.inr ⟨w, mem, ?_, pulled⟩)))
    rcases Extract.includesIff.mp included with primary | extra
    · exact .inl ((Set.ext_iff.mp primaryGathered w.key).mp primary)
    · exact .inr ((Set.ext_iff.mp (keepsGathered (by decide)) w.key).mp extra)

theorem waysComplete : (o.finished elements (.start region)).WaysComplete elements :=
  waysCompleteOfNodes (Extract.writtenFoldWrite (Extract.writtenOfFrame frameGathered) elements)
    fun _ mem included _ listed => nodesIncluded mem included listed

end FirstNodeOptions

theorem writtenComplete {source : Source} {elements : List Element}
    (held : source.Delivers elements) (accepted : InputOrder.Accepts elements)
    (regions : List Region) (schedule : Schedule) :
    (∀ o : FirstNodeOptions, ((firstNode o).run source (regions.map .start) schedule).Leaves regions
      fun _ x => x.WaysComplete elements) ∧
    (WaysApart elements → RelationsApart elements → ∀ o : SystemOptions,
      ((systems o).run source (regions.map .start) schedule).Leaves regions
        fun _ x => x.WaysComplete elements ∧ o.RelationsComplete elements x) := by
  refine ⟨fun o => ?_, fun ways relations o => ?_⟩
  · exact leavesFinished (firstNode o) held schedule accepted regions fun region =>
      FirstNodeOptions.waysComplete
  · refine leavesFinished (systems o) held schedule accepted regions fun region => ?_
    have means : o.Meaning region elements (o.finished elements (.start region)) :=
      SystemOptions.finishedMeaning
    have nodes : ∀ w, .way w ∈ elements →
        w.key ∈ (o.finished elements (.start region)).included .way →
        ∀ key ∈ w.nodeKeys, key ∈ (o.finished elements (.start region)).included .node :=
      fun w mem included key listed => SystemOptions.nodesIncluded means ways mem included listed
    exact ⟨waysCompleteOfNodes means.written nodes,
      SystemOptions.relationsComplete means relations⟩

theorem crossingComplete :
    (((firstNode .defaults).run (.inMemory crossing) ([meridian].map .start)).Leaves [meridian]
      fun _ x => x.WaysComplete crossing) ∧
    ((systems networks).run (.inMemory crossing) ([meridian].map .start)).Leaves [meridian]
      fun _ x => x.WaysComplete crossing ∧ networks.RelationsComplete crossing x := by
  have complete := writtenComplete (deliversInMemory crossing) (by decide) [meridian] .oneByOne
  have ways : WaysApart crossing := waysApartOfNodup (by decide)
  have relations : RelationsApart crossing := relationsApartOfNodup (by decide)
  exact ⟨complete.1 .defaults, complete.2 ways relations networks⟩

end Strategy
end Cutout
