import Cutout.Proofs.Hooks
/-! How extracts grow. The hooks of a first pass make elements of the kind that they are shown primary and
pull in elements of earlier kinds; later hooks and walks pull in only what is not primary. While elements
come in the order of their kinds no id gets into both parts. -/
namespace Cutout

namespace Extract

def GrowsTo (x y : Extract) : Prop := ∀ slot, slot ∈ x → slot ∈ y

theorem GrowsTo.refl (x : Extract) : x.GrowsTo x := fun _ mem => mem

theorem GrowsTo.trans {x y z : Extract} (first : x.GrowsTo y) (second : y.GrowsTo z) :
    x.GrowsTo z := fun slot mem => second slot (first slot mem)

def Apart (x : Extract) : Prop := ∀ kind key, ⟨.primary, kind, key⟩ ∈ x → ⟨.extra, kind, key⟩ ∉ x

def NoExtraRelations (x : Extract) : Prop := ∀ key, ⟨.extra, .relation, key⟩ ∉ x

def early (x : Extract) : IdSet × IdSet := (x.primary.nodes, x.primary.ways)

theorem earlyOfBase {x y : Extract} (same : y.base = x.base) : y.early = x.early :=
  congrArg (fun primary : IdSets => (primary.nodes, primary.ways)) (primaryOfBase same)

structure Discovers (kind : Kind) (x y : Extract) : Prop where
  grows : x.GrowsTo y
  primary : ∀ other key, ⟨.primary, other, key⟩ ∈ y → ⟨.primary, other, key⟩ ∈ x ∨ other = kind
  extra : ∀ other key, ⟨.extra, other, key⟩ ∈ y → ⟨.extra, other, key⟩ ∈ x ∨
    (other.rank < kind.rank ∧ ⟨.primary, other, key⟩ ∉ x)
  early : kind = .relation → y.early = x.early

theorem discoversOf {kind : Kind} {x y : Extract} {gained : Slot → Prop}
    (members : ∀ slot, slot ∈ y ↔ slot ∈ x ∨ gained slot)
    (brought : ∀ slot, gained slot → (∃ key, slot = ⟨.primary, kind, key⟩) ∨
      ∃ other key, other.rank < kind.rank ∧ x.Pulled other key slot)
    (early : kind = .relation → y.early = x.early) : Discovers kind x y where
  grows slot mem := (members slot).mpr (.inl mem)
  primary other key mem := by
    refine ((members _).mp mem).imp_right fun gain => ?_
    rcases brought _ gain with ⟨_, same⟩ | ⟨_, _, _, same, _⟩
    · exact (Slot.mk.inj same).2.1
    · cases (Slot.mk.inj same).1
  extra other key mem := by
    refine ((members _).mp mem).imp_right fun gain => ?_
    rcases brought _ gain with ⟨_, same⟩ | ⟨_, _, less, same, free⟩
    · cases (Slot.mk.inj same).1
    · cases same
      exact ⟨less, free⟩
  early := early

theorem nodesLower {x : Extract} {kind : Kind} {w : Way} {slot : Slot} (above : 0 < kind.rank)
    (pulled : x.PulledNodes w slot) : ∃ other key, other.rank < kind.rank ∧ x.Pulled other key slot := by
  obtain ⟨key, _, node⟩ := pulled
  exact ⟨.node, key, above, node⟩

theorem membersLower {x : Extract} {r : Relation} {slot : Slot} (pulled : x.PulledMembers r slot) :
    ∃ other key, other.rank < Kind.relation.rank ∧ x.Pulled other key slot := by
  obtain ⟨m, _, other, member⟩ := pulled
  refine ⟨m.kind, m.key, ?_, member⟩
  revert other
  cases m.kind <;> decide

structure Ready (rank : Nat) (x : Extract) : Prop where
  low : rank ≤ 2
  apart : x.Apart
  ahead : ∀ kind key, rank ≤ kind.rank → ⟨.extra, kind, key⟩ ∉ x

theorem readyStart (region : Region) : (start region).Ready 0 where
  low := Nat.zero_le _
  apart _ _ _ := notMemStart region _
  ahead _ _ _ := notMemStart region _

theorem rankLow (kind : Kind) : kind.rank ≤ 2 := by
  cases kind <;> decide

theorem Ready.noExtraRelations {rank : Nat} {x : Extract} (ready : x.Ready rank) :
    x.NoExtraRelations := fun key => ready.ahead .relation key ready.low

theorem Ready.find {rank : Nat} {kind : Kind} {x y : Extract} (ready : x.Ready rank)
    (due : rank ≤ kind.rank) (finds : Discovers kind x y) : y.Ready kind.rank := by
  refine ⟨rankLow kind, fun other key primary extra => ?_, fun other key late extra => ?_⟩
  · rcases finds.primary other key primary with before | rfl
    · rcases finds.extra other key extra with known | ⟨_, free⟩
      · exact ready.apart other key before known
      · exact free before
    · rcases finds.extra other key extra with known | ⟨less, _⟩
      · exact ready.ahead other key due known
      · exact Nat.lt_irrefl _ less
  · rcases finds.extra other key extra with known | ⟨less, _⟩
    · exact ready.ahead other key (Nat.le_trans due late) known
    · exact Nat.lt_irrefl _ (Nat.lt_of_lt_of_le less late)

structure Completes (x y : Extract) : Prop where
  grows : x.GrowsTo y
  primary : y.primary = x.primary
  extra : ∀ kind key, ⟨.extra, kind, key⟩ ∈ y → ⟨.extra, kind, key⟩ ∈ x ∨
    (kind ≠ .relation ∧ ⟨.primary, kind, key⟩ ∉ x)

structure Carries (holds : Extract → Prop) (x y : Extract) : Prop where
  holds : holds y
  grows : x.GrowsTo y
  early : y.early = x.early

theorem memOfPrimary {x y : Extract} (same : y.primary = x.primary) {kind : Kind} {key : Nat} :
    ⟨.primary, kind, key⟩ ∈ y ↔ ⟨.primary, kind, key⟩ ∈ x := by
  rw [memPrimary, memPrimary, same]

theorem Completes.refl (x : Extract) : x.Completes x := ⟨.refl x, rfl, fun _ _ => .inl⟩

theorem Completes.apart {x y : Extract} (completes : x.Completes y) (apart : x.Apart) : y.Apart := by
  intro kind key primary extra
  have before := (memOfPrimary completes.primary).mp primary
  rcases completes.extra kind key extra with known | ⟨_, free⟩
  · exact apart kind key before known
  · exact free before

theorem Completes.noExtraRelations {x y : Extract} (completes : x.Completes y)
    (none : x.NoExtraRelations) : y.NoExtraRelations := by
  intro key extra
  rcases completes.extra .relation key extra with known | ⟨other, _⟩
  · exact none key known
  · exact other rfl

theorem Completes.early {x y : Extract} (completes : x.Completes y) : y.early = x.early :=
  congrArg (fun primary : IdSets => (primary.nodes, primary.ways)) completes.primary

theorem Completes.carriesApart {x y : Extract} (completes : x.Completes y) (apart : x.Apart) :
    Carries Apart x y :=
  ⟨completes.apart apart, completes.grows, completes.early⟩

theorem Completes.carriesBoth {x y : Extract} (completes : x.Completes y)
    (both : x.Apart ∧ x.NoExtraRelations) : Carries (fun y => y.Apart ∧ y.NoExtraRelations) x y :=
  ⟨⟨completes.apart both.1, completes.noExtraRelations both.2⟩, completes.grows, completes.early⟩

theorem completesWayNodes (x : Extract) (w : Way) : x.Completes (x.addWayNodes w) where
  grows _ mem := memAddWayNodes.mpr (.inl mem)
  primary := primaryOfBase (baseAddWayNodes x w)
  extra kind key extra := by
    refine (memAddWayNodes.mp extra).imp_right fun pulled => ?_
    obtain ⟨rfl, _, free⟩ := pulledNodesIff.mp pulled
    exact ⟨by decide, free⟩

theorem completesMembers (x : Extract) (r : Relation) : x.Completes (x.addMembers r) where
  grows _ mem := memAddMembers.mpr (.inl mem)
  primary := primaryOfBase (baseAddMembers x r)
  extra kind key extra := by
    refine (memAddMembers.mp extra).imp_right fun pulled => ?_
    obtain ⟨other, _, free⟩ := pulledMembersIff.mp pulled
    exact ⟨other, free⟩

theorem completesIf {p : Prop} [Decidable p] {x y : Extract} (completes : x.Completes y) :
    x.Completes (if p then y else x) := by
  split
  · exact completes
  · exact .refl x

theorem completesWrite (x : Extract) (e : Element) : x.Completes (x.writeIncluded e) :=
  completesIf ⟨fun _ mem => mem, rfl, fun _ _ => .inl⟩

theorem networkCarries {x : Extract} (apart : x.Apart) (g : RelationGraph) :
    Carries Apart x (x.addNetwork g) := by
  have relations := addNetworkRelations x g
  refine ⟨fun kind key primary extra => ?_, fun slot mem => ?_, rfl⟩
  · cases kind with
    | node => exact apart .node key primary extra
    | way => exact apart .way key primary extra
    | relation =>
      rcases (relations key).mp extra with known | reached
      · exact apart .relation key primary known
      · exact reached.notStopped (.inl primary)
  · obtain ⟨part, kind, key⟩ := slot
    cases part with
    | primary => exact mem
    | extra =>
      cases kind with
      | node => exact mem
      | way => exact mem
      | relation => exact (relations key).mpr (.inl mem)

theorem parentsCarry {x : Extract} (apart : x.Apart) (none : x.NoExtraRelations)
    (parents : Adjacency) :
    Carries (fun y => y.Apart ∧ y.NoExtraRelations) x (x.addParents parents) := by
  have relations := addParentsRelations x parents
  refine ⟨⟨fun kind key primary extra => ?_, none⟩, fun slot mem => ?_, rfl⟩
  · cases kind with
    | node => exact apart .node key primary extra
    | way => exact apart .way key primary extra
    | relation => exact none key extra
  · obtain ⟨part, kind, key⟩ := slot
    cases part with
    | extra => exact mem
    | primary =>
      cases kind with
      | node => exact mem
      | way => exact mem
      | relation => exact (relations key).mpr (.inl mem)

end Extract

namespace Strategy
open Extract

theorem discoversNode (x : Extract) (n : Node) : Discovers .node x (findNode x n) :=
  discoversOf (fun _ => memFindNode) (fun _ gained => .inl ⟨_, gained.2⟩) nofun

namespace SystemOptions
variable (o : SystemOptions) (x : Extract)

theorem discoversWay (w : Way) : Discovers .way x (o.findWay x w) := by
  refine discoversOf (fun _ => memFindWay) (fun slot gained => ?_) nofun
  rcases gained.2 with same | pulled
  · exact .inl ⟨_, same⟩
  · exact .inr (nodesLower (by decide) pulled)

theorem discoversRelation (r : Relation) : Discovers .relation x (o.findRelation x r) := by
  refine discoversOf (fun _ => memFindRelation) (fun slot gained => ?_) fun _ => ?_
  · rcases gained.2 with same | ⟨_, pulled⟩
    · exact .inl ⟨_, same⟩
    · exact .inr (membersLower pulled)
  · have raised : (x.addPrimary .relation r.key).early = x.early := rfl
    have completed := earlyOfBase (baseAddMembers (x.addPrimary .relation r.key) r)
    rw [findRelation]
    exact viewIf early ((viewIf early completed).trans raised)

theorem discovers (e : Element) : Discovers e.kind x (o.find x e) := by
  cases e with
  | node n => exact discoversNode x n
  | way w => exact o.discoversWay x w
  | relation r => exact o.discoversRelation x r

theorem systemCompletes (e : Element) : x.Completes (o.completeSystem x e) := by
  cases e with
  | node n => exact .refl x
  | way w => exact .refl x
  | relation r => exact completesIf (completesMembers x r)

theorem extraWayCompletes (e : Element) : x.Completes (completeExtraWay x e) := by
  cases e with
  | node n => exact .refl x
  | way w => exact completesIf (completesWayNodes x w)
  | relation r => exact .refl x

end SystemOptions

namespace FirstNodeOptions
variable (o : FirstNodeOptions) (x : Extract)

theorem discoversWay (w : Way) : Discovers .way x (findWay x w) :=
  discoversOf (fun _ => memFindWay) (fun _ gained => .inl ⟨_, gained.2⟩) nofun

theorem discoversRelation (r : Relation) : Discovers .relation x (o.findRelation x r) := by
  refine discoversOf (fun _ => memFindRelation) (fun slot gained => ?_) fun _ => ?_
  · rcases gained with ⟨_, same⟩ | ⟨_, pulled⟩
    · exact .inl ⟨_, same⟩
    · exact .inr (membersLower pulled)
  · rw [findRelationIs, settle]
    exact (viewIf early (earlyOfBase (baseAddMembers _ r))).trans (viewIf early rfl)

theorem discovers (e : Element) : Discovers e.kind x (o.find x e) := by
  cases e with
  | node n => exact discoversNode x n
  | way w => exact discoversWay x w
  | relation r => exact o.discoversRelation x r

theorem wayCompletes (e : Element) : x.Completes (completeWay x e) := by
  cases e with
  | node n => exact .refl x
  | way w => exact completesIf (completesWayNodes x w)
  | relation r => exact .refl x

end FirstNodeOptions
end Strategy
end Cutout
