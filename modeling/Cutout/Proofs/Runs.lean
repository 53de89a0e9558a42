import Cutout.Proofs.FirstNode
import Cutout.Proofs.Sorted
import Cutout.Proofs.Steps
import Cutout.Proofs.Systems
/-! Whole runs. For an accepted input every extract ends as it would if it went through all passes by
itself; what a run leaves out for all extracts would have changed none of them. -/
namespace Cutout

def Outcome.Leaves (outcome : Outcome) (regions : List Region)
    (property : Region → Extract → Prop) : Prop :=
  outcome.result = .ok () ∧ List.Forall₂ property regions outcome.session.extracts

namespace Strategy

/-- Whenever the strategy goes over the source for regions with this one among them, it goes through,
and the extract in the place of the region has the property. -/
def Gives (s : Strategy) (source : Source) (region : Region) (property : Extract → Prop) : Prop :=
  ∀ (regions : List Region) (schedule : Schedule) (i : Nat), regions[i]? = some region →
    let outcome := s.run source (regions.map .start) schedule
    outcome.result = .ok () ∧ ∃ x, outcome.session.extracts[i]? = some x ∧ property x

theorem wantedAll {p : Pass Survey} (all : p.kinds = .all) (elements : List Element) :
    p.wanted elements = elements := by
  rw [Pass.wanted, all]
  exact List.filter_eq_self.mpr fun e _ => by cases e <;> rfl

section FirstPass
variable {source : Source} {elements : List Element} (held : source.Delivers elements)
  (schedule : Schedule) {p : Pass Survey} {counts : Relation → Bool} (all : p.kinds = .all)
  (observes : p.observe = Survey.observe counts) (blind : p.Blind)
include held all observes blind

theorem endsSurvey (accepted : InputOrder.Accepts elements) (xs : List Extract) :
    ∃ survey, survey.memberships = .ofRelations ((relationsOf elements).filter counts) ∧
      (Step.pass schedule p .start source).Ends ⟨xs, [], []⟩ (.ok survey)
        ⟨xs.map (elements.foldl p.visit), [.all], []⟩ := by
  obtain ⟨survey, taken⟩ := Survey.observeStart.mpr accepted
  have every := wantedAll all elements
  have observed : (p.wanted elements).foldlM p.observe .start = .ok survey := by
    rw [every, observes]
    exact taken
  have scanned := Step.endsAccepted held schedule (.inr blind) observed xs [] []
  rw [every, all] at scanned
  exact ⟨survey, Survey.membershipsOfObserved taken, scanned⟩

theorem refusesSurvey {fault : Fault}
    (refused : elements.foldlM (Survey.observe counts) .start = .error fault)
    (xs : List Extract) : ∃ after,
      (Step.pass schedule p .start source).Ends ⟨xs, [], []⟩ (.error fault) after := by
  have observed : (p.wanted elements).foldlM p.observe .start = .error fault := by
    rw [wantedAll all, observes]
    exact refused
  obtain ⟨ys, first⟩ := Step.endsRefused held schedule (.inr blind) observed xs [] []
  exact ⟨_, first⟩

end FirstPass

namespace SystemOptions
variable (o : SystemOptions) {source : Source} {elements : List Element}

theorem blindFind : o.findPrimary.Blind :=
  ⟨fun s e => by cases e <;> rfl, fun x e => by cases e <;> rfl⟩

theorem foldFind (accepted : InputOrder.Accepts elements) (x : Extract) :
    elements.foldl o.find x = o.found elements x := accepted.foldByKind o.find x

theorem blindSystem (x : Extract) (e : Element) :
    o.completeSystem x e.bare = o.completeSystem x e := by
  cases e <;> rfl

theorem blindExtraWay (x : Extract) (e : Element) :
    completeExtraWay x e.bare = completeExtraWay x e := by
  cases e <;> rfl

theorem skipSystems {x : Extract} (none : x.hasExtra .relation = false) (items : List Element) :
    items.foldl o.completeSystem x = x := by
  refine Extract.foldIdle fun e _ => ?_
  cases e with
  | node n => rfl
  | way w => rfl
  | relation r =>
    have free : x.extra.relations.contains r.key = false := Extract.noExtraIff.mp none r.key
    rw [completeSystem, free, Bool.false_and, if_neg Bool.false_ne_true]

theorem skipExtraWays {x : Extract} (none : x.hasExtra .way = false) (items : List Element) :
    items.foldl completeExtraWay x = x := by
  refine Extract.foldIdle fun e _ => ?_
  cases e with
  | node n => rfl
  | way w =>
    have free : x.extra.ways.contains w.key = false := Extract.noExtraIff.mp none w.key
    rw [completeExtraWay, free, if_neg Bool.false_ne_true]
  | relation r => rfl

theorem anyExtraNone {xs : List Extract} {kind : Kind} :
    anyExtra xs kind = false ↔ ∀ x ∈ xs, x.hasExtra kind = false := by
  rw [anyExtra, List.any_eq_false]
  simp

section Delivered
variable (held : source.Delivers elements) (schedule : Schedule)
include held

theorem endsFirstPass (accepted : InputOrder.Accepts elements) (xs : List Extract) :
    ∃ survey, survey.memberships = .ofRelations (o.systemRelations elements) ∧
      (Step.pass schedule o.findPrimary .start source).Ends ⟨xs, [], []⟩ (.ok survey)
        ⟨xs.map (o.found elements), [.all], []⟩ := by
  have ends := endsSurvey held schedule (p := o.findPrimary) rfl rfl o.blindFind accepted xs
  have found : elements.foldl o.findPrimary.visit = o.found elements :=
    funext (o.foldFind accepted)
  rw [found] at ends
  exact ends

theorem endsPassIfAny {kind : Kind} (number : Nat) (kinds : Kinds)
    {visit : Extract → Element → Extract} (blind : ∀ x e, visit x e.bare = visit x e)
    (idle : ∀ x, x.hasExtra kind = false → ∀ items : List Element, items.foldl visit x = x)
    (before : Extract → Extract) (xs : List Extract) (scans : List Kinds)
    (rounds : List (List (List Element))) :
    (passIfAny kind number (.stateless kinds false visit) source schedule).Ends
      ⟨xs.map before, scans, rounds⟩ (.ok ())
      ⟨xs.map fun x => (elements.filter fun e => kinds.contains e.kind).foldl visit (before x),
        scans ++ if anyExtra (xs.map before) kind then [kinds] else [], rounds⟩ := by
  refine Step.Ends.bind (Step.endsExtracts _ scans rounds) ?_
  cases needed : anyExtra (xs.map before) kind with
  | true =>
    have scanned := Step.endsStateless held schedule kinds blind before xs scans rounds
    exact (Step.endsNote _ _).bind (scanned.bind (Step.endsNote _ _))
  | false =>
    have same : (xs.map fun x => (elements.filter fun e => kinds.contains e.kind).foldl visit
        (before x)) = xs.map before := by
      refine List.map_congr_left fun x mem => idle (before x) ?_ _
      exact anyExtraNone.mp needed _ (List.mem_map_of_mem mem)
    simp only [same, Bool.false_eq_true, if_false, List.append_nil]
    exact Step.endsPure () _

theorem endsSecondPass (xs : List Extract) (scans : List Kinds) (rounds : List (List (List Element))) :
    (passIfAny .relation 2 o.completeSystems source schedule).Ends
      ⟨xs.map (o.networked elements), scans, rounds⟩ (.ok ())
      ⟨xs.map (o.joined elements), scans ++
        if anyExtra (xs.map (o.networked elements)) .relation then [.onlyRelations] else [],
        rounds⟩ := by
  have ends := endsPassIfAny held schedule 2 .onlyRelations o.blindSystem
    (fun _ => o.skipSystems) (o.networked elements) xs scans rounds
  simp only [onlyRelationsOf, List.foldl_map] at ends
  exact ends

theorem endsThirdPass (xs : List Extract) (scans : List Kinds) (rounds : List (List (List Element))) :
    (passIfAny .way 3 completeExtraWays source schedule).Ends
      ⟨xs.map (o.joined elements), scans, rounds⟩ (.ok ())
      ⟨xs.map (o.gathered elements), scans ++
        if anyExtra (xs.map (o.joined elements)) .way then [.onlyWays] else [], rounds⟩ := by
  have ends := endsPassIfAny held schedule 3 .onlyWays blindExtraWay (fun _ => skipExtraWays)
    (o.joined elements) xs scans rounds
  simp only [onlyWaysOf, List.foldl_map] at ends
  exact ends

def scans (elements : List Element) (xs : List Extract) : List Kinds :=
  [.all] ++ (if anyExtra (xs.map (o.networked elements)) .relation then [.onlyRelations] else []) ++
    (if anyExtra (xs.map (o.joined elements)) .way then [.onlyWays] else []) ++ [.all]

theorem endsRun (accepted : InputOrder.Accepts elements) (xs : List Extract) :
    (o.run source schedule).Ends ⟨xs, [], []⟩ (.ok ())
      ⟨xs.map (o.finished elements), o.scans elements xs,
        (source.read .all true).batches.map fun batch =>
          xs.map fun x => (o.finished elements x).selected batch⟩ := by
  obtain ⟨survey, collected, first⟩ := o.endsFirstPass held schedule accepted xs
  have networked := Step.endsUpdate (·.addNetwork survey.memberships.graph) (o.found elements) xs [.all] []
  rw [collected] at networked
  refine (Step.endsNote _ _).bind ((Step.endsNote _ _).bind (first.bind ?_))
  rw [collected]
  refine (Step.endsNote _ _).bind (networked.bind ?_)
  refine (o.endsSecondPass held schedule xs _ _).bind ?_
  refine (o.endsThirdPass held schedule xs _ _).bind ?_
  have written := Step.endsWritten held schedule (o.gathered elements) xs
  exact (Step.endsNote _ _).bind ((written _ _).bind (Step.endsNote _ _))

end Delivered
end SystemOptions

namespace FirstNodeOptions
variable (o : FirstNodeOptions) {source : Source} {elements : List Element}

theorem blindFind : o.findPrimary.Blind := by
  refine ⟨fun s e => by cases e <;> rfl, fun x e => ?_⟩
  cases e with
  | node n => rfl
  | way w => rfl
  | relation r =>
    change o.findRelation x { r with metadata := none } = o.findRelation x r
    rw [findRelationIs, findRelationIs]
    rfl

theorem foldFind (accepted : InputOrder.Accepts elements) (x : Extract) :
    elements.foldl o.find x = o.found elements x := accepted.foldByKind o.find x

section Delivered
variable (held : source.Delivers elements) (schedule : Schedule)
include held

theorem endsFirstPass (accepted : InputOrder.Accepts elements) (xs : List Extract) :
    ∃ survey, survey.memberships = .ofRelations (relationsOf elements) ∧
      (Step.pass schedule o.findPrimary .start source).Ends ⟨xs, [], []⟩ (.ok survey)
        ⟨xs.map (o.found elements), [.all], []⟩ := by
  have ends := endsSurvey held schedule (p := o.findPrimary) rfl rfl o.blindFind accepted xs
  have found : elements.foldl o.findPrimary.visit = o.found elements :=
    funext (o.foldFind accepted)
  rw [found, List.filter_true] at ends
  exact ends

theorem endsRun (accepted : InputOrder.Accepts elements) (xs : List Extract) :
    (o.run source schedule).Ends ⟨xs, [], []⟩ (.ok ())
      ⟨xs.map (o.finished elements), [.all, .onlyWays, .all],
        (source.read .all true).batches.map fun batch =>
          xs.map fun x => (o.finished elements x).selected batch⟩ := by
  obtain ⟨survey, collected, first⟩ := o.endsFirstPass held schedule accepted xs
  have raised := Step.endsUpdate (·.addParents survey.memberships.upward) (o.found elements) xs [.all] []
  have blind (x : Extract) (e : Element) : completeWay x e.bare = completeWay x e := by
    cases e <;> rfl
  have completed := Step.endsStateless held schedule .onlyWays blind (o.raised elements) xs [.all] []
  simp only [onlyWaysOf, List.foldl_map] at completed
  have written := Step.endsWritten held schedule (o.gathered elements) xs [.all, .onlyWays] []
  rw [collected] at raised
  refine (Step.endsNote _ _).bind ((Step.endsNote _ _).bind (first.bind ?_))
  rw [collected]
  refine raised.bind ((Step.endsNote _ _).bind (completed.bind ?_))
  exact (Step.endsNote _ _).bind written

end Delivered
end FirstNodeOptions

def firstPass : Strategy → Pass Survey
  | systems o => o.findPrimary
  | firstNode o => o.findPrimary

def counts : Strategy → Relation → Bool
  | systems o => o.isPartOfSystem
  | firstNode _ => fun _ => true

theorem firstPassObserves (s : Strategy) : s.firstPass.observe = Survey.observe s.counts := by
  cases s <;> rfl

theorem firstPassAll (s : Strategy) : s.firstPass.kinds = .all := by
  cases s <;> rfl

theorem firstPassBare (s : Strategy) : s.firstPass.metadata = false := by
  cases s <;> rfl

theorem firstPassBlind (s : Strategy) : s.firstPass.Blind := by
  cases s with
  | systems o => exact o.blindFind
  | firstNode o => exact o.blindFind

theorem stepsStop (s : Strategy) {source : Source} {schedule : Schedule} {before after : Stand}
    {fault : Fault} (first : (Step.pass schedule s.firstPass .start source).Ends before
      (.error fault) after) : (s.steps source schedule).Ends before (.error fault) after := by
  cases s with
  | systems o => exact (Step.endsNote _ _).bind ((Step.endsNote _ _).bind (first.stop _))
  | firstNode o => exact (Step.endsNote _ _).bind ((Step.endsNote _ _).bind (first.stop _))

def finished (s : Strategy) (elements : List Element) (x : Extract) : Extract :=
  match s with
  | systems o => o.finished elements x
  | firstNode o => o.finished elements x

def scans (s : Strategy) (elements : List Element) (xs : List Extract) : List Kinds :=
  match s with
  | systems o => o.scans elements xs
  | firstNode _ => [.all, .onlyWays, .all]

theorem runSteps (s : Strategy) {source : Source} (rereadable : source.rereadable = true)
    (schedule : Schedule) (xs : List Extract) :
    s.run source xs schedule = (s.steps source schedule).outcome xs := by
  simp only [run, checkSource, rereadable, if_true]

section Delivered
variable (s : Strategy) {source : Source} {elements : List Element}
  (held : source.Delivers elements) (schedule : Schedule)
include held

theorem runEnds (accepted : InputOrder.Accepts elements) (xs : List Extract) :
    (s.run source xs schedule).result = .ok () ∧ (s.run source xs schedule).session.stand =
      ⟨xs.map (s.finished elements), s.scans elements xs, (source.read .all true).batches.map
        fun batch => xs.map fun x => (s.finished elements x).selected batch⟩ := by
  rw [s.runSteps held.rereadable]
  cases s with
  | systems o => exact (o.endsRun held schedule accepted xs).outcome
  | firstNode o => exact (o.endsRun held schedule accepted xs).outcome

theorem runAccepted (accepted : InputOrder.Accepts elements) (xs : List Extract) :
    (s.run source xs schedule).result = .ok () ∧
      (s.run source xs schedule).session.extracts = xs.map (s.finished elements) ∧
      (s.run source xs schedule).session.scans = s.scans elements xs := by
  obtain ⟨succeeds, stands⟩ := s.runEnds held schedule accepted xs
  exact ⟨succeeds, congrArg Stand.extracts stands, congrArg Stand.scans stands⟩

theorem runRefused {fault : Fault}
    (refused : elements.foldlM (Survey.observe s.counts) .start = .error fault)
    (xs : List Extract) : (s.run source xs schedule).result = .error fault := by
  obtain ⟨after, first⟩ := refusesSurvey held schedule s.firstPassAll s.firstPassObserves
    s.firstPassBlind refused xs
  rw [s.runSteps held.rereadable]
  exact (s.stepsStop first).outcome.1

theorem runSucceeds (xs : List Extract) :
    (s.run source xs schedule).result = .ok () ↔ InputOrder.Accepts elements := by
  constructor
  · intro succeeds
    cases taken : elements.foldlM (Survey.observe s.counts) .start with
    | ok survey => exact Survey.observeStart.mp ⟨survey, taken⟩
    | error fault =>
      have failed := s.runRefused held schedule taken xs
      rw [succeeds] at failed
      cases failed
  · intro accepted
    exact (s.runAccepted held schedule accepted xs).1

theorem leavesFinished (accepted : InputOrder.Accepts elements) (regions : List Region)
    {property : Region → Extract → Prop}
    (each : ∀ region, property region (s.finished elements (.start region))) :
    (s.run source (regions.map .start) schedule).Leaves regions property := by
  obtain ⟨succeeds, extracts, _⟩ := s.runAccepted held schedule accepted (regions.map .start)
  refine ⟨succeeds, ?_⟩
  rw [extracts, List.map_map, List.forall₂_map_right_iff, List.forall₂_same]
  exact fun region _ => each region

theorem givesFinished (accepted : InputOrder.Accepts elements) {region : Region}
    {property : Extract → Prop} (ends : property (s.finished elements (.start region))) :
    s.Gives source region property := by
  intro regions schedule i here
  obtain ⟨succeeds, extracts, _⟩ := s.runAccepted held schedule accepted (regions.map .start)
  refine ⟨succeeds, s.finished elements (.start region), ?_, ends⟩
  rw [extracts, List.map_map, List.getElem?_map, here]
  rfl

end Delivered
end Strategy
end Cutout
