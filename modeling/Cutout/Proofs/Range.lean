import Cutout.Proofs.Calls
import Cutout.Proofs.Rejection
/-! Ids that reach the sets during a run. Only the first pass checks ids; the walks and the later
passes take theirs from what it has let through, as long as the source keeps showing the same. -/
namespace Cutout

theorem fitsOfBare {e f : Element} (same : e.bare = f.bare) (fits : f.Fits) : e.Fits := by
  have bareFits (e : Element) : e.bare.Fits ↔ e.Fits := by cases e <;> rfl
  rw [← bareFits, same, bareFits]
  exact fits

namespace RelationGraph

structure Fits (g : RelationGraph) : Prop where
  neighbors : ∀ id, ∀ v ∈ g.neighbors id, v ≤ maxId
  parents : ∀ id, ∀ v ∈ g.parents.get id, v ≤ maxId

theorem edgeFits {rs : List Relation} (fits : ∀ r ∈ rs, (Element.relation r).Fits) {a b : Nat}
    (edge : RelationEdge rs a b) : a ≤ maxId ∧ b ≤ maxId := by
  obtain ⟨r, mem, rfl, m, listed, _, rfl⟩ := edge
  obtain ⟨own, named⟩ := fits r mem
  exact ⟨own, named (m.kind, m.id) (List.mem_map_of_mem listed)⟩

theorem fitsOfRelations {rs : List Relation} (fits : ∀ r ∈ rs, (Element.relation r).Fits) :
    (ofRelations rs).Fits := by
  have neighbors : ∀ id, ∀ v ∈ (ofRelations rs).neighbors id, v ≤ maxId := by
    intro id v mem
    rcases memNeighbors.mp mem with edge | edge
    · exact (edgeFits fits edge).2
    · exact (edgeFits fits edge).1
  exact ⟨neighbors, fun id v mem => neighbors id v (List.mem_append_left _ mem)⟩

end RelationGraph

namespace Step
variable {α β σ : Type}

def Fills (step : Step α) (gives : α → Prop) : Prop :=
  ∀ s : Session, List.Forall₂ Extract.Fills s.extracts (step.run.run s).2.extracts ∧
    ∀ a, (step.run.run s).1 = .ok a → gives a

theorem fillsAll (xs : List Extract) {f : Extract → Extract}
    (fills : ∀ x : Extract, x.Fills (f x)) : List.Forall₂ Extract.Fills xs (xs.map f) := by
  rw [List.forall₂_map_right_iff, List.forall₂_same]
  exact fun x _ => fills x

theorem fillsTrans {xs ys zs : List Extract} (first : List.Forall₂ Extract.Fills xs ys)
    (second : List.Forall₂ Extract.Fills ys zs) : List.Forall₂ Extract.Fills xs zs := by
  induction first generalizing zs with
  | nil => exact second
  | cons fills _ ih =>
    cases second with
    | cons fillsToo second => exact .cons (fills.trans fillsToo) (ih second)

theorem Fills.bind {step : Step α} {next : α → Step β} {gives : α → Prop} {giving : β → Prop}
    (first : step.Fills gives) (second : ∀ a, gives a → (next a).Fills giving) :
    (step >>= next).Fills giving := by
  intro s
  obtain ⟨filled, given⟩ := first s
  rw [ExceptT.run_bind, StateT.run_bind]
  cases ran : step.run.run s with
  | mk result t =>
    rw [ran] at filled given
    cases result with
    | error fault => exact ⟨filled, fun a impossible => nomatch impossible⟩
    | ok a =>
      obtain ⟨more, gives⟩ := second a (given a rfl) t
      exact ⟨fillsTrans filled more, gives⟩

theorem Fills.mono {step : Step α} {gives weaker : α → Prop} (fills : step.Fills gives)
    (implies : ∀ a, gives a → weaker a) : step.Fills weaker :=
  fun s => ⟨(fills s).1, fun a ends => implies a ((fills s).2 a ends)⟩

theorem fillsNothing (xs : List Extract) : List.Forall₂ Extract.Fills xs xs := by
  rw [List.forall₂_same]
  exact fun x _ => Extract.fillsSame rfl

theorem fillsPure (a : α) : (pure a : Step α).Fills fun _ => True :=
  fun s => ⟨fillsNothing s.extracts, fun _ _ => trivial⟩

theorem fillsNote (n : Note) : (note n).Fills fun _ => True :=
  fun s => ⟨fillsNothing s.extracts, fun _ _ => trivial⟩

theorem fillsExtracts : extracts.Fills fun _ => True :=
  fun s => ⟨fillsNothing s.extracts, fun _ _ => trivial⟩

theorem fillsUpdate {f : Extract → Extract} (fills : ∀ x : Extract, x.Fills (f x)) :
    (updateExtracts f).Fills fun _ => True :=
  fun s => ⟨fillsAll s.extracts fills, fun _ _ => trivial⟩

theorem fillsPass (schedule : Schedule) (p : Pass σ) (start : σ) {source : Source}
    (rereadable : source.rereadable = true)
    (fills : ∀ seen ⊆ (source.read p.kinds p.metadata).batches.flatten,
      (∃ mid, seen.foldlM p.observe start = .ok mid) →
        ∀ e ∈ seen, ∀ x : Extract, x.Fills (p.visit x e)) :
    (pass schedule p start source).Fills fun last =>
      (source.read p.kinds p.metadata).batches.flatten.foldlM p.observe start = .ok last := by
  intro s
  rw [runPass, source.scanRereadable rereadable]
  refine ⟨?_, fun last ends => p.observedOfResult ends⟩
  obtain ⟨seen, shown, accepted, ends⟩ := p.overScanSeen (source.read p.kinds p.metadata) start
  dsimp only
  rw [ends]
  exact fillsAll s.extracts fun x =>
    Extract.fillsFold (fun x e mem => fills seen shown accepted e mem x) x

end Step

namespace Source
variable {source : Source}

def Steady (source : Source) : Prop :=
  ∀ kinds metadata, ∀ e ∈ (source.read kinds metadata).batches.flatten,
    ∃ f ∈ (source.read .all false).batches.flatten, e.bare = f.bare

def Fits (source : Source) : Prop :=
  ∀ kinds metadata, ∀ e ∈ (source.read kinds metadata).batches.flatten, e.Fits

theorem Steady.fits (steady : source.Steady)
    (first : ∀ e ∈ (source.read .all false).batches.flatten, e.Fits) : source.Fits := by
  intro kinds metadata e mem
  obtain ⟨f, shown, same⟩ := steady kinds metadata e mem
  exact fitsOfBare same (first f shown)

theorem Delivers.steady {elements : List Element} (held : source.Delivers elements) :
    source.Steady := by
  have bared (kinds : Kinds) (metadata : Bool) :
      (source.read kinds metadata).batches.flatten.map Element.bare =
        (elements.filter fun e => kinds.contains e.kind).map Element.bare := by
    cases metadata with
    | false => exact held.bare kinds
    | true => rw [held.full]
  intro kinds metadata e mem
  have shown : e.bare ∈ (elements.filter fun e => kinds.contains e.kind).map Element.bare := by
    rw [← bared kinds metadata]
    exact List.mem_map_of_mem mem
  obtain ⟨g, wanted, same⟩ := List.mem_map.mp shown
  have every : g ∈ elements.filter fun e => Kinds.all.contains e.kind :=
    List.mem_filter.mpr ⟨List.mem_of_mem_filter wanted, by cases g <;> rfl⟩
  have first : g.bare ∈ (source.read .all false).batches.flatten.map Element.bare := by
    rw [bared]
    exact List.mem_map_of_mem every
  obtain ⟨f, read, sameToo⟩ := List.mem_map.mp first
  exact ⟨f, read, same.symm.trans sameToo.symm⟩

end Source

namespace Step
variable {source : Source} (rereadable : source.rereadable = true) (schedule : Schedule)
include rereadable

theorem fillsStateless (fits : source.Fits) (kinds : Kinds) (metadata : Bool)
    {visit : Extract → Element → Extract}
    (fills : ∀ e : Element, e.Fits → ∀ x : Extract, x.Fills (visit x e)) :
    (pass schedule (.stateless kinds metadata visit) () source).Fills fun _ => True := by
  refine (fillsPass schedule _ () rereadable fun seen shown _ e mem => ?_).mono
    fun _ _ => trivial
  exact fills e (fits kinds metadata e (shown mem))

theorem fillsWritten (fits : source.Fits) : (write schedule source).Fills fun _ => True := by
  intro s
  have scanned := fillsStateless rereadable schedule fits .all true fun e _ x => x.fillsWrite e
  rw [runWrite]
  exact scanned _

end Step

namespace Strategy
variable {source : Source} (schedule : Schedule)

theorem fillsFirstVisit (s : Strategy) {e : Element} (fits : e.Fits) (x : Extract) :
    x.Fills (s.firstPass.visit x e) := by
  cases s with
  | systems o => exact o.fillsFind fits x
  | firstNode o => exact o.fillsFind fits x

section Rereadable
variable (steady : source.Steady) (rereadable : source.rereadable = true)
include steady rereadable

theorem fillsFirstPass (s : Strategy) :
    (Step.pass schedule s.firstPass .start source).Fills fun survey =>
      survey.memberships.graph.Fits ∧ source.Fits := by
  have scanned := Step.fillsPass schedule s.firstPass .start rereadable
    fun seen _ accepted e mem x => by
      rw [s.firstPassObserves, Survey.observeStart] at accepted
      exact s.fillsFirstVisit (accepted.fits e mem) x
  refine scanned.mono fun survey taken => ?_
  rw [s.firstPassObserves, s.firstPassAll, s.firstPassBare] at taken
  have fits := (Survey.observeStart.mp ⟨survey, taken⟩).fits
  refine ⟨?_, steady.fits fits⟩
  rw [Survey.membershipsOfObserved taken]
  refine RelationGraph.fitsOfRelations fun r counted => fits (.relation r) ?_
  exact memRelationsOf.mp (List.mem_of_mem_filter counted)

omit steady in
theorem SystemOptions.fillsPassIfAny (fits : source.Fits) (kind : Kind) (number : Nat)
    (kinds : Kinds)
    {visit : Extract → Element → Extract}
    (fills : ∀ e : Element, e.Fits → ∀ x : Extract, x.Fills (visit x e)) :
    (passIfAny kind number (.stateless kinds false visit) source schedule).Fills fun _ => True := by
  refine Step.fillsExtracts.bind fun xs _ => ?_
  split
  · refine (Step.fillsNote _).bind fun _ _ => ?_
    refine (Step.fillsStateless rereadable schedule fits kinds false fills).bind fun _ _ => ?_
    exact Step.fillsNote _
  · exact Step.fillsPure ()

theorem SystemOptions.fillsRun (o : SystemOptions) :
    (o.run source schedule).Fills fun _ => True := by
  refine (Step.fillsNote _).bind fun _ _ => (Step.fillsNote _).bind fun _ _ => ?_
  have first := fillsFirstPass schedule steady rereadable (.systems o)
  refine first.bind fun survey ⟨graph, fits⟩ => ?_
  refine (Step.fillsNote _).bind fun _ _ => ?_
  refine (Step.fillsUpdate (Extract.fillsNetwork graph.neighbors)).bind fun _ _ => ?_
  refine (fillsPassIfAny schedule rereadable fits .relation 2 .onlyRelations
    fun e fits x => o.fillsCompleteSystem fits x).bind fun _ _ => ?_
  refine (fillsPassIfAny schedule rereadable fits .way 3 .onlyWays
    fun e fits x => fillsCompleteExtraWay fits x).bind fun _ _ => ?_
  refine (Step.fillsNote _).bind fun _ _ => ?_
  exact (Step.fillsWritten rereadable schedule fits).bind fun _ _ => Step.fillsNote _

theorem FirstNodeOptions.fillsRun (o : FirstNodeOptions) :
    (o.run source schedule).Fills fun _ => True := by
  refine (Step.fillsNote _).bind fun _ _ => (Step.fillsNote _).bind fun _ _ => ?_
  have first := fillsFirstPass schedule steady rereadable (.firstNode o)
  refine first.bind fun survey ⟨graph, fits⟩ => ?_
  refine (Step.fillsUpdate (Extract.fillsParents graph.parents)).bind fun _ _ => ?_
  refine (Step.fillsNote _).bind fun _ _ => ?_
  refine (Step.fillsStateless rereadable schedule fits .onlyWays false
    fun e fits x => fillsCompleteWay fits x).bind fun _ _ => ?_
  exact (Step.fillsNote _).bind fun _ _ => Step.fillsWritten rereadable schedule fits

end Rereadable

theorem runFills (s : Strategy) (steady : source.Steady) (xs : List Extract) :
    List.Forall₂ Extract.Fills xs (s.run source xs schedule).session.extracts := by
  cases rereadable : source.rereadable with
  | false =>
    unfold run checkSource
    rw [rereadable]
    exact Step.fillsNothing xs
  | true =>
    rw [s.runSteps rereadable]
    cases s with
    | systems o => exact (o.fillsRun schedule steady rereadable (.start xs)).1
    | firstNode o => exact (o.fillsRun schedule steady rereadable (.start xs)).1

end Strategy

/-- The sets of the extract come from calls, and whatever calls they come from, these have small ids.
Since sets lose nothing, no call that was made on the way is missing from such calls. -/
structure Extract.CallsFit (region : Region) (x : Extract) : Prop where
  called : ∃ calls : List Slot, calls.foldl Slot.put (start region).of = x.of
  fit : ∀ calls : List Slot,
    (∀ slot : Slot, slot.HeldBy (calls.foldl Slot.put (start region).of) ↔ slot ∈ x) →
      ∀ call ∈ calls, call.key ≤ maxId

theorem Extract.Fills.callsFit {region : Region} {x : Extract} (fills : (start region).Fills x) :
    x.CallsFit region := by
  obtain ⟨made, fit, ends⟩ := fills
  refine ⟨⟨made, ends⟩, fun calls same call mem => ?_⟩
  have held : call.HeldBy (made.foldl Slot.put (start region).of) := by
    rw [ends]
    exact (same call).mp (heldPutAll.mpr (.inr mem))
  rcases heldPutAll.mp held with before | listed
  · exact absurd before (notMemStart region call)
  · exact fit call listed

def Outcome.CallsFit (outcome : Outcome) (regions : List Region) : Prop :=
  List.Forall₂ Extract.CallsFit regions outcome.session.extracts

namespace Strategy

theorem runCallsFit (s : Strategy) {source : Source} (steady : source.Steady)
    (regions : List Region) (schedule : Schedule) :
    (s.run source (regions.map .start) schedule).CallsFit regions := by
  have filled := runFills schedule s steady (regions.map .start)
  rw [List.forall₂_map_left_iff] at filled
  exact filled.imp fun _ _ fills => fills.callsFit

def outermost : List Element := [
  .node ⟨1, ⟨0, 0⟩, [], none⟩, .way ⟨1099511627776, [1, -1099511627776], [], none⟩,
  .relation ⟨-1099511627776, [⟨.way, 1099511627776, ""⟩], [("type", "network")], none⟩,
  .relation ⟨2, [⟨.node, 1099511627776, ""⟩, ⟨.relation, 1099511627776, ""⟩],
    [("type", "network")], none⟩]

theorem steadyRepeating (scan : Scan) : (repeating true scan).Steady :=
  fun _ _ e mem => ⟨e, mem, rfl⟩

theorem outermostCallsFit :
    let s := systems networks
    let outer := s.run (.inMemory outermost) [.start meridian]
    let far := s.run (repeating true leadingFar) [.start meridian]
    outer.CallsFit [meridian] ∧ outer.result = .ok () ∧
      outer.session.extracts.map idsOf = [[[1], [maxId], [maxId], [maxId], [], [2]]] ∧
    far.CallsFit [meridian] ∧
      far.result = .error (.idOutOfRange .node (-9223372036854775808)) := by
  have outer := runCallsFit (systems networks) (deliversInMemory outermost).steady [meridian]
    .oneByOne
  have far := runCallsFit (systems networks) (steadyRepeating leadingFar) [meridian] .oneByOne
  exact ⟨outer, by decide +kernel, by decide +kernel, far, by decide +kernel⟩

end Strategy
end Cutout
