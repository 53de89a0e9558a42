import Cutout.Proofs.Moments
/-! Recorded runs. Recorded steps do just what the plain ones do, and whatever they add to a record agrees
with all that stands in it. A step that fails has to do so too, so the record of a failed run is as good. -/
namespace Cutout

namespace Recorded
variable {α β σ : Type} {holds : Extract → Prop} {before : List Moment → List Extract → Prop}

def Follows (holds : Extract → Prop) (before : List Moment → List Extract → Prop)
    (recorded : Recorded α) (step : Step α) : Prop :=
  ∀ s record, before record s.extracts → ∃ result after more, step.run.run s = (result, after) ∧
    recorded.run.run (s, record) = (result, after, record ++ more) ∧
      Keeps holds (record ++ more) after.extracts

theorem Follows.bind {recorded : Recorded α} {step : Step α} {others : α → Recorded β}
    {next : α → Step β} (first : Follows holds before recorded step)
    (rest : ∀ a, Follows holds (Keeps holds) (others a) (next a)) :
    Follows holds before (recorded >>= others) (step >>= next) := by
  intro s record fresh
  obtain ⟨result, between, more, plain, noted, keeps⟩ := first s record fresh
  cases result with
  | error fault =>
    refine ⟨.error fault, between, more, ?_, ?_, keeps⟩
    · rw [ExceptT.run_bind, StateT.run_bind, plain]
      rfl
    · rw [ExceptT.run_bind, StateT.run_bind, noted]
      rfl
  | ok a =>
    obtain ⟨result, after, last, plainly, notedly, kept⟩ := rest a between (record ++ more) keeps
    rw [List.append_assoc] at notedly kept
    refine ⟨result, after, more ++ last, ?_, ?_, kept⟩
    · rw [ExceptT.run_bind, StateT.run_bind, plain]
      exact plainly
    · rw [ExceptT.run_bind, StateT.run_bind, noted]
      exact notedly

theorem Follows.afterNote (n : Note) {recorded : Recorded α} {step : Step α}
    (follows : Follows holds before recorded step) :
    Follows holds before (quiet (Step.note n) >>= fun _ => recorded)
      (Step.note n >>= fun _ => step) := by
  intro s record fresh
  obtain ⟨result, after, more, plain, noted, keeps⟩ :=
    follows { s with notes := s.notes ++ [n] } record fresh
  refine ⟨result, after, more, plain, ?_, keeps⟩
  rw [ExceptT.run_bind, StateT.run_bind]
  have quietly : (quiet (Step.note n)).run.run (s, record) =
      (.ok (), { s with notes := s.notes ++ [n] }, record ++ []) := rfl
  rw [quietly, List.append_nil]
  exact noted

theorem followsNote (n : Note) : Follows holds (Keeps holds) (quiet (Step.note n)) (Step.note n) :=
  fun _ record keeps => ⟨_, _, [], rfl, rfl, (List.append_nil record).symm ▸ keeps⟩

theorem followsExtracts :
    Follows holds (Keeps holds) (quiet Step.extracts) Step.extracts :=
  fun _ record keeps => ⟨_, _, [], rfl, rfl, (List.append_nil record).symm ▸ keeps⟩

theorem followsPure (a : α) : Follows holds (Keeps holds) (pure a) (pure a) :=
  fun _ record keeps => ⟨_, _, [], rfl, by rw [List.append_nil]; rfl,
    (List.append_nil record).symm ▸ keeps⟩

theorem followsWalk {f : Extract → Extract}
    (carries : ∀ x, holds x → Extract.Carries holds x (f x)) :
    Follows holds (Keeps holds) (walk f) (Step.updateExtracts f) := by
  intro s record keeps
  have kept := keepsWalk carries (List.range s.extracts.length) keeps
  rw [walkAll] at kept
  exact ⟨_, _, _, rfl, rfl, kept⟩

theorem scanExtracts (p : Pass σ) (turns : Nat → List Nat) (scan : Scan) (start : σ)
    (xs : List Extract) :
    (p.overScan turns scan start xs).1 = (p.overBatches turns scan.batches start xs).1 := by
  rw [Pass.overScan]
  split <;> rename_i same <;> rw [same]

theorem followsPass (schedule : Schedule) {p : Pass σ} (start : σ) (source : Source)
    {fit : Prop → List Element → Extract → Prop} (fits : Fits p.visit holds fit)
    (keeps : ∀ record xs, before record xs → Keeps holds record xs)
    (ready : ∀ record xs batches, before record xs → AllFit fit (p.taken batches start) record xs) :
    Follows holds before (pass schedule p start source) (Step.pass schedule p start source) := by
  intro s record fresh
  let scan := source.scan s.scans.length p.kinds p.metadata
  have kept := keepsScan fits (schedule s.scans.length) scan.batches start (keeps _ _ fresh)
    (ready _ _ scan.batches fresh)
  rw [← scanExtracts] at kept
  exact ⟨_, _, _, rfl, rfl, kept⟩

section Later
variable (schedule : Schedule) (source : Source)

theorem followsLater (kinds : Kinds) {visit : Extract → Element → Extract}
    (carries : ∀ x e, holds x → Extract.Carries holds x (visit x e)) :
    Follows holds (Keeps holds) (pass schedule (.stateless kinds false visit) () source)
      (Step.pass schedule (.stateless kinds false visit) () source) :=
  followsPass schedule () source (fitsLater carries) (fun _ _ keeps => keeps)
    fun _ _ _ keeps _ x here => keeps.now x (List.mem_of_getElem? here)

theorem followsWrite (carries : ∀ x e, holds x → Extract.Carries holds x (x.writeIncluded e)) :
    Follows holds (Keeps holds) (write schedule source) (Step.write schedule source) := by
  intro s record keeps
  let scan := source.scan s.scans.length Pass.write.kinds Pass.write.metadata
  have kept := keepsScan (p := .write) (fitsLater carries) (schedule s.scans.length) scan.batches ()
    keeps fun _ x here => keeps.now x (List.mem_of_getElem? here)
  rw [← scanExtracts] at kept
  exact ⟨_, _, passMoments schedule .write () source s, rfl, rfl, kept⟩

end Later

def Fresh (record : List Moment) (xs : List Extract) : Prop :=
  record = [⟨none, xs⟩] ∧ ∀ x ∈ xs, x.Ready 0

theorem followsFirst (schedule : Schedule) (source : Source) {p : Pass Strategy.Survey}
    {counts : Relation → Bool} (observes : p.observe = Strategy.Survey.observe counts)
    (discovers : ∀ x e, Extract.Discovers e.kind x (p.visit x e))
    (held : ∀ x rank, x.Ready rank → holds x) :
    Follows holds Fresh (pass schedule p .start source) (Step.pass schedule p .start source) := by
  refine followsPass (p := p) schedule .start source (fitsFirst discovers held) ?_ ?_
  · rintro _ xs ⟨rfl, ready⟩
    exact keepsStart fun x mem => held x 0 (ready x mem)
  · rintro _ xs batches ⟨rfl, ready⟩ i x here
    -- What the extracts are shown has been accepted, so it is sorted by kinds.
    obtain ⟨last, observed⟩ := p.takenObserved batches .start
    rw [observes] at observed
    have sorted := (Strategy.Survey.observeStart.mp ⟨last, observed⟩).sorted
    refine ⟨0, ready x (List.mem_of_getElem? here), fun _ _ => Nat.zero_le _, ?_, ?_⟩
    · refine sorted.imp fun before => ?_
      rcases before with less | ⟨same, _⟩
      · exact Nat.le_of_lt less
      · exact Nat.le_of_eq (congrArg Kind.rank same)
    · rintro ⟨m, mem, r, called⟩
      cases List.mem_singleton.mp mem
      cases called

end Recorded

namespace Strategy
open Recorded

theorem SystemOptions.followsIfAny (kind : Kind) (number : Nat) (kinds : Kinds)
    {visit : Extract → Element → Extract} (completes : ∀ (x : Extract) e, x.Completes (visit x e))
    (source : Source) (schedule : Schedule) :
    Follows Extract.Apart (Keeps Extract.Apart)
      (recordedIfAny kind number (.stateless kinds false visit) source schedule)
      (passIfAny kind number (.stateless kinds false visit) source schedule) := by
  refine followsExtracts.bind fun xs => ?_
  split
  · refine (followsNote _).bind fun _ => ?_
    have scanned := followsLater schedule source kinds fun x e => (completes x e).carriesApart
    exact scanned.bind fun _ => followsNote _
  · exact followsPure ()

theorem SystemOptions.follows (o : SystemOptions) (source : Source) (schedule : Schedule) :
    Follows Extract.Apart Fresh (o.recorded source schedule) (o.run source schedule) := by
  have first := followsFirst schedule source (p := o.findPrimary) rfl (fun x e => o.discovers x e)
    fun x _ (ready : x.Ready _) => ready.apart
  refine .afterNote _ (.afterNote _ (first.bind fun survey => ?_))
  refine (followsNote _).bind fun _ => ?_
  refine (followsWalk fun x apart => Extract.networkCarries apart survey.memberships.graph).bind fun _ => ?_
  refine (followsIfAny _ _ _ o.systemCompletes source schedule).bind fun _ => ?_
  refine (followsIfAny _ _ _ extraWayCompletes source schedule).bind fun _ => ?_
  refine (followsNote _).bind fun _ => ?_
  have written := followsWrite schedule source fun x e =>
    (Extract.completesWrite x e).carriesApart
  exact written.bind fun _ => followsNote _

theorem FirstNodeOptions.follows (o : FirstNodeOptions) (source : Source) (schedule : Schedule) :
    Follows (fun x => x.Apart ∧ x.NoExtraRelations) Fresh (o.recorded source schedule)
      (o.run source schedule) := by
  have first := followsFirst schedule source (p := o.findPrimary) rfl (fun x e => o.discovers x e)
    fun x _ (ready : x.Ready _) => And.intro ready.apart ready.noExtraRelations
  refine .afterNote _ (.afterNote _ (first.bind fun survey => ?_))
  have raised := followsWalk fun x both =>
    Extract.parentsCarry both.1 both.2 survey.memberships.upward
  refine raised.bind fun _ => (followsNote _).bind fun _ => ?_
  have completed := followsLater schedule source .onlyWays fun x e => (wayCompletes x e).carriesBoth
  refine completed.bind fun _ => (followsNote _).bind fun _ => ?_
  exact followsWrite schedule source fun x e => (Extract.completesWrite x e).carriesBoth

def Holds (s : Strategy) (x : Extract) : Prop :=
  match s with
  | systems _ => x.Apart
  | firstNode _ => x.Apart ∧ x.NoExtraRelations

theorem follows (s : Strategy) (source : Source) (schedule : Schedule) :
    Follows s.Holds Fresh (s.recorded source schedule) (s.steps source schedule) := by
  cases s with
  | systems o => exact o.follows source schedule
  | firstNode o => exact o.follows source schedule

theorem holdsStart (s : Strategy) (region : Region) : s.Holds (.start region) := by
  have ready := Extract.readyStart region
  cases s with
  | systems o => exact ready.apart
  | firstNode o => exact ⟨ready.apart, ready.noExtraRelations⟩

theorem recordKeeps (s : Strategy) (source : Source) (regions : List Region)
    (schedule : Schedule) : ∃ more,
    let start : Moment := ⟨none, regions.map .start⟩
    let outcome := s.run source (regions.map .start) schedule
    s.record source (regions.map .start) schedule = (outcome, start :: more) ∧
      Keeps s.Holds (start :: more) outcome.session.extracts := by
  have started (x : Extract) (mem : x ∈ regions.map .start) : ∃ region, .start region = x := by
    obtain ⟨region, _, same⟩ := List.mem_map.mp mem
    exact ⟨region, same⟩
  rw [record, run]
  cases s.checkSource source with
  | error fault =>
    refine ⟨[], rfl, keepsStart fun x mem => ?_⟩
    obtain ⟨region, rfl⟩ := started x mem
    exact s.holdsStart region
  | ok =>
    obtain ⟨result, after, more, plain, noted, keeps⟩ :=
      s.follows source schedule (.start (regions.map .start)) [⟨none, regions.map .start⟩] <| by
        refine ⟨rfl, fun x mem => ?_⟩
        obtain ⟨region, rfl⟩ := started x mem
        exact Extract.readyStart region
    refine ⟨more, ?_, ?_⟩
    · simp only [Step.outcome, plain, noted]
      rfl
    · simp only [Step.outcome, plain]
      exact keeps

/-- A run with its record is the plain run. The record goes from the fresh extracts to those that the run
ends with, also if it fails. Between any two moments extracts only grow, and those that have met a relation
get no further primary nodes or ways. -/
theorem momentsHold (s : Strategy) (source : Source) (regions : List Region)
    (schedule : Schedule) :
    let fresh := regions.map Extract.start
    let (outcome, record) := s.record source fresh schedule
    outcome = s.run source fresh schedule ∧ record.head? = some ⟨none, fresh⟩ ∧
      record.getLast?.map Moment.extracts = some outcome.session.extracts ∧
      record.Pairwise (fun m n => m.Before n.extracts) ∧
      ∀ m ∈ record, ∀ x ∈ m.extracts, x.Apart ∧
        (s.name = FirstNodeOptions.name → x.NoExtraRelations) := by
  obtain ⟨more, same, keeps⟩ := s.recordKeeps source regions schedule
  simp only [same]
  refine ⟨trivial, rfl, keeps.last, keeps.pairs, fun m mem x here => ?_⟩
  have holds := keeps.each m mem x here
  cases s with
  | systems o =>
    have other : SystemOptions.name ≠ FirstNodeOptions.name := by decide
    exact ⟨holds, fun named => absurd named other⟩
  | firstNode o => exact ⟨holds.1, fun _ => holds.2⟩

end Strategy
end Cutout
