import Cutout.Proofs.Hooks
import Cutout.Proofs.Runs
/-! What a run that goes through has written, whatever its source hands out in which read. All steps but the
last pass leave what has been written as it is, and that pass goes over one read of the whole source. -/
namespace Cutout

namespace Step
variable {α β σ : Type}

def Frames (step : Step α) : Prop :=
  ∀ s, (step.run.run s).2.extracts.map Extract.frame = s.extracts.map Extract.frame

theorem Frames.bind {step : Step α} {next : α → Step β} (first : step.Frames)
    (rest : ∀ a, (next a).Frames) : (step >>= next).Frames := by
  intro s
  have kept := first s
  rw [ExceptT.run_bind, StateT.run_bind]
  cases ran : step.run.run s with
  | mk result between =>
    rw [ran] at kept
    cases result with
    | error fault => exact kept
    | ok a => exact (rest a between).trans kept

theorem framesPure (a : α) : (pure a : Step α).Frames := fun _ => rfl

theorem framesNote (n : Note) : (note n).Frames := fun _ => rfl

theorem framesExtracts : extracts.Frames := fun _ => rfl

theorem framesAll {f : Extract → Extract} (keeps : ∀ x : Extract, (f x).frame = x.frame)
    (xs : List Extract) : (xs.map f).map Extract.frame = xs.map Extract.frame := by
  rw [List.map_map]
  exact List.map_congr_left fun x _ => keeps x

theorem framesUpdate {f : Extract → Extract} (keeps : ∀ x : Extract, (f x).frame = x.frame) :
    (updateExtracts f).Frames := fun s => framesAll keeps s.extracts

theorem framesPass (schedule : Schedule) {p : Pass σ} (start : σ) (source : Source)
    (keeps : ∀ x e, (p.visit x e).frame = x.frame) : (pass schedule p start source).Frames := by
  intro s
  obtain ⟨seen, _, _, ends⟩ := p.overScanSeen (source.scan s.scans.length p.kinds p.metadata) start
  rw [runPass]
  dsimp only
  rw [ends]
  exact framesAll (fun x => Extract.foldKeeps keeps seen x) s.extracts

/-- The step goes through only if the scan does, and all its elements have been offered to extracts with the
regions, and with what has been written, of before. -/
def Writes (step : Step Unit) (scan : Scan) : Prop :=
  ∀ s t, step.run.run s = (.ok (), t) → scan.ending = .ok () ∧ t.Shares scan.batches ∧
    ∃ before : List Extract, before.map Extract.frame = s.extracts.map Extract.frame ∧
      t.extracts = before.map (scan.batches.flatten.foldl Extract.writeIncluded)

theorem Writes.after {step : Step α} {next : α → Step Unit} {scan : Scan}
    (first : step.Frames) (rest : ∀ a, (next a).Writes scan) : (step >>= next).Writes scan := by
  intro s t ran
  have kept := first s
  rw [ExceptT.run_bind, StateT.run_bind] at ran
  cases now : step.run.run s with
  | mk result between =>
    rw [now] at ran kept
    cases result with
    | error fault => cases ran
    | ok a =>
      obtain ⟨ends, shares, before, frames, written⟩ := rest a between t ran
      exact ⟨ends, shares, before, frames.trans kept, written⟩

theorem Writes.note {step : Step Unit} {scan : Scan} (writes : step.Writes scan) (n : Note) :
    (step >>= fun _ => note n).Writes scan := by
  intro s t ran
  rw [ExceptT.run_bind, StateT.run_bind] at ran
  cases now : step.run.run s with
  | mk result between =>
    rw [now] at ran
    cases result with
    | error fault => cases ran
    | ok =>
      cases ran
      exact writes s between now

theorem writesAll (schedule : Schedule) {source : Source} (rereadable : source.rereadable = true) :
    (write schedule source).Writes (source.read .all true) := by
  intro s t ran
  rw [runWrite, runPass] at ran
  dsimp only at ran
  rw [source.scanRereadable rereadable, source.scanRereadable rereadable] at ran
  obtain ⟨succeeds, rfl⟩ := Prod.mk.inj ran
  have passed := Pass.write.overScanPassed (Pass.write.observedOfResult succeeds)
    (schedule s.scans.length) s.extracts
  have extracts := congrArg Prod.fst passed
  refine ⟨?_, ?_, s.extracts, rfl, extracts⟩
  · rw [passed] at succeeds
    cases ending : (source.read .all true).ending with
    | ok => rfl
    | error fault =>
      have fails : (source.read Pass.write.kinds Pass.write.metadata).ending = .error fault := ending
      rw [fails] at succeeds
      cases succeeds
  · unfold Session.Shares
    rw [extracts]
    simp only [List.map_map, Function.comp_def, Pass.write, Pass.stateless,
      Extract.selectedFoldWrite]

end Step

namespace Strategy
open Step
variable {source : Source} (rereadable : source.rereadable = true) (schedule : Schedule)

theorem firstPassFrame (s : Strategy) (x : Extract) (e : Element) :
    (s.firstPass.visit x e).frame = x.frame := by
  cases s with
  | systems o =>
    cases e with
    | node n => exact frameFindNode
    | way w => exact SystemOptions.frameFindWay
    | relation r => exact SystemOptions.frameFindRelation
  | firstNode o =>
    cases e with
    | node n => exact frameFindNode
    | way w => exact FirstNodeOptions.frameFindWay
    | relation r => exact FirstNodeOptions.frameFindRelation

theorem SystemOptions.baseSystem (o : SystemOptions) (x : Extract) (e : Element) :
    (o.completeSystem x e).base = x.base := by
  cases e with
  | node n => rfl
  | way w => rfl
  | relation r => exact o.baseCompleteSystem

theorem SystemOptions.baseExtraWay (x : Extract) (e : Element) :
    (completeExtraWay x e).base = x.base := by
  cases e with
  | node n => rfl
  | way w => exact baseCompleteExtraWay
  | relation r => rfl

theorem FirstNodeOptions.baseWay (x : Extract) (e : Element) : (completeWay x e).base = x.base := by
  cases e with
  | node n => rfl
  | way w => exact baseCompleteWay
  | relation r => rfl

theorem SystemOptions.framesIfAny (kind : Kind) (number : Nat) (kinds : Kinds)
    {visit : Extract → Element → Extract} (keeps : ∀ x e, (visit x e).frame = x.frame) :
    (passIfAny kind number (.stateless kinds false visit) source schedule).Frames := by
  refine framesExtracts.bind fun xs => ?_
  split
  · refine (framesNote _).bind fun _ => ?_
    exact (framesPass schedule () source keeps).bind fun _ => framesNote _
  · exact framesPure ()

include rereadable

theorem SystemOptions.writes (o : SystemOptions) :
    (o.run source schedule).Writes (source.read .all true) := by
  have first := framesPass schedule Survey.start source (firstPassFrame (.systems o))
  refine .after (framesNote _) fun _ => .after (framesNote _) fun _ => .after first fun survey => ?_
  refine .after (framesNote _) fun _ => .after (framesUpdate fun _ => rfl) fun _ => ?_
  refine .after (framesIfAny schedule .relation 2 .onlyRelations fun x e => ?_) fun _ => ?_
  · exact Extract.frameOfBase (o.baseSystem x e)
  refine .after (framesIfAny schedule .way 3 .onlyWays fun x e => ?_) fun _ => ?_
  · exact Extract.frameOfBase (baseExtraWay x e)
  exact .after (framesNote _) fun _ => (writesAll schedule rereadable).note _

theorem FirstNodeOptions.writes (o : FirstNodeOptions) :
    (o.run source schedule).Writes (source.read .all true) := by
  have first := framesPass schedule Survey.start source (firstPassFrame (.firstNode o))
  refine .after (framesNote _) fun _ => .after (framesNote _) fun _ => .after first fun survey => ?_
  refine .after (framesUpdate fun _ => rfl) fun _ => .after (framesNote _) fun _ => ?_
  refine .after (framesPass schedule () source fun x e => ?_) fun _ => ?_
  · exact Extract.frameOfBase (baseWay x e)
  exact .after (framesNote _) fun _ => writesAll schedule rereadable

theorem stepsWrite (s : Strategy) : (s.steps source schedule).Writes (source.read .all true) := by
  cases s with
  | systems o => exact o.writes rereadable schedule
  | firstNode o => exact o.writes rereadable schedule

theorem runWrites (s : Strategy) (regions : List Region)
    (succeeds : (s.run source (regions.map .start) schedule).result = .ok ()) :
    let session := (s.run source (regions.map .start) schedule).session
    (source.read .all true).ending = .ok () ∧ session.Shares (source.read .all true).batches ∧
      session.extracts.map Extract.region = regions ∧
      ∀ x ∈ session.extracts,
        x.written.toList = x.selected (source.read .all true).batches.flatten := by
  rw [s.runSteps rereadable] at succeeds ⊢
  intro session
  have ran : (s.steps source schedule).run.run (.start (regions.map .start)) = (.ok (), session) :=
    Prod.ext succeeds rfl
  obtain ⟨ends, shares, before, frames, written⟩ := s.stepsWrite rereadable schedule _ _ ran
  refine ⟨ends, shares, ?_, fun x mem => ?_⟩
  · have kept : session.extracts.map Extract.region = before.map Extract.region := by
      rw [written, List.map_map]
      refine List.map_congr_left fun y _ => ?_
      rw [Function.comp_apply, Extract.foldWrite]
    have started : before.map Extract.region = (regions.map Extract.start).map Extract.region := by
      have same := congrArg (List.map Prod.fst) frames
      rw [List.map_map, List.map_map] at same
      exact same
    rw [kept, started, List.map_map]
    exact List.map_id regions
  · rw [written, List.mem_map] at mem
    obtain ⟨y, fresh, rfl⟩ := mem
    have frame : y.frame ∈ (regions.map Extract.start).map Extract.frame :=
      frames ▸ List.mem_map_of_mem fresh
    simp only [List.map_map, List.mem_map, Function.comp_apply] at frame
    obtain ⟨region, _, same⟩ := frame
    have none : y.written = #[] := congrArg Prod.snd same.symm
    exact Extract.writtenFoldWrite none _

end Strategy
end Cutout
