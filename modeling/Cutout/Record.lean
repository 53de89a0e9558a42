import Cutout.Strategy
/-! Runs that keep a record. A moment is noted down at the start, after every turn in which an extract is
shown an element, and whenever an extract has been taken through the relations of the input. -/
namespace Cutout

structure Moment where
  call : Option (Nat × Element)
  extracts : List Extract

namespace Pass
variable {σ : Type}

def nextCall (workers : List Worker) (i : Nat) : Option (Nat × Element) :=
  (workers[i]?.bind fun w => w.ahead.head?).map fun e => (i, e)

def moments (p : Pass σ) : List Worker → List Nat → List Moment
  | _, [] => []
  | workers, i :: turns =>
    let after := workers.modify i (Worker.turn p.visit)
    ⟨nextCall workers i, after.map Worker.extract⟩ :: p.moments after turns

def turnsToEnd (count size : Nat) : List Nat := (List.range count).flatMap (List.replicate size)

def batchMoments (p : Pass σ) (turns : List Nat) (batch : List Element) (xs : List Extract) :
    List Moment :=
  p.moments (xs.map fun x => ⟨x, batch⟩) (turns ++ turnsToEnd xs.length batch.length)

def scanMoments (p : Pass σ) :
    (Nat → List Nat) → List (List Element) → σ → List Extract → List Moment
  | _, [], _, _ => []
  | turns, batch :: rest, s, xs =>
    match batch.foldlM p.observe s with
    | .error _ => []
    | .ok s =>
      p.batchMoments (turns 0) batch xs ++
        p.scanMoments (fun n => turns (n + 1)) rest s (p.overBatch (turns 0) batch xs)

end Pass

abbrev Recorded := ExceptT Fault (StateM (Session × List Moment))

namespace Recorded
variable {α σ : Type}

def of (step : Step α) (moments : Session → List Moment) : Recorded α :=
  ExceptT.mk fun (s, record) =>
    let (result, after) := step.run.run s
    (result, after, record ++ moments s)

def quiet (step : Step α) : Recorded α := of step fun _ => []

def walkMoments (f : Extract → Extract) : List Nat → List Extract → List Moment
  | [], _ => []
  | i :: rest, xs =>
    let after := xs.modify i f
    ⟨none, after⟩ :: walkMoments f rest after

def walk (f : Extract → Extract) : Recorded Unit :=
  of (Step.updateExtracts f) fun s => walkMoments f (List.range s.extracts.length) s.extracts

def passMoments (schedule : Schedule) (p : Pass σ) (start : σ) (source : Source) (s : Session) :
    List Moment :=
  let scan := source.scan s.scans.length p.kinds p.metadata
  p.scanMoments (schedule s.scans.length) scan.batches start s.extracts

def pass (schedule : Schedule) (p : Pass σ) (start : σ) (source : Source) : Recorded σ :=
  of (Step.pass schedule p start source) (passMoments schedule p start source)

def write (schedule : Schedule) (source : Source) : Recorded Unit :=
  of (Step.write schedule source) (passMoments schedule .write () source)

end Recorded

namespace Strategy

namespace SystemOptions

def recordedIfAny (kind : Kind) (number : Nat) (p : Pass Unit) (source : Source)
    (schedule : Schedule) : Recorded Unit := do
  if anyExtra (← Recorded.quiet Step.extracts) kind then
    Recorded.quiet (Step.note (.info s!"Pass {number}..."))
    Recorded.pass schedule p () source
    Recorded.quiet (Step.note (.info s!"Pass {number} done"))

def recorded (o : SystemOptions) (source : Source) (schedule : Schedule) : Recorded Unit := do
  Recorded.quiet (Step.note (.info s!"Running '{name}' strategy in (at most) four passes..."))
  Recorded.quiet (Step.note (.info "Pass 1..."))
  let survey ← Recorded.pass schedule o.findPrimary .start source
  Recorded.quiet (Step.note (.info "Pass 1 done"))
  let graph := survey.memberships.graph
  Recorded.walk fun x => x.addNetwork graph
  recordedIfAny .relation 2 o.completeSystems source schedule
  recordedIfAny .way 3 completeExtraWays source schedule
  Recorded.quiet (Step.note (.info "Pass 4..."))
  Recorded.write schedule source
  Recorded.quiet (Step.note (.info "Pass 4 done"))

end SystemOptions

def FirstNodeOptions.recorded (o : FirstNodeOptions) (source : Source) (schedule : Schedule) :
    Recorded Unit := do
  Recorded.quiet (Step.note (.info s!"Running '{name}' strategy in three passes..."))
  Recorded.quiet (Step.note (.info "First pass (of three)..."))
  let survey ← Recorded.pass schedule o.findPrimary .start source
  let parents := survey.memberships.upward
  Recorded.walk fun x => x.addParents parents
  Recorded.quiet (Step.note (.info "Second pass (of three)..."))
  Recorded.pass schedule completeWays () source
  Recorded.quiet (Step.note (.info "Third pass (of three)..."))
  Recorded.write schedule source

def recorded (s : Strategy) (source : Source) (schedule : Schedule) : Recorded Unit :=
  match s with
  | systems o => o.recorded source schedule
  | firstNode o => o.recorded source schedule

def record (s : Strategy) (source : Source) (extracts : List Extract) (schedule : Schedule) :
    Outcome × List Moment :=
  let start : Moment := ⟨none, extracts⟩
  match s.checkSource source with
  | .error fault => (⟨.start extracts, .error fault⟩, [start])
  | .ok () =>
    let (result, session, moments) :=
      (s.recorded source schedule).run.run (.start extracts, [start])
    (⟨session, result⟩, moments)

end Strategy
end Cutout
