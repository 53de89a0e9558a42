import Cutout.Extract
import Cutout.InputOrder
import Cutout.Note
/-! Passes over the input. A pass keeps a state of its own, fed with every element once, and updates
every extract with every element. A batch is first fed to the state; if that fails, no extract sees
anything of the batch. The extracts take in a batch side by side, in turns that a schedule sets. -/
namespace Cutout

structure Scan where
  batches : List (List Element)
  ending : Except Fault Unit
  notes : List Note
  deriving Repr

structure Source where
  name : String
  rereadable : Bool
  size : Nat
  read : Kinds → Bool → Scan

namespace Source

def scan (s : Source) (earlier : Nat) (kinds : Kinds) (metadata : Bool) : Scan :=
  if !s.rereadable && earlier ≠ 0 then ⟨[], .error .inputConsumed, []⟩ else s.read kinds metadata

end Source

structure Worker where
  extract : Extract
  ahead : List Element

namespace Worker

def turn (visit : Extract → Element → Extract) : Worker → Worker
  | ⟨x, []⟩ => ⟨x, []⟩
  | ⟨x, e :: rest⟩ => ⟨visit x e, rest⟩

def finish (visit : Extract → Element → Extract) (w : Worker) : Extract :=
  w.ahead.foldl visit w.extract

end Worker

/-- Whose turn it is, by positions of extracts, for each batch of a scan, and for each scan. A turn
of an extract that has seen the batch does nothing; what the turns leave is seen at the end. -/
abbrev Schedule := Nat → Nat → List Nat

def Schedule.oneByOne : Schedule := fun _ _ => []

structure Pass (σ : Type) where
  kinds : Kinds
  metadata : Bool
  observe : σ → Element → Except Fault σ
  visit : Extract → Element → Extract

namespace Pass

def overBatch {σ : Type} (p : Pass σ) (turns : List Nat) (batch : List Element)
    (xs : List Extract) : List Extract :=
  let workers := xs.map fun x => Worker.mk x batch
  let workers := turns.foldl (fun ws i => ws.modify i (Worker.turn p.visit)) workers
  workers.map (Worker.finish p.visit)

/-- Runs a pass over batches. The extracts are as the last complete batch left them. -/
def overBatches {σ : Type} (p : Pass σ) :
    (Nat → List Nat) → List (List Element) → σ → List Extract → List Extract × Except Fault σ
  | _, [], s, xs => (xs, .ok s)
  | turns, batch :: rest, s, xs =>
    match batch.foldlM p.observe s with
    | .error fault => (xs, .error fault)
    | .ok s => p.overBatches (fun n => turns (n + 1)) rest s (p.overBatch (turns 0) batch xs)

def overScan {σ : Type} (p : Pass σ) (turns : Nat → List Nat) (scan : Scan) (s : σ)
    (xs : List Extract) : List Extract × Except Fault σ :=
  match p.overBatches turns scan.batches s xs with
  | (xs, .error fault) => (xs, .error fault)
  | (xs, .ok s) => (xs, scan.ending.map fun _ => s)

def stateless (kinds : Kinds) (metadata : Bool) (visit : Extract → Element → Extract) : Pass Unit :=
  { kinds, metadata, observe := fun _ _ => .ok (), visit }

def write : Pass Unit := stateless .all true Extract.writeIncluded

def rounds : (Nat → List Nat) → List (List Element) → List Extract → List (List (List Element))
  | _, [], _ => []
  | turns, batch :: rest, xs =>
    let after := write.overBatch (turns 0) batch xs
    List.zipWith Extract.since after xs :: rounds (fun n => turns (n + 1)) rest after

end Pass

structure Session where
  extracts : List Extract
  scans : List Kinds
  notes : List Note
  rounds : List (List (List Element))
  told : List Note

def Session.start (extracts : List Extract) : Session := ⟨extracts, [], [], [], []⟩

abbrev Step := ExceptT Fault (StateM Session)

namespace Step

def note (n : Note) : Step Unit := modify fun s => { s with notes := s.notes ++ [n] }

def extracts : Step (List Extract) := do return (← get).extracts

def updateExtracts (f : Extract → Extract) : Step Unit :=
  modify fun s => { s with extracts := s.extracts.map f }

def pass {σ : Type} (schedule : Schedule) (p : Pass σ) (start : σ) (source : Source) :
    Step σ := do
  let s ← get
  let earlier := s.scans.length
  let scan := source.scan earlier p.kinds p.metadata
  let (extracts, result) := p.overScan (schedule earlier) scan start s.extracts
  set { s with extracts, scans := s.scans ++ [p.kinds], notes := s.notes ++ scan.notes }
  liftExcept result
where
  liftExcept (r : Except Fault σ) : Step σ := ExceptT.mk (pure r)

def write (schedule : Schedule) (source : Source) : Step Unit := do
  let s ← get
  let earlier := s.scans.length
  let scan := source.scan earlier Pass.write.kinds Pass.write.metadata
  let rounds := Pass.rounds (schedule earlier) scan.batches s.extracts
  set { s with rounds, told := s.notes ++ scan.notes }
  pass schedule .write () source

end Step

structure Outcome where
  session : Session
  result : Except Fault Unit

def Step.outcome (step : Step Unit) (extracts : List Extract) : Outcome :=
  let (result, session) := step.run.run (.start extracts)
  ⟨session, result⟩

end Cutout
