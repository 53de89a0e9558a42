import Cutout.CommandLine
import Cutout.Config.File
import Cutout.Output
import Cutout.Pbf.Source
import Cutout.Strategy
/-! A run from a command line over a file system. Nothing is made before the input and the strategy
are known to fit. A run may fail up to the closing of its last output; then it removes the outputs
that it has made. -/
namespace Cutout

structure Report where
  result : Except Fault Unit
  notes : List Note
  output : String
  files : Files

namespace Run

structure Plan where
  config : Config
  options : Options
  strategy : Strategy
  settings : OutputSettings

def plan (c : CommandLine) (files : Files) : Except Fault (Plan × List Note) := do
  let config ← Config.load files c.config
  let options := Options.merge config.options c.assignments
  let name := (c.strategy.orElse fun _ => config.strategy).getD Strategy.defaultName
  let (strategy, warnings) ← Strategy.create name options
  return (⟨config, options, strategy, ⟨c.directory, c.overwrite, c.clean⟩⟩, warnings)

def directorySize : Nat := 4096

def directorySource (path : Path) : Source where
  name := path.text
  rereadable := true
  size := directorySize
  read := fun _ _ => ⟨[], .error .blobUnreadable, []⟩

def input? (files : Files) (path : Path) : Option Source :=
  if path.isDash || path.isEmpty then some (Pbf.source path .empty)
  else do
    let place ← files.place? path
    match files.get? place with
    | some content => return Pbf.source path content.toBytes
    | none => if files.isDirectory place then return directorySource path else none

def inputNotes (p : Plan) (source : Source) : List Note :=
  .info s!"Input: {source.name} ({source.size} bytes), strategy '{p.strategy.name}'" ::
    if p.options.isEmpty then [] else [.info s!"Strategy options: {p.options.text}"]

structure Opened where
  targets : List Target
  files : Files
  result : Except Fault Unit

def openAll (p : Plan) (files : Files) : List Entry → Opened
  | [] => ⟨[], files, .ok ()⟩
  | e :: rest =>
    match Target.prepare p.config p.settings files e with
    | .error fault => ⟨[], files, .error fault⟩
    | .ok (target, files) =>
      let opened := openAll p files rest
      { opened with targets := target :: opened.targets }

def removeOutputs : List Target → Files → List Note × Files
  | [], files => ([], files)
  | t :: rest, files =>
    match t.place with
    | none => removeOutputs rest files
    | some place =>
      let (notes, left) := removeOutputs rest (files.remove place)
      if files.isFile place then (notes, left)
      else
        (.warn ("Failed to remove partial output " ++ t.output.quoted ++
          ": No such file or directory (os error 2)") :: notes, left)

def fill (m : Medium) (outputs : List Output) (rounds : List (List (List Element)))
    (d : Delivery) : Sent Fault (List Output) :=
  Sent.all (Sent.each (Output.writeAll m)) outputs rounds d

def finish (m : Medium) (outputs : List Output) (d : Delivery) : Sent Fault (List Output) :=
  Sent.each (Output.finish m) outputs (outputs.map fun o => o.target.format.closing) d

def counts (outputs : List Output) : List Note := (outputs.filter Output.finished).map Output.note

/-- The end of a run that failed after its outputs had been made. They are let go as they are, then
removed. -/
def failed (m : Medium) (fault : Fault) (notes : List Note) (outputs : List Output)
    (d : Delivery) : Report :=
  let d := outputs.foldl (fun d o => o.leave m d) d
  let (warnings, files) := removeOutputs (outputs.map Output.target) d.files
  ⟨.error fault, notes ++ warnings, d.stream, files⟩

/-- What comes of a strategy's run: its extracts are written as they grow, and then closed. A fault in
writing comes before what else the run ended with. -/
def conclude (m : Medium) (outcome : Outcome) (notes : List Note) (targets : List Target)
    (files : Files) : Report :=
  let filled := fill m (targets.map .start) outcome.session.rounds (.start files)
  match filled.result with
  | .error fault => failed m fault (notes ++ outcome.session.told) filled.sender filled.delivery
  | .ok () =>
    let notes := notes ++ outcome.session.notes
    match outcome.result with
    | .error fault => failed m fault notes filled.sender filled.delivery
    | .ok () =>
      let closed := finish m filled.sender filled.delivery
      let notes := notes ++ counts closed.sender
      match closed.result with
      | .error fault => failed m fault notes closed.sender closed.delivery
      | .ok () =>
        let done := .info s!"Done! Wrote {targets.length} extracts"
        ⟨.ok (), notes ++ [done], closed.delivery.stream, closed.delivery.files⟩

/-- Makes the outputs and fills them. The input is read as it is once they are made. -/
def extract (m : Medium) (p : Plan) (path : Path) (notes : List Note) (files : Files) : Report :=
  let opened := openAll p files p.config.entries
  let outputs := opened.targets.map Output.start
  let notes := notes ++ opened.targets.map Target.summary
  match opened.result with
  | .error fault => failed m fault notes outputs (.start opened.files)
  | .ok () =>
    match input? opened.files path with
    | none => failed m (.inputNotOpened path) notes outputs (.start opened.files)
    | some source =>
      let outcome := p.strategy.run source (opened.targets.map fun t => .start t.region)
      conclude m outcome (notes ++ p.strategy.arguments) opened.targets opened.files

end Run

def CommandLine.run (c : CommandLine) (files : Files) (m : Medium := .sound) : Report :=
  match Run.plan c files with
  | .error fault => ⟨.error fault, [], "", files⟩
  | .ok (p, warnings) =>
    match Run.input? files c.input with
    | none => ⟨.error (.inputNotOpened c.input), warnings, "", files⟩
    | some source =>
      let notes := warnings ++ Run.inputNotes p source
      match p.strategy.checkSource source with
      | .error fault => ⟨.error fault, notes, "", files⟩
      | .ok () => Run.extract m p c.input notes files

end Cutout
