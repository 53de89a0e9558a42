import Cutout.Config
import Cutout.Extract
import Cutout.Files
import Cutout.Note
import Cutout.Sink
/-! Where an extract goes and what it takes in: an entry of the configuration with its boundary
loaded and its output made. -/
namespace Cutout

structure OutputSettings where
  directory : Option Path
  overwrite : Bool
  clean : List MetaAttribute
  deriving DecidableEq, Repr

structure Target where
  output : Path
  place : Option Place
  format : OutputFormat
  description : String
  boundary : Boundary
  conflicting : TagRules
  matching : TagRules
  clean : List MetaAttribute

structure Tally where
  nodes : Nat
  ways : Nat
  relations : Nat
  deriving DecidableEq, Repr

namespace Tally

def count (t : Tally) (e : Element) : Tally :=
  match e.kind with
  | .node => { t with nodes := t.nodes + 1 }
  | .way => { t with ways := t.ways + 1 }
  | .relation => { t with relations := t.relations + 1 }

def ofElements (elements : List Element) : Tally := elements.foldl count ⟨0, 0, 0⟩

end Tally

namespace Target

def formatOf (e : Entry) (output : Path) : Except Fault OutputFormat :=
  match e.format.orElse fun _ => OutputFormat.ofPath output with
  | some format => .ok format
  | none => .error (.unknownFormat output)

def boundarySpecOf (e : Entry) : Except Fault BoundarySpec :=
  match e.boundarySpec with
  | .ok spec => .ok spec
  | .error cause => .error (.badBoundary cause)

def loadBoundary (c : Config) (files : Files) (output : Path) (spec : BoundarySpec) :
    Except Fault Boundary :=
  match Boundary.ofSpec spec c.resolve fun path => (files.fileAt path).bind Content.toText? with
  | .ok boundary => .ok boundary
  | .error cause => .error (.boundaryNotLoaded output cause)

def makeOutput (files : Files) (output : Path) (overwrite : Bool) :
    Except Fault (Option Place × Files) :=
  if output.isDash then .ok (none, files)
  else do
    let (place, files) ← files.create output overwrite
    return (some place, files)

def prepare (c : Config) (s : OutputSettings) (files : Files) (e : Entry) :
    Except Fault (Target × Files) := do
  let output := c.outputPath e s.directory
  let format ← formatOf e output
  let boundary ← loadBoundary c files output (← boundarySpecOf e)
  let (place, files) ← makeOutput files output s.overwrite
  let target : Target := {
    output, place, format, boundary
    description := e.description.getD ""
    conflicting := .parse (e.conflicting.getD "") Region.separator
    matching := .parse (e.matching.getD "") Region.separator
    clean := s.clean }
  return (target, files)

def region (t : Target) : Region := .ofRules t.boundary.contains t.conflicting t.matching

def sink (t : Target) : Sink := .start t.format (some t.boundary.envelope) t.clean

def opening (t : Target) : List String := t.format.opening (some t.boundary.envelope)

def pieces (t : Target) (e : Element) : List String := t.format.element Sink.depth t.clean e

def document (t : Target) (elements : List Element) : String :=
  Sink.document t.format (some t.boundary.envelope) t.clean elements

def summary (t : Target) : Note :=
  .info <| s!"Extract {t.output.quoted} ({t.format.label}): {t.description} " ++
    s!"{t.boundary.geometryType} {t.boundary.envelopeText}; " ++
    s!"conflicting tags [{t.conflicting.text}], matching tags [{t.matching.text}]"

def written (t : Target) (n : Tally) : Note :=
  .info <| s!"Wrote {n.nodes} nodes, {n.ways} ways, {n.relations} relations to " ++ t.output.quoted

end Target
end Cutout
