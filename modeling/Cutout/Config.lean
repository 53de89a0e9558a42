import Cutout.Boundary
import Cutout.OutputFormat
import Cutout.Setting
/-! What to extract, as it is configured: the entries with their outputs and boundaries, and how
paths in a configuration are meant. -/
namespace Cutout

structure Entry where
  output : Path
  format : Option OutputFormat
  description : Option String
  bbox : Option (List Binary64)
  polygon : Option (List (List (List Binary64)))
  geojson : Option Path
  conflicting : Option String
  matching : Option String
  deriving DecidableEq, Repr

structure Config where
  directory : Option Path
  strategy : Option String
  options : List (String × String)
  entries : List Entry
  base : Path
  deriving DecidableEq, Repr

namespace Entry

def boxSpec : List Binary64 → Except BoundaryFault BoundarySpec
  | [west, south, east, north] =>
    if east.lt west || north.lt south then .error .bboxInverted
    else .ok (.bbox west south east north)
  | _ => .error .bboxLength

def checkRing (ring : List (List Binary64)) : Except BoundaryFault Unit :=
  if ring.length < 3 then .error .shortRing
  else if ring.any fun position => position.length ≠ 2 then .error .notPairs
  else .ok ()

def polygonSpec (rings : List (List (List Binary64))) : Except BoundaryFault BoundarySpec :=
  if rings.isEmpty then .error .noOuterRing
  else do
    rings.forM checkRing
    return .polygon rings

def boundarySpec (e : Entry) : Except BoundaryFault BoundarySpec :=
  match e.bbox, e.polygon, e.geojson with
  | some numbers, none, none => boxSpec numbers
  | none, some rings, none => polygonSpec rings
  | none, none, some path => .ok (.geojson path)
  | _, _, _ => .error .notExactlyOne

end Entry

namespace Config

def checkEntries (number : Nat) : List Entry → Except Fault Unit
  | [] => .ok ()
  | e :: rest =>
    match e.boundarySpec with
    | .ok _ => checkEntries (number + 1) rest
    | .error cause => .error (.badExtract number e.output cause)

def validate (c : Config) : Except Fault Unit :=
  if c.entries.isEmpty then .error .noExtracts else checkEntries 1 c.entries

def outputPath (c : Config) (e : Entry) (directory : Option Path) : Path :=
  if e.output.isAbsolute || e.output.isDash then e.output
  else
    match directory.orElse fun _ => c.directory with
    | some d => d.join e.output
    | none => e.output

def resolve (c : Config) (path : Path) : Path :=
  if path.isAbsolute then path else c.base.join path

end Config
end Cutout
