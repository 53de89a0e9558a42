import Cutout.Element
import Cutout.IdSet
import Cutout.Path
/-! What can go wrong, and how it is told. A fault may rest on another one; `chain` lists the texts
from the outermost to the innermost. Texts of the operating system are not held. -/
namespace Cutout

inductive BoundaryFault where
  | notExactlyOne
  | bboxLength
  | bboxInverted
  | noOuterRing
  | shortRing
  | notPairs
  deriving DecidableEq, Repr

def BoundaryFault.message : BoundaryFault → String
  | notExactlyOne => "exactly one of 'bbox', 'polygon' or 'geojson' must be given"
  | bboxLength => "'bbox' needs four values: min_lon, min_lat, max_lon, max_lat"
  | bboxInverted => "'bbox' minimum is larger than its maximum"
  | noOuterRing => "'polygon' needs at least an outer ring"
  | shortRing => "polygon rings need at least three positions"
  | notPairs => "polygon positions must be [lon, lat] pairs"

inductive Fault where
  | configUnreadable (path : Path)
  | configInvalid (path : Path)
  | noExtracts
  | badExtract (number : Nat) (output : Path) (cause : BoundaryFault)
  | badBoundary (cause : BoundaryFault)
  | noSuchIndex (length index : Nat)
  | areaEmpty
  | areaWithoutRing
  | geojsonUnreadable (path : Path)
  | geojsonInvalid (path : Path)
  | geojsonUnsupported (path : Path)
  | geojsonWithoutPolygon (path : Path)
  | unknownFormat (output : Path)
  | boundaryNotLoaded (output : Path) (cause : Fault)
  | outputExists (path : Path)
  | directoryNotCreated (path : Path)
  | outputNotCreated (path : Path)
  | outputNotWritten (output : Path)
  | outputNotFinished (output : Path)
  | outputNotClosed (output : Path) (cause : Fault)
  | inputNotOpened (path : Path)
  | blobUnreadable
  | blobUndecodable
  | decoderStopped
  | inputConsumed
  | idOutOfRange (kind : Kind) (id : Int)
  | kindsOutOfOrder (kind : Kind) (id : Int) (lastKind : Kind) (lastId : Int)
  | idsOutOfOrder (kind : Kind) (id lastId : Int)
  | unknownStrategy (name : String) (available : List String)
  | notRereadable (strategy : String)
  | unknownAttribute (text : String)
  deriving DecidableEq, Repr

namespace Fault

def message : Fault → String
  | configUnreadable path => s!"Config: Failed to read {path.quoted}"
  | configInvalid path => s!"Config: Invalid extracts config {path.quoted}"
  | noExtracts => "Config: No extracts defined"
  | badExtract number output _ => s!"Config: Extract #{number} ({output.quoted})"
  | badBoundary cause => cause.message
  | noSuchIndex length index =>
    s!"index out of bounds: the len is {length} but the index is {index}"
  | areaEmpty => "Boundary: Polygon has no coordinates"
  | areaWithoutRing => "Boundary: Polygon needs an outer ring"
  | geojsonUnreadable path => s!"Boundary: Failed to read {path.quoted}"
  | geojsonInvalid path => s!"Boundary: Invalid GeoJSON in {path.quoted}"
  | geojsonUnsupported path => s!"Boundary: Unsupported GeoJSON in {path.quoted}"
  | geojsonWithoutPolygon path => s!"Boundary: No (multi)polygon found in {path.quoted}"
  | unknownFormat output =>
    s!"Extract: Could not detect output format of {output.quoted}; set 'output_format'"
  | boundaryNotLoaded output _ => s!"Extract: Failed to load boundary for {output.quoted}"
  | outputExists path =>
    s!"Sink: Output file {path.quoted} already exists; use --overwrite to replace it"
  | directoryNotCreated path => s!"Sink: Failed to create directory {path.quoted}"
  | outputNotCreated path => s!"Sink: Failed to create {path.quoted}"
  | outputNotWritten output => s!"Extract: Failed writing to {output.quoted}"
  | outputNotFinished output => s!"Extract: Failed to finish {output.quoted}"
  | outputNotClosed output _ => "Extract: Failed to close " ++ output.text
  | inputNotOpened path => s!"Source: Failed to open input file {path.quoted}"
  | blobUnreadable => "Source: Failed to read blob"
  | blobUndecodable => "Source: Failed to decode blob"
  | decoderStopped => "Source: Decoder thread panicked"
  | inputConsumed => "Source: Standard input can only be read once"
  | idOutOfRange kind id =>
    s!"Input: {kind.label} id {id} is out of range (at most {maxId} supported)"
  | kindsOutOfOrder kind id lastKind lastId =>
    s!"Input: {kind.label} {id} follows {lastKind.label} {lastId}; " ++
      "the input must be sorted by type, then id"
  | idsOutOfOrder kind id lastId =>
    s!"Input: {kind.label} ids are not ordered ({id} follows {lastId}); " ++
      "the input must be sorted by type, then id"
  | unknownStrategy name available =>
    let names := ", ".intercalate available
    s!"Strategy: Unknown strategy '{name}' (available: {names})"
  | notRereadable strategy => s!"Can not read from STDIN when using '{strategy}' strategy."
  | unknownAttribute text => s!"invalid attribute to clean: {text}"

def chain : Fault → List String
  | boundaryNotLoaded output cause => (boundaryNotLoaded output cause).message :: cause.chain
  | outputNotClosed output cause => (outputNotClosed output cause).message :: cause.chain
  | badExtract number output cause => [(badExtract number output cause).message, cause.message]
  | fault => [fault.message]

def text (f : Fault) : String :=
  "Error: " ++ "\n\nCaused by:\n    ".intercalate f.chain

end Fault
end Cutout
