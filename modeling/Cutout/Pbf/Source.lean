import Cutout.Pass
import Cutout.Pbf.Blob
import Cutout.Pbf.Block
/-! PBF files as sources: one batch for each block with wanted elements. -/
namespace Cutout.Pbf

inductive Piece where
  | header (sorted : Bool)
  | unknown (kind : String)
  | data (batch : List Element)
  | failed (fault : Fault)
  deriving Repr

def Piece.ofBlock (kinds : Kinds) (metadata : Bool) (block : Block) : Piece :=
  match block.elements? kinds metadata with
  | some batch => data batch
  | none => failed .decoderStopped

def Piece.ofBlob (kinds : Kinds) (metadata : Bool) (blob : Blob) : Piece :=
  if blob.kind = "OSMHeader" then
    match blob.data.bind readFeatures with
    | some features => header (declaresOrder features)
    | none => failed .blobUndecodable
  else if blob.kind = "OSMData" then
    match blob.data.bind readBlock with
    | some block => .ofBlock kinds metadata block
    | none => failed .blobUndecodable
  else unknown blob.kind

def pieces (content : ByteArray) (kinds : Kinds) (metadata : Bool) : List Piece :=
  let (blobs, broken) := blobs content
  blobs.map (.ofBlob kinds metadata) ++ if broken then [.failed .blobUnreadable] else []

def scanPieces : List Piece → Scan
  | [] => ⟨[], .ok (), []⟩
  | .failed fault :: _ => ⟨[], .error fault, []⟩
  | .header sorted :: rest =>
    let scan := scanPieces rest
    if sorted then { scan with notes := .info "Input declares Sort.Type_then_ID" :: scan.notes }
    else scan
  | .unknown kind :: rest =>
    let scan := scanPieces rest
    { scan with notes := .info s!"Unknown blob: {kind}" :: scan.notes }
  | .data batch :: rest =>
    let scan := scanPieces rest
    if batch.isEmpty then scan else { scan with batches := batch :: scan.batches }

def scan (content : ByteArray) (kinds : Kinds) (metadata : Bool) : Scan :=
  scanPieces (pieces content kinds metadata)

def source (path : Path) (content : ByteArray) : Source where
  name := if path.isDash || path.isEmpty then "-" else path.text
  rereadable := !(path.isDash || path.isEmpty)
  size := if path.isDash || path.isEmpty then 0 else content.size
  read := scan content

end Cutout.Pbf
