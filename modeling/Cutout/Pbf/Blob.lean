import Cutout.Pbf.Wire
import Cutout.Zlib
/-! The outer layer of a PBF file: one blob after the other, each behind a header with its type and
size. Data are stored as they are or as a zlib stream; other packings are not read. -/
namespace Cutout.Pbf

inductive Packing where
  | raw (bytes : ByteArray)
  | zlib (bytes : ByteArray)
  | other

structure Blob where
  kind : String
  packing : Packing

def maxHeaderSize : Nat := 65536

def maxDataSize : Nat := 32 * 1024 * 1024

def bigEndian32 (b : ByteArray) (pos : Nat) : Option Nat := do
  let a ← byteAt b pos
  let b' ← byteAt b (pos + 1)
  let c ← byteAt b (pos + 2)
  let d ← byteAt b (pos + 3)
  return ((a * 256 + b') * 256 + c) * 256 + d

inductive Next where
  | stop
  | broken
  | blob (blob : Blob) (pos : Nat)

def headerShapes : Shapes := [(1, .text), (2, .bytes), (3, .number .int32)]

def readHeader (b : ByteArray) : Option (String × Option Nat) := do
  let m ← fields headerShapes (.outermost b)
  let size ← m.number? 3
  return (← (m.texts 1).getLast?, if size < 0 then none else some size.toNat)

def blobShapes : Shapes :=
  [(1, .bytes), (2, .number .int32), (3, .bytes), (4, .bytes), (5, .bytes), (6, .bytes),
    (7, .bytes)]

def Packing.ofMessage (m : Message) : Packing :=
  m.foldl (fun last field => match field with
    | (1, .bytes b) => raw b
    | (3, .bytes b) => zlib b
    | (_, .bytes _) => other
    | _ => last) other

def readPacking (b : ByteArray) : Option Packing := do
  return .ofMessage (← fields blobShapes (.outermost b))

/-- Reads the blob at a position. Fewer than four bytes are a clean end; a header or data cut off at
the end of the file are read as far as they go. -/
def nextBlob (b : ByteArray) (pos : Nat) : Next :=
  match bigEndian32 b pos with
  | none => .stop
  | some headerSize =>
    if maxHeaderSize ≤ headerSize then .broken
    else
      match readHeader (b.extract (pos + 4) (pos + 4 + headerSize)) with
      | none => .broken
      | some (kind, dataSize) =>
        let start := min (pos + 4 + headerSize) b.size
        let stop := match dataSize with
          | some size => min (start + size) b.size
          | none => b.size
        match readPacking (b.extract start stop) with
        | none => .broken
        | some packing => .blob ⟨kind, packing⟩ stop

def blobsFrom (b : ByteArray) : Nat → Nat → List Blob × Bool
  | 0, _ => ([], true)
  | n + 1, pos =>
    match nextBlob b pos with
    | .stop => ([], false)
    | .broken => ([], true)
    | .blob blob next =>
      let (rest, broken) := blobsFrom b n next
      (blob :: rest, broken)

def blobs (b : ByteArray) : List Blob × Bool := blobsFrom b (b.size + 1) 0

def Blob.data (blob : Blob) : Option ByteArray :=
  match blob.packing with
  | .raw bytes => if bytes.size < maxDataSize then some bytes else none
  | .zlib bytes => do
    let data ← Zlib.decompress bytes
    if data.size ≤ maxDataSize then some data else none
  | .other => none

end Cutout.Pbf
