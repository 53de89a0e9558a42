/-! Reader of zlib streams (RFC 1950) of deflate blocks (RFC 1951). A stream is read to its end and
its checksum is compared; bytes behind it do not count. Preset dictionaries are not held. -/
namespace Cutout.Zlib

abbrev Cursor := Nat

def bit (b : ByteArray) (pos : Cursor) : Option Nat :=
  (b.data[pos / 8]?).map fun byte => byte.toNat >>> (pos % 8) % 2

def bits (b : ByteArray) : Nat → Cursor → Option (Nat × Cursor)
  | 0, pos => some (0, pos)
  | n + 1, pos => do
    let low ← bit b pos
    let (high, next) ← bits b n (pos + 1)
    return (low + 2 * high, next)

def maxLength : Nat := 15

/-- A canonical prefix code: how many codes there are of each length, and the symbols in the order
of their codes. -/
structure Code where
  counts : Array Nat
  symbols : Array Nat

def leftOver (counts : Array Nat) : Nat → Nat → Nat → Option Nat
  | 0, _, left => some left
  | n + 1, length, left =>
    let count := counts.getD length 0
    if 2 * left < count then none else leftOver counts n (length + 1) (2 * left - count)

/-- The code with the given length for each symbol; zero for symbols that do not occur. A code must
be complete unless it has no symbols or a single one of one bit. -/
def Code.ofLengths (lengths : List Nat) : Option Code := do
  let counts := (List.range (maxLength + 1)).map fun n =>
    if n = 0 then 0 else lengths.count n
  let symbols := (List.range maxLength).flatMap fun n =>
    (lengths.zipIdx.filter fun entry => entry.1 = n + 1).map (·.2)
  let left ← leftOver counts.toArray maxLength 1 1
  if left = 0 ∨ symbols.isEmpty ∨ (symbols.length = 1 ∧ lengths.contains 1) then
    return ⟨counts.toArray, symbols.toArray⟩
  else none

def Code.isComplete (c : Code) : Bool := leftOver c.counts maxLength 1 1 == some 0

def symbolFrom (b : ByteArray) (c : Code) : Nat → Nat → Nat → Nat → Nat → Cursor →
    Option (Nat × Cursor)
  | 0, _, _, _, _, _ => none
  | n + 1, length, code, first, index, pos => do
    let code := code + (← bit b pos)
    let count := c.counts.getD length 0
    if code < first + count then
      let symbol ← c.symbols[index + (code - first)]?
      return (symbol, pos + 1)
    else symbolFrom b c n (length + 1) (2 * code) (2 * (first + count)) (index + count) (pos + 1)

def symbol (b : ByteArray) (c : Code) (pos : Cursor) : Option (Nat × Cursor) :=
  symbolFrom b c maxLength 1 0 0 0 pos

def lengthBases : Array Nat :=
  #[3, 4, 5, 6, 7, 8, 9, 10, 11, 13, 15, 17, 19, 23, 27, 31, 35, 43, 51, 59, 67, 83, 99, 115, 131,
    163, 195, 227, 258]

def lengthExtras : Array Nat :=
  #[0, 0, 0, 0, 0, 0, 0, 0, 1, 1, 1, 1, 2, 2, 2, 2, 3, 3, 3, 3, 4, 4, 4, 4, 5, 5, 5, 5, 0]

def distanceBases : Array Nat :=
  #[1, 2, 3, 4, 5, 7, 9, 13, 17, 25, 33, 49, 65, 97, 129, 193, 257, 385, 513, 769, 1025, 1537, 2049,
    3073, 4097, 6145, 8193, 12289, 16385, 24577]

def distanceExtras : Array Nat :=
  #[0, 0, 0, 0, 1, 1, 2, 2, 3, 3, 4, 4, 5, 5, 6, 6, 7, 7, 8, 8, 9, 9, 10, 10, 11, 11, 12, 12, 13,
    13]

def repeatBack (distance : Nat) : Nat → ByteArray → ByteArray
  | 0, out => out
  | n + 1, out =>
    let byte := if distance ≤ out.size then out.data.getD (out.size - distance) 0 else 0
    repeatBack distance n (out.push byte)

def inflateSymbols (b : ByteArray) (literals distances : Code) : Nat → ByteArray → Cursor →
    Option (ByteArray × Cursor)
  | 0, _, _ => none
  | n + 1, out, pos => do
    let (s, pos) ← symbol b literals pos
    if s < 256 then inflateSymbols b literals distances n (out.push (UInt8.ofNat s)) pos
    else if s = 256 then return (out, pos)
    else
      let (extra, pos) ← bits b (← lengthExtras[s - 257]?) pos
      let length := (← lengthBases[s - 257]?) + extra
      let (d, pos) ← symbol b distances pos
      let (extra, pos) ← bits b (← distanceExtras[d]?) pos
      let distance := (← distanceBases[d]?) + extra
      inflateSymbols b literals distances n (repeatBack distance length out) pos

def inflateStored (b out : ByteArray) (pos : Cursor) : Option (ByteArray × Cursor) := do
  let (length, pos) ← bits b 16 ((pos + 7) / 8 * 8)
  let (check, pos) ← bits b 16 pos
  let start := pos / 8
  if length + check ≠ 0xffff ∨ b.size < start + length then none
  else return (out ++ b.extract start (start + length), (start + length) * 8)

def fixedLiterals : List Nat :=
  List.replicate 144 8 ++ List.replicate 112 9 ++ List.replicate 24 7 ++ List.replicate 8 8

def fixedDistances : List Nat := List.replicate 32 5

def lengthOrder : List Nat := [16, 17, 18, 0, 8, 7, 9, 6, 10, 5, 11, 4, 12, 3, 13, 2, 14, 1, 15]

def readMany (b : ByteArray) (width : Nat) : Nat → Cursor → Option (List Nat × Cursor)
  | 0, pos => some ([], pos)
  | n + 1, pos => do
    let (x, pos) ← bits b width pos
    let (xs, pos) ← readMany b width n pos
    return (x :: xs, pos)

def readLengths (b : ByteArray) (c : Code) (total : Nat) : Nat → List Nat → Cursor →
    Option (List Nat × Cursor)
  | 0, _, _ => none
  | n + 1, done, pos =>
    if total ≤ done.length then
      if done.length = total then some (done.reverse, pos) else none
    else do
      let (s, pos) ← symbol b c pos
      if s < 16 then readLengths b c total n (s :: done) pos
      else if s = 16 then
        let previous ← done.head?
        let (extra, pos) ← bits b 2 pos
        readLengths b c total n (List.replicate (3 + extra) previous ++ done) pos
      else if s = 17 then
        let (extra, pos) ← bits b 3 pos
        readLengths b c total n (List.replicate (3 + extra) 0 ++ done) pos
      else
        let (extra, pos) ← bits b 7 pos
        readLengths b c total n (List.replicate (11 + extra) 0 ++ done) pos

def maxLiterals : Nat := 286

def maxDistances : Nat := 30

def readCodes (b : ByteArray) (pos : Cursor) : Option (Code × Code × Cursor) := do
  let (literals, pos) ← bits b 5 pos
  let (distances, pos) ← bits b 5 pos
  let (order, pos) ← bits b 4 pos
  let literals := literals + 257
  let distances := distances + 1
  let (given, pos) ← readMany b 3 (order + 4) pos
  let pairs := lengthOrder.zip given
  let lengths := (List.range 19).map fun s => ((pairs.find? fun p => p.1 = s).map (·.2)).getD 0
  let code ← Code.ofLengths lengths
  let total := literals + distances
  if maxLiterals < literals ∨ maxDistances < distances ∨ !code.isComplete then none
  else
    let (all, pos) ← readLengths b code total (total + 1) [] pos
    let first ← Code.ofLengths (all.take literals)
    let second ← Code.ofLengths (all.drop literals)
    return (first, second, pos)

def inflateBlocks (b : ByteArray) : Nat → ByteArray → Cursor → Option (ByteArray × Cursor)
  | 0, _, _ => none
  | n + 1, out, pos => do
    let (last, pos) ← bits b 1 pos
    let (kind, pos) ← bits b 2 pos
    let (out, pos) ← match kind with
      | 0 => inflateStored b out pos
      | 1 => do
        let literals ← Code.ofLengths fixedLiterals
        let distances ← Code.ofLengths fixedDistances
        inflateSymbols b literals distances (8 * b.size) out pos
      | 2 => do
        let (literals, distances, pos) ← readCodes b pos
        inflateSymbols b literals distances (8 * b.size) out pos
      | _ => none
    if last = 1 then return (out, pos) else inflateBlocks b n out pos

def adlerModulus : Nat := 65521

def adler32 (b : ByteArray) : Nat :=
  let (low, high) := b.data.foldl (fun (low, high) byte =>
    let low := (low + byte.toNat) % adlerModulus
    (low, (high + low) % adlerModulus)) (1, 0)
  high * 65536 + low

def byteAt (b : ByteArray) (i : Nat) : Option Nat := (b.data[i]?).map UInt8.toNat

def decompress (b : ByteArray) : Option ByteArray := do
  let method ← byteAt b 0
  let flags ← byteAt b 1
  if method % 16 ≠ 8 ∨ 7 < method / 16 then none
  else if (method * 256 + flags) % 31 ≠ 0 ∨ flags / 32 % 2 ≠ 0 then none
  else
    let (out, pos) ← inflateBlocks b (8 * b.size) .empty 16
    let stop := (pos + 7) / 8
    let sum ← (List.range 4).foldlM (fun sum i => do return sum * 256 + (← byteAt b (stop + i))) 0
    if sum = adler32 out then return out else none

end Cutout.Zlib
