/-! Messages as lists of numbered fields. What a field holds is laid down by the shape of its
message. Fields of other numbers are passed over, and so are fields whose wire type does not fit
their shape. An embedded message that reaches the end of all data may end there, between two
fields. -/
namespace Cutout.Pbf

def byteAt (b : ByteArray) (pos : Nat) : Option Nat := (b.data[pos]?).map UInt8.toNat

def varintFrom (b : ByteArray) : Nat → Nat → Option (Nat × Nat)
  | 0, _ => none
  | n + 1, pos => do
    let byte ← byteAt b pos
    if byte < 128 then return (byte, pos + 1)
    else
      let (high, next) ← varintFrom b n (pos + 1)
      return (byte - 128 + 128 * high, next)

def varint (b : ByteArray) (width pos : Nat) : Option (Nat × Nat) := do
  let (value, next) ← varintFrom b ((width + 6) / 7) pos
  if value < 1 <<< width then return (value, next) else none

inductive NumberType where
  | int32
  | int64
  | uint32
  | sint32
  | sint64
  | boolean
  deriving DecidableEq, Repr

def signed (value : Nat) : Int := if value < 1 <<< 63 then value else (value : Int) - (1 <<< 64 : Nat)

def zigzag (value : Nat) : Int :=
  if value % 2 = 0 then (value / 2 : Nat) else -((value / 2 : Nat) : Int) - 1

def NumberType.width : NumberType → Nat
  | uint32 | sint32 => 32
  | _ => 64

def NumberType.ofVarint (t : NumberType) (value : Nat) : Option Int :=
  match t with
  | int32 =>
    let n := signed value
    if Int32.minValue.toInt ≤ n ∧ n ≤ Int32.maxValue.toInt then some n else none
  | int64 => some (signed value)
  | uint32 => some value
  | sint32 | sint64 => some (zigzag value)
  | boolean => some (if value = 0 then 0 else 1)

def readNumber (t : NumberType) (b : ByteArray) (pos : Nat) : Option (Int × Nat) := do
  let (value, next) ← varint b t.width pos
  return (← t.ofVarint value, next)

def packedFrom (t : NumberType) (b : ByteArray) : Nat → Array Int → Nat → Option (Array Int)
  | 0, _, _ => none
  | n + 1, done, pos =>
    if b.size ≤ pos then some done
    else do
      let (value, next) ← readNumber t b pos
      packedFrom t b n (done.push value) next

def packed (t : NumberType) (b : ByteArray) : Option (List Int) :=
  (packedFrom t b (b.size + 1) #[] 0).map Array.toList

inductive Shape where
  | number (type : NumberType)
  | numbers (type : NumberType)
  | text
  | bytes
  | message
  deriving DecidableEq, Repr

abbrev Shapes := List (Nat × Shape)

structure Region where
  bytes : ByteArray
  missing : Option Nat
  depth : Nat

def Region.outermost (bytes : ByteArray) : Region := ⟨bytes, none, 0⟩

inductive Value where
  | number (value : Int)
  | text (text : String)
  | bytes (bytes : ByteArray)
  | message (region : Region)

abbrev Message := List (Nat × Value)

def tag (b : ByteArray) (pos : Nat) : Option (Nat × Nat × Nat) := do
  let (value, next) ← varint b 32 pos
  if value / 8 = 0 then none else return (value / 8, value % 8, next)

def chunk (b : ByteArray) (pos : Nat) : Option (ByteArray × Nat) := do
  let (length, start) ← varint b 32 pos
  let stop := start + length
  if stop ≤ b.size then return (b.extract start stop, stop) else none

/-- Whether an embedded message that ends at `stop` lies in the announced length of the message
around it. -/
def Region.admits (r : Region) (stop : Nat) : Bool :=
  match r.missing with
  | some missing => stop ≤ r.bytes.size + missing
  | none => stop < 1 <<< 64

def embedded (r : Region) (pos : Nat) : Option (Region × Nat) := do
  let (length, start) ← varint r.bytes 64 pos
  let stop := start + length
  let reached := min stop r.bytes.size
  if r.admits stop then
    return (⟨r.bytes.extract start reached, some (stop - reached), r.depth + 1⟩, reached)
  else none

def skipContent (b : ByteArray) (wireType pos : Nat) : Option Nat :=
  match wireType with
  | 0 => (varint b 64 pos).map (·.2)
  | 1 => if pos + 8 ≤ b.size then some (pos + 8) else none
  | 2 => (chunk b pos).map (·.2)
  | 5 => if pos + 4 ≤ b.size then some (pos + 4) else none
  | _ => none

def maxDepth : Nat := 100

def skipGroup (b : ByteArray) (limit : Nat) : Nat → Nat → Nat → Option Nat
  | 0, _, _ => none
  | n + 1, inner, pos => do
    let (_, wireType, next) ← tag b pos
    if wireType = 3 then
      if inner < limit then skipGroup b limit n (inner + 1) next else none
    else if wireType = 4 then
      if inner = 0 then return next else skipGroup b limit n (inner - 1) next
    else skipGroup b limit n inner (← skipContent b wireType next)

def readContent (shape : Option Shape) (r : Region) (wireType pos : Nat) :
    Option (List Value × Nat) :=
  match shape, wireType with
  | some (.number t), 0 | some (.numbers t), 0 => do
    let (value, next) ← readNumber t r.bytes pos
    return ([.number value], next)
  | some (.numbers t), 2 => do
    let (inner, next) ← embedded r pos
    return ((← packed t inner.bytes).map .number, next)
  | some .text, 2 => do
    let (bytes, next) ← chunk r.bytes pos
    return ([.text (← String.fromUTF8? bytes)], next)
  | some .bytes, 2 => do
    let (bytes, next) ← chunk r.bytes pos
    return ([.bytes bytes], next)
  | some .message, 2 => do
    let (inner, next) ← embedded r pos
    return ([.message inner], next)
  | _, 3 => do return ([], ← skipGroup r.bytes (maxDepth - r.depth) r.bytes.size 0 pos)
  | _, _ => do return ([], ← skipContent r.bytes wireType pos)

def fieldsFrom (shapes : Shapes) (r : Region) : Nat → Message → Nat → Option Message
  | 0, _, _ => none
  | n + 1, done, pos =>
    if r.bytes.size ≤ pos then some done.reverse
    else do
      let (number, wireType, next) ← tag r.bytes pos
      let (values, next) ← readContent (shapes.lookup number) r wireType next
      fieldsFrom shapes r n ((values.map fun v => (number, v)).reverse ++ done) next

def fields (shapes : Shapes) (r : Region) : Option Message :=
  fieldsFrom shapes r (r.bytes.size + 1) [] 0

namespace Message

def numbers (m : Message) (number : Nat) : List Int :=
  m.filterMap fun field => match field with
    | (n, .number value) => if n = number then some value else none
    | _ => none

def number? (m : Message) (number : Nat) : Option Int := (m.numbers number).getLast?

def texts (m : Message) (number : Nat) : List String :=
  m.filterMap fun field => match field with
    | (n, .text text) => if n = number then some text else none
    | _ => none

def chunks (m : Message) (number : Nat) : List ByteArray :=
  m.filterMap fun field => match field with
    | (n, .bytes bytes) => if n = number then some bytes else none
    | _ => none

def embedded {α : Type} (m : Message) (number : Nat) (read : Region → Option α) :
    Option (List α) :=
  (m.filterMap fun field => match field with
    | (n, .message region) => if n = number then some region else none
    | _ => none).mapM read

end Message

end Cutout.Pbf
