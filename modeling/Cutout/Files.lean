import Cutout.Fault
/-! A file system as a finite map from places to contents. A directory is there if a file lies below it
or if it has been made; links and rights are not held. -/
namespace Cutout

inductive Content where
  | text (text : String)
  | bytes (bytes : ByteArray)

def replacement : Char := '\ufffd'

def followers (first : Nat) : Nat × Nat × Nat :=
  if first < 0xc2 then (0, 0, 0)
  else if first < 0xe0 then (1, 0x80, 0xbf)
  else if first = 0xe0 then (2, 0xa0, 0xbf)
  else if first = 0xed then (2, 0x80, 0x9f)
  else if first < 0xf0 then (2, 0x80, 0xbf)
  else if first = 0xf0 then (3, 0x90, 0xbf)
  else if first < 0xf4 then (3, 0x80, 0xbf)
  else if first = 0xf4 then (3, 0x80, 0x8f)
  else (0, 0, 0)

/-- Reads the bytes of a text. Each longest start of a character that does not go on, and each byte
that starts none, is replaced. `wanted` bytes between `low` and `high` are still to come. -/
def decodeFrom (wanted low high value : Nat) : List Nat → List Char
  | [] => if wanted = 0 then [] else [replacement]
  | byte :: rest =>
    if wanted ≠ 0 ∧ low ≤ byte ∧ byte ≤ high then
      let value := value * 64 + byte % 64
      if wanted = 1 then Char.ofNat value :: decodeFrom 0 0 0 0 rest
      else decodeFrom (wanted - 1) 0x80 0xbf value rest
    else
      let before := if wanted = 0 then [] else [replacement]
      if byte < 0x80 then before ++ Char.ofNat byte :: decodeFrom 0 0 0 0 rest
      else
        let (count, low, high) := followers byte
        if count = 0 then before ++ replacement :: decodeFrom 0 0 0 0 rest
        else before ++ decodeFrom count low high (byte % 1 <<< (6 - count)) rest

def decode (bytes : ByteArray) : String :=
  String.ofList (decodeFrom 0 0 0 0 (bytes.toList.map UInt8.toNat))

namespace Content

def toBytes : Content → ByteArray
  | text s => s.toUTF8
  | bytes b => b

def toText? : Content → Option String
  | text s => some s
  | bytes b => String.fromUTF8? b

def readable (c : Content) : String :=
  let s := match c with
    | text s => s
    | bytes b => decode b
  match s.toList with
  | '\ufeff' :: rest => String.ofList rest
  | _ => s

def overlay (old : Content) (offset : Nat) (text : String) : Content :=
  match old with
  | .text s =>
    if s.utf8ByteSize = offset then .text (s ++ text) else .bytes (laid s.toUTF8)
  | .bytes b => .bytes (laid b)
where
  laid (b : ByteArray) : ByteArray :=
    b.extract 0 offset ++ text.toUTF8 ++ b.extract (offset + text.utf8ByteSize) b.size

end Content

abbrev Place := List String

structure Files where
  entries : List (Place × Content)
  made : List Place

namespace Files

def empty : Files := ⟨[], []⟩

def get? (f : Files) (place : Place) : Option Content :=
  (f.entries.find? fun e => e.1 == place).map (·.2)

def isFile (f : Files) (place : Place) : Bool := f.entries.any fun e => e.1 == place

def isDirectory (f : Files) (place : Place) : Bool :=
  place.all (fun name => name == "/" || name == "..") || f.made.contains place ||
    f.entries.any fun e => e.1 != place && place.isPrefixOf e.1

def put (f : Files) (place : Place) (content : Content) : Files :=
  if f.isFile place then
    { f with entries := f.entries.map fun e => if e.1 == place then (place, content) else e }
  else { f with entries := f.entries ++ [(place, content)] }

def overlay (f : Files) (place : Place) (offset : Nat) (text : String) : Files :=
  f.put place (((f.get? place).getD (.text "")).overlay offset text)

def remove (f : Files) (place : Place) : Files :=
  { f with entries := f.entries.filter fun e => e.1 != place }

def above (place : Place) : Place :=
  match place.getLast? with
  | none | some ".." => place ++ [".."]
  | some "/" => place
  | some _ => place.dropLast

def maxName : Nat := 255

def maxPath : Nat := 4095

def isName (name : String) : Bool :=
  name.utf8ByteSize ≤ maxName && !name.toList.contains '\x00'

def follow (place : Place) (part : List Char) : Place :=
  if part.isEmpty || part = ['.'] then place
  else if part = ['.', '.'] then above place
  else place ++ [String.ofList part]

def walk (enter : Place → Bool) : Place → List (List Char) → Option Place
  | place, [] => some place
  | place, part :: rest =>
    if part.isEmpty || part = ['.'] then
      if enter place then walk enter place rest else none
    else if part = ['.', '.'] then
      if enter place then walk enter (above place) rest else none
    else if enter place && isName (String.ofList part) then
      walk enter (place ++ [String.ofList part]) rest
    else none

def parts (p : Path) : List (List Char) := (Path.segments 0 p.text.toList).map (·.1)

def origin (p : Path) : Place := if p.isAbsolute then ["/"] else []

def reach (p : Path) : Place := (walk (fun _ => true) (origin p) (parts p)).getD []

def isShort (p : Path) : Bool := p.text.utf8ByteSize ≤ maxPath

/-- The place that a path leads to. Only directories are gone through; at the end there may be
nothing. -/
def place? (f : Files) (p : Path) : Option Place :=
  if p.isEmpty || !isShort p then none else walk f.isDirectory (origin p) (parts p)

def fileAt (f : Files) (p : Path) : Option Content := do f.get? (← f.place? p)

def has (f : Files) (p : Path) : Bool :=
  match f.place? p with
  | some place => f.isFile place || f.isDirectory place
  | none => false

def canHold (f : Files) (directory : Path) : Bool :=
  isShort directory &&
    match walk (fun place => !f.isFile place) (origin directory) (parts directory) with
    | some place => !f.isFile place
    | none => false

def makeDirectories (f : Files) (directory : Path) : Files :=
  { f with made := f.made ++ (parts directory).scanl follow (origin directory) }

def newPlace? (f : Files) (p : Path) : Option Place :=
  match (parts p).getLast? with
  | none | some [] | some ['.'] | some ['.', '.'] => none
  | _ =>
    if !isShort p then none
    else match walk (fun place => !f.isFile place) (origin p) (parts p) with
    | some place => if f.isDirectory place then none else some place
    | none => none

def create (f : Files) (p : Path) (overwrite : Bool) : Except Fault (Place × Files) :=
  if !overwrite && f.has p then .error (.outputExists p)
  else
    match p.parent?.filter fun d => !d.isEmpty with
    | some directory =>
      if f.canHold directory then finish (f.makeDirectories directory)
      else .error (.directoryNotCreated directory)
    | none => finish f
where
  finish (f : Files) : Except Fault (Place × Files) :=
    match f.newPlace? p with
    | some place => .ok (place, f.put place (.text ""))
    | none => .error (.outputNotCreated p)

end Files
end Cutout
