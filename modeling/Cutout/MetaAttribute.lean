import Cutout.Fault
/-! Attributes of the editing metadata that can be left out of the outputs. -/
namespace Cutout

inductive MetaAttribute where
  | version
  | changeset
  | timestamp
  | uid
  | user
  deriving DecidableEq, Repr

def isBlank (c : Char) : Bool :=
  let n := c.toNat
  (0x9 ≤ n && n ≤ 0xd) || n = 0x20 || n = 0x85 || n = 0xa0 || n = 0x1680 ||
  (0x2000 ≤ n && n ≤ 0x200a) || n = 0x2028 || n = 0x2029 || n = 0x202f || n = 0x205f || n = 0x3000

def trimmed (text : String) : String :=
  String.ofList ((text.toList.dropWhile isBlank).reverse.dropWhile isBlank).reverse

def lowered (text : String) : String := String.ofList (text.toList.map Char.toLower)

namespace MetaAttribute

def all : List MetaAttribute := [version, changeset, timestamp, uid, user]

def label : MetaAttribute → String
  | version => "version"
  | changeset => "changeset"
  | timestamp => "timestamp"
  | uid => "uid"
  | user => "user"

def parse (text : String) : Except Fault MetaAttribute :=
  match all.find? fun a => a.label == lowered (trimmed text) with
  | some a => .ok a
  | none => .error (.unknownAttribute text)

end MetaAttribute

namespace Metadata

def without (m : Metadata) : MetaAttribute → Metadata
  | .version => { m with version := none }
  | .changeset => { m with changeset := none }
  | .timestamp => { m with timestamp := none }
  | .uid => { m with uid := none }
  | .user => { m with user := none }

def cleaned (m : Metadata) (attributes : List MetaAttribute) : Metadata :=
  attributes.foldl without m

end Metadata
end Cutout
