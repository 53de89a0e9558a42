import Cutout.Ascending
import Cutout.Keyed
import Cutout.TagRules
/-! Free-form options of a strategy: one value for each key, in ascending order of the keys. -/
namespace Cutout

structure Options where
  entries : List (String × String)
  deriving DecidableEq, Repr

namespace Options

def empty : Options := ⟨[]⟩

instance : EmptyCollection Options := ⟨empty⟩

def set (o : Options) (key value : String) : Options := ⟨Ascending.put key value o.entries⟩

def assignment (text : String) : String × String :=
  match splitOnce '=' text.toList with
  | some (key, value) => (String.ofList key, String.ofList value)
  | none => (text, "true")

def assign (o : Options) (text : String) : Options :=
  let (key, value) := assignment text
  o.set key value

def get? (o : Options) (key : String) : Option String := Keyed.get? o.entries key

def isEmpty (o : Options) : Bool := o.entries.isEmpty

def ofEntries (entries : List (String × String)) : Options :=
  entries.foldl (fun o (key, value) => o.set key value) ∅

def merge (configured : List (String × String)) (assignments : List String) : Options :=
  assignments.foldl assign (ofEntries configured)

def text (o : Options) : String :=
  " ".intercalate (o.entries.map fun (key, value) => key ++ "=" ++ value)

end Options
end Cutout
