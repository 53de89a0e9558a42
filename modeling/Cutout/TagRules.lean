import Cutout.Element
/-! Rules on tags, read from comma separated lists. An item is a key, or a key and a value joined
by a separator; no item is wrong, since what has no separator is a key. -/
namespace Cutout

structure TagRule where
  key : String
  value : Option String
  deriving DecidableEq, Repr

def TagRule.accepts (r : TagRule) (key value : String) : Bool :=
  r.key == key && (match r.value with
    | some expected => expected == value
    | none => true)

def splitOnce (separator : Char) : List Char → Option (List Char × List Char)
  | [] => none
  | c :: cs =>
    if c = separator then some ([], cs)
    else (splitOnce separator cs).map fun (before, after) => (c :: before, after)

def pieces (separator : Char) : List Char → List (List Char)
  | [] => [[]]
  | c :: cs =>
    match pieces separator cs with
    | [] => [[]]
    | p :: ps => if c = separator then [] :: p :: ps else (c :: p) :: ps

def listItems (text : String) : List String :=
  ((pieces ',' text.toList).filter fun item => !item.isEmpty).map String.ofList

def TagRule.ofItem (separator : Char) (item : String) : TagRule :=
  match splitOnce separator item.toList with
  | some (key, value) => ⟨String.ofList key, some (String.ofList value)⟩
  | none => ⟨item, none⟩

structure TagRules where
  rules : List TagRule
  items : List String
  deriving DecidableEq, Repr

namespace TagRules

def empty : TagRules := ⟨[], []⟩

instance : EmptyCollection TagRules := ⟨empty⟩

def add (f : TagRules) (list : String) (separator : Char) : TagRules :=
  let items := listItems list
  ⟨f.rules ++ items.map (.ofItem separator), f.items ++ items⟩

def parse (list : String) (separator : Char) : TagRules := empty.add list separator

def isEmpty (f : TagRules) : Bool := f.rules.isEmpty

def matchesAny (f : TagRules) (tags : Tags) : Bool :=
  tags.any fun (key, value) => f.rules.any fun rule => rule.accepts key value

def text (f : TagRules) : String := ",".intercalate f.items

end TagRules
end Cutout
