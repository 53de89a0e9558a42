import Cutout.Toml.Scalar
/-! A reader of TOML. Each key is defined once: a table may be opened by one header only, and tables
made by dotted keys are not opened again. -/
namespace Cutout.Toml

inductive Origin where
  | implied
  | header
  | dotted
  deriving DecidableEq, Repr

inductive Entry where
  | value (value : Setting)
  | table (origin : Origin) (fields : List (String × Entry))
  | tables (items : List (List (String × Entry)))

abbrev Fields := List (String × Entry)

namespace Fields

def change (update : Fields → Option Fields) : List String → Fields → Option Fields
  | [], fields => update fields
  | key :: rest, fields =>
    match Keyed.get? fields key with
    | none => do return Keyed.put key (.table .implied (← change update rest [])) fields
    | some (.value _) => none
    | some (.table origin inner) => do
      return Keyed.put key (.table origin (← change update rest inner)) fields
    | some (.tables items) => do
      let last ← change update rest (items.getLast?.getD [])
      return Keyed.put key (.tables (items.dropLast ++ [last])) fields

def openTable (key : String) (fields : Fields) : Option Fields :=
  match Keyed.get? fields key with
  | none => some (Keyed.put key (.table .header []) fields)
  | some (.table .implied inner) => some (Keyed.put key (.table .header inner) fields)
  | some _ => none

def addTable (key : String) (fields : Fields) : Option Fields :=
  match Keyed.get? fields key with
  | none => some (Keyed.put key (.tables [[]]) fields)
  | some (.tables items) => some (Keyed.put key (.tables (items ++ [[]])) fields)
  | some _ => none

def set (value : Setting) : List String → Fields → Option Fields
  | [], _ => none
  | [key], fields =>
    if Keyed.has fields key then none else some (Keyed.put key (.value value) fields)
  | key :: next :: rest, fields =>
    match Keyed.get? fields key with
    | none => do return Keyed.put key (.table .dotted (← set value (next :: rest) [])) fields
    | some (.table origin inner) =>
      if origin = .header || (origin = .implied && rest.isEmpty) then none
      else do return Keyed.put key (.table origin (← set value (next :: rest) inner)) fields
    | some _ => none

end Fields

mutual

def Entry.setting : Entry → Setting
  | .value v => v
  | .table _ fields => .table (settings fields)
  | .tables items => .list (tableSettings items)

def settings : List (String × Entry) → List (String × Setting)
  | [] => []
  | (key, entry) :: rest => (key, entry.setting) :: settings rest

def tableSettings : List (List (String × Entry)) → List Setting
  | [] => []
  | fields :: rest => .table (settings fields) :: tableSettings rest

end

def skipSpace (cs : List Char) : List Char := cs.dropWhile isSpace

def skipComment (cs : List Char) : Option (List Char) :=
  match cs with
  | '#' :: r =>
    let isEnd (c : Char) : Bool := c = '\n' || c = '\r'
    if (r.takeWhile (!isEnd ·)).any isControl then none else some (r.dropWhile (!isEnd ·))
  | cs => some cs

def lineEnd (cs : List Char) : Option (List Char) := do
  match ← skipComment (skipSpace cs) with
  | [] => some []
  | rest => lineBreak? rest

def skipLines : Nat → List Char → Option (List Char)
  | 0, _ => none
  | n + 1, cs =>
    match skipBlank cs with
    | '#' :: r => do skipLines n (← skipComment ('#' :: r))
    | r => some r

def isBare (c : Char) : Bool := c.isAlphanum || c = '_' || c = '-'

def simpleKey (fuel : Nat) (cs : List Char) : Option (String × List Char) :=
  match cs with
  | '"' :: r => shortText '"' fuel [] r
  | '\'' :: r => shortText '\'' fuel [] r
  | cs =>
    let name := cs.takeWhile isBare
    if name.isEmpty then none else some (String.ofList name, cs.drop name.length)

def keyPath : Nat → List Char → Option (List String × List Char)
  | 0, _ => none
  | n + 1, cs => do
    let (name, rest) ← simpleKey (n + 1) (skipSpace cs)
    match skipSpace rest with
    | '.' :: r => do
      let (names, rest) ← keyPath n r
      return (name :: names, rest)
    | rest => return ([name], rest)

def maxDepth : Nat := 80

mutual

def value (fuel depth : Nat) (cs : List Char) : Option (Setting × List Char) :=
  match fuel with
  | 0 => none
  | fuel + 1 =>
    match cs, depth with
    | '"' :: r, _ => (quoted '"' (fuel + 1) r).map fun (s, rest) => (.text s, rest)
    | '\'' :: r, _ => (quoted '\'' (fuel + 1) r).map fun (s, rest) => (.text s, rest)
    | '[' :: r, depth + 1 => items fuel depth [] r
    | '{' :: r, depth + 1 => inlineFields fuel depth [] r
    | cs, _ => do
      let w := word cs
      return (← wordValue w, cs.drop w.length)

def items (fuel depth : Nat) (done : List Setting) (cs : List Char) :
    Option (Setting × List Char) :=
  match fuel with
  | 0 => none
  | fuel + 1 => do
    match ← skipLines (fuel + 1) cs with
    | ']' :: r => some (.list done.reverse, r)
    | start =>
      let (item, rest) ← value fuel depth start
      match ← skipLines (fuel + 1) rest with
      | ',' :: r => items fuel depth (item :: done) r
      | ']' :: r => some (.list (item :: done).reverse, r)
      | _ => none

def inlineFields (fuel depth : Nat) (done : Fields) (cs : List Char) :
    Option (Setting × List Char) :=
  match fuel with
  | 0 => none
  | fuel + 1 => do
    match ← skipLines (fuel + 1) cs with
    | '}' :: r => some (.table (settings done), r)
    | start =>
      let (path, rest) ← keyPath (fuel + 1) start
      match rest with
      | '=' :: r =>
        let (v, rest) ← value fuel depth (skipSpace r)
        let fields ← Fields.set v path done
        match ← skipLines (fuel + 1) rest with
        | ',' :: r => inlineFields fuel depth fields r
        | '}' :: r => some (.table (settings fields), r)
        | _ => none
      | _ => none

end

def header (fuel : Nat) (cs : List Char) : Option (Bool × List String × List Char) := do
  match cs with
  | '[' :: '[' :: r =>
    match ← keyPath fuel r with
    | (path, ']' :: ']' :: rest) => some (true, path, rest)
    | _ => none
  | '[' :: r =>
    match ← keyPath fuel r with
    | (path, ']' :: rest) => some (false, path, rest)
    | _ => none
  | _ => none

def lines : Nat → List String → Fields → List Char → Option Fields
  | 0, _, _, _ => none
  | n + 1, place, fields, cs => do
    match ← skipLines (n + 1) cs with
    | [] => some fields
    | '[' :: r =>
      let (many, path, rest) ← header (n + 1) ('[' :: r)
      let key ← path.getLast?
      let define := if many then Fields.addTable key else Fields.openTable key
      let fields ← fields.change define path.dropLast
      lines n path fields (← lineEnd rest)
    | start =>
      let (path, rest) ← keyPath (n + 1) start
      match rest with
      | '=' :: r =>
        let (v, rest) ← value (2 * n + 2) maxDepth (skipSpace r)
        let fields ← fields.change (Fields.set v path) place
        lines n place fields (← lineEnd rest)
      | _ => none

def parse (text : String) : Option Setting := do
  let cs := text.toList
  return .table (settings (← lines (cs.length + 1) [] [] cs))

end Cutout.Toml
