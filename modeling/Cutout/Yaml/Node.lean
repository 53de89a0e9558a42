import Cutout.Yaml.Scalar
import Cutout.Yaml.Token
/-! Values from tokens. A value may be named by an anchor and stand again wherever its name does. -/
namespace Cutout.Yaml

inductive Node where
  | scalar (value : Scalar)
  | collection (value : Setting)
  deriving Repr

namespace Node

def setting? : Node → Option Setting
  | scalar s => s.setting?
  | collection s => some s

def fields (done : List (Scalar × Setting)) : List Node → Option (List (Scalar × Setting))
  | [] => some done
  | scalar .invalid :: rest => fields done rest
  | scalar key :: value :: rest => do
    let value ← value.setting?
    if done.any (·.1 = key) then none else fields (done ++ [(key, value)]) rest
  | collection _ :: _ :: _ => none
  | [_] => some done

def table (nodes : List Node) : Option Node := do
  let named ← (← fields [] nodes).mapM fun (key, value) => do return (← key.key?, value)
  let put fields | (key, value) => Keyed.put key value fields
  return collection (.table (named.foldl put []))

def list (nodes : List Node) : Option Node := do
  return collection (.list (← nodes.mapM setting?))

end Node

structure Tokens where
  rest : List Token
  handles : List (String × String) := []
  anchors : List (String × Nat) := []
  values : List (Nat × Node) := []

namespace Tokens

def drop (s : Tokens) : Tokens := { s with rest := s.rest.tail }

def named? (s : Tokens) (name : String) : Option Node := do
  return (s.values.lookup (← s.anchors.lookup name)).getD (.scalar .invalid)

def resolve? (s : Tokens) (handle suffix : String) : Option (String × String) :=
  match s.handles.lookup handle with
  | some place => some (place, suffix)
  | none =>
    if handle = "!!" then some (Scalar.commonTags, suffix)
    else if 1 < handle.length then none
    else some (handle, suffix)

def properties (s : Tokens) : Option (Option Nat × Option (String × String) × Tokens) := do
  let named (name : String) (s : Tokens) : Nat × Tokens :=
    let number := s.anchors.length
    (number, { s.drop with anchors := (name, number) :: s.anchors })
  match s.rest with
  | .anchor name :: .tag handle suffix :: _ =>
    let (number, s) := named name s
    return (some number, some (← s.resolve? handle suffix), s.drop)
  | .anchor name :: _ =>
    let (number, s) := named name s
    return (some number, none, s)
  | .tag handle suffix :: .anchor name :: _ =>
    let tag ← s.resolve? handle suffix
    let (number, s) := named name s.drop
    return (some number, some tag, s)
  | .tag handle suffix :: _ => return (none, some (← s.resolve? handle suffix), s.drop)
  | _ => return (none, none, s)

def scalar (tag : Option (String × String)) (plain : Bool) (text : List Char) : Node :=
  .scalar <|
    if plain then
      match tag with
      | some (place, type) => .ofTagged place type text
      | none => .ofPlain text
    else .text (String.ofList text)

end Tokens

open Tokens

mutual

/-- A value. Blocks only start where `block` holds, and a list in the column of its key where
`level` does. -/
def node (fuel : Nat) (block level : Bool) (s : Tokens) : Option (Node × Tokens) :=
  match fuel with
  | 0 => none
  | fuel + 1 => do
    match s.rest with
    | .alias name :: _ => return (← s.named? name, s.drop)
    | _ =>
      let (anchor, tag, s) ← s.properties
      let (node, s) ← content fuel block level (anchor.isSome || tag.isSome) tag s
      match anchor with
      | some number => return (node, { s with values := (number, node) :: s.values })
      | none => return (node, s)

def content (fuel : Nat) (block level optional : Bool) (tag : Option (String × String))
    (s : Tokens) : Option (Node × Tokens) :=
  match fuel with
  | 0 => none
  | fuel + 1 => do
    match s.rest, block, level with
    | .item :: _, _, true => levelItems fuel [] s
    | .scalar plain text :: _, _, _ => return (scalar tag plain text, s.drop)
    | .listOpen :: _, _, _ => flowItems fuel true [] s.drop
    | .tableOpen :: _, _, _ => flowFields fuel true [] s.drop
    | .blockList :: _, true, _ => blockItems fuel [] s.drop
    | .blockTable :: _, true, _ => blockFields fuel [] s.drop
    | _, _, _ => if optional then return (scalar tag true [], s) else none

def optionalNode (fuel : Nat) (block level : Bool) (ends : List Token) (s : Tokens) :
    Option (Node × Tokens) :=
  match fuel with
  | 0 => none
  | fuel + 1 =>
    if s.rest.head?.any ends.contains then some (.scalar .null, s)
    else node fuel block level s

def blockItems (fuel : Nat) (done : List Node) (s : Tokens) : Option (Node × Tokens) :=
  match fuel with
  | 0 => none
  | fuel + 1 => do
    match s.rest with
    | .blockEnd :: _ => return (← Node.list done.reverse, s.drop)
    | .item :: _ =>
      let (item, s) ← optionalNode fuel true false [.item, .blockEnd] s.drop
      blockItems fuel (item :: done) s
    | _ => none

def levelItems (fuel : Nat) (done : List Node) (s : Tokens) : Option (Node × Tokens) :=
  match fuel with
  | 0 => none
  | fuel + 1 => do
    match s.rest with
    | .item :: _ =>
      let (item, s) ← optionalNode fuel true false [.item, .key, .value, .blockEnd] s.drop
      levelItems fuel (item :: done) s
    | _ => return (← Node.list done.reverse, s)

def valueOf (fuel : Nat) (block : Bool) (ends : List Token) (s : Tokens) :
    Option (Node × Tokens) :=
  match fuel with
  | 0 => none
  | fuel + 1 =>
    match s.rest with
    | .value :: _ => optionalNode fuel block block ends s.drop
    | _ => some (.scalar .null, s)

def blockFields (fuel : Nat) (done : List Node) (s : Tokens) : Option (Node × Tokens) :=
  match fuel with
  | 0 => none
  | fuel + 1 => do
    let ends : List Token := [.key, .value, .blockEnd]
    match s.rest with
    | .blockEnd :: _ => return (← Node.table done.reverse, s.drop)
    | .key :: _ =>
      let (key, s) ← optionalNode fuel true true ends s.drop
      let (value, s) ← valueOf fuel true ends s
      blockFields fuel (value :: key :: done) s
    | .value :: _ =>
      let (value, s) ← valueOf fuel true ends s
      blockFields fuel (value :: .scalar .null :: done) s
    | _ => none

def flowItems (fuel : Nat) (first : Bool) (done : List Node) (s : Tokens) :
    Option (Node × Tokens) :=
  match fuel with
  | 0 => none
  | fuel + 1 => do
    let s ← match s.rest with
      | .listClose :: _ => pure s
      | .comma :: _ => if first then none else pure s.drop
      | _ => if first then pure s else none
    match s.rest with
    | .listClose :: _ => return (← Node.list done.reverse, s.drop)
    | .key :: _ =>
      let (key, s) ← node fuel false false s.drop
      let (value, s) ← valueOf fuel false [.comma, .listClose] s
      flowItems fuel false ((← Node.table [key, value]) :: done) s
    | _ =>
      let (item, s) ← node fuel false false s
      flowItems fuel false (item :: done) s

def flowFields (fuel : Nat) (first : Bool) (done : List Node) (s : Tokens) :
    Option (Node × Tokens) :=
  match fuel with
  | 0 => none
  | fuel + 1 => do
    let s ← match s.rest with
      | .tableClose :: _ => pure s
      | .comma :: _ => if first then none else pure s.drop
      | _ => if first then pure s else none
    let ends : List Token := [.comma, .tableClose]
    match s.rest with
    | .tableClose :: _ => return (← Node.table done.reverse, s.drop)
    | .key :: _ =>
      let (key, s) ← optionalNode fuel false false (.value :: ends) s.drop
      let (value, s) ← valueOf fuel false ends s
      flowFields fuel false (value :: key :: done) s
    | .value :: _ =>
      let (value, s) ← valueOf fuel false ends s
      flowFields fuel false (value :: .scalar .null :: done) s
    | _ =>
      let (key, s) ← node fuel false false s
      flowFields fuel false (.scalar .null :: key :: done) s

end

def directives (handles : List (String × String)) : List Token → Option Tokens
  | .directive handles :: rest => directives handles rest
  | .documentStart :: rest => some { rest, handles }
  | _ => none

def isOutside : Token → Bool
  | .directive _ | .documentStart | .documentEnd => true
  | _ => false

def document (tokens : List Token) : Option Setting := do
  let tokens := tokens.dropWhile (· = .documentEnd)
  let fuel := 4 * tokens.length + 4
  let (root, s) ← match tokens with
    | [] => return .table []
    | first :: _ =>
      if isOutside first then do
        let s ← directives [] tokens
        if s.rest.head?.all isOutside then pure (Node.scalar .null, s)
        else node fuel true false s
      else node fuel true false { rest := tokens }
  if s.rest.all (· = .documentEnd) then root.setting? else none

end Cutout.Yaml
