import Cutout.Options
import Cutout.Strategy.FindPrimary
/-! Ways by their first node or their tags, relations of selected types completed, parents of
relations kept, in three passes. -/
namespace Cutout.Strategy

structure FirstNodeOptions where
  types : List String
  percent : Nat
  tags : TagRules
  deriving DecidableEq, Repr

namespace FirstNodeOptions

def name : String := "smart_by_first_node_and_tags"

def separator : Char := '='

def defaults : FirstNodeOptions := ⟨["multipolygon"], 100, ∅⟩

def parseTypes (value : String) : List String :=
  if value == "" || value == "any" || value == "true" then [] else listItems value

def parsePercent (value : String) : Nat :=
  match Decimal.int? value.toList with
  | some n => if 1 ≤ n ∧ n ≤ 100 then n.toNat else 100
  | none => 100

def take (o : FirstNodeOptions × List Note) (entry : String × String) :
    FirstNodeOptions × List Note :=
  let (key, value) := entry
  match key with
  | "types" => ({ o.1 with types := parseTypes value }, o.2)
  | "complete-partial-relations" =>
    (if value == "" then o.1 else { o.1 with percent := parsePercent value }, o.2)
  | "tags" => ({ o.1 with tags := .parse value separator }, o.2)
  | _ => (o.1, o.2 ++ [unknownOption name key])

def parse (options : Options) : FirstNodeOptions × List Note :=
  options.entries.foldl take (defaults, [])

def arguments (o : FirstNodeOptions) : List Note :=
  [.info "Additional strategy options:",
    .info <| "  - [types] relation types: " ++
      if o.types.isEmpty then "any" else ", ".intercalate o.types,
    .info <| "  - [complete-partial-relations] " ++
      if o.percent = 100 then "do not complete partial relations"
      else s!"complete partial relations when {o.percent}% or more members are in extract",
    .info <| "  - [tags] " ++ if o.tags.isEmpty then "no tags defined" else o.tags.text]

def acceptsType (o : FirstNodeOptions) (r : Relation) : Bool :=
  o.types.isEmpty || (Tags.get? r.tags "type").any fun kind => o.types.contains kind

def acceptsTags (o : FirstNodeOptions) (r : Relation) : Bool := o.tags.matchesAny r.tags

def acceptsShare (o : FirstNodeOptions) (members inside : Nat) : Bool :=
  members * o.percent ≤ inside * 100

def findWay (x : Extract) (w : Way) : Extract :=
  if byFirstNode x w then x.addPrimary .way w.key else x

/-- Goes through members of a relation, `inside` of which were inside before. The first one inside
makes the relation primary, and settles it if its type and tags are accepted. If none settles it, the
share of members inside decides. -/
def weigh (o : FirstNodeOptions) (r : Relation) : List Member → Nat → Extract → Extract
  | [], inside, x =>
    if o.acceptsShare r.members.length inside && o.acceptsTags r then x.addMembers r else x
  | m :: rest, inside, x =>
    if !isInside x m then o.weigh r rest inside x
    else if inside = 0 then
      let x := x.addPrimary .relation r.key
      if o.acceptsType r && o.acceptsTags r then x.addMembers r else o.weigh r rest 1 x
    else o.weigh r rest (inside + 1) x

def findRelation (o : FirstNodeOptions) (x : Extract) (r : Relation) : Extract :=
  o.weigh r r.members 0 x

def find (o : FirstNodeOptions) (x : Extract) : Element → Extract
  | .node n => findNode x n
  | .way w => findWay x w
  | .relation r => o.findRelation x r

def findPrimary (o : FirstNodeOptions) : Pass Survey where
  kinds := .all
  metadata := false
  observe := Survey.observe fun _ => true
  visit := o.find

def completeWay (x : Extract) : Element → Extract
  | .way w => if x.includes .way w.key then x.addWayNodes w else x
  | _ => x

def completeWays : Pass Unit := .stateless .onlyWays false completeWay

def run (o : FirstNodeOptions) (source : Source) (schedule : Schedule) : Step Unit := do
  Step.note (.info s!"Running '{name}' strategy in three passes...")
  Step.note (.info "First pass (of three)...")
  let survey ← Step.pass schedule o.findPrimary .start source
  let parents := survey.memberships.upward
  Step.updateExtracts fun x => x.addParents parents
  Step.note (.info "Second pass (of three)...")
  Step.pass schedule completeWays () source
  Step.note (.info "Third pass (of three)...")
  Step.write schedule source

end FirstNodeOptions
end Cutout.Strategy
