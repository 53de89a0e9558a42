import Cutout.Options
import Cutout.Strategy.FindPrimary
/-! Complete ways, selected relations and whole relation systems, in at most four passes. -/
namespace Cutout.Strategy

structure SystemOptions where
  relations : TagRules
  systems : TagRules
  byFirstNode : Bool
  deriving DecidableEq, Repr

namespace SystemOptions

def name : String := "smart_custom"

def separator : Char := ':'

def defaults : SystemOptions := ⟨∅, ∅, false⟩

def take (o : SystemOptions × List Note) (entry : String × String) : SystemOptions × List Note :=
  let (key, value) := entry
  match key with
  | "relations" => ({ o.1 with relations := o.1.relations.add value separator }, o.2)
  | "relation-system" => ({ o.1 with systems := o.1.systems.add value separator }, o.2)
  | "by-first-node" =>
    ({ o.1 with byFirstNode := value == "" || value == "true" || value == "yes" }, o.2)
  | _ => (o.1, o.2 ++ [unknownOption name key])

def parse (options : Options) : SystemOptions × List Note :=
  options.entries.foldl take (defaults, [])

def arguments (o : SystemOptions) : List Note :=
  [.info "Additional strategy options:"] ++
  (if o.relations.isEmpty then [] else [.info s!"  - [relations] {o.relations.text}"]) ++
  (if o.systems.isEmpty then [] else [.info s!"  - [relation-system] {o.systems.text}"]) ++
  (if o.byFirstNode then [.info "  - [by-first-node]"] else [])

def isRelevant (o : SystemOptions) (r : Relation) : Bool := o.relations.matchesAny r.tags

def isPartOfSystem (o : SystemOptions) (r : Relation) : Bool := o.systems.matchesAny r.tags

def findWay (o : SystemOptions) (x : Extract) (w : Way) : Extract :=
  if (if o.byFirstNode then Strategy.byFirstNode x w else byAnyNode x w) then
    (x.addPrimary .way w.key).addWayNodes w
  else x

def findRelation (o : SystemOptions) (x : Extract) (r : Relation) : Extract :=
  if r.members.any (isInside x) then
    let x := x.addPrimary .relation r.key
    if o.isRelevant r || o.isPartOfSystem r then x.addMembers r else x
  else x

def find (o : SystemOptions) (x : Extract) : Element → Extract
  | .node n => findNode x n
  | .way w => o.findWay x w
  | .relation r => o.findRelation x r

def findPrimary (o : SystemOptions) : Pass Survey where
  kinds := .all
  metadata := false
  observe := Survey.observe o.isPartOfSystem
  visit := o.find

def completeSystem (o : SystemOptions) (x : Extract) : Element → Extract
  | .relation r =>
    if x.extra.relations.contains r.key && o.isPartOfSystem r then x.addMembers r else x
  | _ => x

def completeSystems (o : SystemOptions) : Pass Unit :=
  .stateless .onlyRelations false o.completeSystem

def completeExtraWay (x : Extract) : Element → Extract
  | .way w => if x.extra.ways.contains w.key then x.addWayNodes w else x
  | _ => x

def completeExtraWays : Pass Unit := .stateless .onlyWays false completeExtraWay

def passIfAny (kind : Kind) (number : Nat) (p : Pass Unit) (source : Source) (schedule : Schedule) :
    Step Unit := do
  if anyExtra (← Step.extracts) kind then
    Step.note (.info s!"Pass {number}...")
    Step.pass schedule p () source
    Step.note (.info s!"Pass {number} done")

def run (o : SystemOptions) (source : Source) (schedule : Schedule) : Step Unit := do
  Step.note (.info s!"Running '{name}' strategy in (at most) four passes...")
  Step.note (.info "Pass 1...")
  let survey ← Step.pass schedule o.findPrimary .start source
  Step.note (.info "Pass 1 done")
  let graph := survey.memberships.graph
  Step.updateExtracts fun x => x.addNetwork graph
  passIfAny .relation 2 o.completeSystems source schedule
  passIfAny .way 3 completeExtraWays source schedule
  Step.note (.info "Pass 4...")
  Step.write schedule source
  Step.note (.info "Pass 4 done")

end SystemOptions
end Cutout.Strategy
