import Cutout.Strategy.FirstNode
import Cutout.Strategy.RelationSystems
/-! The strategies by name. -/
namespace Cutout

inductive Strategy where
  | systems (options : Strategy.SystemOptions)
  | firstNode (options : Strategy.FirstNodeOptions)
  deriving DecidableEq, Repr

namespace Strategy

def available : List String := [SystemOptions.name, FirstNodeOptions.name]

def defaultName : String := SystemOptions.name

def create (name : String) (options : Options) : Except Fault (Strategy × List Note) :=
  if name = SystemOptions.name then
    let (o, notes) := SystemOptions.parse options
    .ok (systems o, notes)
  else if name = FirstNodeOptions.name then
    let (o, notes) := FirstNodeOptions.parse options
    .ok (firstNode o, notes)
  else .error (.unknownStrategy name available)

def name : Strategy → String
  | systems _ => SystemOptions.name
  | firstNode _ => FirstNodeOptions.name

def arguments : Strategy → List Note
  | systems o => o.arguments
  | firstNode o => o.arguments

def checkSource (s : Strategy) (source : Source) : Except Fault Unit :=
  if source.rereadable then .ok () else .error (.notRereadable s.name)

def steps (s : Strategy) (source : Source) (schedule : Schedule) : Step Unit :=
  match s with
  | systems o => o.run source schedule
  | firstNode o => o.run source schedule

def run (s : Strategy) (source : Source) (extracts : List Extract)
    (schedule : Schedule := .oneByOne) : Outcome :=
  match s.checkSource source with
  | .error fault => ⟨.start extracts, .error fault⟩
  | .ok () => (s.steps source schedule).outcome extracts

end Strategy
end Cutout
