/-! Lines of the log. Lines for debugging are not held. -/
namespace Cutout

inductive Level where
  | info
  | warn
  | error
  deriving DecidableEq, Repr

def Level.label : Level → String
  | info => "INFO"
  | warn => "WARN"
  | error => "ERROR"

structure Note where
  level : Level
  text : String
  deriving DecidableEq, Repr

namespace Note

def info (text : String) : Note := ⟨.info, text⟩
def warn (text : String) : Note := ⟨.warn, text⟩

def line (n : Note) : String := n.level.label ++ " " ++ n.text

end Note
end Cutout
