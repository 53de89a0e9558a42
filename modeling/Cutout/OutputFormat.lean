import Cutout.Path
import Cutout.MetaAttribute
/-! The formats that extracts are written in. -/
namespace Cutout

inductive OutputFormat where
  | xml
  | jsonLines
  deriving DecidableEq, Repr

namespace OutputFormat

def label : OutputFormat → String
  | xml => "xml"
  | jsonLines => "jsonl"

def ofName : String → Option OutputFormat
  | "xml" | "osm" => some xml
  | "jsonl" | "ndjson" => some jsonLines
  | _ => none

def ofPath (p : Path) : Option OutputFormat := do
  match lowered (← p.extension?) with
  | "osm" | "xml" => some xml
  | "jsonl" | "json" | "ndjson" => some jsonLines
  | _ => none

end OutputFormat
end Cutout
