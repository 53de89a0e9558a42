import Cutout.JsonLines
import Cutout.OutputFormat
import Cutout.Xml
/-! The text of an output as it grows. Writing never fails; a document is closed only once, and what
is written behind its end is laid out on the outermost level. -/
namespace Cutout

namespace OutputFormat

def opening (format : OutputFormat) (bounds : Option Rect) : List String :=
  match format with
  | xml => Xml.start bounds
  | jsonLines => []

def element (format : OutputFormat) (depth : Nat) (clean : List MetaAttribute) (e : Element) :
    List String :=
  match format with
  | xml => Xml.element depth clean e
  | jsonLines => JsonLines.line clean e

def closing : OutputFormat → List String
  | xml => Xml.finish
  | jsonLines => []

end OutputFormat

structure Sink where
  format : OutputFormat
  clean : List MetaAttribute
  text : String
  finished : Bool
  deriving Repr

namespace Sink

def start (format : OutputFormat) (bounds : Option Rect) (clean : List MetaAttribute) : Sink :=
  { format, clean, finished := false, text := String.join (format.opening bounds) }

def depth : Nat := 1

def write (s : Sink) (e : Element) : Sink :=
  let depth := if s.finished then 0 else depth
  { s with text := s.text ++ String.join (s.format.element depth s.clean e) }

def finish (s : Sink) : Sink :=
  if s.finished then s
  else { s with finished := true, text := s.text ++ String.join s.format.closing }

def document (format : OutputFormat) (bounds : Option Rect) (clean : List MetaAttribute)
    (elements : List Element) : String :=
  (elements.foldl write (start format bounds clean)).finish.text

end Sink
end Cutout
