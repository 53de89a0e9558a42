import Cutout.Yaml.Node
/-! A reader of YAML: mappings and lists as blocks and in brackets, plain and quoted texts, blocks
of text, anchors, tags, comments and document marks. Keys are texts. -/
namespace Cutout.Yaml

def unified : List Char → List Char
  | [] => []
  | '\r' :: '\n' :: cs => '\n' :: unified cs
  | '\r' :: cs => '\n' :: unified cs
  | c :: cs => c :: unified cs

def parse (text : String) : Option Setting := (tokens (unified text.toList)).bind document

end Cutout.Yaml
