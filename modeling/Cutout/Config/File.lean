import Cutout.Config.Reader
import Cutout.Files
import Cutout.Setting.KeyPath
import Cutout.Toml
import Cutout.Yaml
/-! Configuration files. The format is that of the file's extension; a path that leads to no file is
tried with each extension behind it. -/
namespace Cutout

inductive ConfigFormat where
  | toml
  | json
  | yaml
  deriving DecidableEq, Repr

namespace ConfigFormat

def extensions : List (String × ConfigFormat) :=
  [("toml", toml), ("json", json), ("yaml", yaml), ("yml", yaml)]

def read? (format : ConfigFormat) (text : String) : Option Setting :=
  match format with
  | toml => Toml.parse text
  | json => (Json.parse text).map Setting.ofJson
  | yaml => Yaml.parse text

end ConfigFormat

namespace Config

/-- What a further extension can follow. A path with an extension is kept as it is, and one that
ends with a slash gets a file name; of other paths, slashes and dots at the end are left out. -/
def stem (path : Path) : Option String := do
  if (path.extension?).isSome then
    return if path.text.toList.getLast? == some '/' then path.text ++ ".dummy" else path.text
  else
    let _ ← path.fileName?
    let (_, behind) ← path.located.getLast?
    return String.ofList (path.text.toList.take behind)

def candidates (path : Path) : List Path :=
  path :: match stem path with
    | some stem => ConfigFormat.extensions.map fun (extension, _) => ⟨stem ++ "." ++ extension⟩
    | none => []

def find? (files : Files) (path : Path) : Option (Content × ConfigFormat) :=
  match files.fileAt path with
  | some content => do
    let format ← ConfigFormat.extensions.lookup ((path.extension?).getD "")
    return (content, format)
  | none => do
    let stem ← stem path
    ConfigFormat.extensions.findSome? fun (extension, format) =>
      (files.fileAt ⟨stem ++ "." ++ extension⟩).map fun content => (content, format)

def fieldsOf? (content : Content) (format : ConfigFormat) : Option (List (String × Setting)) := do
  match ← format.read? content.readable with
  | .table fields => some fields
  | _ => none

def load (files : Files) (path : Path) : Except Fault Config :=
  match (find? files path).bind fun (content, format) => fieldsOf? content format with
  | none => .error (.configUnreadable path)
  | some fields =>
    match ofFields? ((path.parent?).getD ⟨""⟩) (Setting.fieldsOf (Setting.assemble fields)) with
    | none => .error (.configInvalid path)
    | some config => do
      config.validate
      return config

end Config
end Cutout
