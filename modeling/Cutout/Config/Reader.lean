import Cutout.Ascending
import Cutout.Config
/-! Configurations from values. Fields that are not known do not count, and texts and numbers are
taken in any form that stands for one. -/
namespace Cutout

namespace Setting

def path? (s : Setting) : Option Path := s.text?.map Path.mk

def format? : Setting → Option OutputFormat
  | text name => OutputFormat.ofName name
  | table [(name, _)] => OutputFormat.ofName name
  | _ => none

def texts? : Setting → Option (List (String × String))
  | table fields => do
    let pairs ← fields.mapM fun (key, value) => do return (key, ← value.text?)
    return Ascending.ofPairs pairs
  | _ => none

def optionalField? {α : Type} (read : Setting → Option α) (fields : List (String × Setting))
    (key : String) : Option (Option α) :=
  match Keyed.get? fields key with
  | some value => value.optional? read
  | none => some none

end Setting

namespace Entry

open Setting

def names : List String :=
  ["output", "output_format", "description", "bbox", "polygon", "geojson", "conflicting_tags",
    "matching_tags"]

def ofFields? (fields : List (String × Setting)) : Option Entry := do
  return {
    output := ← path? (← Keyed.get? fields "output")
    format := ← optionalField? format? fields "output_format"
    description := ← optionalField? text? fields "description"
    bbox := ← optionalField? (listOf? number?) fields "bbox"
    polygon := ← optionalField? (listOf? (listOf? (listOf? number?))) fields "polygon"
    geojson := ← optionalField? path? fields "geojson"
    conflicting := ← optionalField? text? fields "conflicting_tags"
    matching := ← optionalField? text? fields "matching_tags" }

def ofSetting? : Setting → Option Entry
  | .table fields => ofFields? fields
  | .list items => ofFields? (names.zip items)
  | _ => none

end Entry

namespace Config

open Setting

def ofFields? (base : Path) (fields : List (String × Setting)) : Option Config := do
  return {
    directory := ← optionalField? path? fields "directory"
    strategy := ← optionalField? text? fields "strategy"
    options := ← match Keyed.get? fields "options" with
      | some options => options.texts?
      | none => some []
    entries := ← listOf? Entry.ofSetting? (← Keyed.get? fields "extracts")
    base }

end Config
end Cutout
