import Cutout.GeoJson
import Cutout.Proofs.Delivery
import Cutout.Proofs.JsonReader
import Cutout.Proofs.XmlElements
import Mathlib.Logic.Function.Iterate
/-! Elements read back from lines of JSON. A reader that takes the fields by their names finds all that an
element said, except whether it is visible; its tags stand in ascending order of their keys. -/
namespace Cutout

open Json (Spells chars)
open JsonLines (array field object)

namespace Ascending

variable {α : Type}

theorem putPerm {key : String} {value : α} {fields : List (String × α)}
    (new : key ∉ fields.map Prod.fst) : (put key value fields).Perm ((key, value) :: fields) := by
  induction fields with
  | nil => exact .refl _
  | cons f rest ih =>
    rw [List.map_cons, List.mem_cons, not_or] at new
    rw [put, if_neg new.1]
    split
    · exact .refl _
    · exact ((ih new.2).cons f).trans (.swap ..)

theorem ofPairsPerm {pairs : List (String × α)} (apart : (pairs.map Prod.fst).Nodup) :
    (ofPairs pairs).Perm pairs := by
  have rest (done : List (String × α)) (apart : ((done ++ pairs).map Prod.fst).Nodup) :
      (pairs.foldl (fun done pair => put pair.1 pair.2 done) done).Perm (done ++ pairs) := by
    clear * - apart
    induction pairs generalizing done with
    | nil => simp
    | cons p more ih =>
      obtain ⟨key, value⟩ := p
      have moved : (done ++ (key, value) :: more).Perm ((key, value) :: done ++ more) :=
        List.perm_middle
      have new : key ∉ done.map Prod.fst := by
        have distinct := (moved.map Prod.fst).nodup_iff.mp apart
        simp only [List.cons_append, List.map_cons, List.map_append, List.nodup_cons, List.mem_append,
          not_or] at distinct
        exact distinct.1.1
      have placed : (put key value done).Perm ((key, value) :: done) := putPerm new
      have same := placed.append_right more
      rw [List.foldl_cons]
      refine (ih (put key value done) ?_).trans (same.trans moved.symm)
      exact ((same.trans moved.symm).map Prod.fst).nodup_iff.mpr apart
  exact rest [] apart

end Ascending

namespace Json

open GeoJson (text? list?)

def int? : Json → Option Int
  | integer n => some n
  | _ => none

def optional? {α : Type} (read : Json → Option α) (j : Json) (key : String) : Option (Option α) :=
  match j.get? key with
  | none => some none
  | some value => (read value).map some

def metadata? (j : Json) : Option Metadata := do
  return {
    version := ← optional? int? j "version"
    changeset := ← optional? int? j "changeset"
    timestamp := ← optional? text? j "timestamp"
    uid := ← optional? int? j "uid"
    user := ← optional? text? j "user"
    visible := true }

def tag? (field : String × Json) : Option (String × String) := do return (field.1, ← text? field.2)

def tags? : Json → Option Tags
  | object fields => fields.mapM tag?
  | _ => none

def member? (j : Json) : Option Member := do
  let kind ← Kind.ofLabel? (← text? (← j.get? "type"))
  return ⟨kind, ← int? (← j.get? "ref"), ← text? (← j.get? "role")⟩

def element? (j : Json) : Option Element := do
  let id ← int? (← j.get? "id")
  let metadata := (← j.metadata?).unlessBlank
  let tags := (← optional? tags? j "tags").getD []
  match ← Kind.ofLabel? (← text? (← j.get? "type")) with
  | .node =>
    let location := .ofDegrees (← number? (← j.get? "lon")) (← number? (← j.get? "lat"))
    return .node ⟨id, location, tags, metadata⟩
  | .way => return .way ⟨id, ← list? int? (← j.get? "nodes"), tags, metadata⟩
  | .relation => return .relation ⟨id, ← list? member? (← j.get? "members"), tags, metadata⟩

end Json

namespace Metadata

def numbers (m : Metadata) : List Int := m.version.toList ++ m.changeset.toList ++ m.uid.toList

theorem numbersCleaned (clean : List MetaAttribute) (m : Metadata) :
    (m.cleaned clean).numbers ⊆ m.numbers := by
  rw [cleanedIs, numbers, numbers, List.append_assoc, List.append_assoc]
  refine List.append_subset.mpr ⟨?_, List.append_subset.mpr ⟨?_, ?_⟩⟩
  · exact List.subset_append_of_subset_left _ (keptSubset m.version)
  · exact List.subset_append_of_subset_right _ (List.subset_append_of_subset_left _ (keptSubset m.changeset))
  · exact List.subset_append_of_subset_right _ (List.subset_append_of_subset_right _ (keptSubset m.uid))

end Metadata

namespace Element

def numbers (e : Element) : List Int :=
  e.id :: (match e with
    | node _ => []
    | way w => w.refs
    | relation r => r.members.map Member.id) ++ e.edit.numbers

def withTags (e : Element) (tags : Tags) : Element :=
  match e with
  | node n => node { n with tags := tags }
  | way w => way { w with tags := tags }
  | relation r => relation { r with tags := tags }

/-- The other element says the same, once the attributes are left out, in any order of its tags; of its
visibility it says nothing. -/
structure Survives (clean : List MetaAttribute) (e found : Element) : Prop where
  bare : found.bare = (e.withTags found.tags).bare
  tags : found.tags.Perm e.tags
  edit : found.edit = { e.edit.cleaned clean with visible := true }

end Element

namespace JsonLines

structure Field where
  name : String
  pieces : List String
  value : Json

namespace Field

def print (f : Field) : List String := field f.name f.pieces

def object (fs : List Field) : Json := .object (fs.map fun f => (f.name, f.value))

def optional {α : Type} (name : String) (value : Option α) (pieces : α → List String)
    (json : α → Json) : List Field :=
  value.toList.map fun a => ⟨name, pieces a, json a⟩

def int (name : String) (n : Int) : Field := ⟨name, [toString n], .integer n⟩

def text (name s : String) : Field := ⟨name, Json.printText s, .string s⟩

end Field

def tagsValue (tags : Tags) : Json :=
  .object ((Ascending.ofPairs tags).map fun tag => (tag.1, .string tag.2))

def memberFields (m : Member) : List Field :=
  [.int "ref" m.id, .text "role" m.role, .text "type" m.kind.label]

def partFields : Element → List Field
  | .node n => [⟨"lat", [degreesText n.location.lat], .real (Location.degrees n.location.lat)⟩,
      ⟨"lon", [degreesText n.location.lon], .real (Location.degrees n.location.lon)⟩]
  | .way w => [⟨"nodes", array (w.refs.map fun id => [toString id]), .array (w.refs.map .integer)⟩]
  | .relation r => [⟨"members", array (r.members.map member),
      .array (r.members.map fun m => Field.object (memberFields m))⟩]

def elementFields (clean : List MetaAttribute) (e : Element) : List Field :=
  let m := e.edit.cleaned clean
  Field.optional "changeset" m.changeset (fun n => [toString n]) .integer ++ .int "id" e.id ::
    partFields e ++
    Field.optional "tags" (if e.tags.isEmpty then none else some e.tags) tagsObject tagsValue ++
    Field.optional "timestamp" m.timestamp Json.printText .string ++ .text "type" e.kind.label ::
    Field.optional "uid" m.uid (fun n => [toString n]) .integer ++
    Field.optional "user" m.user Json.printText .string ++
    Field.optional "version" m.version (fun n => [toString n]) .integer

theorem optionalPrinted {α : Type} (name : String) (value : Option α) (pieces : α → List String)
    (json : α → Json) : (Field.optional name value pieces json).map Field.print =
      value.toList.map fun a => field name (pieces a) := by
  rw [Field.optional, List.map_map]
  rfl

theorem elementIs (clean : List MetaAttribute) (e : Element) :
    element clean e = object ((elementFields clean e).map Field.print) := by
  have tags : (if e.tags.isEmpty then [] else [field "tags" (tagsObject e.tags)]) =
      (if e.tags.isEmpty then none else some e.tags).toList.map (field "tags" <| tagsObject ·) := by
    split <;> rfl
  unfold element elementFields
  simp only [List.map_append, List.map_cons, optionalPrinted, tags]
  cases e <;>
    simp [partFields, Field.print, Field.int, Field.text, number, JsonLines.text, Element.edit]

theorem memberIs (m : Member) : member m = object ((memberFields m).map Field.print) := rfl

theorem tagsSpell (depth : Nat) {tags : Tags} (apart : (tags.map Prod.fst).Nodup) :
    Spells (depth + 1) (tagsObject tags) (tagsValue tags) := by
  have distinct := ((Ascending.ofPairsPerm apart).map Prod.fst).nodup_iff.mpr apart
  exact Json.objectSpells (fun tag _ => Json.textSpells depth tag.2) distinct

theorem fieldsSpell {depth : Nat} {fs : List Field} (apart : (fs.map Field.name).Nodup)
    (each : ∀ f ∈ fs, Spells depth f.pieces f.value) :
    Spells (depth + 1) (object (fs.map Field.print)) (Field.object fs) :=
  Json.objectSpells each apart

theorem memberSpells (depth : Nat) {m : Member} (low : -2 ^ 63 ≤ m.id) (high : m.id < 2 ^ 63) :
    Spells (depth + 1) (member m) (Field.object (memberFields m)) := by
  have apart : ["ref", "role", "type"].Nodup := by decide
  refine memberIs m ▸ fieldsSpell apart ?_
  simp only [memberFields, List.forall_mem_cons]
  exact ⟨Json.intSpells depth low high, Json.textSpells depth _, Json.textSpells depth _,
    List.forall_mem_nil _⟩

theorem optionalSpell {α : Type} {depth : Nat} {name : String} {value : Option α}
    {pieces : α → List String} {json : α → Json} (spells : ∀ a ∈ value, Spells depth (pieces a) (json a)) :
    ∀ f ∈ Field.optional name value pieces json, Spells depth f.pieces f.value := by
  cases value with
  | none => exact List.forall_mem_nil _
  | some a => exact List.forall_mem_singleton.mpr (spells a rfl)

theorem partsSpell (depth : Nat) {e : Element} (small : ∀ n ∈ e.numbers, -2 ^ 63 ≤ n ∧ n < 2 ^ 63) :
    ∀ f ∈ partFields e, Spells (depth + 2) f.pieces f.value := by
  cases e with
  | node n =>
    simp only [partFields, List.forall_mem_cons]
    exact ⟨Json.degreesSpells .., Json.degreesSpells .., List.forall_mem_nil _⟩
  | way w =>
    refine List.forall_mem_singleton.mpr (Json.arraySpells fun id id_in => ?_)
    have bounds := small id (by simp [Element.numbers, id_in])
    exact Json.intSpells _ bounds.1 bounds.2
  | relation r =>
    refine List.forall_mem_singleton.mpr (Json.arraySpells fun m m_in => ?_)
    have known : m.id ∈ (Element.relation r).numbers :=
      List.mem_append_left _ (List.mem_cons_of_mem _ (List.mem_map_of_mem m_in))
    have bounds := small m.id known
    exact memberSpells depth bounds.1 bounds.2

theorem optionalNames {α : Type} (name : String) (value : Option α) (pieces : α → List String)
    (json : α → Json) : ((Field.optional name value pieces json).map Field.name).Sublist [name] := by
  cases value <;> simp [Field.optional]

theorem elementNames (clean : List MetaAttribute) (e : Element) :
    ((elementFields clean e).map Field.name).Sublist ["changeset", "id", "lat", "lon", "nodes",
      "members", "tags", "timestamp", "type", "uid", "user", "version"] := by
  have parts : ((partFields e).map Field.name).Sublist ["lat", "lon", "nodes", "members"] := by
    cases e <;> simp [partFields]
  simp only [elementFields, List.map_append, List.map_cons]
  exact ((((((optionalNames ..).append (parts.cons_cons _)).append (optionalNames ..)).append
    (optionalNames ..)).append ((optionalNames ..).cons_cons _)).append (optionalNames ..)).append
    (optionalNames ..)

theorem elementSpells (clean : List MetaAttribute) {e : Element} (apart : (e.tags.map Prod.fst).Nodup)
    (small : ∀ n ∈ e.numbers, -2 ^ 63 ≤ n ∧ n < 2 ^ 63) :
    Spells Json.maxDepth (element clean e) (Field.object (elementFields clean e)) := by
  have known (n : Int) (n_in : n ∈ e.numbers) : Spells 126 [toString n] (.integer n) :=
    Json.intSpells _ (small n n_in).1 (small n n_in).2
  have edit (n : Int) (n_in : n ∈ (e.edit.cleaned clean).numbers) :
      Spells 126 [toString n] (.integer n) :=
    known n (List.mem_append_right _ (Metadata.numbersCleaned clean e.edit n_in))
  have distinct := (elementNames clean e).nodup (by decide)
  refine elementIs clean e ▸ fieldsSpell distinct ?_
  simp only [elementFields, List.forall_mem_append, List.forall_mem_cons]
  refine ⟨⟨⟨⟨⟨⟨?_, ?_, partsSpell 124 small⟩, ?_⟩, ?_⟩, ?_, ?_⟩, ?_⟩, ?_⟩
  · exact optionalSpell fun n n_is => edit n (by simp_all [Metadata.numbers])
  · exact known e.id List.mem_cons_self
  · refine optionalSpell fun tags tags_are => ?_
    split at tags_are
    · cases tags_are
    · cases tags_are
      exact tagsSpell 125 apart
  · exact optionalSpell fun s _ => Json.textSpells _ s
  · exact Json.textSpells _ _
  · exact optionalSpell fun n n_is => edit n (by simp_all [Metadata.numbers])
  · exact optionalSpell fun s _ => Json.textSpells _ s
  · exact optionalSpell fun n n_is => edit n (by simp_all [Metadata.numbers])

theorem getCons (f : Field) (fs : List Field) (key : String) : (Field.object (f :: fs)).get? key =
    if f.name = key then some f.value else (Field.object fs).get? key :=
  Keyed.getCons f.name f.value _ key

theorem getOptional {α : Type} (name : String) (value : Option α) (pieces : α → List String)
    (json : α → Json) (fs : List Field) (key : String) :
    (Field.object (Field.optional name value pieces json ++ fs)).get? key =
      if name = key then (value.map json).or ((Field.object fs).get? key)
      else (Field.object fs).get? key := by
  cases value with
  | none => simp [Field.optional]
  | some a => simp [Field.optional, getCons]

theorem getAlone {α : Type} (name : String) (value : Option α) (pieces : α → List String)
    (json : α → Json) (key : String) : (Field.object (Field.optional name value pieces json)).get? key =
      if name = key then value.map json else none := by
  have found := getOptional name value pieces json [] key
  rw [List.append_nil] at found
  rw [found]
  cases value <;> rfl

theorem getParts (e : Element) (fs : List Field) {key : String}
    (other : key ∉ ["lat", "lon", "nodes", "members"]) :
    (Field.object (partFields e ++ fs)).get? key = (Field.object fs).get? key := by
  simp only [List.mem_cons, List.not_mem_nil, or_false, not_or] at other
  cases e <;> simp [partFields, getCons, Ne.symm other.1, Ne.symm other.2.1, Ne.symm other.2.2.1,
    Ne.symm other.2.2.2]

theorem fieldsFound (clean : List MetaAttribute) (e : Element) :
    let m := e.edit.cleaned clean
    let j := Field.object (elementFields clean e)
    (j.get? "id" = some (.integer e.id) ∧ j.get? "type" = some (.string e.kind.label)) ∧
    j.get? "version" = m.version.map .integer ∧ j.get? "changeset" = m.changeset.map .integer ∧
    j.get? "timestamp" = m.timestamp.map .string ∧ j.get? "uid" = m.uid.map .integer ∧
    j.get? "user" = m.user.map .string ∧
    j.get? "tags" = (if e.tags.isEmpty then none else some e.tags).map tagsValue := by
  simp [elementFields, getCons, getOptional, getAlone, getParts, Field.int, Field.text]

theorem optionalReads {α β : Type} {read : Json → Option β} {json : α → Json} {found : α → β} {j : Json}
    {key : String} {value : Option α} (there : j.get? key = value.map json)
    (reads : ∀ a, read (json a) = some (found a)) :
    Json.optional? read j key = some (value.map found) := by
  rw [Json.optional?, there]
  cases value with
  | none => rfl
  | some a => exact congrArg (Option.map some) (reads a)

theorem intReads {j : Json} {key : String} {value : Option Int}
    (there : j.get? key = value.map .integer) : Json.optional? Json.int? j key = some value := by
  have found : Json.optional? Json.int? j key = some (value.map fun n => n) :=
    optionalReads there fun _ => rfl
  rw [found, Option.map_id']

theorem textReads {j : Json} {key : String} {value : Option String}
    (there : j.get? key = value.map .string) : Json.optional? GeoJson.text? j key = some value := by
  have found : Json.optional? GeoJson.text? j key = some (value.map fun s => s) :=
    optionalReads there fun _ => rfl
  rw [found, Option.map_id']

theorem metadataReads (clean : List MetaAttribute) (e : Element) :
    (Field.object (elementFields clean e)).metadata? =
      some { e.edit.cleaned clean with visible := true } := by
  obtain ⟨-, version, changeset, timestamp, uid, user, -⟩ := fieldsFound clean e
  simp only [Json.metadata?, intReads version, intReads changeset, textReads timestamp, intReads uid,
    textReads user, Option.bind_eq_bind, Option.bind_some]
  rfl

theorem tagsReads (tags : Tags) : (tagsValue tags).tags? = some (Ascending.ofPairs tags) := by
  have each (tag : String × String) : Json.tag? (tag.1, .string tag.2) = some tag := rfl
  rw [tagsValue, Json.tags?, Xml.mapMReads fun tag _ => each tag, List.map_id']

theorem listReads {α : Type} {read : Json → Option α} {json : α → Json}
    (one : ∀ a, read (json a) = some a) (list : List α) :
    GeoJson.list? read (.array (list.map json)) = some list := by
  rw [GeoJson.list?, GeoJson.items?, Option.bind_eq_bind, Option.bind_some,
    Xml.mapMReads fun a _ => one a, List.map_id']

theorem memberReads (m : Member) : (Field.object (memberFields m)).member? = some m := by
  have kind : Kind.ofLabel? m.kind.label = some m.kind := m.kind.labelReads
  simp [Json.member?, memberFields, getCons, Field.int, Field.text, GeoJson.text?, Json.int?, kind]

def recovered (clean : List MetaAttribute) (e : Element) : Element :=
  (e.withTags (Ascending.ofPairs e.tags)).withMetadata
    (Metadata.unlessBlank { e.edit.cleaned clean with visible := true })

theorem elementReads (clean : List MetaAttribute) (e : Element) :
    (Field.object (elementFields clean e)).element? = some (recovered clean e) := by
  obtain ⟨⟨id, kind⟩, -, -, -, -, -, tags⟩ := fieldsFound clean e
  have tags := optionalReads tags tagsReads
  have all_tags : ((if e.tags.isEmpty then none else some e.tags).map Ascending.ofPairs).getD [] =
      Ascending.ofPairs e.tags := by
    split
    · rename_i empty
      rw [List.isEmpty_iff.mp empty]
      rfl
    · rfl
  have metadata := metadataReads clean e
  have label : Kind.ofLabel? e.kind.label = some e.kind := e.kind.labelReads
  simp only [Json.element?, id, kind, metadata, tags, all_tags, GeoJson.text?, Json.int?, label,
    Option.bind_eq_bind, Option.bind_some]
  cases e with
  | node n =>
    have lat : (Field.object (elementFields clean (.node n))).get? "lat" =
        some (.real (Location.degrees n.location.lat)) := by
      simp [elementFields, partFields, getCons, getOptional, Field.int]
    have lon : (Field.object (elementFields clean (.node n))).get? "lon" =
        some (.real (Location.degrees n.location.lon)) := by
      simp [elementFields, partFields, getCons, getOptional, Field.int]
    simp only [Element.kind, lat, lon, Json.number?, Location.ofDegrees, Option.bind_some,
      Location.fixedDegrees]
    rfl
  | way w =>
    have nodes : (Field.object (elementFields clean (.way w))).get? "nodes" =
        some (.array (w.refs.map .integer)) := by
      simp [elementFields, partFields, getCons, getOptional, Field.int]
    have each (id : Int) : Json.int? (.integer id) = some id := rfl
    have refs := listReads each w.refs
    simp only [Element.kind, nodes, refs, Option.bind_some]
    rfl
  | relation r =>
    have members : (Field.object (elementFields clean (.relation r))).get? "members" =
        some (.array (r.members.map fun m => Field.object (memberFields m))) := by
      simp [elementFields, partFields, getCons, getOptional, Field.int]
    have parts := listReads memberReads r.members
    simp only [Element.kind, members, parts, Option.bind_some]
    rfl

theorem recoveredSurvives (clean : List MetaAttribute) {e : Element}
    (apart : (e.tags.map Prod.fst).Nodup) : e.Survives clean (recovered clean e) := by
  have tags : (recovered clean e).tags = Ascending.ofPairs e.tags := by cases e <;> rfl
  refine ⟨?_, tags ▸ Ascending.ofPairsPerm apart, ?_⟩
  · cases e <;> rfl
  · rw [Element.edit, recovered, Element.metadataWith, Metadata.getUnlessBlank]

def lineText (clean : List MetaAttribute) (e : Element) : String := String.join (element clean e)

end JsonLines

namespace Sink

open JsonLines (lineText)

theorem linesText (bounds : Option Rect) (clean : List MetaAttribute) (es : List Element) (n : Nat) :
    (finish^[n] (es.foldl write (start .jsonLines bounds clean))).text =
      String.join (es.map fun e => lineText clean e ++ "\n") := by
  have closed (s : Sink) (lines : s.format = .jsonLines) :
      (finish^[n] s).text = s.text := by
    induction n generalizing s with
    | zero => rfl
    | succ n ih =>
      have same : s.finish.text = s.text ∧ s.finish.format = s.format := by
        unfold finish
        split <;> simp [lines, OutputFormat.closing]
      rw [Function.iterate_succ_apply, ih s.finish (same.2.trans lines), same.1]
  have all := writeAll .jsonLines clean "" es
  have opened : start .jsonLines bounds clean = ⟨.jsonLines, clean, "", false⟩ := rfl
  rw [opened, all, closed _ rfl, ← String.toList_inj]
  simp [String.toList_join, List.flatMap_assoc, List.flatMap_map, OutputFormat.element, JsonLines.line,
    lineText]

/-- Each element has a line of its own, in which all that it says is found again, however often the
output is closed. The numbers have 64 bits. -/
theorem linesReadBack (bounds : Option Rect) (clean : List MetaAttribute) (es : List Element)
    (apart : ∀ e ∈ es, (e.tags.map Prod.fst).Nodup)
    (small : ∀ e ∈ es, ∀ n ∈ e.numbers, -2 ^ 63 ≤ n ∧ n < 2 ^ 63) (n : Nat) :
    ∃ (lines : List String) (found : List Element),
      (finish^[n] (es.foldl write (start .jsonLines bounds clean))).text =
        String.join (lines.map (· ++ "\n")) ∧
      lines.length = es.length ∧ (∀ line ∈ lines, ∀ c ∈ line.toList, c ≠ '\n' ∧ c ≠ '\r') ∧
      lines.mapM (fun line => (Json.parse line).bind Json.element?) = some found ∧
      List.Forall₂ (Element.Survives clean) es found := by
  have spells (e : Element) (e_in : e ∈ es) :=
    JsonLines.elementSpells clean (apart e e_in) (small e e_in)
  refine ⟨es.map (lineText clean), es.map (JsonLines.recovered clean), ?_, List.length_map _, ?_, ?_, ?_⟩
  · rw [linesText, List.map_map]
    rfl
  · intro line line_in c c_in
    obtain ⟨e, e_in, rfl⟩ := List.mem_map.mp line_in
    rw [lineText, Json.charsJoined] at c_in
    have high := (spells e e_in).unbroken c c_in
    constructor <;> rintro rfl <;> exact absurd high (by decide)
  · refine Xml.mapMReads fun e e_in => ?_
    rw [lineText, Json.parseSpelled (spells e e_in), Option.bind_some, JsonLines.elementReads]
  · rw [List.forall₂_map_right_iff, List.forall₂_same]
    exact fun e e_in => JsonLines.recoveredSurvives clean (apart e e_in)

def strange : List Element :=
  [.node ⟨-9223372036854775808, ⟨-7, 1800000000⟩, [("b\"\\", "\n\r\t"), ("a", "\x00\x1f\u2028")],
      some ⟨some 2, some 9223372036854775807, some "2024", none, some "", false⟩⟩,
    .way ⟨1, [3, -3, 3], [], none⟩,
    .relation ⟨2, [⟨.relation, 2, "\x7b/\x7d"⟩], [("type", "\x7f")], some .blank⟩]

theorem strangeReadBack : ∃ (lines : List String) (found : List Element),
    (finish^[1] (strange.foldl write (start .jsonLines none [.user]))).text =
      String.join (lines.map (· ++ "\n")) ∧
    lines.length = strange.length ∧ (∀ line ∈ lines, ∀ c ∈ line.toList, c ≠ '\n' ∧ c ≠ '\r') ∧
    lines.mapM (fun line => (Json.parse line).bind Json.element?) = some found ∧
    List.Forall₂ (Element.Survives [.user]) strange found :=
  linesReadBack none [.user] strange (by decide) (by decide) 1

end Sink
end Cutout
