import Cutout.Proofs.Cleaning
import Cutout.Proofs.Decimals
import Cutout.Proofs.XmlReader
/-! Elements of the map found again in the tags of a document: the attributes by their names, in
any order, and the references, members and tags in the order in which they stand. -/
namespace Cutout

namespace Metadata

def texts (m : Metadata) : List String := m.timestamp.toList ++ m.user.toList

def mapTexts (g : String → String) (m : Metadata) : Metadata :=
  { m with timestamp := m.timestamp.map g, user := m.user.map g }

theorem cleanedTexts (g : String → String) (clean : List MetaAttribute) (m : Metadata) :
    (m.mapTexts g).cleaned clean = (m.cleaned clean).mapTexts g := by
  have kept {p : Prop} [Decidable p] (v : Option String) :
      (if p then none else v.map g) = (if p then none else v).map g := by
    split <;> rfl
  simp only [cleanedIs, mapTexts, kept]

theorem textsCleaned (clean : List MetaAttribute) (m : Metadata) :
    (m.cleaned clean).texts ⊆ m.texts := by
  rw [cleanedIs]
  exact List.append_subset.mpr ⟨List.subset_append_of_subset_left _ (keptSubset m.timestamp),
    List.subset_append_of_subset_right _ (keptSubset m.user)⟩

end Metadata

namespace Element

def texts (e : Element) : List String :=
  (match e with
    | relation r => r.members.map Member.role
    | _ => []) ++ e.tags.flatMap (fun tag => [tag.1, tag.2]) ++ e.edit.texts

def mapTexts (g : String → String) (e : Element) : Element :=
  let ofTags (tags : Tags) : Tags := tags.map fun tag => (g tag.1, g tag.2)
  match e with
  | node n => node { n with tags := ofTags n.tags, metadata := n.metadata.map (.mapTexts g) }
  | way w => way { w with tags := ofTags w.tags, metadata := w.metadata.map (.mapTexts g) }
  | relation r => relation { r with
      members := r.members.map fun m => { m with role := g m.role }
      tags := ofTags r.tags, metadata := r.metadata.map (.mapTexts g) }

theorem editTexts (g : String → String) (e : Element) :
    (e.mapTexts g).edit = e.edit.mapTexts g := by
  have mapped (m : Option Metadata) :
      (m.map (.mapTexts g)).getD .blank = (m.getD .blank).mapTexts g := by
    cases m <;> rfl
  cases e <;> exact mapped _

theorem mapTextsSame (e : Element) : e.mapTexts (fun s => s) = e := by
  have edit (m : Option Metadata) : m.map (.mapTexts fun s => s) = m := by
    cases m <;> simp [Metadata.mapTexts]
  cases e <;> simp [mapTexts, edit]

theorem cleanedTexts (g : String → String) (clean : List MetaAttribute) (e : Element) :
    (e.mapTexts g).cleaned clean = (e.cleaned clean).mapTexts g := by
  have blank (m : Metadata) : (m.mapTexts g).unlessBlank = m.unlessBlank.map (.mapTexts g) := by
    have same : m.mapTexts g = .blank ↔ m = .blank := by
      cases m
      simp [Metadata.mapTexts, Metadata.blank]
    unfold Metadata.unlessBlank
    simp only [same]
    split <;> rfl
  rw [cleaned, editTexts, Metadata.cleanedTexts, blank, cleaned]
  cases e <;> rfl

end Element

def Kind.ofLabel? (label : String) : Option Kind := Kind.all.find? fun kind => kind.label == label

theorem Kind.labelReads (k : Kind) : ofLabel? k.label = some k := by cases k <;> rfl

namespace Xml

namespace Tag

def get? (t : Tag) (key : String) : Option String := Tags.get? t.attributes key

def int? (t : Tag) (key : String) : Option Int := (t.get? key).bind fun s => Decimal.int? s.toList

def optionalInt? (t : Tag) (key : String) : Option (Option Int) :=
  match t.get? key with
  | none => some none
  | some s => (Decimal.int? s.toList).map some

def degrees? (t : Tag) (key : String) : Option Int32 := do
  let n ← Decimal.amount? Location.places (← t.get? key).toList
  if Int32.minValue.toInt ≤ n ∧ n ≤ Int32.maxValue.toInt then some (.ofInt n) else none

def metadata? (t : Tag) : Option Metadata := do
  return {
    version := ← t.optionalInt? "version"
    changeset := ← t.optionalInt? "changeset"
    timestamp := t.get? "timestamp"
    uid := ← t.optionalInt? "uid"
    user := t.get? "user"
    visible := t.get? "visible" != some "false" }

def keyValue? (t : Tag) : Option (String × String) := do return (← t.get? "k", ← t.get? "v")

def member? (t : Tag) : Option Member := do
  return ⟨← Kind.ofLabel? (← t.get? "type"), ← t.int? "ref", ← t.get? "role"⟩

end Tag

namespace Tree

def tag : Tree → Tag
  | node tag _ => tag

def children : Tree → List Tree
  | node _ children => children

def named (t : Tree) (name : String) : List Tag := (t.children.map tag).filter (·.name == name)

def element? (t : Tree) : Option Element := do
  let id ← t.tag.int? "id"
  let metadata := (← t.tag.metadata?).unlessBlank
  let tags ← (t.named "tag").mapM Tag.keyValue?
  match ← Kind.ofLabel? t.tag.name with
  | .node => return .node ⟨id, ⟨← t.tag.degrees? "lon", ← t.tag.degrees? "lat"⟩, tags, metadata⟩
  | .way => return .way ⟨id, ← (t.named "nd").mapM (Tag.int? · "ref"), tags, metadata⟩
  | .relation => return .relation ⟨id, ← (t.named "member").mapM Tag.member?, tags, metadata⟩

def elements? (t : Tree) : Option (List Element) :=
  if t.tag.name = "osm" then (t.children.filter (·.tag.name != "bounds")).mapM element? else none

end Tree

theorem getCons (k v key : String) (rest : List (String × String)) :
    Tags.get? ((k, v) :: rest) key = if k = key then some v else Tags.get? rest key := by
  by_cases same : k = key <;> simp [Tags.get?, same]

theorem getOptional (k : String) (v : Option String) (key : String) (rest : List (String × String)) :
    Tags.get? (optional k v ++ rest) key =
      if k = key then v.or (Tags.get? rest key) else Tags.get? rest key := by
  cases v with
  | none => simp [optional]
  | some v => simp [optional, getCons]

theorem getHidden (visible : Bool) (key : String) (rest : List (String × String)) :
    Tags.get? ((if visible then [] else [("visible", "false")]) ++ rest) key =
      if "visible" = key ∧ !visible then some "false" else Tags.get? rest key := by
  cases visible <;> simp [getCons]

theorem optionalReads {t : Tag} {key : String} {n : Option Int} (there : t.get? key = n.map toString) :
    t.optionalInt? key = some n := by
  rw [Tag.optionalInt?, there]
  cases n with
  | none => rfl
  | some n => exact congrArg (Option.map some) (Decimal.intReads n)

theorem degreesRead {t : Tag} {key : String} {units : Int32}
    (there : t.get? key = some (degreesText units)) : t.degrees? key = some units := by
  have range : Int32.minValue.toInt ≤ units.toInt ∧ units.toInt ≤ Int32.maxValue.toInt :=
    ⟨units.minValue_le_toInt, units.toInt_le⟩
  simp only [Tag.degrees?, there, degreesText, Option.bind_eq_bind, Option.bind_some,
    Decimal.amountReads, range, and_self, if_true, Int32.ofInt_toInt]

theorem metadataReads {t : Tag} {id : String} {m : Metadata} {more : List (String × String)}
    (attributes : t.attributes = ("id", id) :: (metadataAttributes m ++ more))
    (others : ∀ key ∈ ["version", "timestamp", "uid", "user", "changeset", "visible"],
      Tags.get? more key = none) : t.metadata? = some m := by
  simp only [List.forall_mem_cons] at others
  obtain ⟨version, timestamp, uid, user, changeset, visible, -⟩ := others
  have version : t.get? "version" = m.version.map toString := by
    simp [Tag.get?, attributes, metadataAttributes, getCons, getOptional, getHidden, version]
  have uid : t.get? "uid" = m.uid.map toString := by
    simp [Tag.get?, attributes, metadataAttributes, getCons, getOptional, getHidden, uid]
  have changeset : t.get? "changeset" = m.changeset.map toString := by
    simp [Tag.get?, attributes, metadataAttributes, getCons, getOptional, getHidden, changeset]
  have timestamp : t.get? "timestamp" = m.timestamp := by
    simp [Tag.get?, attributes, metadataAttributes, getCons, getOptional, getHidden, timestamp]
  have user : t.get? "user" = m.user := by
    simp [Tag.get?, attributes, metadataAttributes, getCons, getOptional, getHidden, user]
  have visible : t.get? "visible" = if m.visible = false then some "false" else none := by
    simp [Tag.get?, attributes, metadataAttributes, getCons, getOptional, getHidden, visible]
  have shown : (t.get? "visible" != some "false") = m.visible := by
    rw [visible]
    cases m.visible <;> rfl
  simp only [Tag.metadata?, optionalReads version, optionalReads uid, optionalReads changeset,
    timestamp, user, shown]
  rfl

theorem mapMReads {α β γ : Type} {f : β → Option γ} {g : α → β} {h : α → γ} {l : List α}
    (one : ∀ x ∈ l, f (g x) = some (h x)) : (l.map g).mapM f = some (l.map h) := by
  induction l with
  | nil => rfl
  | cons x rest ih =>
    have first := one x List.mem_cons_self
    have more := ih fun y y_in => one y (List.mem_cons_of_mem x y_in)
    simp [first, more]

def refTag (id : Int) : Tag := ⟨"nd", [("ref", toString id)]⟩

def memberTag (m : Member) : Tag :=
  ⟨"member", [("type", m.kind.label), ("ref", toString m.id), ("role", m.role)]⟩

def keyValueTag (tag : String × String) : Tag := ⟨"tag", [("k", tag.1), ("v", tag.2)]⟩

def partTags : Element → List Tag
  | .node _ => []
  | .way w => w.refs.map refTag
  | .relation r => r.members.map memberTag

def childTags (e : Element) : List Tag := partTags e ++ e.tags.map keyValueTag

def placeAttributes : Element → List (String × String)
  | .node n => [("lat", degreesText n.location.lat), ("lon", degreesText n.location.lon)]
  | _ => []

def elementTag (clean : List MetaAttribute) (e : Element) : Tag :=
  ⟨e.kind.label, commonAttributes clean e ++ placeAttributes e⟩

def leaf (t : Tag) : Tree := .node t []

def elementTree (clean : List MetaAttribute) (e : Element) : Tree :=
  .node (elementTag clean e) ((childTags e).map leaf)

theorem refReads (id : Int) : (refTag id).int? "ref" = some id := Decimal.intReads id

theorem memberReads (m : Member) : (memberTag m).member? = some m := by
  have kind : (memberTag m).get? "type" = some m.kind.label := rfl
  have id : (memberTag m).int? "ref" = some m.id := Decimal.intReads m.id
  have role : (memberTag m).get? "role" = some m.role := rfl
  simp only [Tag.member?, kind, id, role, Option.bind_eq_bind, Option.bind_some, Kind.labelReads]
  rfl

theorem keyValueReads (tag : String × String) : (keyValueTag tag).keyValue? = some tag := rfl

theorem childrenNamed (clean : List MetaAttribute) (e : Element) (name : String) :
    (elementTree clean e).named name =
      (partTags e).filter (·.name == name) ++ (e.tags.map keyValueTag).filter (·.name == name) := by
  have tags : (childTags e).map (Tree.tag ∘ leaf) = childTags e := List.map_id _
  rw [elementTree, Tree.named, Tree.children, List.map_map, tags, childTags, List.filter_append]

theorem filterNamed {α : Type} (tag : α → Tag) {own : String} (named : ∀ x, (tag x).name = own)
    (l : List α) (name : String) :
    (l.map tag).filter (·.name == name) = if own = name then l.map tag else [] := by
  by_cases same : own = name <;> simp [named, same]

theorem tagsRead (clean : List MetaAttribute) (e : Element) :
    ((elementTree clean e).named "tag").mapM Tag.keyValue? = some e.tags := by
  have parts : (partTags e).filter (·.name == "tag") = [] := by
    cases e with
    | node n => rfl
    | way w => exact filterNamed refTag (fun _ => rfl) w.refs "tag"
    | relation r => exact filterNamed memberTag (fun _ => rfl) r.members "tag"
  have own := filterNamed keyValueTag (fun _ => rfl) e.tags "tag"
  rw [childrenNamed, parts, own, if_pos rfl, List.nil_append, mapMReads fun tag _ => keyValueReads tag,
    List.map_id']

theorem refsRead (clean : List MetaAttribute) (w : Way) :
    ((elementTree clean (.way w)).named "nd").mapM (Tag.int? · "ref") = some w.refs := by
  have parts := filterNamed refTag (fun _ => rfl) w.refs "nd"
  have others := filterNamed keyValueTag (fun _ => rfl) w.tags "nd"
  rw [childrenNamed, partTags, Element.tags, parts, others, if_pos rfl, if_neg (by decide),
    List.append_nil, mapMReads fun ref _ => refReads ref, List.map_id']

theorem membersRead (clean : List MetaAttribute) (r : Relation) :
    ((elementTree clean (.relation r)).named "member").mapM Tag.member? = some r.members := by
  have parts := filterNamed memberTag (fun _ => rfl) r.members "member"
  have others := filterNamed keyValueTag (fun _ => rfl) r.tags "member"
  rw [childrenNamed, partTags, Element.tags, parts, others, if_pos rfl, if_neg (by decide),
    List.append_nil, mapMReads fun m _ => memberReads m, List.map_id']

theorem elementAttributes (clean : List MetaAttribute) (e : Element) :
    (elementTag clean e).attributes = ("id", toString e.id) ::
      (metadataAttributes (e.edit.cleaned clean) ++ placeAttributes e) := by
  rw [elementTag, commonAttributesIs, List.cons_append]

theorem placeReads (clean : List MetaAttribute) (n : Node) :
    (elementTag clean (.node n)).degrees? "lat" = some n.location.lat ∧
    (elementTag clean (.node n)).degrees? "lon" = some n.location.lon := by
  constructor <;> refine degreesRead ?_ <;> rw [Tag.get?, elementAttributes] <;>
    simp [metadataAttributes, placeAttributes, getCons, getOptional, getHidden]

theorem elementReads (clean : List MetaAttribute) (e : Element) :
    (elementTree clean e).element? = some (e.cleaned clean) := by
  have attributes := elementAttributes clean e
  have kind : Kind.ofLabel? (elementTag clean e).name = some e.kind := e.kind.labelReads
  have id : (elementTag clean e).int? "id" = some e.id := by
    rw [Tag.int?, Tag.get?, attributes, getCons, if_pos rfl]
    exact Decimal.intReads e.id
  have metadata : (elementTag clean e).metadata? = some (e.edit.cleaned clean) := by
    refine metadataReads attributes ?_
    cases e <;> simp [placeAttributes, Tags.get?]
  have whole : (elementTree clean e).tag = elementTag clean e := rfl
  simp only [Tree.element?, whole, id, metadata, tagsRead, kind, Option.bind_eq_bind, Option.bind_some]
  cases e with
  | node n =>
    obtain ⟨lat, lon⟩ := placeReads clean n
    simp only [lat, lon]
    rfl
  | way w =>
    simp only [Element.kind, refsRead]
    rfl
  | relation r =>
    simp only [Element.kind, membersRead]
    rfl

theorem elementMarkupIs (clean : List MetaAttribute) (e : Element) : elementMarkup clean e =
    if e.kind = .node ∧ e.tags.isEmpty then [.single (elementTag clean e)]
    else .opening (elementTag clean e) :: (childTags e).map .single ++ [.closing e.kind.label] := by
  have tags (e : Element) : e.tags.map tagMarkup = (e.tags.map keyValueTag).map .single := by
    rw [List.map_map]
    rfl
  cases e with
  | node n =>
    have tags := tags (.node n)
    simp only [Element.tags] at tags
    simp only [elementMarkup, tags, Element.kind, Element.tags, true_and]
    rfl
  | way w =>
    have tags := tags (.way w)
    have refs : w.refs.map refMarkup = (w.refs.map refTag).map .single := by
      rw [List.map_map]
      rfl
    simp [elementMarkup, tags, refs, elementTag, childTags, partTags, placeAttributes, Element.kind]
  | relation r =>
    have tags := tags (.relation r)
    have members : r.members.map memberMarkup = (r.members.map memberTag).map .single := by
      rw [List.map_map]
      rfl
    simp [elementMarkup, tags, members, elementTag, childTags, partTags, placeAttributes, Element.kind]

theorem singlesNest (tags : List Tag) (tag : Tag) (children : List Tree)
    (around : List (Tag × List Tree)) :
    (tags.map Markup.single).foldlM Nest.step ⟨(tag, children) :: around, none⟩ =
      some ⟨(tag, children ++ tags.map leaf) :: around, none⟩ := by
  induction tags generalizing children with
  | nil => simp
  | cons t rest ih =>
    have first : Nest.step ⟨(tag, children) :: around, none⟩ (.single t) =
        some ⟨(tag, children ++ [leaf t]) :: around, none⟩ := rfl
    rw [List.map_cons, List.foldlM_cons, first, Option.bind_eq_bind, Option.bind_some, ih]
    simp

theorem elementNests (clean : List MetaAttribute) (e : Element) (tag : Tag) (children : List Tree)
    (around : List (Tag × List Tree)) :
    (elementMarkup clean e).foldlM Nest.step ⟨(tag, children) :: around, none⟩ =
      some ⟨(tag, children ++ [elementTree clean e]) :: around, none⟩ := by
  rw [elementMarkupIs]
  split
  · rename_i empty
    have no_children : childTags e = [] := by
      cases e with
      | node n => simpa [childTags, partTags, Element.kind, Element.tags] using empty
      | _ => simp [Element.kind] at empty
    simp [elementTree, no_children, Nest.step, Nest.add]
  · have opened : Nest.step ⟨(tag, children) :: around, none⟩ (.opening (elementTag clean e)) =
        some ⟨(elementTag clean e, []) :: (tag, children) :: around, none⟩ := rfl
    rw [List.cons_append, List.foldlM_cons, opened, Option.bind_eq_bind, Option.bind_some,
      List.foldlM_append, singlesNest]
    simp [Nest.step, Nest.add, elementTag, elementTree]

theorem elementsNest (clean : List MetaAttribute) (es : List Element) (tag : Tag)
    (children : List Tree) (around : List (Tag × List Tree)) :
    (es.flatMap (elementMarkup clean)).foldlM Nest.step ⟨(tag, children) :: around, none⟩ =
      some ⟨(tag, children ++ es.map (elementTree clean)) :: around, none⟩ := by
  induction es generalizing children with
  | nil => simp
  | cons e rest ih =>
    rw [List.flatMap_cons, List.foldlM_append, elementNests, Option.bind_eq_bind, Option.bind_some, ih]
    simp

section

variable {g : String → String} (fixed : ∀ s, Graphic s → g s = s)

include fixed

theorem metadataTexts (m : Metadata) : (metadataAttributes m).map (fun a => (a.1, g a.2)) =
    metadataAttributes (m.mapTexts g) := by
  have numbers (n : Option Int) : (n.map toString).map g = n.map toString := by
    cases n with
    | none => rfl
    | some n => exact congrArg some (fixed _ (Decimal.graphicInt n))
  have texts (name : String) (v : Option String) :
      (optional name v).map (fun a => (a.1, g a.2)) = optional name (v.map g) := by
    cases v <;> rfl
  have hidden : g "false" = "false" := fixed _ (by decide)
  simp only [metadataAttributes, List.map_append, texts, numbers, Metadata.mapTexts]
  by_cases shown : m.visible <;> simp [shown, hidden]

theorem elementTagTexts (clean : List MetaAttribute) (e : Element) :
    (elementTag clean e).mapValues g = elementTag clean (e.mapTexts g) := by
  have id : (e.mapTexts g).id = e.id := by cases e <;> rfl
  have kind : (e.mapTexts g).kind = e.kind := by cases e <;> rfl
  have place : (placeAttributes e).map (fun a => (a.1, g a.2)) = placeAttributes (e.mapTexts g) := by
    have degrees (units : Int32) : g (degreesText units) = degreesText units :=
      fixed _ (Decimal.graphicFixed units.toInt Location.places)
    cases e <;> simp [placeAttributes, degrees, Element.mapTexts]
  have attributes := elementAttributes clean e
  have mapped := elementAttributes clean (e.mapTexts g)
  rw [Element.editTexts, Metadata.cleanedTexts, ← metadataTexts fixed, ← place, id] at mapped
  rw [Tag.mapValues, attributes]
  simp only [List.map_cons, List.map_append, fixed _ (Decimal.graphicInt e.id)]
  rw [← mapped]
  exact congrArg (Tag.mk · _) (congrArg Kind.label kind.symm)

theorem childTagsTexts (e : Element) :
    (childTags e).map (.mapValues g) = childTags (e.mapTexts g) := by
  have number (n : Int) : g n.repr = n.repr := fixed _ (Decimal.graphicInt n)
  have label (k : Kind) : g k.label = k.label := by cases k <;> exact fixed _ (by decide)
  have tags : (e.tags.map keyValueTag).map (.mapValues g) = (e.mapTexts g).tags.map keyValueTag := by
    cases e <;> simp [Element.mapTexts, Element.tags, keyValueTag, Tag.mapValues]
  have parts : (partTags e).map (.mapValues g) = partTags (e.mapTexts g) := by
    cases e <;> simp [Element.mapTexts, partTags, refTag, memberTag, Tag.mapValues, number, label]
  rw [childTags, List.map_append, tags, parts, childTags]

theorem elementTexts (clean : List MetaAttribute) (e : Element) :
    (elementMarkup clean e).map (.mapValues g) = elementMarkup clean (e.mapTexts g) := by
  have kind : (e.mapTexts g).kind = e.kind := by cases e <;> rfl
  have empty : (e.mapTexts g).tags.isEmpty = e.tags.isEmpty := by
    cases e <;> simp [Element.mapTexts, Element.tags]
  have singles (tags : List Tag) : (tags.map Markup.single).map (Markup.mapValues g) =
      (tags.map (Tag.mapValues g)).map Markup.single := by
    simp [Markup.mapValues]
  rw [elementMarkupIs, elementMarkupIs, kind, empty]
  split
  · simp [Markup.mapValues, elementTagTexts fixed]
  · simp only [List.map_cons, List.map_append, singles, childTagsTexts fixed, Markup.mapValues,
      elementTagTexts fixed, List.map_nil]

end

theorem labelName (k : Kind) : isName k.label := by cases k <;> decide

theorem optionalKeys (name : String) (v : Option String) :
    ((optional name v).map Prod.fst).Sublist [name] := by
  cases v <;> simp [optional]

theorem elementKeys (clean : List MetaAttribute) (e : Element) :
    ((elementTag clean e).attributes.map Prod.fst).Sublist
      ["id", "version", "timestamp", "uid", "user", "changeset", "visible", "lat", "lon"] := by
  have hidden (visible : Bool) :
      ((if visible then [] else [("visible", "false")]).map Prod.fst).Sublist ["visible"] := by
    cases visible <;> simp
  have place : ((placeAttributes e).map Prod.fst).Sublist ["lat", "lon"] := by
    cases e <;> simp [placeAttributes]
  rw [elementAttributes]
  simp only [metadataAttributes, List.map_cons, List.map_append]
  exact .cons_cons _ <| (((((((optionalKeys ..).append (optionalKeys ..)).append
    (optionalKeys ..)).append (optionalKeys ..)).append (optionalKeys ..)).append
    (hidden _)).append place)

theorem metadataValues (m : Metadata) :
    ∀ a ∈ metadataAttributes m, Graphic a.2 ∨ a.2 ∈ m.texts := by
  have numbers (name : String) (n : Option Int) :
      ∀ a ∈ optional name (n.map toString), Graphic a.2 ∨ a.2 ∈ m.texts := by
    cases n with
    | none => simp [optional]
    | some n => simpa [optional] using .inl (Decimal.graphicInt n)
  have words (name : String) (v : Option String) (own : v.toList ⊆ m.texts) :
      ∀ a ∈ optional name v, Graphic a.2 ∨ a.2 ∈ m.texts := by
    cases v with
    | none => simp [optional]
    | some s => simpa [optional] using .inr (own (by simp))
  have hidden : ∀ a ∈ (if m.visible then [] else [("visible", "false")]),
      Graphic a.2 ∨ a.2 ∈ m.texts := by
    split
    · simp
    · exact List.forall_mem_singleton.mpr (.inl (by decide))
  simp only [metadataAttributes, List.forall_mem_append]
  exact ⟨⟨⟨⟨⟨numbers _ _, words _ _ (List.subset_append_left ..)⟩, numbers _ _⟩,
    words _ _ (List.subset_append_right ..)⟩, numbers _ _⟩, hidden⟩

section

variable {value : List Char → Option (List Char)} {f : String → List Char} {g : String → String}
variable (graphic : ∀ s, Graphic s → Readable value f g s)

include graphic

theorem elementTagReadable (clean : List MetaAttribute) (e : Element)
    (own : ∀ s ∈ e.texts, Readable value f g s) : (elementTag clean e).Readable value f g := by
  refine .ofKeys _ (labelName e.kind) (elementKeys clean e) (by decide) fun a a_in => ?_
  rw [elementAttributes] at a_in
  rcases List.mem_cons.mp a_in with rfl | a_in
  · exact graphic _ (Decimal.graphicInt e.id)
  · rcases List.mem_append.mp a_in with edit | place
    · rcases metadataValues _ a edit with number | text
      · exact graphic _ number
      · exact own _ (List.mem_append_right _ (Metadata.textsCleaned clean e.edit text))
    · cases e with
      | node n =>
        simp only [placeAttributes, List.mem_cons, List.not_mem_nil, or_false] at place
        rcases place with rfl | rfl <;> exact graphic _ (Decimal.graphicFixed _ _)
      | _ => cases place

theorem refReadable (id : Int) : (refTag id).Readable value f g := by
  refine .ofKeys ["ref"] (by decide : isName "nd") (.refl _) (by decide) ?_
  exact List.forall_mem_singleton.mpr (graphic _ (Decimal.graphicInt id))

theorem memberReadable {m : Member} (role : Readable value f g m.role) :
    (memberTag m).Readable value f g := by
  have kind : Readable value f g m.kind.label := graphic _ (by cases m.kind <;> decide)
  refine .ofKeys ["type", "ref", "role"] (by decide : isName "member") (.refl _) (by decide) ?_
  refine List.forall_mem_cons.mpr ⟨kind, List.forall_mem_cons.mpr ⟨?_, ?_⟩⟩
  · exact graphic _ (Decimal.graphicInt m.id)
  · exact List.forall_mem_singleton.mpr role

omit graphic in
theorem keyValueReadable {tag : String × String} (key : Readable value f g tag.1)
    (text : Readable value f g tag.2) : (keyValueTag tag).Readable value f g := by
  refine .ofKeys ["k", "v"] (by decide : isName "tag") (.refl _) (by decide) ?_
  exact List.forall_mem_cons.mpr ⟨key, List.forall_mem_singleton.mpr text⟩

theorem childTagsReadable (e : Element) (own : ∀ s ∈ e.texts, Readable value f g s) :
    ∀ t ∈ childTags e, t.Readable value f g := by
  refine List.forall_mem_append.mpr ⟨?_, List.forall_mem_map.mpr fun tag tag_in => ?_⟩
  · cases e with
    | node n => exact List.forall_mem_nil _
    | way w => exact List.forall_mem_map.mpr fun id _ => refReadable graphic id
    | relation r =>
      refine List.forall_mem_map.mpr fun m m_in => memberReadable graphic (own _ ?_)
      exact List.mem_append_left _ (List.mem_append_left _ (List.mem_map_of_mem m_in))
  · have among (s : String) (s_in : s ∈ [tag.1, tag.2]) : s ∈ e.texts :=
      List.mem_append_left _ (List.mem_append_right _ (List.mem_flatMap.mpr ⟨tag, tag_in, s_in⟩))
    exact keyValueReadable (own _ (among _ (by simp))) (own _ (among _ (by simp)))

theorem elementReadable (clean : List MetaAttribute) (e : Element)
    (own : ∀ s ∈ e.texts, Readable value f g s) :
    ∀ m ∈ elementMarkup clean e, m.Readable value f g := by
  have tag := elementTagReadable graphic clean e own
  have children := childTagsReadable graphic e own
  rw [elementMarkupIs]
  split
  · exact List.forall_mem_singleton.mpr tag
  · simp only [List.mem_append, List.mem_cons, List.mem_map, List.not_mem_nil, or_false]
    rintro m ((rfl | ⟨t, t_in, rfl⟩) | rfl)
    · exact tag
    · exact children t t_in
    · exact labelName e.kind

end

end Xml
end Cutout
