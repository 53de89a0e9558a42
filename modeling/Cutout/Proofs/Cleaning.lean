import Cutout.Proofs.Passes
import Cutout.Sink
/-! Elements without the metadata that is left out. What is written for an element depends on nothing
else: two elements that differ only in attributes that are left out have the same text in either format. -/
namespace Cutout

namespace Metadata

structure AgreeBut (clean : List MetaAttribute) (m n : Metadata) : Prop where
  version : .version ∉ clean → m.version = n.version
  changeset : .changeset ∉ clean → m.changeset = n.changeset
  timestamp : .timestamp ∉ clean → m.timestamp = n.timestamp
  uid : .uid ∉ clean → m.uid = n.uid
  user : .user ∉ clean → m.user = n.user
  visible : m.visible = n.visible

theorem cleanedIs (clean : List MetaAttribute) (m : Metadata) : m.cleaned clean =
    ⟨if .version ∈ clean then none else m.version,
      if .changeset ∈ clean then none else m.changeset,
      if .timestamp ∈ clean then none else m.timestamp,
      if .uid ∈ clean then none else m.uid,
      if .user ∈ clean then none else m.user, m.visible⟩ := by
  induction clean generalizing m with
  | nil => simp [cleaned]
  | cons a rest ih =>
    have step : m.cleaned (a :: rest) = (m.without a).cleaned rest := rfl
    rw [step, ih]
    cases a <;> simp [without]

theorem cleanedIff {clean : List MetaAttribute} {m n : Metadata} :
    m.cleaned clean = n.cleaned clean ↔ m.AgreeBut clean n := by
  have kept {α : Type} {p : Prop} [Decidable p] {a b : Option α} :
      ((if p then none else a) = if p then none else b) ↔ (¬ p → a = b) := by
    by_cases known : p <;> simp [known]
  rw [cleanedIs, cleanedIs, Metadata.mk.injEq]
  simp only [kept]
  constructor
  · intro ⟨version, changeset, timestamp, uid, user, visible⟩
    exact ⟨version, changeset, timestamp, uid, user, visible⟩
  · intro agree
    exact ⟨agree.version, agree.changeset, agree.timestamp, agree.uid, agree.user, agree.visible⟩

theorem keptSubset {α : Type} {p : Prop} [Decidable p] (v : Option α) :
    (if p then none else v).toList ⊆ v.toList := by
  split <;> simp

@[simp] theorem cleanedTwice (clean : List MetaAttribute) (m : Metadata) :
    (m.cleaned clean).cleaned clean = m.cleaned clean := by
  have stays {α : Type} {p : Prop} [Decidable p] {a : Option α} :
      (if p then none else if p then none else a) = if p then none else a := by
    by_cases known : p <;> simp [known]
  simp only [cleanedIs, stays]

@[simp] theorem cleanedBlank (clean : List MetaAttribute) : blank.cleaned clean = blank := by
  simp [cleanedIs, blank]

def unlessBlank (m : Metadata) : Option Metadata := if m = blank then none else some m

@[simp] theorem getUnlessBlank (m : Metadata) : m.unlessBlank.getD blank = m := by
  unfold unlessBlank
  split
  · rename_i nothing
    exact nothing.symm
  · rfl

end Metadata

namespace Element

def edit (e : Element) : Metadata := e.metadata.getD .blank

structure AgreeBut (clean : List MetaAttribute) (e f : Element) : Prop where
  bare : e.bare = f.bare
  edit : e.edit.AgreeBut clean f.edit

def withMetadata (e : Element) (m : Option Metadata) : Element :=
  match e with
  | node n => node { n with metadata := m }
  | way w => way { w with metadata := m }
  | relation r => relation { r with metadata := m }

def cleaned (clean : List MetaAttribute) (e : Element) : Element :=
  e.withMetadata (e.edit.cleaned clean).unlessBlank

theorem bareWith (e : Element) (m : Option Metadata) : (e.withMetadata m).bare = e.bare := by
  cases e <;> rfl

theorem withBare (e : Element) (m : Option Metadata) : e.bare.withMetadata m = e.withMetadata m := by
  cases e <;> rfl

theorem metadataWith (e : Element) (m : Option Metadata) : (e.withMetadata m).metadata = m := by
  cases e <;> rfl

theorem bareCleaned (clean : List MetaAttribute) (e : Element) : (e.cleaned clean).bare = e.bare :=
  bareWith e _

theorem editCleaned (clean : List MetaAttribute) (e : Element) :
    (e.cleaned clean).edit = e.edit.cleaned clean := by
  rw [edit, cleaned, metadataWith, Metadata.getUnlessBlank]

theorem cleanedIff {clean : List MetaAttribute} {e f : Element} :
    e.cleaned clean = f.cleaned clean ↔ e.AgreeBut clean f := by
  constructor
  · intro same
    have bare := congrArg bare same
    have edit := congrArg edit same
    rw [bareCleaned, bareCleaned] at bare
    rw [editCleaned, editCleaned] at edit
    exact ⟨bare, Metadata.cleanedIff.mp edit⟩
  · intro agree
    have bare := congrArg (·.withMetadata (f.edit.cleaned clean).unlessBlank) agree.bare
    simp only [withBare] at bare
    rw [cleaned, cleaned, Metadata.cleanedIff.mpr agree.edit, bare]

@[simp] theorem kindCleaned (clean : List MetaAttribute) (e : Element) :
    (e.cleaned clean).kind = e.kind := by
  cases e <;> rfl

@[simp] theorem keyCleaned (clean : List MetaAttribute) (e : Element) :
    (e.cleaned clean).key = e.key := by
  cases e <;> rfl

end Element

namespace Xml

theorem commonAttributesIs (clean : List MetaAttribute) (e : Element) : commonAttributes clean e =
    ("id", toString e.id) :: metadataAttributes (e.edit.cleaned clean) := by
  cases there : e.metadata with
  | some m => simp [commonAttributes, Element.edit, there]
  | none =>
    rw [Element.edit, there, Option.getD_none, Metadata.cleanedBlank, commonAttributes, there]
    rfl

theorem commonCleaned (clean : List MetaAttribute) (e : Element) :
    commonAttributes clean (e.cleaned clean) = commonAttributes clean e := by
  have id : (e.cleaned clean).id = e.id := by cases e <;> rfl
  rw [commonAttributesIs, commonAttributesIs, Element.editCleaned, Metadata.cleanedTwice, id]

theorem markupCleaned (clean : List MetaAttribute) (e : Element) :
    elementMarkup clean (e.cleaned clean) = elementMarkup clean e := by
  unfold elementMarkup
  rw [commonCleaned]
  cases e <;> rfl

end Xml

theorem JsonLines.elementCleaned (clean : List MetaAttribute) (e : Element) :
    element clean (e.cleaned clean) = element clean e := by
  have edit := e.editCleaned clean
  rw [Element.edit, Element.edit] at edit
  unfold element
  rw [edit, Metadata.cleanedTwice]
  cases e <;> rfl

theorem OutputFormat.elementCleaned (format : OutputFormat) (depth : Nat)
    (clean : List MetaAttribute) (e : Element) :
    format.element depth clean (e.cleaned clean) = format.element depth clean e := by
  cases format with
  | xml => exact congrArg (Xml.lay depth) (Xml.markupCleaned clean e)
  | jsonLines => exact congrArg (· ++ ["\n"]) (JsonLines.elementCleaned clean e)

theorem Sink.documentCleaned (format : OutputFormat) (bounds : Option Rect)
    (clean : List MetaAttribute) (elements : List Element) :
    document format bounds clean (elements.map (.cleaned clean)) =
      document format bounds clean elements := by
  have same (s : Sink) (own : s.clean = clean) :
      (elements.map (.cleaned clean)).foldl write s = elements.foldl write s := by
    induction elements generalizing s with
    | nil => rfl
    | cons e rest ih =>
      have written : s.write (e.cleaned clean) = s.write e := by
        simp only [write, own, OutputFormat.elementCleaned]
      rw [List.map_cons, List.foldl_cons, List.foldl_cons, written]
      exact ih _ own
  rw [document, document, same _ rfl]

end Cutout
