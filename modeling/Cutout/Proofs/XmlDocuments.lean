import Cutout.Proofs.Delivery
import Cutout.Proofs.XmlElements
import Cutout.Proofs.XmlValues
import Mathlib.Logic.Function.Iterate
/-! Whole documents read back. A reader that replaces the predefined entities finds all elements as
they were written. One that conforms to XML 1.0 finds them with a space in the place of every tab and
every line end of their texts, because these are not written as references. -/
namespace Cutout

open Xml

namespace Xml

def boundsTag (r : Rect) : Tag :=
  ⟨"bounds", [("minlat", Decimal.coordinate r.min.y), ("minlon", Decimal.coordinate r.min.x),
    ("maxlat", Decimal.coordinate r.max.y), ("maxlon", Decimal.coordinate r.max.x)]⟩

def rootTag : Tag := ⟨"osm", [("version", "0.6"), ("generator", generator)]⟩

def document (bounds : Option Rect) (clean : List MetaAttribute) (es : List Element) : List Markup :=
  root :: bounds.toList.map boundsMarkup ++ (es.flatMap (elementMarkup clean) ++ [.closing "osm"])

def documentTree (bounds : Option Rect) (clean : List MetaAttribute) (es : List Element) : Tree :=
  .node rootTag (bounds.toList.map (leaf ∘ boundsTag) ++ es.map (elementTree clean))

theorem layAppend (depth : Nat) (ms ns : List Markup) :
    lay depth (ms ++ ns) = lay depth ms ++ lay (ms.foldl Markup.depthAfter depth) ns := by
  induction ms generalizing depth with
  | nil => rfl
  | cons m rest ih => simp [lay, ih]

theorem elementDepth (clean : List MetaAttribute) (e : Element) (depth : Nat) :
    (elementMarkup clean e).foldl Markup.depthAfter depth = depth := by
  have singles (tags : List Tag) (depth : Nat) :
      (tags.map Markup.single).foldl Markup.depthAfter depth = depth := by
    induction tags with
    | nil => rfl
    | cons t rest ih => exact ih
  rw [elementMarkupIs]
  split
  · rfl
  · rw [List.cons_append, List.foldl_cons, List.foldl_append, singles]
    rfl

theorem layElements (clean : List MetaAttribute) (es : List Element) (depth : Nat)
    (rest : List Markup) : lay depth (es.flatMap (elementMarkup clean) ++ rest) =
      es.flatMap (element depth clean) ++ lay depth rest := by
  induction es with
  | nil => rfl
  | cons e more ih =>
    rw [List.flatMap_cons, List.append_assoc, layAppend, elementDepth, ih, List.flatMap_cons,
      List.append_assoc]
    rfl

theorem documentLaid (bounds : Option Rect) (clean : List MetaAttribute) (es : List Element) :
    start bounds ++ es.flatMap (element Sink.depth clean) ++ finish =
      declaration ++ lay 0 (document bounds clean es) ++ ["\n"] := by
  have opened : (root :: bounds.toList.map boundsMarkup).foldl Markup.depthAfter 0 = Sink.depth := by
    cases bounds <;> rfl
  rw [document, layAppend, opened, layElements, start, finish]
  simp [Sink.depth]

theorem documentTexts {g : String → String} (fixed : ∀ s, Graphic s → g s = s)
    (bounds : Option Rect) (clean : List MetaAttribute) (es : List Element) :
    (document bounds clean es).map (.mapValues g) = document bounds clean (es.map (.mapTexts g)) := by
  have first : root.mapValues g = root := by
    have version : g "0.6" = "0.6" := fixed _ (by decide)
    have maker : g generator = generator := fixed _ (by decide)
    simp [root, Markup.mapValues, Tag.mapValues, version, maker]
  have second (r : Rect) : (boundsMarkup r).mapValues g = boundsMarkup r := by
    have coordinate (x : Binary64) : g (Decimal.coordinate x) = Decimal.coordinate x :=
      fixed _ (Decimal.graphicCoordinate x)
    simp [boundsMarkup, Markup.mapValues, Tag.mapValues, coordinate]
  have last : (Markup.closing "osm").mapValues g = .closing "osm" := rfl
  simp [document, first, second, last, List.map_flatMap, List.flatMap_map, elementTexts fixed]

theorem documentReadable {value : List Char → Option (List Char)} {f : String → List Char}
    {g : String → String} (graphic : ∀ s, Graphic s → Readable value f g s) (bounds : Option Rect)
    (clean : List MetaAttribute) {es : List Element}
    (own : ∀ e ∈ es, ∀ s ∈ (e.cleaned clean).texts, Readable value f g s) :
    ∀ m ∈ document bounds clean es, m.Readable value f g := by
  have first : rootTag.Readable value f g := by
    refine .ofKeys ["version", "generator"] (by decide) (.refl _) (by decide) ?_
    exact List.forall_mem_cons.mpr
      ⟨graphic _ (by decide), List.forall_mem_singleton.mpr (graphic _ (by decide))⟩
  have second (r : Rect) : (boundsTag r).Readable value f g := by
    have coordinate (x : Binary64) : Readable value f g (Decimal.coordinate x) :=
      graphic _ (Decimal.graphicCoordinate x)
    refine .ofKeys ["minlat", "minlon", "maxlat", "maxlon"] (by decide : isName "bounds") (.refl _)
      (by decide) ?_
    simp [boundsTag, coordinate]
  refine List.forall_mem_cons.mpr ⟨first, List.forall_mem_append.mpr
    ⟨List.forall_mem_map.mpr fun r _ => second r, List.forall_mem_append.mpr ⟨?_, ?_⟩⟩⟩
  · intro m m_in
    obtain ⟨e, e_in, m_in⟩ := List.mem_flatMap.mp m_in
    rw [← markupCleaned] at m_in
    exact elementReadable graphic clean (e.cleaned clean) (own e e_in) m m_in
  · exact List.forall_mem_singleton.mpr (by decide : isName "osm")

theorem documentNests (bounds : Option Rect) (clean : List MetaAttribute) (es : List Element) :
    (document bounds clean es).foldlM Nest.step ⟨[], none⟩ =
      some ⟨[], some (documentTree bounds clean es)⟩ := by
  have opened : Nest.step ⟨[], none⟩ root = some ⟨[(rootTag, [])], none⟩ := rfl
  have second : bounds.toList.map boundsMarkup = (bounds.toList.map boundsTag).map .single := by
    rw [List.map_map]
    rfl
  rw [document, List.cons_append, List.foldlM_cons, opened, Option.bind_eq_bind, Option.bind_some,
    second, List.foldlM_append, singlesNest, Option.bind_eq_bind, Option.bind_some,
    List.foldlM_append, elementsNest, Option.bind_eq_bind, Option.bind_some, List.map_map]
  rfl

theorem documentElements (bounds : Option Rect) (clean : List MetaAttribute) (es : List Element) :
    (documentTree bounds clean es).elements? = some (es.map (.cleaned clean)) := by
  have bounds_only : (bounds.toList.map (leaf ∘ boundsTag)).filter (·.tag.name != "bounds") = [] := by
    simp [leaf, boundsTag, Tree.tag]
  have others : (es.map (elementTree clean)).filter (·.tag.name != "bounds") =
      es.map (elementTree clean) := by
    refine List.filter_eq_self.mpr (List.forall_mem_map.mpr fun e _ => ?_)
    cases e <;> rfl
  have named : (documentTree bounds clean es).tag.name = "osm" := rfl
  rw [Tree.elements?, if_pos named, documentTree, Tree.children, List.filter_append, bounds_only,
    others, List.nil_append]
  exact mapMReads fun e _ => elementReads clean e

theorem Reader.readsDocument {r : Reader} {f : String → List Char} {g : String → String}
    (fixed : ∀ s, Graphic s → g s = s) (graphic : ∀ s, Graphic s → Readable r.value f g s)
    (bounds : Option Rect) (clean : List MetaAttribute) {es : List Element}
    (own : ∀ e ∈ es, ∀ s ∈ (e.cleaned clean).texts, Readable r.value f g s) {text : String}
    (ends : r.ends text.toList = declared ++ rawLines f 0 (document bounds clean es) ++ ['\n']) :
    r.tree? text = some (documentTree bounds clean (es.map (.mapTexts g))) := by
  have lines := linesRead (documentReadable graphic bounds clean own) 0 []
  rw [documentTexts fixed, List.nil_append] at lines
  have scanned := lines.append (.cons rfl (.nil _) : Reads r.value ['\n'] _ _)
  rw [Reads] at scanned
  have first : declared.isPrefixOf (r.ends text.toList) := by
    rw [ends, List.append_assoc, List.isPrefixOf_iff_prefix]
    exact List.prefix_append ..
  have rest : (r.ends text.toList).drop declared.length =
      rawLines f 0 (document bounds clean es) ++ ['\n'] := by
    rw [ends, List.append_assoc, List.drop_left]
  simp only [tree?, first, if_true, rest, scanned, Option.bind_eq_bind, Option.bind_some,
    documentNests]
  rfl

theorem graphicAllowed {s : String} (graphic : Graphic s) : Allowed s := by
  intro c c_in
  obtain ⟨low, high⟩ := graphic c c_in
  have low : 0x21 ≤ c.toNat := UInt32.le_iff_toNat_le.mp low
  have high : c.toNat ≤ 0x7e := UInt32.le_iff_toNat_le.mp high
  simp only [isAllowed, Bool.or_eq_true, Bool.and_eq_true, decide_eq_true_eq]
  omega

theorem normalisedGraphic {s : String} (graphic : Graphic s) : normalised s = s := by
  refine (normalisedIff s).mpr fun c c_in => ?_
  have visible := graphic c c_in
  refine ⟨?_, ?_, ?_⟩ <;> rintro rfl <;> exact absurd visible (by decide)

end Xml

theorem Sink.xmlText (bounds : Option Rect) (clean : List MetaAttribute) (es : List Element) (n : Nat) :
    (finish^[n + 1] (es.foldl write (start .xml bounds clean))).text.toList =
      Reader.declared ++ rawLines escaped 0 (Xml.document bounds clean es) ++ ['\n'] := by
  have closed (s : Sink) : (finish^[n + 1] s) = s.finish := by
    have again : s.finish.finish = s.finish := by
      cases ended : s.finished <;> simp [finish, ended]
    rw [Function.iterate_succ_apply]
    exact Function.iterate_fixed again n
  have pieces := congrArg (List.flatMap String.toList) (documentLaid bounds clean es)
  simp only [List.flatMap_append, layIs] at pieces
  rw [closed, start, writeAll]
  simp only [finish, Bool.false_eq_true, if_false, String.toList_append, String.toList_join]
  exact pieces

namespace Sink

theorem readsBack (bounds : Option Rect) (clean : List MetaAttribute) (es : List Element) (n : Nat) :
    ∃ root, Reader.simple.tree? (finish^[n + 1] (es.foldl write (start .xml bounds clean))).text =
      some root ∧ root.elements? = some (es.map (.cleaned clean)) := by
  have text := xmlText bounds clean es n
  have read := Reader.readsDocument (r := .simple) (fun _ _ => rfl)
    (fun s _ => Reader.simpleReads s) bounds clean (fun _ _ s _ => Reader.simpleReads s) text
  have same : es.map (.mapTexts fun s => s) = es :=
    (List.map_congr_left fun e _ => e.mapTextsSame).trans (List.map_id es)
  rw [same] at read
  exact ⟨_, read, documentElements bounds clean es⟩

theorem conformingTree (bounds : Option Rect) (clean : List MetaAttribute) {es : List Element}
    (allowed : ∀ e ∈ es, ∀ s ∈ (e.cleaned clean).texts, Allowed s) (n : Nat) :
    Reader.conforming.tree? (finish^[n + 1] (es.foldl write (start .xml bounds clean))).text =
      some (documentTree bounds clean (es.map (.mapTexts normalised))) := by
  have graphic (s : String) (visible : Graphic s) := Reader.conformingReads (graphicAllowed visible)
  have own (e : Element) (e_in : e ∈ es) (s : String) (s_in : s ∈ (e.cleaned clean).texts) :=
    Reader.conformingReads (allowed e e_in s s_in)
  refine Reader.readsDocument (fun s => normalisedGraphic) graphic bounds clean own ?_
  have declared : Reader.Becomes Reader.declared Reader.declared := by
    have unbroken : Reader.declared.all (isBreak · = false) := by decide
    exact .plain (by simpa only [List.all_eq_true, decide_eq_true_eq] using unbroken)
  have lines := Reader.Becomes.ofLines escaped (documentReadable graphic bounds clean own) 0
  have feed : Reader.Becomes ['\n'] ['\n'] := fun _ => rfl
  have whole := (declared.append lines).append feed []
  rw [List.append_nil, lineEnds, List.append_nil] at whole
  rw [xmlText]
  exact whole

/-- A reader that conforms to XML 1.0 finds each text with a space in the place of every tab and every
line end, so it finds the text as it was only if there are none. -/
theorem readsNormalised (bounds : Option Rect) (clean : List MetaAttribute) (es : List Element)
    (allowed : ∀ e ∈ es, ∀ s ∈ (e.cleaned clean).texts, Allowed s) (n : Nat) :
    (∃ root, Reader.conforming.tree? (finish^[n + 1] (es.foldl write (start .xml bounds clean))).text =
      some root ∧
      root.elements? = some (es.map fun e => (e.cleaned clean).mapTexts normalised)) ∧
    ∀ s, normalised s = s ↔ ∀ c ∈ s.toList, c ≠ '\t' ∧ c ≠ '\n' ∧ c ≠ '\r' := by
  refine ⟨⟨_, conformingTree bounds clean allowed n, ?_⟩, normalisedIff⟩
  rw [documentElements, List.map_map]
  exact congrArg some (List.map_congr_left fun e _ => e.cleanedTexts normalised clean)

end Sink

def noted : Element := .node ⟨1, ⟨10000000, 20000000⟩, [("note", "a\nb")], none⟩

theorem notedSpaced : ∃ root, Reader.conforming.tree?
      (Sink.finish^[1] ([noted].foldl Sink.write (.start .xml none []))).text = some root ∧
    root.elements? = some [.node ⟨1, ⟨10000000, 20000000⟩, [("note", "a b")], none⟩] := by
  obtain ⟨root, read, found⟩ := (Sink.readsNormalised none [] [noted] (by decide) 0).1
  exact ⟨root, read, found.trans (by decide)⟩

theorem notedChanged : ¬ ∃ root, Reader.conforming.tree?
      (Sink.finish^[1] ([noted].foldl Sink.write (.start .xml none []))).text = some root ∧
    root.elements? = some ([noted].map (.cleaned [])) := by
  rintro ⟨root, read, same⟩
  rw [Sink.conformingTree none [] (by decide) 0] at read
  cases read
  rw [documentElements] at same
  revert same
  decide

end Cutout
