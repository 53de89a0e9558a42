import Cutout.Proofs.Loop
/-! Scans that ask for some kinds only, or leave metadata out. They find what a full scan finds, and hand
out of each batch the elements of these kinds. -/
namespace Cutout

def Element.shown (metadata : Bool) (e : Element) : Element := if metadata then e else e.bare

namespace Pbf

def select (kinds : Kinds) (metadata : Bool) (batch : List Element) : List Element :=
  (batch.filter fun e => kinds.contains e.kind).map (.shown metadata)

theorem elementKind {b : Block} {metadata : Bool} {item : Item} {e : Element}
    (made : item.element? b metadata = some e) : e.kind = item.kind := by
  cases item with
  | dense n =>
    cases made
    rfl
  | node n =>
    cases made
    rfl
  | way w =>
    cases made
    rfl
  | relation r =>
    simp only [Item.element?, Option.bind_eq_bind, Option.bind_eq_some_iff] at made
    obtain ⟨members, _, last⟩ := made
    cases last
    rfl

theorem elementShown (b : Block) (metadata : Bool) (item : Item) :
    item.element? b metadata = (item.element? b true).map (.shown metadata) := by
  cases metadata with
  | true => exact Option.map_id'.symm
  | false =>
    cases item with
    | relation r =>
      simp only [Item.element?]
      cases r.members.mapM b.member <;> rfl
    | _ => rfl

theorem mapMSelect {α β γ : Type} {f : α → Option β} {g : α → Option γ} {h : β → γ} {p : α → Bool}
    {q : β → Bool} {l : List α} (same : ∀ x y, f x = some y → p x = q y ∧ g x = some (h y))
    {all : List β} (made : l.mapM f = some all) :
    (l.filter p).mapM g = some ((all.filter q).map h) := by
  induction l generalizing all with
  | nil =>
    cases made
    rfl
  | cons x rest ih =>
    simp only [List.mapM_cons, Option.bind_eq_bind, Option.bind_eq_some_iff] at made
    obtain ⟨y, first, others, more, last⟩ := made
    cases last
    obtain ⟨wanted, shown⟩ := same x y first
    rw [List.filter_cons, List.filter_cons, wanted]
    split
    · rw [List.mapM_cons, shown, ih more]
      rfl
    · exact ih more

theorem elementsSelect {b : Block} {elements : List Element}
    (all : b.elements? .all true = some elements) (kinds : Kinds) (metadata : Bool) :
    b.elements? kinds metadata = some (select kinds metadata elements) := by
  have every : (b.items.filter fun item => Kinds.all.contains item.kind) = b.items := by
    refine List.filter_eq_self.mpr fun item _ => ?_
    cases item <;> rfl
  rw [Block.elements?, every] at all
  refine mapMSelect (fun item e made => ⟨?_, ?_⟩) all
  · rw [elementKind made]
  · rw [elementShown, made]
    rfl

namespace Piece

def select (kinds : Kinds) (metadata : Bool) : Piece → Piece
  | data batch => data (Pbf.select kinds metadata batch)
  | piece => piece

theorem ofBlobSelect {blob : Blob} (sound : (ofBlob .all true blob).fault? = none) (kinds : Kinds)
    (metadata : Bool) : ofBlob kinds metadata blob = (ofBlob .all true blob).select kinds metadata := by
  unfold ofBlob at sound ⊢
  split
  · split <;> rfl
  · split
    · split
      · rename_i block found
        simp only [found, ofBlock] at sound ⊢
        cases all : block.elements? .all true with
        | none => simp_all [fault?]
        | some elements =>
          rw [elementsSelect all]
          rfl
      · rfl
    · rfl

end Piece

theorem piecesSelect {content : ByteArray} (sound : ∀ p ∈ pieces content .all true, p.fault? = none)
    (kinds : Kinds) (metadata : Bool) :
    pieces content kinds metadata = (pieces content .all true).map (.select kinds metadata) := by
  have parts (kinds : Kinds) (metadata : Bool) : pieces content kinds metadata =
      (blobs content).1.map (.ofBlob kinds metadata) ++
        if (blobs content).2 then [.failed .blobUnreadable] else [] := rfl
  have each (blob : Blob) (blob_in : blob ∈ (blobs content).1) :
      Piece.ofBlob kinds metadata blob = (Piece.ofBlob .all true blob).select kinds metadata := by
    refine Piece.ofBlobSelect (sound _ ?_) kinds metadata
    exact List.mem_append_left _ (List.mem_map_of_mem blob_in)
  rw [parts, parts, List.map_append, List.map_map, List.map_congr_left each]
  cases (blobs content).2 <;> rfl

theorem scanSelect (kinds : Kinds) (metadata : Bool) (pieces : List Piece) :
    scanPieces (pieces.map (.select kinds metadata)) =
      ⟨((scanPieces pieces).batches.map (select kinds metadata)).filter fun batch => !batch.isEmpty,
        (scanPieces pieces).ending, (scanPieces pieces).notes⟩ := by
  induction pieces with
  | nil => rfl
  | cons piece rest ih =>
    cases piece with
    | failed fault => rfl
    | header sorted =>
      simp only [List.map_cons, Piece.select, scanPieces, ih]
      cases sorted <;> rfl
    | unknown kind => simp only [List.map_cons, Piece.select, scanPieces, ih]
    | data batch =>
      simp only [List.map_cons, Piece.select, scanPieces, ih]
      cases batch with
      | nil => rfl
      | cons e batch =>
        rw [if_neg (by simp : ¬ (e :: batch).isEmpty = true), List.map_cons, List.filter_cons]
        cases (select kinds metadata (e :: batch)).isEmpty <;> rfl

theorem scanSelected {content : ByteArray} (complete : (scan content .all true).ending = .ok ())
    (kinds : Kinds) (metadata : Bool) : scan content kinds metadata =
      ⟨((scan content .all true).batches.map (select kinds metadata)).filter fun batch => !batch.isEmpty,
        (scan content .all true).ending, (scan content .all true).notes⟩ := by
  have sound : ∀ p ∈ pieces content .all true, p.fault? = none :=
    Piece.endingOk.mp ((scanPiecesSent _).2.symm.trans complete)
  exact (congrArg scanPieces (piecesSelect sound kinds metadata)).trans (scanSelect kinds metadata _)

theorem flattenSelected {content : ByteArray} (complete : (scan content .all true).ending = .ok ())
    (kinds : Kinds) (metadata : Bool) : (scan content kinds metadata).batches.flatten =
      select kinds metadata (scan content .all true).batches.flatten := by
  rw [scanSelected complete, List.flatten_filter_not_isEmpty, select, List.filter_flatten,
    List.map_flatten, List.map_map]
  rfl

theorem scanSelects (content : ByteArray) (complete : (scan content .all true).ending = .ok ())
    (kinds : Kinds) (metadata : Bool) :
    (scan content kinds metadata).ending = .ok () ∧
    (scan content kinds metadata).batches =
      ((scan content .all true).batches.map fun batch =>
        (batch.filter fun e => kinds.contains e.kind).map (.shown metadata)).filter
          (fun batch => !batch.isEmpty) ∧
    (scan content kinds metadata).notes = (scan content .all true).notes := by
  rw [scanSelected complete]
  exact ⟨complete, rfl, rfl⟩

def mixed : ByteArray := ⟨#[
  0, 0, 0, 11, 10, 7, 79, 83, 77, 68, 97, 116, 97, 24, 46, 10, 44, 10, 8, 10, 0, 10, 1, 97, 10, 1, 98,
  18, 11, 18, 9, 10, 1, 2, 66, 1, 10, 74, 1, 12, 18, 19, 26, 17, 8, 3, 18, 1, 1, 26, 1, 2, 34, 4, 8, 3,
  32, 7, 66, 1, 2, 0, 0, 0, 11, 10, 7, 79, 83, 77, 68, 97, 116, 97, 24, 21, 10, 19, 10, 2, 10, 0, 18,
  13, 34, 11, 8, 4, 66, 1, 0, 74, 1, 6, 82, 1, 1]⟩

theorem mixedSelected : (scan mixed .all true).ending = .ok () ∧
    (scan mixed .all true).batches.flatten.map Element.kind = [.node, .way, .relation] ∧
    (scan mixed .onlyWays false).ending = .ok () ∧
    (scan mixed .onlyWays false).batches = [[.way ⟨3, [1], [("a", "b")], none⟩]] := by
  have complete : (scan mixed .all true).ending = .ok () := passedIff.mp (by decide +kernel)
  obtain ⟨ends, batches, -⟩ := scanSelects mixed complete .onlyWays false
  exact ⟨complete, by decide +kernel, ends, batches.trans (by decide +kernel)⟩

theorem sourceDelivers {path : Path} {content : ByteArray}
    (rereadable : (source path content).rereadable = true)
    (complete : (scan content .all true).ending = .ok ()) :
    (source path content).Delivers (scan content .all true).batches.flatten where
  rereadable := rereadable
  ends kinds metadata := (congrArg Scan.ending (scanSelected complete kinds metadata)).trans complete
  full kinds := (flattenSelected complete kinds true).trans (List.map_id' _)
  bare kinds := by
    have bare : Element.bare ∘ Element.shown false = Element.bare := by
      funext e
      cases e <;> rfl
    exact (congrArg (List.map Element.bare) (flattenSelected complete kinds false)).trans
      (List.map_map.trans (by rw [bare]))

end Pbf
end Cutout
