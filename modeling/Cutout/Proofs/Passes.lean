import Cutout.Pass
/-! What a pass does to the extracts, whatever the turns and however the input is cut into batches: each
extract sees all elements in order. A source delivers elements if every read of it hands them out. -/
namespace Cutout

theorem passedIff {result : Except Fault Unit} : result.toBool = true ↔ result = .ok () := by
  cases result <;> simp [Except.toBool]

theorem bindOk {α β : Type} {step : Except Fault α} {next : α → Except Fault β} {b : β} :
    (step >>= next) = .ok b ↔ ∃ a, step = .ok a ∧ next a = .ok b := by
  cases step with
  | error fault => simp [bind, Except.bind]
  | ok a => simp [bind, Except.bind]

namespace Worker
variable {visit : Extract → Element → Extract}

theorem finishTurn (w : Worker) : (w.turn visit).finish visit = w.finish visit := by
  obtain ⟨x, ahead⟩ := w
  cases ahead with
  | nil => rfl
  | cons e rest => rfl

theorem finishModify (i : Nat) (workers : List Worker) :
    (workers.modify i (turn visit)).map (finish visit) = workers.map (finish visit) := by
  induction workers generalizing i with
  | nil => rw [List.modify_nil]
  | cons w workers ih =>
    cases i with
    | zero => rw [List.modify_zero_cons, List.map_cons, List.map_cons, finishTurn]
    | succ i => rw [List.modify_succ_cons, List.map_cons, List.map_cons, ih]

theorem finishTurns (turns : List Nat) (workers : List Worker) :
    (turns.foldl (fun ws i => ws.modify i (turn visit)) workers).map (finish visit) =
      workers.map (finish visit) := by
  induction turns generalizing workers with
  | nil => rfl
  | cons i turns ih => rw [List.foldl_cons, ih, finishModify]

end Worker

structure Position where
  done : List (List Element)
  before : List Element
  element : Element
  behind : List Element
  rest : List (List Element)

namespace Position

def batches (here : Position) : List (List Element) :=
  here.done ++ (here.before ++ here.element :: here.behind) :: here.rest

def seen (here : Position) : List Element := here.done.flatten

def earlier (here : Position) : List Element := here.seen ++ here.before

end Position

namespace Pass
variable {σ : Type} (p : Pass σ)

theorem overBatchEach (turns : List Nat) (batch : List Element) (xs : List Extract) :
    p.overBatch turns batch xs = xs.map (batch.foldl p.visit) := by
  simp only [overBatch, Worker.finishTurns, List.map_map]
  exact List.map_congr_left fun x _ => rfl

theorem overBatchesAccepted {batches : List (List Element)} {s last : σ}
    (accepted : batches.flatten.foldlM p.observe s = .ok last) (turns : Nat → List Nat)
    (xs : List Extract) : p.overBatches turns batches s xs =
      (xs.map (batches.flatten.foldl p.visit), .ok last) := by
  induction batches generalizing turns s xs with
  | nil =>
    cases accepted
    simp [overBatches]
  | cons batch rest ih =>
    rw [List.flatten_cons, List.foldlM_append] at accepted
    rw [overBatches]
    cases first : batch.foldlM p.observe s with
    | error fault => simp [first, bind, Except.bind] at accepted
    | ok next =>
      rw [first] at accepted
      dsimp only
      rw [ih accepted, overBatchEach, List.map_map, List.flatten_cons]
      refine Prod.ext (List.map_congr_left fun x _ => ?_) rfl
      rw [List.foldl_append, Function.comp_apply]

theorem firstRefused {items : List Element} {s : σ} {fault : Fault}
    (refused : items.foldlM p.observe s = .error fault) : ∃ before e after mid,
      items = before ++ e :: after ∧ before.foldlM p.observe s = .ok mid ∧
        p.observe mid e = .error fault := by
  induction items generalizing s with
  | nil => cases refused
  | cons e rest ih =>
    rw [List.foldlM_cons] at refused
    cases first : p.observe s e with
    | error found =>
      rw [first] at refused
      cases refused
      exact ⟨[], e, rest, s, rfl, rfl, first⟩
    | ok next =>
      rw [first] at refused
      obtain ⟨before, f, after, mid, rfl, passed, stopped⟩ := ih refused
      refine ⟨e :: before, f, after, mid, rfl, ?_, stopped⟩
      rw [List.foldlM_cons, first]
      exact passed

theorem overBatchesStopped {batches : List (List Element)} {s : σ} {fault : Fault}
    (refused : batches.flatten.foldlM p.observe s = .error fault) :
    ∃ (stop : Position) (mid : σ), batches = stop.batches ∧
      stop.earlier.foldlM p.observe s = .ok mid ∧ p.observe mid stop.element = .error fault ∧
      ∀ turns xs, p.overBatches turns batches s xs =
        (xs.map (stop.seen.foldl p.visit), .error fault) := by
  induction batches generalizing s with
  | nil => cases refused
  | cons batch rest ih =>
    rw [List.flatten_cons, List.foldlM_append] at refused
    cases first : batch.foldlM p.observe s with
    | error found =>
      rw [first] at refused
      cases refused
      obtain ⟨before, e, behind, mid, rfl, passed, stopped⟩ := p.firstRefused first
      refine ⟨⟨[], before, e, behind, rest⟩, mid, rfl, passed, stopped, fun turns xs => ?_⟩
      rw [overBatches, first]
      exact Prod.ext (List.map_id xs).symm rfl
    | ok next =>
      rw [first] at refused
      obtain ⟨⟨done, before, e, behind, rest⟩, mid, rfl, passed, stopped, ends⟩ := ih refused
      refine ⟨⟨batch :: done, before, e, behind, rest⟩, mid, rfl, ?_, stopped, fun turns xs => ?_⟩
      · rw [Position.earlier, Position.seen, List.flatten_cons, List.append_assoc,
          List.foldlM_append, first]
        exact passed
      · rw [overBatches, first]
        dsimp only
        rw [ends, overBatchEach, List.map_map, Position.seen, Position.seen, List.flatten_cons]
        simp only [Function.comp_def, List.foldl_append]

theorem overScanPassed {scan : Scan} {s last : σ}
    (accepted : scan.batches.flatten.foldlM p.observe s = .ok last) (turns : Nat → List Nat)
    (xs : List Extract) : p.overScan turns scan s xs =
      (xs.map (scan.batches.flatten.foldl p.visit), scan.ending.map fun _ => last) := by
  rw [overScan, p.overBatchesAccepted accepted]

theorem overScanStopped {scan : Scan} {s : σ} {fault : Fault}
    (refused : scan.batches.flatten.foldlM p.observe s = .error fault) :
    ∃ (stop : Position) (mid : σ), scan.batches = stop.batches ∧
      stop.earlier.foldlM p.observe s = .ok mid ∧ p.observe mid stop.element = .error fault ∧
      ∀ turns xs, p.overScan turns scan s xs =
        (xs.map (stop.seen.foldl p.visit), .error fault) := by
  obtain ⟨stop, mid, cut, passed, stopped, ends⟩ := p.overBatchesStopped refused
  refine ⟨stop, mid, cut, passed, stopped, fun turns xs => ?_⟩
  rw [overScan, ends]

theorem overScanSeen (scan : Scan) (s : σ) : ∃ seen : List Element,
    seen ⊆ scan.batches.flatten ∧ (∃ mid, seen.foldlM p.observe s = .ok mid) ∧
      ∀ turns xs, (p.overScan turns scan s xs).1 = xs.map (seen.foldl p.visit) := by
  cases checked : scan.batches.flatten.foldlM p.observe s with
  | ok last =>
    refine ⟨_, List.Subset.refl _, ⟨last, checked⟩, fun turns xs => ?_⟩
    rw [p.overScanPassed checked]
  | error fault =>
    obtain ⟨stop, mid, cut, passed, _, ends⟩ := p.overScanStopped checked
    rw [Position.earlier, List.foldlM_append, bindOk] at passed
    obtain ⟨between, accepted, _⟩ := passed
    refine ⟨stop.seen, ?_, ⟨between, accepted⟩, fun turns xs => by rw [ends]⟩
    rw [cut, Position.batches, List.flatten_append]
    exact List.subset_append_left _ _

theorem observedOfResult {scan : Scan} {s last : σ} {turns : Nat → List Nat} {xs : List Extract}
    (ends : (p.overScan turns scan s xs).2 = .ok last) :
    scan.batches.flatten.foldlM p.observe s = .ok last := by
  cases checked : scan.batches.flatten.foldlM p.observe s with
  | ok other =>
    rw [p.overScanPassed checked] at ends
    cases ending : scan.ending with
    | ok =>
      rw [ending] at ends
      exact ends
    | error fault =>
      rw [ending] at ends
      cases ends
  | error fault =>
    obtain ⟨_, _, _, _, _, stopped⟩ := p.overScanStopped checked
    rw [stopped] at ends
    cases ends

end Pass

theorem Source.scanRereadable (source : Source) (rereadable : source.rereadable = true)
    (earlier : Nat) (kinds : Kinds) (metadata : Bool) :
    source.scan earlier kinds metadata = source.read kinds metadata := by
  simp [Source.scan, rereadable]

def Element.bare : Element → Element
  | node n => node { n with metadata := none }
  | way w => way { w with metadata := none }
  | relation r => relation { r with metadata := none }

/-- Every read goes through, and hands out the elements of the wanted kinds in order. A read without
metadata may drop it. -/
structure Source.Delivers (source : Source) (elements : List Element) : Prop where
  rereadable : source.rereadable = true
  ends : ∀ kinds metadata, (source.read kinds metadata).ending = .ok ()
  full : ∀ kinds, (source.read kinds true).batches.flatten =
    elements.filter fun e => kinds.contains e.kind
  bare : ∀ kinds, (source.read kinds false).batches.flatten.map Element.bare =
    (elements.filter fun e => kinds.contains e.kind).map Element.bare

theorem Source.Delivers.whole {source : Source} {elements : List Element}
    (held : source.Delivers elements) : (source.read .all true).batches.flatten = elements := by
  rw [held.full]
  exact List.filter_eq_self.mpr fun e _ => by cases e <;> rfl

def Source.inMemory (elements : List Element) : Source where
  name := "memory"
  rereadable := true
  size := elements.length
  read kinds _ := ⟨[elements.filter fun e => kinds.contains e.kind], .ok (), []⟩

theorem deliversInMemory (elements : List Element) : (Source.inMemory elements).Delivers elements where
  rereadable := rfl
  ends _ _ := rfl
  full _ := List.append_nil _
  bare _ := congrArg (List.map Element.bare) (List.append_nil _)

structure Pass.Blind {σ : Type} (p : Pass σ) : Prop where
  observe : ∀ s e, p.observe s e.bare = p.observe s e
  visit : ∀ x e, p.visit x e.bare = p.visit x e

namespace Pass
variable {σ : Type} {p : Pass σ}

theorem Blind.observeAll (blind : p.Blind) {read wanted : List Element}
    (same : read.map Element.bare = wanted.map Element.bare) (s : σ) :
    read.foldlM p.observe s = wanted.foldlM p.observe s := by
  have bared (items : List Element) :
      items.foldlM p.observe s = (items.map Element.bare).foldlM p.observe s := by
    rw [List.foldlM_map]
    simp only [blind.observe]
  rw [bared, same, ← bared]

theorem Blind.visitAll (blind : p.Blind) {read wanted : List Element}
    (same : read.map Element.bare = wanted.map Element.bare) :
    read.foldl p.visit = wanted.foldl p.visit := by
  have bared (items : List Element) :
      items.foldl p.visit = (items.map Element.bare).foldl p.visit := by
    funext x
    rw [List.foldl_map]
    simp only [blind.visit]
  rw [bared, same, ← bared]

def wanted (p : Pass σ) (elements : List Element) : List Element :=
  elements.filter fun e => p.kinds.contains e.kind

section Delivered
variable {source : Source} {elements : List Element} (held : source.Delivers elements)
include held

theorem readDelivered (fits : p.metadata = true ∨ p.Blind) :
    (∀ s, (source.read p.kinds p.metadata).batches.flatten.foldlM p.observe s =
      (p.wanted elements).foldlM p.observe s) ∧
    (source.read p.kinds p.metadata).batches.flatten.foldl p.visit =
      (p.wanted elements).foldl p.visit := by
  cases metadata : p.metadata with
  | true =>
    rw [held.full]
    exact ⟨fun _ => rfl, rfl⟩
  | false =>
    have blind : p.Blind := fits.resolve_left (by simp [metadata])
    exact ⟨blind.observeAll (held.bare _), blind.visitAll (held.bare _)⟩

theorem overScanAccepted (fits : p.metadata = true ∨ p.Blind) {s last : σ}
    (accepted : (p.wanted elements).foldlM p.observe s = .ok last) (turns : Nat → List Nat)
    (earlier : Nat) (xs : List Extract) :
    p.overScan turns (source.scan earlier p.kinds p.metadata) s xs =
      (xs.map ((p.wanted elements).foldl p.visit), .ok last) := by
  obtain ⟨observed, visited⟩ := readDelivered held fits
  rw [source.scanRereadable held.rereadable, p.overScanPassed ((observed s).trans accepted),
    visited, held.ends]
  rfl

theorem overScanRefused (fits : p.metadata = true ∨ p.Blind) {s : σ} {fault : Fault}
    (refused : (p.wanted elements).foldlM p.observe s = .error fault) (turns : Nat → List Nat)
    (earlier : Nat) (xs : List Extract) :
    (p.overScan turns (source.scan earlier p.kinds p.metadata) s xs).2 = .error fault := by
  obtain ⟨observed, _⟩ := readDelivered held fits
  obtain ⟨_, _, _, _, _, ends⟩ := p.overScanStopped ((observed s).trans refused)
  rw [source.scanRereadable held.rereadable, ends]

end Delivered
end Pass
end Cutout
