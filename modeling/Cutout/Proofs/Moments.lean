import Cutout.Proofs.Growth
import Cutout.Proofs.Runs
import Cutout.Record
/-! What holds at every moment of a run, however it ends. The induction is over the record: a turn or a
walk of one extract keeps what holds of all of them, and what held between them and every earlier moment. -/
namespace Cutout

/-- What holds between a moment and the extracts of any later one. Once an extract has been shown a
relation, its primary nodes and ways stay as they are. -/
structure Moment.Before (m : Moment) (ys : List Extract) : Prop where
  count : ys.length = m.extracts.length
  grows : ∀ (i : Nat) (x y : Extract), m.extracts[i]? = some x → ys[i]? = some y → x.GrowsTo y
  settled : ∀ (i : Nat) (r : Relation) (x y : Extract), m.call = some (i, .relation r) →
    m.extracts[i]? = some x → ys[i]? = some y → y.early = x.early

theorem Moment.Before.refl (m : Moment) : m.Before m.extracts := by
  refine ⟨rfl, fun i x y here there => ?_, fun i r x y _ here there => ?_⟩
  · cases here.symm.trans there
    exact .refl x
  · cases here.symm.trans there
    rfl

def MetRelation (record : List Moment) (i : Nat) : Prop :=
  ∃ m ∈ record, ∃ r, m.call = some (i, .relation r)

structure Keeps (holds : Extract → Prop) (record : List Moment) (xs : List Extract) : Prop where
  pairs : record.Pairwise fun m n => m.Before n.extracts
  each : ∀ m ∈ record, ∀ x ∈ m.extracts, holds x
  before : ∀ m ∈ record, m.Before xs
  now : ∀ x ∈ xs, holds x
  last : record.getLast?.map Moment.extracts = some xs

section Keeps
variable {holds : Extract → Prop} {record : List Moment} {xs : List Extract}

theorem keepsStart (now : ∀ x ∈ xs, holds x) : Keeps holds [⟨none, xs⟩] xs where
  pairs := List.pairwise_singleton _ _
  each := by simpa using now
  before := by simpa using Moment.Before.refl ⟨none, xs⟩
  now := now
  last := rfl

theorem memModify {i : Nat} {f : Extract → Extract} (changes : ∀ x, xs[i]? = some x → holds (f x))
    (now : ∀ x ∈ xs, holds x) : ∀ y ∈ xs.modify i f, holds y := by
  intro y mem
  obtain ⟨j, found⟩ := List.mem_iff_getElem?.mp mem
  rw [List.getElem?_modify] at found
  obtain ⟨x, here, rfl⟩ := Option.map_eq_some_iff.mp found
  split
  · rename_i same
    exact changes x (same ▸ here)
  · exact now x (List.mem_of_getElem? here)

theorem Moment.Before.change {m : Moment} (before : m.Before xs) {i : Nat} {f : Extract → Extract}
    (grows : ∀ x, xs[i]? = some x → x.GrowsTo (f x))
    (settled : ∀ x, xs[i]? = some x → (∃ r, m.call = some (i, .relation r)) →
      (f x).early = x.early) : m.Before (xs.modify i f) := by
  refine ⟨(List.length_modify ..).trans before.count, fun j x y here there => ?_,
    fun j r x y called here there => ?_⟩
  · rw [List.getElem?_modify] at there
    obtain ⟨z, between, rfl⟩ := Option.map_eq_some_iff.mp there
    have first := before.grows j x z here between
    split
    · rename_i same
      exact first.trans (grows z (same ▸ between))
    · exact first
  · rw [List.getElem?_modify] at there
    obtain ⟨z, between, rfl⟩ := Option.map_eq_some_iff.mp there
    have first := before.settled j r x z called here between
    split
    · rename_i same
      subst same
      exact (settled z between ⟨r, called⟩).trans first
    · exact first

theorem Keeps.change (keeps : Keeps holds record xs) {i : Nat} {f : Extract → Extract}
    (kept : ∀ x, xs[i]? = some x → holds (f x)) (grows : ∀ x, xs[i]? = some x → x.GrowsTo (f x))
    (settled : ∀ x, xs[i]? = some x → MetRelation record i → (f x).early = x.early)
    (call : Option (Nat × Element)) :
    Keeps holds (record ++ [⟨call, xs.modify i f⟩]) (xs.modify i f) := by
  have now := memModify kept keeps.now
  have before : ∀ m ∈ record, m.Before (xs.modify i f) := fun m mem =>
    (keeps.before m mem).change grows fun x here met => settled x here ⟨m, mem, met⟩
  refine ⟨?_, ?_, ?_, now, by simp⟩
  · rw [List.pairwise_append]
    refine ⟨keeps.pairs, List.pairwise_singleton _ _, fun m mem n last => ?_⟩
    cases List.mem_singleton.mp last
    exact before m mem
  · exact List.forall_mem_append.mpr ⟨keeps.each, by simpa using now⟩
  · refine List.forall_mem_append.mpr ⟨before, ?_⟩
    simpa using Moment.Before.refl ⟨call, xs.modify i f⟩

theorem Keeps.again (keeps : Keeps holds record xs) : Keeps holds (record ++ [⟨none, xs⟩]) xs := by
  have still := keeps.change (i := 0) (f := id) (fun x here => keeps.now x (List.mem_of_getElem? here))
    (fun x _ => .refl x) (fun _ _ _ => rfl) none
  rwa [List.modify_id] at still

end Keeps

/-- What a visit needs of an extract, with the elements that it is still to be shown, so that it keeps
what holds and leaves the extract fit for the rest. The proposition says whether the extract has met a
relation. -/
structure Fits (visit : Extract → Element → Extract) (holds : Extract → Prop)
    (fit : Prop → List Element → Extract → Prop) : Prop where
  kept : ∀ met x e rest, fit met (e :: rest) x → holds (visit x e)
  grows : ∀ met x e rest, fit met (e :: rest) x → x.GrowsTo (visit x e)
  settled : ∀ met x e rest, fit met (e :: rest) x → met → (visit x e).early = x.early
  rest : ∀ (met now : Prop) x e rest, fit met (e :: rest) x →
    (now → met ∨ e.kind = .relation) → fit now rest (visit x e)
  less : ∀ (met now : Prop) rest x, fit met rest x → (now → met) → fit now rest x

theorem mapModify {α β : Type} {items : List α} {i : Nat} {g : α → α} {view : α → β} {f : β → β}
    (agree : ∀ a, items[i]? = some a → view (g a) = f (view a)) :
    (items.modify i g).map view = (items.map view).modify i f := by
  refine List.ext_getElem? fun j => ?_
  simp only [List.getElem?_map, List.getElem?_modify]
  cases found : items[j]? with
  | none => rfl
  | some a =>
    by_cases same : i = j
    · simp [same, agree a (same ▸ found)]
    · simp [same]

theorem metSnoc {record : List Moment} {m : Moment} {i : Nat} :
    MetRelation (record ++ [m]) i ↔ MetRelation record i ∨ ∃ r, m.call = some (i, .relation r) := by
  simp [MetRelation, or_and_right, exists_or]

theorem metBefore {record : List Moment} {m : Moment} {i : Nat} (met : MetRelation (record ++ [m]) i)
    (other : ∀ e, m.call ≠ some (i, e)) : MetRelation record i :=
  (metSnoc.mp met).resolve_right fun ⟨_, called⟩ => other _ called

theorem turnShown {workers : List Worker} {i : Nat} {call : Nat × Element}
    (shown : Pass.nextCall workers i = some call) :
    ∃ x e rest, workers[i]? = some ⟨x, e :: rest⟩ ∧ call = (i, e) := by
  obtain ⟨e, next, rfl⟩ := Option.map_eq_some_iff.mp shown
  obtain ⟨⟨x, ahead⟩, here, first⟩ := Option.bind_eq_some_iff.mp next
  obtain ⟨rest, rfl⟩ := List.head?_eq_some_iff.mp first
  exact ⟨x, e, rest, here, rfl⟩

theorem turnIdle {visit : Extract → Element → Extract} {workers : List Worker} {i : Nat}
    (idle : Pass.nextCall workers i = none) : workers.modify i (Worker.turn visit) = workers := by
  refine List.ext_getElem? fun j => ?_
  rw [List.getElem?_modify]
  by_cases same : i = j
  · subst same
    cases here : workers[i]? with
    | none => rfl
    | some w =>
      obtain ⟨x, ahead⟩ := w
      cases ahead with
      | nil => simp [Worker.turn]
      | cons e rest => simp [Pass.nextCall, here] at idle
  · simp [same]

section Turns
variable {σ : Type} {p : Pass σ} {holds : Extract → Prop}
  {fit : Prop → List Element → Extract → Prop} (fits : Fits p.visit holds fit)
  (later : List Element)

def Ready (fit : Prop → List Element → Extract → Prop) (later : List Element)
    (record : List Moment) (workers : List Worker) : Prop :=
  ∀ i w, workers[i]? = some w → fit (MetRelation record i) (w.ahead ++ later) w.extract

include fits

theorem keepsShown {workers : List Worker} {record : List Moment}
    (keeps : Keeps holds record (workers.map Worker.extract)) {i : Nat} {x : Extract} {e : Element}
    {rest : List Element} (here : workers[i]? = some ⟨x, e :: rest⟩)
    (fit : fit (MetRelation record i) (e :: rest ++ later) x) :
    let extracts := (workers.modify i (Worker.turn p.visit)).map Worker.extract
    Keeps holds (record ++ [⟨some (i, e), extracts⟩]) extracts := by
  have only (y : Extract) (found : (workers.map Worker.extract)[i]? = some y) : y = x := by
    rw [List.getElem?_map, here] at found
    exact (Option.some.inj found).symm
  have turned : (workers.modify i (Worker.turn p.visit)).map Worker.extract =
      (workers.map Worker.extract).modify i (p.visit · e) := by
    refine mapModify fun w found => ?_
    cases here.symm.trans found
    rfl
  rw [turned]
  refine keeps.change (fun y found => ?_) (fun y found => ?_) (fun y found met => ?_) _
  · exact only y found ▸ fits.kept _ _ _ _ fit
  · exact only y found ▸ fits.grows _ _ _ _ fit
  · exact only y found ▸ fits.settled _ _ _ _ fit met

theorem readyShown {workers : List Worker} {record : List Moment}
    (ready : Ready fit later record workers) {i : Nat} {x : Extract} {e : Element}
    {rest : List Element} (here : workers[i]? = some ⟨x, e :: rest⟩) (extracts : List Extract) :
    Ready fit later (record ++ [⟨some (i, e), extracts⟩])
      (workers.modify i (Worker.turn p.visit)) := by
  intro j w found
  -- Only this worker changes, and only it may just have met its first relation.
  by_cases same : i = j
  · subst same
    rw [List.getElem?_modify_eq, here] at found
    cases found
    refine fits.rest _ _ _ _ _ (ready i _ here) fun met => ?_
    refine (metSnoc.mp met).imp_right fun ⟨r, called⟩ => ?_
    cases called
    rfl
  · rw [List.getElem?_modify_ne _ _ same] at found
    refine fits.less _ _ _ _ (ready j w found) fun met => metBefore met fun e called => ?_
    cases called
    exact same rfl

theorem keepsTurn {workers : List Worker} {record : List Moment}
    (keeps : Keeps holds record (workers.map Worker.extract))
    (ready : Ready fit later record workers) (i : Nat) :
    let after := workers.modify i (Worker.turn p.visit)
    let more := record ++ [⟨Pass.nextCall workers i, after.map Worker.extract⟩]
    Keeps holds more (after.map Worker.extract) ∧ Ready fit later more after := by
  intro after more
  cases shown : Pass.nextCall workers i with
  | none =>
    have same : after = workers := turnIdle shown
    simp only [more, same, shown]
    refine ⟨keeps.again, fun j w here => ?_⟩
    exact fits.less _ _ _ _ (ready j w here) fun met => metBefore met fun _ => nofun
  | some call =>
    obtain ⟨x, e, rest, here, rfl⟩ := turnShown shown
    simp only [more, shown]
    exact ⟨keepsShown fits later keeps here (ready i _ here), readyShown fits later ready here _⟩

theorem keepsTurns (turns : List Nat) {workers : List Worker} {record : List Moment}
    (keeps : Keeps holds record (workers.map Worker.extract))
    (ready : Ready fit later record workers) :
    let after := turns.foldl (fun ws i => ws.modify i (Worker.turn p.visit)) workers
    let more := record ++ p.moments workers turns
    Keeps holds more (after.map Worker.extract) ∧ Ready fit later more after := by
  induction turns generalizing workers record with
  | nil =>
    simp only [Pass.moments, List.append_nil, List.foldl_nil]
    exact ⟨keeps, ready⟩
  | cons i turns ih =>
    obtain ⟨kept, still⟩ := keepsTurn fits later keeps ready i
    have rest := ih kept still
    rw [List.append_assoc] at rest
    exact rest

end Turns

section Batches
variable {visit : Extract → Element → Extract}

theorem aheadTurns (turns : List Nat) {workers : List Worker} {j : Nat} {w : Worker}
    (here : (turns.foldl (fun ws i => ws.modify i (Worker.turn visit)) workers)[j]? = some w) :
    ∃ v, workers[j]? = some v ∧ w.ahead = v.ahead.drop (turns.count j) := by
  induction turns generalizing workers with
  | nil => exact ⟨w, here, rfl⟩
  | cons i turns ih =>
    obtain ⟨v, between, ahead⟩ := ih here
    rw [List.getElem?_modify] at between
    obtain ⟨u, first, rfl⟩ := Option.map_eq_some_iff.mp between
    refine ⟨u, first, ahead.trans ?_⟩
    by_cases same : i = j
    · have turned : (u.turn visit).ahead = u.ahead.drop 1 := by
        obtain ⟨x, _ | ⟨e, rest⟩⟩ := u <;> rfl
      simp [same, turned]
    · simp [same]

theorem turnsSuffice (size : Nat) {count j : Nat} (within : j < count) :
    size ≤ (Pass.turnsToEnd count size).count j := by
  have part : List.replicate size j ∈ (List.range count).map (List.replicate size) :=
    List.mem_map_of_mem (List.mem_range.mpr within)
  have fewer := (List.sublist_flatten_of_mem part).count_le j
  rw [List.count_replicate_self] at fewer
  rwa [Pass.turnsToEnd, List.flatMap_def]

theorem Pass.turnsEnd {σ : Type} (p : Pass σ) (turns : List Nat) (batch : List Element)
    (xs : List Extract) :
    let ended := (turns ++ turnsToEnd xs.length batch.length).foldl
      (fun ws i => ws.modify i (Worker.turn p.visit)) (xs.map fun x => Worker.mk x batch)
    (∀ (j : Nat) (w : Worker), ended[j]? = some w → w.ahead = []) ∧
      ended.map Worker.extract = p.overBatch turns batch xs := by
  -- The turns at the end alone are enough for every worker, so the moment after them is the batch's
  -- end.
  intro ended
  have done (j : Nat) (w : Worker) (here : ended[j]? = some w) : w.ahead = [] := by
    obtain ⟨v, found, ahead⟩ := aheadTurns _ here
    rw [List.getElem?_map] at found
    obtain ⟨x, first, rfl⟩ := Option.map_eq_some_iff.mp found
    obtain ⟨within, _⟩ := List.getElem?_eq_some_iff.mp first
    have enough := turnsSuffice batch.length within
    rw [ahead, List.drop_eq_nil_iff, List.count_append]
    exact Nat.le_add_left_of_le enough
  refine ⟨done, ?_⟩
  have finished : ended.map Worker.extract = ended.map (Worker.finish p.visit) := by
    refine List.map_congr_left fun w mem => ?_
    obtain ⟨j, here⟩ := List.mem_iff_getElem?.mp mem
    rw [Worker.finish, done j w here, List.foldl_nil]
  rw [finished, Worker.finishTurns]
  exact (Worker.finishTurns turns _).symm

end Batches

def Pass.taken {σ : Type} (p : Pass σ) : List (List Element) → σ → List Element
  | [], _ => []
  | batch :: rest, s =>
    match batch.foldlM p.observe s with
    | .error _ => []
    | .ok s => batch ++ p.taken rest s

theorem Pass.takenObserved {σ : Type} (p : Pass σ) (batches : List (List Element)) (s : σ) :
    ∃ last, (p.taken batches s).foldlM p.observe s = .ok last := by
  induction batches generalizing s with
  | nil => exact ⟨s, rfl⟩
  | cons batch rest ih =>
    rw [taken]
    cases observed : batch.foldlM p.observe s with
    | error fault => exact ⟨s, rfl⟩
    | ok next =>
      obtain ⟨last, others⟩ := ih next
      refine ⟨last, ?_⟩
      rw [List.foldlM_append, observed]
      exact others

section Scans
variable {σ : Type} {p : Pass σ} {holds : Extract → Prop}
  {fit : Prop → List Element → Extract → Prop} (fits : Fits p.visit holds fit)

def AllFit (fit : Prop → List Element → Extract → Prop) (later : List Element)
    (record : List Moment) (xs : List Extract) : Prop :=
  ∀ i x, xs[i]? = some x → fit (MetRelation record i) later x

include fits

theorem keepsBatch (turns : List Nat) (batch later : List Element) {xs : List Extract}
    {record : List Moment} (keeps : Keeps holds record xs)
    (ready : AllFit fit (batch ++ later) record xs) :
    let after := p.overBatch turns batch xs
    let more := record ++ p.batchMoments turns batch xs
    Keeps holds more after ∧ AllFit fit later more after := by
  intro after more
  let all := turns ++ Pass.turnsToEnd xs.length batch.length
  have extracts : (xs.map fun x => Worker.mk x batch).map Worker.extract = xs := by
    simp [Function.comp_def]
  have started : Ready fit later record (xs.map fun x => Worker.mk x batch) := by
    intro i w here
    rw [List.getElem?_map] at here
    obtain ⟨x, found, rfl⟩ := Option.map_eq_some_iff.mp here
    exact ready i x found
  obtain ⟨kept, still⟩ := keepsTurns fits later all (extracts.symm ▸ keeps) started
  obtain ⟨done, left⟩ := p.turnsEnd turns batch xs
  have ends : _ = after := left
  refine ⟨ends ▸ kept, fun i x here => ?_⟩
  rw [← ends, List.getElem?_map] at here
  obtain ⟨w, found, rfl⟩ := Option.map_eq_some_iff.mp here
  have fit := still i w found
  rwa [done i w found] at fit

theorem keepsScan (turns : Nat → List Nat) (batches : List (List Element)) (s : σ)
    {xs : List Extract} {record : List Moment} (keeps : Keeps holds record xs)
    (ready : AllFit fit (p.taken batches s) record xs) :
    Keeps holds (record ++ p.scanMoments turns batches s xs)
      (p.overBatches turns batches s xs).1 := by
  induction batches generalizing turns s xs record with
  | nil =>
    simp only [Pass.scanMoments, List.append_nil]
    exact keeps
  | cons batch rest ih =>
    rw [Pass.taken] at ready
    rw [Pass.scanMoments, Pass.overBatches]
    cases observed : batch.foldlM p.observe s with
    | error fault =>
      simp only [List.append_nil]
      exact keeps
    | ok next =>
      rw [observed] at ready
      obtain ⟨kept, still⟩ := keepsBatch fits (turns 0) batch _ keeps ready
      have others := ih (fun n => turns (n + 1)) next kept still
      rwa [List.append_assoc] at others

end Scans

def FitsFirst (met : Prop) (later : List Element) (x : Extract) : Prop :=
  ∃ rank, x.Ready rank ∧ (∀ e ∈ later, rank ≤ e.kind.rank) ∧
    later.Pairwise (fun e f => e.kind.rank ≤ f.kind.rank) ∧ (met → 2 ≤ rank)

theorem fitsFirst {visit : Extract → Element → Extract} {holds : Extract → Prop}
    (discovers : ∀ x e, Extract.Discovers e.kind x (visit x e))
    (held : ∀ x rank, x.Ready rank → holds x) : Fits visit holds FitsFirst where
  kept met x e rest := by
    intro ⟨rank, ready, due, _, _⟩
    exact held _ _ (ready.find (due e List.mem_cons_self) (discovers x e))
  grows met x e rest _ := (discovers x e).grows
  settled met x e rest := by
    intro ⟨rank, _, due, _, late⟩ met
    have last := Nat.le_trans (late met) (due e List.mem_cons_self)
    refine (discovers x e).early ?_
    revert last
    cases e.kind <;> decide
  rest met now x e rest := by
    intro ⟨rank, ready, due, sorted, late⟩ source
    obtain ⟨first, sorted⟩ := List.pairwise_cons.mp sorted
    have next := due e List.mem_cons_self
    refine ⟨e.kind.rank, ready.find next (discovers x e), first, sorted, fun here => ?_⟩
    rcases source here with before | relation
    · exact Nat.le_trans (late before) next
    · rw [relation]
      exact Nat.le_refl _
  less met now rest x := by
    intro ⟨rank, ready, due, sorted, late⟩ fewer
    exact ⟨rank, ready, due, sorted, fun here => late (fewer here)⟩

theorem fitsLater {visit : Extract → Element → Extract} {holds : Extract → Prop}
    (carries : ∀ x e, holds x → Extract.Carries holds x (visit x e)) :
    Fits visit holds fun _ _ => holds where
  kept _ x e _ now := (carries x e now).holds
  grows _ x e _ now := (carries x e now).grows
  settled _ x e _ now _ := (carries x e now).early
  rest _ _ x e _ now _ := (carries x e now).holds
  less _ _ _ _ now _ := now

theorem walkTail (f : Extract → Extract) (places : List Nat) (x : Extract) (xs : List Extract) :
    (places.map (· + 1)).foldl (fun xs i => xs.modify i f) (x :: xs) =
      x :: places.foldl (fun xs i => xs.modify i f) xs := by
  induction places generalizing xs with
  | nil => rfl
  | cons i places ih => simp [ih]

theorem walkAll (f : Extract → Extract) (xs : List Extract) :
    (List.range xs.length).foldl (fun xs i => xs.modify i f) xs = xs.map f := by
  induction xs with
  | nil => rfl
  | cons x xs ih =>
    rw [List.length_cons, List.range_succ_eq_map, List.foldl_cons, List.modify_zero_cons, walkTail,
      ih, List.map_cons]

theorem keepsWalk {holds : Extract → Prop} {f : Extract → Extract}
    (carries : ∀ x, holds x → Extract.Carries holds x (f x)) (places : List Nat)
    {xs : List Extract} {record : List Moment} (keeps : Keeps holds record xs) :
    Keeps holds (record ++ Recorded.walkMoments f places xs)
      (places.foldl (fun xs i => xs.modify i f) xs) := by
  induction places generalizing xs record with
  | nil =>
    simp only [Recorded.walkMoments, List.append_nil]
    exact keeps
  | cons i places ih =>
    have each (x : Extract) (here : xs[i]? = some x) : Extract.Carries holds x (f x) :=
      carries x (keeps.now x (List.mem_of_getElem? here))
    have kept := keeps.change (fun x here => (each x here).holds) (fun x here => (each x here).grows)
      (fun x here _ => (each x here).early) none
    have others := ih kept
    rw [List.append_assoc] at others
    exact others

end Cutout
