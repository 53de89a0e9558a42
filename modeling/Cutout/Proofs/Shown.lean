import Cutout.Proofs.Records
/-! What a record says that extracts have been shown. No element is shown to an extract without a moment
that names both: the calls of an extract in the record of a run are the elements of its scans, in order, up
to the batch at which the run may have failed. -/
namespace Cutout

def Moment.shownTo (i : Nat) (m : Moment) : Option Element :=
  m.call.bind fun (j, e) => if j = i then some e else none

def shownTo (i : Nat) (record : List Moment) : List Element := record.filterMap (Moment.shownTo i)

theorem shownAppend (i : Nat) (record more : List Moment) :
    shownTo i (record ++ more) = shownTo i record ++ shownTo i more := List.filterMap_append

namespace Pass
variable {σ : Type} (p : Pass σ)

theorem shownTurns (turns : List Nat) {workers : List Worker} {i : Nat} {w : Worker}
    (here : workers[i]? = some w) : ∃ v,
      (turns.foldl (fun ws j => ws.modify j (Worker.turn p.visit)) workers)[i]? = some v ∧
        shownTo i (p.moments workers turns) ++ v.ahead = w.ahead := by
  induction turns generalizing workers w with
  | nil => exact ⟨w, here, rfl⟩
  | cons j turns ih =>
    let after := workers.modify j (Worker.turn p.visit)
    have first (m : Moment) (rest : List Moment) :
        shownTo i (m :: rest) = (m.shownTo i).toList ++ shownTo i rest := by
      rw [shownTo, List.filterMap_cons]
      cases m.shownTo i <;> rfl
    by_cases same : j = i
    · subst same
      have turned : after[j]? = some (w.turn p.visit) := by
        simp only [after, List.getElem?_modify_eq, here]
        rfl
      obtain ⟨v, found, split⟩ := ih turned
      refine ⟨v, found, ?_⟩
      rw [moments, first, List.append_assoc, split]
      obtain ⟨x, _ | ⟨e, rest⟩⟩ := w
      · simp [Moment.shownTo, nextCall, here, Worker.turn]
      · simp [Moment.shownTo, nextCall, here, Worker.turn]
    · have kept : after[i]? = some w := by
        simp only [after, List.getElem?_modify_ne _ _ same, here]
      obtain ⟨v, found, split⟩ := ih kept
      refine ⟨v, found, ?_⟩
      have other : (Moment.mk (nextCall workers j) (after.map Worker.extract)).shownTo i = none := by
        cases shown : nextCall workers j with
        | none => rfl
        | some call =>
          obtain ⟨_, e, _, _, rfl⟩ := turnShown shown
          simp [Moment.shownTo, same]
      rw [moments, first, other]
      exact split

theorem shownBatch (turns : List Nat) (batch : List Element) {xs : List Extract} {i : Nat}
    (within : i < xs.length) : shownTo i (p.batchMoments turns batch xs) = batch := by
  have here : (xs.map fun x => Worker.mk x batch)[i]? = some ⟨xs[i], batch⟩ := by
    rw [List.getElem?_map, List.getElem?_eq_getElem within]
    rfl
  obtain ⟨v, found, split⟩ := p.shownTurns (turns ++ turnsToEnd xs.length batch.length) here
  rw [(p.turnsEnd turns batch xs).1 i v found, List.append_nil] at split
  exact split

theorem overBatchLength (turns : List Nat) (batch : List Element) (xs : List Extract) :
    (p.overBatch turns batch xs).length = xs.length := by
  rw [overBatchEach, List.length_map]

theorem shownScan (turns : Nat → List Nat) (batches : List (List Element)) (s : σ)
    {xs : List Extract} {i : Nat} (within : i < xs.length) :
    shownTo i (p.scanMoments turns batches s xs) = p.taken batches s := by
  induction batches generalizing turns s xs with
  | nil => rfl
  | cons batch rest ih =>
    rw [scanMoments, taken]
    cases batch.foldlM p.observe s with
    | error fault => rfl
    | ok next =>
      dsimp only
      rw [shownAppend, p.shownBatch (turns 0) batch within]
      refine congrArg (batch ++ ·) (ih _ next ?_)
      rwa [overBatchLength]

theorem takenPrefix (batches : List (List Element)) (s : σ) :
    p.taken batches s <+: batches.flatten := by
  induction batches generalizing s with
  | nil => exact List.prefix_refl _
  | cons batch rest ih =>
    rw [taken, List.flatten_cons]
    split
    · exact List.nil_prefix
    · exact (List.prefix_append_right_inj batch).mpr (ih _)

theorem takenWhole {batches : List (List Element)} {s last : σ}
    (accepted : batches.flatten.foldlM p.observe s = .ok last) :
    p.taken batches s = batches.flatten := by
  induction batches generalizing s with
  | nil => rfl
  | cons batch rest ih =>
    rw [List.flatten_cons, List.foldlM_append, bindOk] at accepted
    obtain ⟨mid, first, others⟩ := accepted
    rw [taken, first, List.flatten_cons]
    exact congrArg (batch ++ ·) (ih others)

end Pass

def Source.Part (source : Source) (kinds : Kinds) (elements : List Element) : Prop :=
  ∃ earlier metadata, elements <+: (source.scan earlier kinds metadata).batches.flatten

def Source.Whole (source : Source) (kinds : Kinds) (elements : List Element) : Prop :=
  ∃ earlier metadata, elements = (source.scan earlier kinds metadata).batches.flatten

/-- Each of so many extracts has been shown what the scans have handed out, all of it but in the last
scan, and in that one too if the run has gone through. -/
def Shows (source : Source) (count : Nat) (scans : List Kinds) (record : List Moment)
    (through : Prop) : Prop :=
  ∃ shown : List (List Element), (∀ i < count, shownTo i record = shown.flatten) ∧
    List.Forall₂ source.Part scans shown ∧
    List.Forall₂ source.Whole scans.dropLast shown.dropLast ∧
    (through → List.Forall₂ source.Whole scans shown)

theorem forall₂DropLast {α β : Type} {relates : α → β → Prop} {items : List α} {others : List β}
    (all : List.Forall₂ relates items others) :
    List.Forall₂ relates items.dropLast others.dropLast := by
  rw [List.dropLast_eq_take, List.dropLast_eq_take, all.length_eq]
  exact List.forall₂_take _ all

namespace Recorded
variable {α β σ : Type} {source : Source} {count : Nat}

def ShowsOn (source : Source) (count : Nat) (recorded : Recorded α) : Prop :=
  ∀ s record, s.extracts.length = count → Shows source count s.scans record True →
    let (result, after, more) := recorded.run.run (s, record)
    after.extracts.length = count ∧ Shows source count after.scans more (result.toBool = true)

theorem ShowsOn.bind {recorded : Recorded α} {next : α → Recorded β}
    (first : recorded.ShowsOn source count) (rest : ∀ a, (next a).ShowsOn source count) :
    (recorded >>= next).ShowsOn source count := by
  intro s record length shows
  have begun := first s record length shows
  rw [ExceptT.run_bind, StateT.run_bind]
  cases ran : recorded.run.run (s, record) with
  | mk result state =>
    obtain ⟨between, more⟩ := state
    rw [ran] at begun
    cases result with
    | error fault => exact begun
    | ok a =>
      obtain ⟨still, shown, calls, part, _, whole⟩ := begun
      have all := whole rfl
      exact rest a between more still ⟨shown, calls, part, forall₂DropLast all, fun _ => all⟩

theorem showsPure (a : α) : (pure a : Recorded α).ShowsOn source count :=
  fun _ _ length ⟨shown, calls, part, before, whole⟩ =>
    ⟨length, shown, calls, part, before, fun _ => whole trivial⟩

theorem showsNote (n : Note) : (quiet (Step.note n)).ShowsOn source count := by
  intro s record length ⟨shown, calls, part, before, whole⟩
  refine ⟨length, shown, fun i within => ?_, part, before, fun _ => whole trivial⟩
  rw [shownAppend, calls i within]
  exact List.append_nil _

theorem showsExtracts : (quiet Step.extracts).ShowsOn source count := by
  intro s record length ⟨shown, calls, part, before, whole⟩
  refine ⟨length, shown, fun i within => ?_, part, before, fun _ => whole trivial⟩
  rw [shownAppend, calls i within]
  exact List.append_nil _

theorem shownWalk (i : Nat) (f : Extract → Extract) (places : List Nat) (xs : List Extract) :
    shownTo i (walkMoments f places xs) = [] := by
  induction places generalizing xs with
  | nil => rfl
  | cons j rest ih => exact ih _

theorem showsWalk (f : Extract → Extract) : (walk f).ShowsOn source count := by
  intro s record length ⟨shown, calls, part, before, whole⟩
  refine ⟨(List.length_map _).trans length, shown, fun i within => ?_, part, before,
    fun _ => whole trivial⟩
  rw [shownAppend, calls i within, shownWalk, List.append_nil]

theorem showsPass (schedule : Schedule) (p : Pass σ) (start : σ) :
    (pass schedule p start source).ShowsOn source count := by
  intro s record length ⟨shown, calls, part, before, whole⟩
  let scan := source.scan s.scans.length p.kinds p.metadata
  let taken := p.taken scan.batches start
  obtain ⟨seen, _, _, ends⟩ := p.overScanSeen scan start
  have all := whole trivial
  have more (full : taken = scan.batches.flatten) :
      List.Forall₂ source.Whole (s.scans ++ [p.kinds]) (shown ++ [taken]) :=
    List.rel_append all (.cons ⟨_, _, full⟩ .nil)
  refine ⟨?_, shown ++ [taken], fun i within => ?_, ?_, ?_, fun through => more ?_⟩
  · change (p.overScan _ scan start s.extracts).1.length = count
    rw [ends, List.length_map, length]
  · rw [shownAppend, calls i within, List.flatten_append, List.flatten_singleton]
    exact congrArg (shown.flatten ++ ·) (p.shownScan _ scan.batches start (length ▸ within))
  · exact List.rel_append part (.cons ⟨_, _, p.takenPrefix scan.batches start⟩ .nil)
  · change List.Forall₂ source.Whole (s.scans ++ [p.kinds]).dropLast (shown ++ [taken]).dropLast
    rwa [List.dropLast_concat, List.dropLast_concat]
  · obtain ⟨last, passed⟩ : ∃ last, (p.overScan (schedule s.scans.length) scan start s.extracts).2 =
        .ok last := by
      change (p.overScan (schedule s.scans.length) scan start s.extracts).2.toBool = true at through
      cases result : (p.overScan (schedule s.scans.length) scan start s.extracts).2 with
      | ok last => exact ⟨last, rfl⟩
      | error fault =>
        rw [result] at through
        cases through
    exact p.takenWhole (p.observedOfResult passed)

theorem showsWrite (schedule : Schedule) : (write schedule source).ShowsOn source count :=
  fun s record length shows => showsPass schedule .write () { s with rounds := _, told := _ } record
    length shows

end Recorded

namespace Strategy
open Recorded
variable {source : Source} {count : Nat} (schedule : Schedule)

theorem SystemOptions.showsIfAny (kind : Kind) (number : Nat) (p : Pass Unit) :
    (recordedIfAny kind number p source schedule).ShowsOn source count := by
  refine showsExtracts.bind fun xs => ?_
  split
  · exact (showsNote _).bind fun _ => (showsPass schedule p ()).bind fun _ => showsNote _
  · exact showsPure ()

theorem SystemOptions.shows (o : SystemOptions) :
    (o.recorded source schedule).ShowsOn source count := by
  refine (showsNote _).bind fun _ => (showsNote _).bind fun _ => ?_
  refine (showsPass schedule o.findPrimary .start).bind fun survey => ?_
  refine (showsNote _).bind fun _ => (showsWalk _).bind fun _ => ?_
  refine (showsIfAny schedule _ _ _).bind fun _ => (showsIfAny schedule _ _ _).bind fun _ => ?_
  exact (showsNote _).bind fun _ => (showsWrite schedule).bind fun _ => showsNote _

theorem FirstNodeOptions.shows (o : FirstNodeOptions) :
    (o.recorded source schedule).ShowsOn source count := by
  refine (showsNote _).bind fun _ => (showsNote _).bind fun _ => ?_
  refine (showsPass schedule o.findPrimary .start).bind fun survey => (showsWalk _).bind fun _ => ?_
  refine (showsNote _).bind fun _ => (showsPass schedule completeWays ()).bind fun _ => ?_
  exact (showsNote _).bind fun _ => showsWrite schedule

theorem recordShows (s : Strategy) (source : Source) (extracts : List Extract)
    (schedule : Schedule) :
    let (outcome, record) := s.record source extracts schedule
    Shows source extracts.length outcome.session.scans record (outcome.result = .ok ()) := by
  have fresh : Shows source extracts.length [] [⟨none, extracts⟩] True :=
    ⟨[], fun _ _ => rfl, .nil, .nil, fun _ => .nil⟩
  rw [record]
  cases s.checkSource source with
  | error fault => exact ⟨[], fun _ _ => rfl, .nil, .nil, fun _ => .nil⟩
  | ok =>
    have shows : (s.recorded source schedule).ShowsOn source extracts.length := by
      cases s with
      | systems o => exact o.shows schedule
      | firstNode o => exact o.shows schedule
    have ran := shows (.start extracts) [⟨none, extracts⟩] rfl fresh
    simp only [passedIff] at ran
    exact ran.2

end Strategy
end Cutout
