import Cutout.Proofs.Outlets
import Cutout.Proofs.Slots
import Cutout.Run
/-! What outputs bring to their files when all transfers go through, and what they leave alone when
some fail. In between, an output holds the beginning of the document of its extract, and has counted
the elements in it. -/
namespace Cutout

theorem Sink.writeAll (format : OutputFormat) (clean : List MetaAttribute) (text : String)
    (elements : List Element) : elements.foldl write ⟨format, clean, text, false⟩ =
      ⟨format, clean, text ++ String.join (elements.flatMap (format.element depth clean)), false⟩ := by
  induction elements generalizing text with
  | nil => simp
  | cons e rest ih =>
    have written : write ⟨format, clean, text, false⟩ e =
        ⟨format, clean, text ++ String.join (format.element depth clean e), false⟩ := rfl
    rw [List.foldl_cons, written, ih]
    simp [String.append_assoc]

theorem Target.documentText (t : Target) (elements : List Element) : t.document elements =
    String.join t.opening ++ String.join (elements.flatMap t.pieces) ++
      String.join t.format.closing := by
  rw [document, Sink.document, Sink.start, Sink.writeAll]
  rfl

def Outlet.Apart (places : List (Option Place)) : Prop :=
  places.Pairwise fun a b => ∀ place, a = some place → b ≠ some place

namespace Output
variable {m : Medium} {o : Output} {d e : Delivery} {t : Target} {elements : List Element}

def aim (o : Output) : Target × Option Place := (o.target, o.outlet.place)

def Owns (o : Output) (place : Place) : Prop := o.outlet.place = some place

theorem staysWrite (m : Medium) (o : Output) (e : Element) (d : Delivery) :
    Sent.Stays Owns o d (o.write m e d) := by
  have sent := Outlet.staysPutAll m o.outlet (o.target.pieces e) d
  unfold write
  dsimp only
  split <;> exact ⟨sent.owned, sent.elsewhere⟩

theorem staysWriteAll (m : Medium) (o : Output) (es : List Element) (d : Delivery) :
    Sent.Stays Owns o d (o.writeAll m es d) := Sent.staysAll (staysWrite m) es o d

theorem staysFinish (m : Medium) (o : Output) (closing : List String) (d : Delivery) :
    Sent.Stays Owns o d (o.finish m closing d) := by
  have sent := Outlet.staysEnd m o.outlet closing d
  unfold finish
  dsimp only
  split <;> exact ⟨sent.owned, sent.elsewhere⟩

theorem placeKept {after : Outlet} (owned : after.Owns = o.outlet.Owns) :
    after.place = o.outlet.place := by
  refine Option.ext fun place => ?_
  exact iff_of_eq (congrFun owned place)

theorem aimWrite (m : Medium) (o : Output) (e : Element) (d : Delivery) :
    (o.write m e d).sender.aim = o.aim := by
  have place := placeKept (Outlet.staysPutAll m o.outlet (o.target.pieces e) d).owned
  unfold write
  dsimp only
  split <;> exact congrArg (Prod.mk o.target) place

theorem aimWriteAll (m : Medium) (o : Output) (es : List Element) (d : Delivery) :
    (o.writeAll m es d).sender.aim = o.aim := Sent.sameAll aim (aimWrite m) es o d

theorem aimFinish (m : Medium) (o : Output) (closing : List String) (d : Delivery) :
    (o.finish m closing d).sender.aim = o.aim := by
  have place := placeKept (Outlet.staysEnd m o.outlet closing d).owned
  unfold finish
  dsimp only
  split <;> exact congrArg (Prod.mk o.target) place

theorem soundWrite (o : Output) (e : Element) (d : Delivery) :
    (o.write .sound e d).result = .ok () := by
  unfold write
  dsimp only
  rw [Outlet.soundPutAll]

theorem soundFinish (o : Output) (closing : List String) (d : Delivery) :
    (o.finish .sound closing d).result = .ok () := by
  unfold finish Sent.andThen
  dsimp only
  rw [Outlet.soundPutAll]
  dsimp only
  rw [Outlet.soundFlush]

structure Has (o : Output) (t : Target) (elements : List Element) (d : Delivery) : Prop where
  target : o.target = t
  counts : o.counts = .ofElements elements
  holds : o.outlet.Holds
    (String.join t.opening ++ String.join (elements.flatMap t.pieces)) d

theorem Has.elsewhere (has : o.Has t elements d)
    (same : ∀ place, o.Owns place → e.files.get? place = d.files.get? place) :
    o.Has t elements e := ⟨has.target, has.counts, has.holds.elsewhere same⟩

theorem hasStart (empty : ∀ place, t.place = some place → d.files.get? place = some (.text "")) :
    (start t).Has t [] d := by
  refine ⟨rfl, rfl, "", fun place here => ⟨empty place here, rfl⟩, ?_⟩
  rw [List.flatMap_nil, String.join_nil, String.append_empty, String.empty_append]
  rfl

theorem hasWrite {e : Element} (passed : (o.write m e d).result = .ok ())
    (has : o.Has t elements d) :
    (o.write m e d).sender.Has t (elements ++ [e]) (o.write m e d).delivery := by
  obtain ⟨rfl, counts, holds⟩ := has
  unfold write at passed ⊢
  dsimp only at passed ⊢
  split at passed
  · rename_i all
    refine ⟨rfl, ?_, ?_⟩
    · rw [Tally.ofElements, List.foldl_append]
      exact congrArg (Tally.count · e) counts
    · rw [List.flatMap_append, List.flatMap_singleton, String.join_append, ← String.append_assoc]
      exact Outlet.holdsPutAll all holds
  · cases passed

theorem hasWriteAll {more : List Element} (passed : (o.writeAll m more d).result = .ok ())
    (has : o.Has t elements d) :
    (o.writeAll m more d).sender.Has t (elements ++ more) (o.writeAll m more d).delivery := by
  refine Sent.passedAll (fun o done d => o.Has t (elements ++ done) d) (fun o done e d passed has => ?_)
    passed ?_
  · rw [← List.append_assoc]
    exact hasWrite passed has
  · rwa [List.append_nil]

theorem finishHas (passed : (o.finish m t.format.closing d).result = .ok ())
    (has : o.Has t elements d) :
    let finished := o.finish m t.format.closing d
    finished.sender.finished = true ∧ finished.sender.note = t.written (.ofElements elements) ∧
      ∀ place, o.Owns place → finished.delivery.files.get? place = some (.text (t.document elements)) := by
  obtain ⟨rfl, counts, holds⟩ := has
  intro finished
  have stays := Outlet.staysEnd m o.outlet o.target.format.closing d
  simp only [finished]
  unfold finish at passed ⊢
  dsimp only at passed ⊢
  split at passed
  · rename_i all
    obtain ⟨first, goesOn⟩ := Sent.andThenPassed all
    rw [goesOn] at all stays ⊢
    obtain ⟨held, empty⟩ := Outlet.holdsFlush all (Outlet.holdsPutAll first holds)
    refine ⟨rfl, congrArg o.target.written counts, fun place here => ?_⟩
    obtain ⟨done, placed, whole⟩ := held
    rw [empty, String.append_empty] at whole
    have there := (placed place ((placeKept stays.owned).trans here)).1
    rw [there, whole, o.target.documentText]
  · cases passed

end Output

namespace Run
open Sent Output
variable {m : Medium} {outputs : List Output} {targets : List Target} {d : Delivery}

def Serves (outputs : List Output) (targets : List Target) : Prop :=
  outputs.map aim = targets.map fun t => (t, t.place)

theorem servesStart (targets : List Target) : Serves (targets.map .start) targets := by
  rw [Serves, List.map_map]
  rfl

theorem Serves.sameTargets (serves : Serves outputs targets) : outputs.map Output.target = targets := by
  have first := congrArg (List.map Prod.fst) serves
  simpa [Function.comp_def, aim] using first

theorem Serves.samePlaces (serves : Serves outputs targets) :
    outputs.map (fun o => o.outlet.place) = targets.map Target.place := by
  have second := congrArg (List.map Prod.snd) serves
  simpa [Function.comp_def, aim] using second

theorem Serves.owned (serves : Serves outputs targets) (place : Place) :
    ownsAny Owns outputs place ↔ some place ∈ targets.map Target.place := by
  rw [← serves.samePlaces, List.mem_map]
  exact Iff.rfl

theorem Serves.apart (serves : Serves outputs targets)
    (apart : Outlet.Apart (targets.map Target.place)) :
    outputs.Pairwise fun a c => ∀ place, Owns a place → ¬ Owns c place := by
  rw [← serves.samePlaces, Outlet.Apart, List.pairwise_map] at apart
  exact apart

theorem Serves.at (serves : Serves outputs targets) {i : Nat} {o : Output} {t : Target}
    (here : outputs[i]? = some o) (target : targets[i]? = some t) : o.aim = (t, t.place) := by
  have same := congrArg (·[i]?) serves
  simpa [here, target] using same

theorem servesEach {β : Type} {send : Output → β → Delivery → Sent Fault Output}
    (aims : ∀ o b d, (send o b d).sender.aim = o.aim) (serves : Serves outputs targets)
    (bs : List β) (d : Delivery) : Serves (each send outputs bs d).sender targets :=
  (sameEach aim aims outputs bs d).trans serves

theorem servesFill (serves : Serves outputs targets) (rounds : List (List (List Element)))
    (d : Delivery) : Serves (fill m outputs rounds d).sender targets := by
  refine Eq.trans ?_ serves
  refine sameAll (List.map aim) (fun outputs round d => ?_) rounds outputs d
  exact sameEach aim (aimWriteAll m) outputs round d

theorem servesFinish (serves : Serves outputs targets) (d : Delivery) :
    Serves (finish m outputs d).sender targets := servesEach (aimFinish m) serves _ d

theorem staysFill (m : Medium) (outputs : List Output) (rounds : List (List (List Element)))
    (d : Delivery) : Stays (ownsAny Owns) outputs d (fill m outputs rounds d) := by
  refine staysAll (fun outputs round d => ?_) rounds outputs d
  exact staysEach (staysWriteAll m) outputs round d

theorem staysClosing (m : Medium) (outputs : List Output) (d : Delivery) :
    Stays (ownsAny Owns) outputs d (finish m outputs d) :=
  staysEach (Output.staysFinish m) outputs _ d

theorem concludeSound (outcome : Outcome) (notes : List Note) (targets : List Target)
    (files : Files) : (conclude .sound outcome notes targets files).result = outcome.result := by
  have writes (o : Output) (es : List Element) (d : Delivery) :
      (o.writeAll .sound es d).result = .ok () := goesThroughAll soundWrite es o d
  have fills (outputs : List Output) (rounds : List (List (List Element))) (d : Delivery) :
      (fill .sound outputs rounds d).result = .ok () :=
    goesThroughAll (fun outputs round d => goesThroughEach writes outputs round d) rounds outputs d
  have closes (outputs : List Output) (d : Delivery) : (finish .sound outputs d).result = .ok () :=
    goesThroughEach soundFinish outputs _ d
  unfold conclude
  dsimp only
  rw [fills]
  cases outcome.result with
  | error fault => rfl
  | ok =>
    dsimp only
    rw [closes]

section Passed
variable (apart : Outlet.Apart (targets.map Target.place)) {i : Nat} {t : Target}
include apart

theorem roundAt (serves : Serves outputs targets) {o : Output} (here : outputs[i]? = some o)
    {elements more : List Element} (has : o.Has t elements d) {round : List (List Element)}
    (given : round[i]? = some more)
    (passed : (each (writeAll m) outputs round d).result = .ok ()) :
    ∃ after, (each (writeAll m) outputs round d).sender[i]? = some after ∧
      after.Has t (elements ++ more) (each (writeAll m) outputs round d).delivery := by
  obtain ⟨e, before, passes, found, later⟩ :=
    eachAt (staysWriteAll m) (serves.apart apart) passed here given
  refine ⟨_, found, (hasWriteAll passes (has.elsewhere before)).elsewhere fun place mine => ?_⟩
  refine later place ?_
  rwa [(staysWriteAll m o more e).owned] at mine

variable (target : targets[i]? = some t)
include target

theorem fillAt {xs : List Extract} {x : Extract} (extract : xs[i]? = some x)
    {batches : List (List Element)} {files : Files}
    (empty : ∀ place, t.place = some place → files.get? place = some (.text "")) :
    let rounds := batches.map fun batch => xs.map (·.selected batch)
    let filled := fill m (targets.map .start) rounds (.start files)
    filled.result = .ok () → ∃ o, filled.sender[i]? = some o ∧
      o.Has t (x.selected batches.flatten) filled.delivery := by
  intro rounds filled passed
  simp only [filled, rounds, fill, allMap] at passed ⊢
  have all := passedAll (fun outputs done d => Serves outputs targets ∧
    ∃ o, outputs[i]? = some o ∧ o.Has t (x.selected done.flatten) d) ?_ passed ?_
  · exact all.2
  · intro outputs done batch d passed ⟨serves, o, here, has⟩
    have given : (xs.map (·.selected batch))[i]? = some (x.selected batch) := by
      rw [List.getElem?_map, extract]
      rfl
    have written := roundAt apart serves here has given passed
    have joined : x.selected (done ++ [batch]).flatten =
        x.selected done.flatten ++ x.selected batch := by
      rw [List.flatten_append, List.flatten_singleton]
      exact List.filter_append ..
    rw [joined]
    exact ⟨servesEach (aimWriteAll m) serves _ d, written⟩
  · refine ⟨servesStart targets, .start t, ?_, hasStart empty⟩
    rw [List.getElem?_map, target]
    rfl

theorem finishAt (serves : Serves outputs targets) {o : Output} (here : outputs[i]? = some o)
    {elements : List Element} (has : o.Has t elements d)
    (passed : (finish m outputs d).result = .ok ()) :
    ∃ after, (finish m outputs d).sender[i]? = some after ∧ after.finished = true ∧
      after.note = t.written (.ofElements elements) ∧ ∀ place, t.place = some place →
        (finish m outputs d).delivery.files.get? place = some (.text (t.document elements)) := by
  have given : (outputs.map fun o => o.target.format.closing)[i]? = some t.format.closing := by
    rw [List.getElem?_map, here, Option.map_some, has.target]
  obtain ⟨e, before, passes, found, later⟩ :=
    eachAt (Output.staysFinish m) (serves.apart apart) passed here given
  obtain ⟨closed, note, file⟩ := finishHas passes (has.elsewhere before)
  refine ⟨_, found, closed, note, fun place there => ?_⟩
  have mine : o.Owns place := (congrArg Prod.snd (serves.at here target)).trans there
  exact (later place mine).trans (file place mine)

end Passed
end Run
end Cutout
