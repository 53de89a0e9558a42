import Cutout.Proofs.Independence
import Cutout.Recipient
/-! Batches. However the elements of a scan are cut into batches, and whichever way each scan of a run
is cut, the run ends with the same result and the same extracts, and the recipients take the same. -/
namespace Cutout

namespace Handover

theorem feedAppend (h : Handover) (first second : List Element) :
    h.feed (first ++ second) = h.feed first >>= fun h => h.feed second := by
  unfold feed
  rw [List.foldlM_append]
  cases first.foldlM h.recipient.take h.taken with
  | error fault => rfl
  | ok taken => rfl

theorem feedAllNothing (xs : List Extract) (hs : List Handover) :
    feedAll hs (xs.map (·.selected [])) = .ok hs := by
  induction hs generalizing xs with
  | nil => rfl
  | cons h hs ih =>
    cases xs with
    | nil => rfl
    | cons x xs =>
      rw [List.map_cons, feedAll, ih]
      rfl

theorem feedAllCons {h : Handover} {hs fed : List Handover} {written : List Element}
    {others : List (List Element)} : feedAll (h :: hs) (written :: others) = .ok fed ↔
      ∃ first rest, h.feed written = .ok first ∧ feedAll hs others = .ok rest ∧
        fed = first :: rest := by
  rw [feedAll]
  simp only [bindOk, pure, Except.pure, Except.ok.injEq]
  constructor
  · intro given
    obtain ⟨first, one, rest, others, rfl⟩ := given
    exact ⟨first, rest, one, others, rfl⟩
  · intro given
    obtain ⟨first, rest, one, others, rfl⟩ := given
    exact ⟨first, one, rest, others, rfl⟩

theorem feedAllAppend {xs : List Extract} {hs fed : List Handover} {first second : List Element} :
    feedAll hs (xs.map (·.selected (first ++ second))) = .ok fed ↔
      ∃ mid, feedAll hs (xs.map (·.selected first)) = .ok mid ∧
        feedAll mid (xs.map (·.selected second)) = .ok fed := by
  induction hs generalizing xs fed with
  | nil => simp [feedAll, pure, Except.pure]
  | cons h hs ih =>
    cases xs with
    | nil => simp [feedAll, pure, Except.pure]
    | cons x xs =>
      have both : x.selected (first ++ second) = x.selected first ++ x.selected second :=
        List.filter_append ..
      simp only [List.map_cons, feedAllCons, both, feedAppend, bindOk, ih]
      constructor
      · intro given
        obtain ⟨last, lasts, ⟨m, one, two⟩, ⟨ms, ones, twos⟩, rfl⟩ := given
        exact ⟨m :: ms, ⟨m, ms, one, ones, rfl⟩, feedAllCons.mpr ⟨last, lasts, two, twos, rfl⟩⟩
      · intro given
        obtain ⟨_, ⟨m, ms, one, ones, rfl⟩, twice⟩ := given
        obtain ⟨last, lasts, two, twos, rfl⟩ := feedAllCons.mp twice
        exact ⟨last, lasts, ⟨m, one, two⟩, ⟨ms, ones, twos⟩, rfl⟩

theorem feedRounds {xs : List Extract} {batches : List (List Element)} {hs fed : List Handover} :
    (batches.map fun batch => xs.map (·.selected batch)).foldlM feedAll hs = .ok fed ↔
      feedAll hs (xs.map (·.selected batches.flatten)) = .ok fed := by
  induction batches generalizing hs with
  | nil => rw [List.flatten_nil, feedAllNothing]; rfl
  | cons batch rest ih =>
    rw [List.map_cons, List.foldlM_cons, List.flatten_cons, feedAllAppend, bindOk]
    simp only [ih]

theorem feedWilling (taken written : List Element) :
    feed ⟨fun _ _ => none, taken⟩ written = .ok ⟨fun _ _ => none, taken ++ written⟩ := by
  have takesAll (items taken : List Element) :
      items.foldlM (Recipient.take fun _ _ => none) taken = .ok (taken ++ items) := by
    induction items generalizing taken with
    | nil => rw [List.append_nil]; rfl
    | cons e items ih =>
      rw [List.foldlM_cons, List.append_cons]
      exact ih (taken ++ [e])
  unfold feed
  rw [takesAll]
  rfl

theorem feedAllWilling (round : List (List Element)) :
    feedAll (round.map fun _ => start fun _ _ => none) round =
      .ok (round.map fun written => ⟨fun _ _ => none, written⟩) := by
  induction round with
  | nil => rfl
  | cons written rest ih => exact feedAllCons.mpr ⟨_, _, feedWilling [] written, ih, rfl⟩

end Handover

theorem Outcome.succeedsOfDeliver {o : Outcome} {recipients : List Recipient}
    {taken : List (List Element)} (given : o.deliver recipients = .ok taken) : o.result = .ok () := by
  unfold deliver at given
  simp only [bindOk] at given
  obtain ⟨_, _, _, succeeds, _⟩ := given
  exact succeeds

theorem Outcome.deliverIff {o : Outcome} {batches : List (List Element)}
    (shares : o.session.Shares batches) {recipients : List Recipient}
    {taken : List (List Element)} : o.deliver recipients = .ok taken ↔ o.result = .ok () ∧
      ∃ fed, Handover.feedAll ((recipients.take o.session.extracts.length).map .start)
          (o.session.extracts.map (·.selected batches.flatten)) = .ok fed ∧
        fed.map Handover.taken = taken := by
  unfold deliver
  rw [shares]
  simp only [bindOk, Handover.feedRounds, pure, Except.pure, Except.ok.injEq]
  constructor
  · intro given
    obtain ⟨fed, all, _, succeeds, same⟩ := given
    exact ⟨succeeds, fed, all, same⟩
  · intro given
    obtain ⟨succeeds, fed, all, same⟩ := given
    exact ⟨fed, all, (), succeeds, same⟩

theorem Outcome.deliverAgree {o p : Outcome} {batches others : List (List Element)}
    (shares : o.session.Shares batches) (alsoShares : p.session.Shares others)
    (same : batches.flatten = others.flatten)
    (extracts : o.session.extracts = p.session.extracts) (results : o.result = p.result)
    {recipients : List Recipient} {taken : List (List Element)} :
    o.deliver recipients = .ok taken ↔ p.deliver recipients = .ok taken := by
  rw [deliverIff shares, deliverIff alsoShares, extracts, same, results]

namespace Strategy

theorem writtenFinished (s : Strategy) {elements : List Element} (region : Region) :
    (s.finished elements (.start region)).written.toList =
      elements.filter fun e => (s.finished elements (.start region)).includes e.kind e.key := by
  cases s with
  | systems o =>
    exact Extract.writtenFoldWrite (Extract.writtenOfFrame SystemOptions.frameGathered) elements
  | firstNode o =>
    exact Extract.writtenFoldWrite (Extract.writtenOfFrame FirstNodeOptions.frameGathered) elements

section Delivered
variable (s : Strategy) {source : Source} {elements : List Element}
  (held : source.Delivers elements) (schedule : Schedule) (xs : List Extract)
include held

theorem resultOfCheck : (s.run source xs schedule).result =
    (elements.foldlM (Survey.observe s.counts) .start).map fun _ => () := by
  cases checked : elements.foldlM (Survey.observe s.counts) .start with
  | error fault => exact s.runRefused held schedule checked xs
  | ok survey =>
    have accepted := Survey.observeStart.mp ⟨survey, checked⟩
    exact (s.runAccepted held schedule accepted xs).1

theorem sharesDelivered (accepted : InputOrder.Accepts elements) :
    (s.run source xs schedule).session.Shares (source.read .all true).batches := by
  obtain ⟨_, stands⟩ := s.runEnds held schedule accepted xs
  have rounds := congrArg Stand.rounds stands
  have extracts := congrArg Stand.extracts stands
  dsimp only [Session.stand] at rounds extracts
  simp only [Session.Shares, rounds, extracts, List.map_map, Function.comp_def]

theorem deliversWritten (accepted : InputOrder.Accepts elements) (regions : List Region) :
    let outcome := s.run source (regions.map .start) schedule
    outcome.deliver (outcome.session.extracts.map fun _ _ _ => none) =
      .ok (outcome.session.extracts.map fun x => x.written.toList) := by
  intro outcome
  obtain ⟨succeeds, extracts, _⟩ := s.runAccepted held schedule accepted (regions.map .start)
  have shares : outcome.session.Shares (source.read .all true).batches :=
    s.sharesDelivered held schedule (regions.map .start) accepted
  have fed := Handover.feedAllWilling (outcome.session.extracts.map (·.selected elements))
  refine (Outcome.deliverIff shares).mpr ⟨succeeds, ?_⟩
  rw [held.whole, List.take_of_length_le (Nat.le_of_eq (List.length_map _)), List.map_map]
  rw [List.map_map] at fed
  refine ⟨_, fed, ?_⟩
  rw [List.map_map, List.map_map]
  refine List.map_congr_left fun x mem => ?_
  simp only [outcome, extracts, List.mem_map, exists_exists_and_eq_and] at mem
  obtain ⟨region, _, rfl⟩ := mem
  exact (s.writtenFinished region).symm

end Delivered

theorem cutsAgree (s : Strategy) {one other : Source} {elements : List Element}
    (held : one.Delivers elements) (also : other.Delivers elements) (xs : List Extract)
    (schedule turns : Schedule) :
    let left := s.run one xs schedule
    let right := s.run other xs turns
    left.result = right.result ∧
      (left.result = .ok () → left.session.extracts = right.session.extracts) ∧
      ∀ recipients taken,
        left.deliver recipients = .ok taken ↔ right.deliver recipients = .ok taken := by
  intro left right
  have results : left.result = right.result :=
    (s.resultOfCheck held schedule xs).trans (s.resultOfCheck also turns xs).symm
  have extracts (succeeds : left.result = .ok ()) :
      left.session.extracts = right.session.extracts := by
    have accepted := (s.runSucceeds held schedule xs).mp succeeds
    have first := (s.runAccepted held schedule accepted xs).2.1
    exact first.trans (s.runAccepted also turns accepted xs).2.1.symm
  refine ⟨results, extracts, fun recipients taken => ?_⟩
  by_cases succeeds : left.result = .ok ()
  · have accepted := (s.runSucceeds held schedule xs).mp succeeds
    exact Outcome.deliverAgree (s.sharesDelivered held schedule xs accepted)
      (s.sharesDelivered also turns xs accepted) (held.whole.trans also.whole.symm)
      (extracts succeeds) results
  · have failsToo : right.result ≠ .ok () := results ▸ succeeds
    exact iff_of_false (fun given => succeeds (Outcome.succeedsOfDeliver given))
      fun given => failsToo (Outcome.succeedsOfDeliver given)

end Strategy

def Source.piecemeal (elements : List Element) : Source where
  name := "piecemeal"
  rereadable := true
  size := elements.length
  read kinds _ := ⟨(elements.filter fun e => kinds.contains e.kind).map ([·]), .ok (), []⟩

theorem deliversPiecemeal (elements : List Element) :
    (Source.piecemeal elements).Delivers elements := by
  have joined (kinds : Kinds) (metadata : Bool) :
      ((Source.piecemeal elements).read kinds metadata).batches.flatten =
        elements.filter fun e => kinds.contains e.kind := by
    simp [Source.piecemeal, ← List.flatMap_def]
  exact ⟨rfl, fun _ _ => rfl, fun kinds => joined kinds true, fun kinds => by rw [joined]⟩

namespace Strategy

theorem crossingCuts :
    let whole := (systems networks).run (.inMemory crossing) [.start meridian]
    let single := (systems networks).run (.piecemeal crossing) [.start meridian]
    let back := (systems networks).run (.inMemory crossing.reverse) [.start meridian]
    let backSingle := (systems networks).run (.piecemeal crossing.reverse) [.start meridian]
    (whole.session.extracts = single.session.extracts ∧
      single.deliver [fun _ _ => none] = .ok [crossing]) ∧
    back.result = backSingle.result ∧ back.result = .error (.idsOutOfOrder .relation 1 2) := by
  have forward := cutsAgree (systems networks) (deliversInMemory crossing)
    (deliversPiecemeal crossing) [.start meridian] .oneByOne .oneByOne
  have backward := cutsAgree (systems networks) (deliversInMemory crossing.reverse)
    (deliversPiecemeal crossing.reverse) [.start meridian] .oneByOne .oneByOne
  obtain ⟨_, extracts, delivered⟩ := forward
  have taken := (delivered [fun _ _ => none] [crossing]).mp (by decide +kernel)
  exact ⟨⟨extracts (by decide +kernel), taken⟩, backward.1, by decide +kernel⟩

end Strategy
end Cutout
