import Cutout.Proofs.Loop
/-! A scan by two parties ends as a plain loop over the batches does. While the consumer listens, what
was handed out, what is held, what the channel holds and what the decoder has still to send are together
all the batches in order; so no turn of either party loses or repeats one. -/
namespace Cutout.Pbf
open Piece (sent ending)

namespace Decoder

def toCome : Decoder → List (List Element)
  | working ahead => sent ahead
  | sending batch ahead => batch :: sent ahead
  | leaving _ | gone _ => []

def outcome : Decoder → Except Fault Unit
  | working ahead | sending _ ahead => ending ahead
  | leaving result | gone result => result

def weight : Decoder → Nat
  | working ahead => 4 * ahead.length + 2
  | sending _ ahead => 4 * ahead.length + 5
  | leaving _ => 1
  | gone _ => 0

end Decoder

def Consumer.weight : Consumer → Nat
  | receiving => 3
  | handling _ => 4
  | leaving _ => 2
  | joining _ => 1
  | done _ => 0

namespace Relay

structure Flows (pieces : List Piece) (held : List (List Element)) (r : Relay) : Prop where
  batches : r.handed ++ held ++ r.queue ++ r.decoder.toCome = sent pieces
  outcome : r.decoder.outcome = ending pieces

def Left (handler : Handler) (pieces : List Piece) (r : Relay) : Except Fault Unit → Prop
  | .ok () => handler.Serves r.handed ∧ r.handed = sent pieces ∧ r.decoder = .gone (ending pieces)
  | .error fault => r.handed <+: sent pieces ∧ handler.Refuses r.handed fault

def Sound (handler : Handler) (pieces : List Piece) (r : Relay) : Prop :=
  match r.consumer with
  | .receiving => handler.Serves r.handed ∧ r.Flows pieces []
  | .handling batch => handler.Serves r.handed ∧ r.Flows pieces [batch]
  | .leaving result | .joining result => r.Left handler pieces result
  | .done result => ∃ own ended, r.decoder = .gone ended ∧ r.Left handler pieces own ∧
      result = own.bind fun _ => ended

section Steps
variable {handler : Handler} {pieces : List Piece} {r next : Relay}

inductive Moves (r : Relay) : Relay → Prop where
  | on (d : Decoder) (batches : d.toCome = r.decoder.toCome)
      (outcome : d.outcome = r.decoder.outcome) (lighter : d.weight < r.decoder.weight) :
      Moves r { r with decoder := d }
  | push (batch : List Element) (ahead : List Piece) (sending : r.decoder = .sending batch ahead) :
      Moves r { r with decoder := .working ahead, queue := r.queue ++ [batch] }
  | unheard (d : Decoder) (deaf : r.consumer.listens = false)
      (lighter : d.weight < r.decoder.weight) : Moves r { r with decoder := d }

theorem decodeMoves (step : r.decode = some next) :
    (∀ ended, r.decoder ≠ .gone ended) ∧ Moves r next := by
  obtain ⟨decoder, queue, consumer, handed⟩ := r
  unfold decode at step
  cases decoder with
  | gone ended => cases step
  | leaving result =>
    cases step
    exact ⟨nofun, .on _ rfl rfl (by simp [Decoder.weight])⟩
  | sending batch ahead =>
    refine ⟨nofun, ?_⟩
    dsimp only at step
    split at step
    · rename_i deaf
      cases step
      exact .unheard _ (by simpa using deaf) (by simp [Decoder.weight])
    · split at step
      · cases step
        exact .push batch ahead rfl
      · cases step
  | working ahead =>
    refine ⟨nofun, ?_⟩
    cases ahead with
    | nil =>
      cases step
      exact .on _ rfl rfl (by simp [Decoder.weight])
    | cons piece ahead =>
      have less : 4 * ahead.length + 5 < 4 * (piece :: ahead).length + 2 := by
        rw [List.length_cons]
        omega
      cases piece with
      | header sorted =>
        cases step
        have batches : sent (.header sorted :: ahead) = sent ahead := Piece.sentIdle rfl rfl
        have ends : ending (.header sorted :: ahead) = ending ahead := Piece.endingCons rfl
        exact .on _ batches.symm ends.symm (by simp [Decoder.weight])
      | unknown kind =>
        cases step
        have batches : sent (.unknown kind :: ahead) = sent ahead := Piece.sentIdle rfl rfl
        have ends : ending (.unknown kind :: ahead) = ending ahead := Piece.endingCons rfl
        exact .on _ batches.symm ends.symm (by simp [Decoder.weight])
      | failed fault =>
        cases step
        exact .on _ rfl rfl (by simp [Decoder.weight])
      | data batch =>
        have batches : sent (.data batch :: ahead) = (Piece.data batch).batch?.toList ++ sent ahead :=
          Piece.sentCons rfl
        have ends : ending (.data batch :: ahead) = ending ahead := Piece.endingCons rfl
        cases empty : batch.isEmpty with
        | true =>
          simp only [empty, if_true] at step
          cases step
          refine .on _ ?_ ends.symm (by simp [Decoder.weight])
          simp [Decoder.toCome, batches, Piece.batch?, empty]
        | false =>
          simp only [empty, Bool.false_eq_true, if_false] at step
          cases step
          refine .on _ ?_ ends.symm less
          simp [Decoder.toCome, batches, Piece.batch?, empty]

theorem Moves.flows {held : List (List Element)} (moves : Moves r next)
    (listens : r.consumer.listens = true) (flows : r.Flows pieces held) : next.Flows pieces held := by
  cases moves with
  | on d batches outcome _ => exact ⟨by rw [← flows.batches, batches], outcome.trans flows.outcome⟩
  | push batch ahead sending =>
    obtain ⟨batches, outcome⟩ := flows
    rw [sending] at batches outcome
    refine ⟨?_, outcome⟩
    rw [← batches]
    simp [Decoder.toCome]
  | unheard d deaf _ => simp [listens] at deaf

theorem Moves.keeps (moves : Moves r next) :
    next.consumer = r.consumer ∧ next.handed = r.handed := by
  cases moves <;> exact ⟨rfl, rfl⟩

theorem Left.decoded {result : Except Fault Unit} (left : r.Left handler pieces result)
    (moves : Moves r next) (works : ∀ ended, r.decoder ≠ .gone ended) :
    next.Left handler pieces result := by
  cases result with
  | ok =>
    obtain ⟨_, _, gone⟩ := left
    exact absurd gone (works _)
  | error fault =>
    unfold Left at left ⊢
    rwa [moves.keeps.2]

theorem decodeSound (step : r.decode = some next) (sound : r.Sound handler pieces) :
    next.Sound handler pieces := by
  obtain ⟨works, moves⟩ := decodeMoves step
  obtain ⟨sameConsumer, sameHanded⟩ := moves.keeps
  obtain ⟨decoder, queue, consumer, handed⟩ := next
  cases sameConsumer
  cases sameHanded
  obtain ⟨before, channel, consumer, handed⟩ := r
  cases consumer with
  | receiving => exact ⟨sound.1, moves.flows rfl sound.2⟩
  | handling batch => exact ⟨sound.1, moves.flows rfl sound.2⟩
  | leaving result => exact Left.decoded sound moves works
  | joining result => exact Left.decoded sound moves works
  | done result =>
    obtain ⟨_, ended, gone, _⟩ := sound
    exact absurd gone (works ended)

inductive Consumes (handler : Handler) (r : Relay) : Relay → Prop where
  | take (batch : List Element) (rest : List (List Element)) (waits : r.consumer = .receiving)
      (front : r.queue = batch :: rest) :
      Consumes handler r { r with queue := rest, consumer := .handling batch }
  | hangUp (ended : Except Fault Unit) (waits : r.consumer = .receiving) (empty : r.queue = [])
      (gone : r.decoder = .gone ended) : Consumes handler r { r with consumer := .leaving (.ok ()) }
  | serve (batch : List Element) (handles : r.consumer = .handling batch)
      (serves : handler r.handed batch = none) :
      Consumes handler r { r with consumer := .receiving, handed := r.handed ++ [batch] }
  | refuse (batch : List Element) (fault : Fault) (handles : r.consumer = .handling batch)
      (refuses : handler r.handed batch = some fault) :
      Consumes handler r
        { r with consumer := .leaving (.error fault), handed := r.handed ++ [batch] }
  | letGo (result : Except Fault Unit) (leaves : r.consumer = .leaving result) :
      Consumes handler r { r with consumer := .joining result, queue := [] }
  | join (result ended : Except Fault Unit) (waits : r.consumer = .joining result)
      (gone : r.decoder = .gone ended) :
      Consumes handler r { r with consumer := .done (result.bind fun _ => ended) }

theorem consumeSteps (step : r.consume handler = some next) : Consumes handler r next := by
  obtain ⟨decoder, queue, consumer, handed⟩ := r
  cases consumer with
  | receiving =>
    cases queue with
    | cons batch rest =>
      cases step
      exact .take batch rest rfl rfl
    | nil =>
      cases decoder with
      | gone ended =>
        cases step
        exact .hangUp ended rfl rfl rfl
      | working ahead => cases step
      | sending batch ahead => cases step
      | leaving result => cases step
  | handling batch =>
    unfold consume at step
    cases verdict : handler handed batch with
    | some fault =>
      simp only [verdict] at step
      cases step
      exact .refuse batch fault rfl verdict
    | none =>
      simp only [verdict] at step
      cases step
      exact .serve batch rfl verdict
  | leaving result =>
    cases step
    exact .letGo result rfl
  | joining result =>
    cases decoder with
    | gone ended =>
      cases step
      exact .join result ended rfl rfl
    | working ahead => cases step
    | sending batch ahead => cases step
    | leaving own => cases step
  | done result => cases step

theorem Consumes.sound (consumes : Consumes handler r next) (sound : r.Sound handler pieces) :
    next.Sound handler pieces := by
  unfold Sound at sound
  cases consumes with
  | take batch rest waits front =>
    rw [waits] at sound
    obtain ⟨serves, batches, outcome⟩ := sound
    refine ⟨serves, ?_, outcome⟩
    rw [← batches, front]
    simp
  | hangUp ended waits empty gone =>
    rw [waits] at sound
    obtain ⟨serves, batches, outcome⟩ := sound
    rw [gone] at outcome
    refine ⟨serves, ?_, gone.trans (congrArg Decoder.gone outcome)⟩
    rw [← batches, empty, gone]
    simp [Decoder.toCome]
  | serve batch handles served =>
    rw [handles] at sound
    obtain ⟨serves, batches, outcome⟩ := sound
    refine ⟨servesSnoc.mpr ⟨serves, served⟩, ?_, outcome⟩
    rw [← batches, List.append_nil]
  | refuse batch fault handles refuses =>
    rw [handles] at sound
    obtain ⟨serves, batches, _⟩ := sound
    refine ⟨?_, r.handed, batch, rfl, serves, refuses⟩
    rw [← batches, List.append_assoc (r.handed ++ [batch])]
    exact List.prefix_append _ _
  | letGo result leaves =>
    rw [leaves] at sound
    cases result <;> exact sound
  | join result ended waits gone =>
    rw [waits] at sound
    exact ⟨result, ended, gone, by cases result <;> exact sound, rfl⟩

theorem startSound (handler : Handler) (pieces : List Piece) :
    (start pieces).Sound handler pieces :=
  ⟨servesNothing, rfl, rfl⟩

theorem stepSound {party : Party} (step : r.step handler party = some next)
    (sound : r.Sound handler pieces) : next.Sound handler pieces := by
  cases party with
  | decoder => exact decodeSound step sound
  | consumer => exact (consumeSteps step).sound sound

theorem runCons {party : Party} {turns : List Party} : r.run handler (party :: turns) = some next ↔
    ∃ mid, r.step handler party = some mid ∧ mid.run handler turns = some next := by
  rw [run, List.foldlM_cons]
  exact Option.bind_eq_some_iff

theorem runSound {turns : List Party} (reached : r.run handler turns = some next)
    (sound : r.Sound handler pieces) : next.Sound handler pieces := by
  induction turns generalizing r with
  | nil =>
    cases reached
    exact sound
  | cons party turns ih =>
    obtain ⟨mid, step, rest⟩ := runCons.mp reached
    exact ih rest (stepSound step sound)

theorem workingSteps {ahead : List Piece} {queue handed : List (List Element)}
    {consumer : Consumer} : ∃ next, decode ⟨.working ahead, queue, consumer, handed⟩ = some next := by
  cases ahead with
  | nil => exact ⟨_, rfl⟩
  | cons piece ahead =>
    cases piece with
    | header sorted => exact ⟨_, rfl⟩
    | unknown kind => exact ⟨_, rfl⟩
    | failed fault => exact ⟨_, rfl⟩
    | data batch =>
      unfold decode
      dsimp only
      split <;> exact ⟨_, rfl⟩

theorem partyCanStep (running : ∀ result, r.consumer ≠ .done result) :
    ∃ party next, r.step handler party = some next := by
  -- A consumer that waits for a batch has left room in the channel, and one that waits for the
  -- decoder to be gone has let go of it; so the decoder does not wait for the consumer at the same
  -- time.
  obtain ⟨decoder, queue, consumer, handed⟩ := r
  cases consumer with
  | handling batch => exact ⟨.consumer, _, rfl⟩
  | leaving result => exact ⟨.consumer, _, rfl⟩
  | done result => exact absurd rfl (running result)
  | joining result =>
    cases decoder with
    | gone ended => exact ⟨.consumer, _, rfl⟩
    | leaving own => exact ⟨.decoder, _, rfl⟩
    | sending batch ahead => exact ⟨.decoder, _, rfl⟩
    | working ahead => exact ⟨.decoder, workingSteps⟩
  | receiving =>
    cases queue with
    | cons batch rest => exact ⟨.consumer, _, rfl⟩
    | nil =>
      cases decoder with
      | gone ended => exact ⟨.consumer, _, rfl⟩
      | leaving own => exact ⟨.decoder, _, rfl⟩
      | sending batch ahead => exact ⟨.decoder, _, rfl⟩
      | working ahead => exact ⟨.decoder, workingSteps⟩

def weight (r : Relay) : Nat := r.decoder.weight + 2 * r.queue.length + r.consumer.weight

theorem decodeLighter (step : r.decode = some next) : next.weight < r.weight := by
  cases (decodeMoves step).2 with
  | on d _ _ lighter =>
    simp only [weight]
    omega
  | push batch ahead sending =>
    simp only [weight, sending, Decoder.weight, List.length_append, List.length_singleton]
    omega
  | unheard d _ lighter =>
    simp only [weight]
    omega

theorem consumeLighter (step : r.consume handler = some next) : next.weight < r.weight := by
  cases consumeSteps step with
  | take batch rest waits front =>
    simp only [weight, waits, front, Consumer.weight, List.length_cons]
    omega
  | hangUp ended waits empty gone =>
    simp only [weight, waits, Consumer.weight]
    omega
  | serve batch handles served =>
    simp only [weight, handles, Consumer.weight]
    omega
  | refuse batch fault handles refuses =>
    simp only [weight, handles, Consumer.weight]
    omega
  | letGo result leaves =>
    simp only [weight, leaves, Consumer.weight, List.length_nil]
    omega
  | join result ended waits gone =>
    simp only [weight, waits, Consumer.weight]
    omega

theorem stepLighter {party : Party} (step : r.step handler party = some next) :
    next.weight < r.weight := by
  cases party with
  | decoder => exact decodeLighter step
  | consumer => exact consumeLighter step

theorem runLighter {turns : List Party} (reached : r.run handler turns = some next) :
    turns.length + next.weight ≤ r.weight := by
  induction turns generalizing r with
  | nil =>
    cases reached
    simp
  | cons party turns ih =>
    obtain ⟨mid, step, rest⟩ := runCons.mp reached
    have first := stepLighter step
    have others := ih rest
    rw [List.length_cons]
    omega

theorem Flows.handed {held : List (List Element)} (flows : r.Flows pieces held) :
    r.handed <+: sent pieces := by
  rw [← flows.batches, List.append_assoc, List.append_assoc]
  exact List.prefix_append _ _

theorem Left.handed {result : Except Fault Unit} (left : r.Left handler pieces result) :
    r.handed <+: sent pieces := by
  cases result with
  | ok => exact left.2.1 ▸ List.prefix_rfl
  | error fault => exact left.1

theorem Sound.handed (sound : r.Sound handler pieces) : r.handed <+: sent pieces := by
  unfold Sound at sound
  split at sound
  · exact sound.2.handed
  · exact sound.2.handed
  · exact sound.handed
  · exact sound.handed
  · obtain ⟨own, ended, _, left, _⟩ := sound
    exact left.handed

theorem Sound.doneLoop (sound : r.Sound handler pieces) {result : Except Fault Unit}
    (done : r.consumer = .done result) :
    (r.handed, result) = loop handler (ending pieces) [] (sent pieces) := by
  unfold Sound at sound
  rw [done] at sound
  obtain ⟨own, ended, gone, left, rfl⟩ := sound
  cases own with
  | ok =>
    obtain ⟨serves, all, also⟩ := left
    rw [gone] at also
    cases also
    rw [← all, loopServes serves]
    rfl
  | error fault =>
    obtain ⟨⟨later, all⟩, before, batch, handed, serves, refuses⟩ := left
    have cut : sent pieces = before ++ batch :: later := by
      rw [← all, handed, List.append_assoc]
      rfl
    rw [cut, loopRefuses serves refuses, handed]
    rfl

end Steps
end Relay

theorem passByParties {σ : Type} {p : Pass σ} {order : Nat → List Nat} {s : σ} {xs : List Extract}
    {pieces : List Piece} {turns : List Party} {r : Relay} {result : Except Fault Unit}
    (reached : (Relay.start pieces).run (passHandler p order s xs) turns = some r)
    (done : r.consumer = .done result) :
    let scanned := p.overScan order (scanPieces pieces) s xs
    result = scanned.2.map (fun _ => ()) ∧ (p.overBatches order r.handed s xs).1 = scanned.1 := by
  have sound := Relay.runSound reached (Relay.startSound _ pieces)
  have looped := sound.doneLoop done
  obtain ⟨sameBatches, sameEnding⟩ := scanPiecesSent pieces
  have ends := loopPass p order xs (ending pieces) (scanPieces pieces).notes [] (sent pieces)
    (Eq.refl (Except.ok s))
  have scan : (scanPieces pieces) = ⟨sent pieces, ending pieces, (scanPieces pieces).notes⟩ := by
    rw [← sameBatches, ← sameEnding]
  rw [← looped, List.nil_append, ← scan] at ends
  exact ends

theorem partiesScanPlainly (pieces : List Piece) (handler : Handler) (turns : List Party)
    (r : Relay) (reached : (Relay.start pieces).run handler turns = some r) :
    let batches := sent pieces
    r.handed <+: batches ∧
    (∀ result, r.consumer = .done result →
      (r.handed, result) = loop handler (scanPieces pieces).ending [] (scanPieces pieces).batches ∧
      (handler.Serves batches → r.handed = batches ∧
        (result = .ok () ↔ ∀ p ∈ pieces, p.fault? = none) ∧
        ∀ before fault after, pieces = before ++ .failed fault :: after →
          (∀ p ∈ before, p.fault? = none) → result = .error fault) ∧
      ∀ k batch fault, batches[k]? = some batch → handler.Serves (batches.take k) →
        handler (batches.take k) batch = some fault →
          r.handed = batches.take (k + 1) ∧ result = .error fault) ∧
    ((∀ result, r.consumer ≠ .done result) → ∃ party next, r.step handler party = some next) ∧
    turns.length ≤ 4 * pieces.length + 5 := by
  intro batches
  have sound := Relay.runSound reached (Relay.startSound handler pieces)
  have lighter := Relay.runLighter reached
  refine ⟨sound.handed, fun result done => ?_, Relay.partyCanStep, ?_⟩
  · have looped := sound.doneLoop done
    obtain ⟨sameBatches, sameEnding⟩ := scanPiecesSent pieces
    refine ⟨by rw [sameBatches, sameEnding, looped], fun serves => ?_,
      fun k batch fault found serves refuses => ?_⟩
    · have all : loop handler (ending pieces) [] batches = (batches, ending pieces) :=
        loopServes serves
      rw [all] at looped
      obtain ⟨handed, rfl⟩ := Prod.mk.inj looped
      refine ⟨handed, Piece.endingOk, fun before fault after cut intact => ?_⟩
      rw [cut, Piece.endingBehind intact]
      rfl
    · obtain ⟨inside, rfl⟩ := List.getElem?_eq_some_iff.mp found
      have cut : batches = batches.take k ++ batches[k] :: batches.drop (k + 1) := by simp
      have stops : loop handler (ending pieces) [] batches =
          (batches.take k ++ [batches[k]], .error fault) :=
        (congrArg (loop handler (ending pieces) []) cut).trans
          (loopRefuses serves refuses)
      rw [stops] at looped
      obtain ⟨handed, rfl⟩ := Prod.mk.inj looped
      exact ⟨by rw [handed, List.take_append_getElem], rfl⟩
  · have start : (Relay.start pieces).weight = 4 * pieces.length + 5 := by
      simp [Relay.start, Relay.weight, Decoder.weight, Consumer.weight]
    omega

/-! Two blocks with a node each, an empty block and an unknown piece between them, then a piece that
cannot be decoded. The handler takes both blocks, or fails on the second one. -/

def twoBlocks : List Piece :=
  [.header true, .data [.node ⟨1, ⟨0, 0⟩, [], none⟩], .unknown "OSMIndex", .data [],
    .data [.node ⟨2, ⟨0, 0⟩, [], none⟩], .failed .blobUndecodable]

def failsOnSecond : Handler := fun handed _ =>
  if handed.length = 1 then some .areaEmpty else none

theorem twoBlocksScanned :
    let ahead := List.replicate 9 Party.decoder ++ List.replicate 7 Party.consumer
    let byTurns := [Party.decoder, .decoder, .decoder, .consumer, .decoder, .consumer, .decoder,
      .decoder, .decoder, .consumer, .decoder, .consumer, .consumer, .decoder, .consumer]
    (∃ r, (Relay.start twoBlocks).run (fun _ _ => none) ahead = some r ∧
      r.consumer = .done (.error .blobUndecodable) ∧ r.handed = sent twoBlocks) ∧
    ∃ r, (Relay.start twoBlocks).run failsOnSecond byTurns = some r ∧
      r.consumer = .done (.error .areaEmpty) ∧ r.handed = (sent twoBlocks).take 2 := by
  intro ahead byTurns
  have served : Handler.Serves (fun _ _ => none) (sent twoBlocks) := fun _ _ _ _ => rfl
  have first : failsOnSecond.Serves ((sent twoBlocks).take 1) :=
    servesSnoc.mpr ⟨servesNothing, rfl⟩
  obtain ⟨_, ends, _⟩ := partiesScanPlainly twoBlocks (fun _ _ => none) ahead _ rfl
  obtain ⟨_, stops, _⟩ := partiesScanPlainly twoBlocks failsOnSecond byTurns _ rfl
  obtain ⟨_, all, _⟩ := ends _ rfl
  obtain ⟨_, _, refused⟩ := stops _ rfl
  exact ⟨⟨_, rfl, rfl, (all served).1⟩, _, rfl, rfl, (refused 1 _ _ rfl first rfl).1⟩

end Cutout.Pbf
