import Cutout.Pbf.Relay
import Cutout.Proofs.Passes
/-! A scan as a plain loop over its batches, with a handler that may fail. -/
namespace Cutout.Pbf

namespace Piece

def fault? : Piece → Option Fault
  | failed fault => some fault
  | _ => none

def batch? : Piece → Option (List Element)
  | data batch => if batch.isEmpty then none else some batch
  | _ => none

def sent (pieces : List Piece) : List (List Element) :=
  (pieces.takeWhile fun p => p.fault?.isNone).filterMap batch?

def ending (pieces : List Piece) : Except Fault Unit :=
  match pieces.findSome? fault? with
  | some fault => .error fault
  | none => .ok ()

theorem sentCons {piece : Piece} {rest : List Piece} (sound : piece.fault? = none) :
    sent (piece :: rest) = piece.batch?.toList ++ sent rest := by
  simp only [sent, List.takeWhile_cons, sound, Option.isNone_none, if_true, List.filterMap_cons]
  cases piece.batch? with
  | none => rfl
  | some batch => rfl

theorem sentIdle {piece : Piece} {rest : List Piece} (sound : piece.fault? = none)
    (idle : piece.batch? = none) : sent (piece :: rest) = sent rest := by
  rw [sentCons sound, idle]
  rfl

theorem endingCons {piece : Piece} {rest : List Piece} (sound : piece.fault? = none) :
    ending (piece :: rest) = ending rest := by
  simp only [ending, List.findSome?_cons, sound]

theorem endingBehind {before after : List Piece} (intact : ∀ p ∈ before, p.fault? = none) :
    ending (before ++ after) = ending after := by
  induction before with
  | nil => rfl
  | cons piece before ih =>
    obtain ⟨sound, others⟩ := List.forall_mem_cons.mp intact
    rw [List.cons_append, endingCons sound, ih others]

theorem endingOk {pieces : List Piece} : ending pieces = .ok () ↔ ∀ p ∈ pieces, p.fault? = none := by
  unfold ending
  cases found : pieces.findSome? fault? with
  | none => simpa using found
  | some fault =>
    obtain ⟨p, mem, failed⟩ := List.exists_of_findSome?_eq_some found
    refine iff_of_false (by simp) fun sound => ?_
    rw [sound p mem] at failed
    cases failed

end Piece

open Piece (sent ending)

theorem scanPiecesSent (pieces : List Piece) :
    (scanPieces pieces).batches = sent pieces ∧ (scanPieces pieces).ending = ending pieces := by
  induction pieces with
  | nil => exact ⟨rfl, rfl⟩
  | cons piece rest ih =>
    cases piece with
    | failed fault => exact ⟨rfl, rfl⟩
    | header sorted =>
      rw [Piece.sentCons rfl, Piece.endingCons rfl, scanPieces]
      cases sorted <;> exact ih
    | unknown kind =>
      rw [Piece.sentCons rfl, Piece.endingCons rfl]
      exact ih
    | data batch =>
      rw [Piece.sentCons rfl, Piece.endingCons rfl, scanPieces]
      cases empty : batch.isEmpty with
      | true => simpa [Piece.batch?, empty] using ih
      | false => simpa [Piece.batch?, empty] using ih

def loop (handler : Handler) (ended : Except Fault Unit) :
    List (List Element) → List (List Element) → List (List Element) × Except Fault Unit
  | handed, [] => (handed, ended)
  | handed, batch :: rest =>
    match handler handed batch with
    | some fault => (handed ++ [batch], .error fault)
    | none => loop handler ended (handed ++ [batch]) rest

def Handler.Serves (handler : Handler) (handed : List (List Element)) : Prop :=
  ∀ before batch after, handed = before ++ batch :: after → handler before batch = none

def Handler.Refuses (handler : Handler) (handed : List (List Element)) (fault : Fault) : Prop :=
  ∃ before batch, handed = before ++ [batch] ∧ handler.Serves before ∧
    handler before batch = some fault

section Loop
variable {handler : Handler} {handed rest : List (List Element)} {batch : List Element}

theorem servesNothing : handler.Serves [] := by
  intro before batch after cut
  simp at cut

theorem servesSnoc :
    handler.Serves (handed ++ [batch]) ↔ handler.Serves handed ∧ handler handed batch = none := by
  constructor
  · intro serves
    refine ⟨fun before first after cut => ?_, serves handed batch [] rfl⟩
    exact serves before first (after ++ [batch]) (by rw [cut]; simp)
  · intro ⟨serves, last⟩ before first after cut
    rcases List.eq_nil_or_concat after with rfl | ⟨shorter, other, rfl⟩
    · obtain ⟨rfl, same⟩ := List.append_inj' cut rfl
      cases same
      exact last
    · rw [List.concat_eq_append, ← List.cons_append, ← List.append_assoc] at cut
      obtain ⟨earlier, _⟩ := List.append_inj' cut rfl
      exact serves before first shorter earlier

theorem loopServes {ended : Except Fault Unit} (serves : handler.Serves (handed ++ rest)) :
    loop handler ended handed rest = (handed ++ rest, ended) := by
  induction rest generalizing handed with
  | nil => simp [loop]
  | cons batch rest ih =>
    have passes : loop handler ended handed (batch :: rest) =
        loop handler ended (handed ++ [batch]) rest := by
      simp only [loop, serves handed batch rest rfl]
    rw [List.append_cons] at serves
    rw [passes, ih serves, List.append_assoc]
    rfl

theorem loopRefuses {ended : Except Fault Unit} {fault : Fault} {later : List (List Element)}
    (serves : handler.Serves (handed ++ rest)) (refuses : handler (handed ++ rest) batch = some fault) :
    loop handler ended handed (rest ++ batch :: later) =
      (handed ++ rest ++ [batch], .error fault) := by
  induction rest generalizing handed with
  | nil =>
    rw [List.append_nil] at refuses
    simp [loop, refuses]
  | cons first rest ih =>
    have passes : loop handler ended handed (first :: rest ++ batch :: later) =
        loop handler ended (handed ++ [first]) (rest ++ batch :: later) := by
      simp only [List.cons_append, loop, serves handed first rest rfl]
    rw [List.append_cons] at serves refuses
    rw [passes, ih serves refuses, List.append_cons handed first rest]

end Loop

theorem Pass.overBatchesStop {σ : Type} {p : Pass σ} {turns : Nat → List Nat}
    {batches later : List (List Element)} {s : σ} {xs : List Extract} {fault : Fault}
    (stops : (p.overBatches turns batches s xs).2 = .error fault) :
    p.overBatches turns (batches ++ later) s xs = p.overBatches turns batches s xs := by
  induction batches generalizing turns s xs with
  | nil => cases stops
  | cons batch rest ih =>
    rw [List.cons_append]
    unfold Pass.overBatches at stops ⊢
    cases first : batch.foldlM p.observe s with
    | error found => rfl
    | ok next =>
      rw [first] at stops
      exact ih stops

def passHandler {σ : Type} (p : Pass σ) (turns : Nat → List Nat) (s : σ) (xs : List Extract) :
    Handler := fun handed batch =>
  match (p.overBatches turns (handed ++ [batch]) s xs).2 with
  | .error fault => some fault
  | .ok _ => none

theorem loopPass {σ : Type} (p : Pass σ) (turns : Nat → List Nat) {s last : σ}
    (xs : List Extract) (ended : Except Fault Unit) (notes : List Note)
    (handed rest : List (List Element))
    (passes : (p.overBatches turns handed s xs).2 = .ok last) :
    let looped := loop (passHandler p turns s xs) ended handed rest
    let scanned := p.overScan turns ⟨handed ++ rest, ended, notes⟩ s xs
    looped.2 = scanned.2.map (fun _ => ()) ∧
      (p.overBatches turns looped.1 s xs).1 = scanned.1 := by
  induction rest generalizing handed last with
  | nil =>
    rw [List.append_nil]
    unfold loop Pass.overScan
    dsimp only
    cases whole : p.overBatches turns handed s xs with
    | mk ys result =>
      rw [whole] at passes
      cases passes
      cases ended <;> exact ⟨rfl, rfl⟩
  | cons batch rest ih =>
    rw [List.append_cons]
    cases verdict : (p.overBatches turns (handed ++ [batch]) s xs).2 with
    | ok next =>
      have on : loop (passHandler p turns s xs) ended handed (batch :: rest) =
          loop (passHandler p turns s xs) ended (handed ++ [batch]) rest := by
        simp only [loop, passHandler, verdict]
      rw [on]
      exact ih _ verdict
    | error fault =>
      have stops : loop (passHandler p turns s xs) ended handed (batch :: rest) =
          (handed ++ [batch], .error fault) := by
        simp only [loop, passHandler, verdict]
      rw [stops]
      unfold Pass.overScan
      dsimp only
      rw [Pass.overBatchesStop verdict]
      cases whole : p.overBatches turns (handed ++ [batch]) s xs with
      | mk ys result =>
        rw [whole] at verdict
        cases verdict
        exact ⟨rfl, rfl⟩

end Cutout.Pbf
