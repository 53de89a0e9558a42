import Cutout.Pbf.Source
/-! A scan as two parties at work. A decoder goes through the pieces of a file and sends batches
through a channel that holds a few of them; a consumer takes them out and hands them to a handler.
Whichever party can go on may take the next step. -/
namespace Cutout.Pbf

def readAhead : Nat := 16

abbrev Handler := List (List Element) → List Element → Option Fault

inductive Decoder where
  | working (ahead : List Piece)
  | sending (batch : List Element) (ahead : List Piece)
  | leaving (result : Except Fault Unit)
  | gone (result : Except Fault Unit)

inductive Consumer where
  | receiving
  | handling (batch : List Element)
  | leaving (result : Except Fault Unit)
  /-- It has let go of the channel and waits for the decoder to be gone. -/
  | joining (result : Except Fault Unit)
  | done (result : Except Fault Unit)

def Consumer.listens : Consumer → Bool
  | receiving | handling _ | leaving _ => true
  | joining _ | done _ => false

inductive Party where
  | decoder
  | consumer
  deriving DecidableEq, Repr

structure Relay where
  decoder : Decoder
  queue : List (List Element)
  consumer : Consumer
  handed : List (List Element)

namespace Relay

def start (pieces : List Piece) : Relay := ⟨.working pieces, [], .receiving, []⟩

def decode (r : Relay) : Option Relay :=
  match r.decoder with
  | .working [] => some { r with decoder := .leaving (.ok ()) }
  | .working (.header _ :: ahead) | .working (.unknown _ :: ahead) =>
    some { r with decoder := .working ahead }
  | .working (.data batch :: ahead) =>
    if batch.isEmpty then some { r with decoder := .working ahead }
    else some { r with decoder := .sending batch ahead }
  | .working (.failed fault :: _) => some { r with decoder := .leaving (.error fault) }
  | .sending batch ahead =>
    if !r.consumer.listens then some { r with decoder := .leaving (.ok ()) }
    else if r.queue.length < readAhead then
      some { r with decoder := .working ahead, queue := r.queue ++ [batch] }
    else none
  | .leaving result => some { r with decoder := .gone result }
  | .gone _ => none

def consume (handler : Handler) (r : Relay) : Option Relay :=
  match r.consumer with
  | .receiving =>
    match r.queue, r.decoder with
    | batch :: rest, _ => some { r with queue := rest, consumer := .handling batch }
    | [], .gone _ => some { r with consumer := .leaving (.ok ()) }
    | [], _ => none
  | .handling batch =>
    let consumer := match handler r.handed batch with
      | some fault => Consumer.leaving (.error fault)
      | none => .receiving
    some { r with consumer, handed := r.handed ++ [batch] }
  | .leaving result => some { r with consumer := .joining result, queue := [] }
  | .joining result =>
    match r.decoder with
    | .gone ended => some { r with consumer := .done (result.bind fun _ => ended) }
    | _ => none
  | .done _ => none

def step (handler : Handler) (r : Relay) : Party → Option Relay
  | .decoder => r.decode
  | .consumer => r.consume handler

def run (handler : Handler) (turns : List Party) (r : Relay) : Option Relay :=
  turns.foldlM (step handler) r

end Relay
end Cutout.Pbf
