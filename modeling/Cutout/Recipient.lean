import Cutout.Pass
/-! Recipients of what extracts write. A recipient may refuse an element, which ends the run; without
a refusal it takes what its extract includes, in order. -/
namespace Cutout

abbrev Recipient := List Element → Element → Option Fault

def Recipient.take (r : Recipient) (taken : List Element) (e : Element) :
    Except Fault (List Element) :=
  match r taken e with
  | some fault => .error fault
  | none => .ok (taken ++ [e])

structure Handover where
  recipient : Recipient
  taken : List Element

namespace Handover

def start (r : Recipient) : Handover := ⟨r, []⟩

def feed (h : Handover) (written : List Element) : Except Fault Handover :=
  (written.foldlM h.recipient.take h.taken).map fun taken => { h with taken }

def feedAll : List Handover → List (List Element) → Except Fault (List Handover)
  | h :: hs, written :: rest => do return (← h.feed written) :: (← feedAll hs rest)
  | hs, _ => return hs

end Handover

def Outcome.deliver (o : Outcome) (recipients : List Recipient) :
    Except Fault (List (List Element)) := do
  let starts := (recipients.take o.session.extracts.length).map Handover.start
  let fed ← o.session.rounds.foldlM Handover.feedAll starts
  o.result
  return fed.map Handover.taken

end Cutout
