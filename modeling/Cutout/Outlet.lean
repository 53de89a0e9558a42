import Cutout.Files
/-! Outputs on their way out. Each gathers pieces of text in a buffer and hands them on when it is
full, so that outputs on standard output take turns, and outputs at one place write over each
other. A transfer may fail; then only the beginning of its text gets through. -/
namespace Cutout

/-- Which transfers of a run fail, by their number, and how many characters get through before. -/
abbrev Medium := Nat → Option Nat

namespace Medium

def sound : Medium := fun _ => none

def brings (m : Medium) (number : Nat) (text : String) : String :=
  match m number with
  | none => text
  | some count => .ofList (text.toList.take count)

def leaves (m : Medium) (number : Nat) (text : String) : String :=
  match m number with
  | none => ""
  | some count => .ofList (text.toList.drop count)

end Medium

structure Delivery where
  stream : String
  files : Files
  transfers : Nat

def Delivery.start (files : Files) : Delivery := ⟨"", files, 0⟩

structure Sent (ε α : Type) where
  sender : α
  delivery : Delivery
  result : Except ε Unit

namespace Sent
variable {ε α β : Type}

def andThen (s : Sent ε α) (next : α → Delivery → Sent ε α) : Sent ε α :=
  match s.result with
  | .ok () => next s.sender s.delivery
  | .error _ => s

def all (send : α → β → Delivery → Sent ε α) : α → List β → Delivery → Sent ε α
  | a, [], d => ⟨a, d, .ok ()⟩
  | a, b :: rest, d => (send a b d).andThen fun a d => all send a rest d

def each (send : α → β → Delivery → Sent ε α) : List α → List β → Delivery → Sent ε (List α)
  | a :: as, b :: bs, d =>
    let first := send a b d
    match first.result with
    | .ok () =>
      let others := each send as bs first.delivery
      { others with sender := first.sender :: others.sender }
    | .error fault => ⟨first.sender :: as, first.delivery, .error fault⟩
  | as, _, d => ⟨as, d, .ok ()⟩

end Sent

structure Outlet where
  place : Option Place
  held : String
  handed : Nat

namespace Outlet

def capacity : Nat := 8192

def start (place : Option Place) (opening : List String) : Outlet := ⟨place, String.join opening, 0⟩

def bring (o : Outlet) (text : String) (d : Delivery) : Outlet × Delivery :=
  let d := match o.place with
    | none => { d with stream := d.stream ++ text }
    | some place => { d with files := d.files.overlay place o.handed text }
  ({ o with handed := o.handed + text.utf8ByteSize }, { d with transfers := d.transfers + 1 })

def handOn (m : Medium) (o : Outlet) (text : String) (d : Delivery) : Sent Unit Outlet :=
  let (o, after) := o.bring (m.brings d.transfers text) d
  ⟨o, after, if (m d.transfers).isNone then .ok () else .error ()⟩

def flush (m : Medium) (o : Outlet) (d : Delivery) : Sent Unit Outlet :=
  if o.held.isEmpty then ⟨o, d, .ok ()⟩
  else { o with held := m.leaves d.transfers o.held }.handOn m o.held d

def put (m : Medium) (o : Outlet) (piece : String) (d : Delivery) : Sent Unit Outlet :=
  let room := capacity - o.held.utf8ByteSize
  let emptied := if room < piece.utf8ByteSize then o.flush m d else ⟨o, d, .ok ()⟩
  emptied.andThen fun o d =>
    if capacity ≤ piece.utf8ByteSize then o.handOn m piece d
    else ⟨{ o with held := o.held ++ piece }, d, .ok ()⟩

def putAll (m : Medium) (o : Outlet) (pieces : List String) (d : Delivery) : Sent Unit Outlet :=
  Sent.all (put m) o pieces d

end Outlet
end Cutout
