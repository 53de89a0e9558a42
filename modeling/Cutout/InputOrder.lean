import Cutout.Fault
/-! Check that an input is sorted by kind, then by id, and that all its ids fit into an id set.
Negative ids come before positive ones, and both by their absolute value. -/
namespace Cutout

def checkRange (kind : Kind) (id : Int) : Except Fault Unit :=
  if id.natAbs ≤ maxId then .ok () else .error (.idOutOfRange kind id)

def idBefore (a b : Int) : Bool :=
  (!decide (0 < a) && decide (0 < b)) ||
    (decide (0 < a) == decide (0 < b) && decide (a.natAbs < b.natAbs))

structure InputOrder where
  last : Option (Kind × Int)
  deriving DecidableEq, Repr

namespace InputOrder

def start : InputOrder := ⟨none⟩

def accepts (o : InputOrder) (kind : Kind) (id : Int) : Except Fault Unit :=
  match o.last with
  | none => .ok ()
  | some (lastKind, lastId) =>
    if kind.rank < lastKind.rank then .error (.kindsOutOfOrder kind id lastKind lastId)
    else if kind = lastKind && idBefore id lastId then .error (.idsOutOfOrder kind id lastId)
    else .ok ()

def check (o : InputOrder) (kind : Kind) (id : Int) : Except Fault Unit × InputOrder :=
  match checkRange kind id with
  | .error fault => (.error fault, o)
  | .ok () =>
    match o.accepts kind id with
    | .error fault => (.error fault, o)
    | .ok () => (.ok (), ⟨some (kind, id)⟩)

def references : Element → List (Kind × Int)
  | .node _ => []
  | .way w => w.refs.map (Kind.node, ·)
  | .relation r => r.members.map fun m => (m.kind, m.id)

def checkReferences : List (Kind × Int) → Except Fault Unit
  | [] => .ok ()
  | (kind, id) :: rest => do
    checkRange kind id
    checkReferences rest

def checkElement (o : InputOrder) (e : Element) : Except Fault Unit × InputOrder :=
  match o.check e.kind e.id with
  | (.error fault, o) => (.error fault, o)
  | (.ok (), o) => (checkReferences (references e), o)

end InputOrder
end Cutout
