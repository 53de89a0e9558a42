import Cutout.Turn
/-! Areas of the plane: rectangles and polygons with holes, and which positions they hold. Positions
on an edge are held. -/
namespace Cutout

structure Rect where
  min : Point
  max : Point
  deriving DecidableEq, Repr

namespace Rect

def ofCorners (a b : Point) : Rect :=
  let (minX, maxX) := if a.x.lt b.x then (a.x, b.x) else (b.x, a.x)
  let (minY, maxY) := if a.y.lt b.y then (a.y, b.y) else (b.y, a.y)
  ⟨⟨minX, minY⟩, ⟨maxX, maxY⟩⟩

def contains (r : Rect) (p : Point) : Bool :=
  r.min.x.le p.x && p.x.le r.max.x && r.min.y.le p.y && p.y.le r.max.y

def values (r : Rect) : List Binary64 := [r.min.x, r.min.y, r.max.x, r.max.y]

end Rect

abbrev Ring := List Point

namespace Ring

def isClosed (r : Ring) : Bool :=
  match r.head?, r.getLast? with
  | some a, some b => a.same b
  | _, _ => true

def closed (r : Ring) : Ring := if r.isClosed then r else r ++ r.head?.toList

def edges (r : Ring) : List (Point × Point) := r.zip r.tail

end Ring

def between (value a b : Binary64) : Bool :=
  if a.lt b then a.le value && value.le b else b.le value && value.le a

inductive Side where
  | outside
  | onEdge
  | inside
  deriving DecidableEq, Repr

/-- What an edge adds to the number of times a ring winds around a position: nothing if the position
is on the edge. An edge counts where it passes the height of the position to its right, with its
lower end and without its upper one. -/
def crossing (p : Point) (edge : Point × Point) : Option Int :=
  let (a, b) := edge
  if a.y.le p.y then
    if p.y.le b.y then
      match Turn.of a b p with
      | .left => some (if b.y.same p.y then 0 else 1)
      | .straight => if between p.x a.x b.x then none else some 0
      | .right => some 0
    else some 0
  else if b.y.le p.y then
    match Turn.of a b p with
    | .right => some (-1)
    | .straight => if between p.x a.x b.x then none else some 0
    | .left => some 0
  else some 0

def winding (p : Point) : List (Point × Point) → Int → Option Int
  | [], n => some n
  | edge :: rest, n =>
    match crossing p edge with
    | none => none
    | some d => winding p rest (n + d)

namespace Ring

def side (r : Ring) (p : Point) : Side :=
  match r with
  | [] => .outside
  | [only] => if p.same only then .onEdge else .outside
  | _ =>
    match winding p r.edges 0 with
    | none => .onEdge
    | some n => if n = 0 then .outside else .inside

end Ring

structure Polygon where
  exterior : Ring
  holes : List Ring
  deriving DecidableEq, Repr

namespace Polygon

def ofRings (exterior : Ring) (holes : List Ring) : Polygon :=
  ⟨exterior.closed, holes.map Ring.closed⟩

/-- Whether no hole holds the position in its inside; the first hole that is not passed by on the
outside decides. -/
def outsideHoles (p : Point) : List Ring → Bool
  | [] => true
  | hole :: rest =>
    match hole.side p with
    | .outside => outsideHoles p rest
    | .onEdge => true
    | .inside => false

def holds (g : Polygon) (p : Point) : Bool :=
  match g.exterior.side p with
  | .outside => false
  | .onEdge => true
  | .inside => outsideHoles p g.holes

end Polygon

abbrev Area := List Polygon

namespace Area

def holds (a : Area) (p : Point) : Bool := a.any fun g => g.holds p

def widen (value : Binary64) (range : Binary64 × Binary64) : Binary64 × Binary64 :=
  if range.2.lt value then (range.1, value)
  else if value.lt range.1 then (value, range.2)
  else range

def exteriorPoints (a : Area) : List Point := a.flatMap Polygon.exterior

def envelope? (a : Area) : Option Rect :=
  match a.exteriorPoints with
  | [] => none
  | p :: ps =>
    let x := ps.foldl (fun range q => widen q.x range) (p.x, p.x)
    let y := ps.foldl (fun range q => widen q.y range) (p.y, p.y)
    some (.ofCorners ⟨x.1, y.1⟩ ⟨x.2, y.2⟩)

end Area
end Cutout
