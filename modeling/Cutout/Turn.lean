import Cutout.Expansion
import Cutout.Location
/-! Positions in the plane, and the way a path through three of them turns. The turn is the sign of
a determinant, which is found in rounded arithmetic with as many parts as it takes to leave no
doubt. It is exact unless a result leaves the range of the format. -/
namespace Cutout

structure Point where
  x : Binary64
  y : Binary64
  deriving DecidableEq, Repr

namespace Point

def same (a b : Point) : Bool := a.x.same b.x && a.y.same b.y

def ofLocation (l : Location) : Point := ⟨l.lonDegrees, l.latDegrees⟩

end Point

inductive Turn where
  | left
  | straight
  | right
  deriving DecidableEq, Repr

namespace Turn

def ofInt (determinant : Int) : Turn :=
  if 0 < determinant then left else if determinant < 0 then right else straight

def determinant (x1 y1 x2 y2 x y : Int) : Int :=
  (x1 - x) * (y2 - y) - (y1 - y) * (x2 - x)

/-- Coordinates of moderate size are whole numbers of steps of 2^-500 and below 2^500. -/
def stepBits : Nat := 500

def steps? (x : Binary64) : Option Int := do
  let units ← x.units?
  let step : Nat := 1 <<< (Binary64.unitBits - stepBits)
  if units % step = 0 ∧ units.natAbs < 1 <<< (Binary64.unitBits + stepBits) then
    return units / step
  else none

def ofValue (v : Binary64) : Turn :=
  if Binary64.zero.lt v then left else if v.lt .zero then right else straight

def isClear (value error : Binary64) : Bool := error.le value || error.le value.neg

def plainError : Binary64 := .ofRatio (3 <<< 49 + 1) (1 <<< 102)

def productError : Binary64 := .ofRatio (2 <<< 51 + 3) (1 <<< 104)

def differenceError : Binary64 := .ofRatio (9 <<< 47 + 1) (1 <<< 153)

def estimateError : Binary64 := .ofRatio (3 <<< 50 + 1) (1 <<< 103)

def refined (a b p : Point) (size : Binary64) : Binary64 :=
  let (ax, ax0) := a.x.twoDifference p.x
  let (ay, ay0) := a.y.twoDifference p.y
  let (bx, bx0) := b.x.twoDifference p.x
  let (byy, by0) := b.y.twoDifference p.y
  let main := Expansion.ofProducts ax byy ay bx
  let value := main.rounded
  if isClear value (productError.mul size) then value
  else if [ax0, ay0, bx0, by0].all fun rest => rest.same .zero then value
  else
    let change := ((ax.mul by0).add (byy.mul ax0)).sub ((ay.mul bx0).add (bx.mul ay0))
    let error := (differenceError.mul size).add (estimateError.mul value.abs)
    let value := value.add change
    if isClear value error then value
    else
      let sum := main.add (.ofProducts ax0 byy ay0 bx)
      let sum := sum.add (.ofProducts ax by0 ay bx0)
      (sum.add (.ofProducts ax0 by0 ay0 bx0)).leading

def plain (a b p : Point) : Binary64 × Binary64 :=
  let first := (a.x.sub p.x).mul (b.y.sub p.y)
  let second := (a.y.sub p.y).mul (b.x.sub p.x)
  (first.sub second, (first.add second).abs)

def rounded (a b p : Point) : Turn :=
  let (value, size) := plain a b p
  ofValue (if isClear value (plainError.mul size) then value else refined a b p size)

/-- Where all coordinates are of moderate size no part of a rounded result is lost, so the sign is
that of the exact determinant. -/
def of (a b p : Point) : Turn :=
  match steps? a.x, steps? a.y, steps? b.x, steps? b.y, steps? p.x, steps? p.y with
  | some x1, some y1, some x2, some y2, some x, some y =>
    ofInt (determinant x1 y1 x2 y2 x y)
  | _, _, _, _, _, _ => rounded a b p

end Turn
end Cutout
