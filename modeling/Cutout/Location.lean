import Cutout.Decimal
/-! Positions as fixed-point degrees, seven places, in the range of a 32-bit integer. -/
namespace Cutout

structure Location where
  lon : Int32
  lat : Int32
  deriving DecidableEq, Repr

namespace Location

def places : Nat := 7

def unitsPerDegree : Nat := Nat.pow 10 places

def clamp (n : Int) : Int32 :=
  if n < Int32.minValue.toInt then Int32.minValue
  else if Int32.maxValue.toInt < n then Int32.maxValue
  else Int32.ofInt n

def fixed (degrees : Binary64) : Int32 :=
  match degrees.mul (.ofNat unitsPerDegree) with
  | .nan => 0
  | .infinite negative => if negative then Int32.minValue else Int32.maxValue
  | x => clamp (x.round?.getD 0)

def ofDegrees (lon lat : Binary64) : Location := ⟨fixed lon, fixed lat⟩

def degrees (units : Int32) : Binary64 := .ofRatio units.toInt unitsPerDegree

def lonDegrees (l : Location) : Binary64 := degrees l.lon
def latDegrees (l : Location) : Binary64 := degrees l.lat

end Location
end Cutout
