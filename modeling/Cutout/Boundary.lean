import Cutout.Fault
import Cutout.GeoJson
/-! The boundary of an extract: a rectangle, or an area with the rectangle around it. -/
namespace Cutout

inductive BoundarySpec where
  | bbox (west south east north : Binary64)
  | polygon (rings : List (List (List Binary64)))
  | geojson (path : Path)
  deriving DecidableEq, Repr

inductive Boundary where
  | bbox (rect : Rect)
  | polygon (area : Area) (envelope : Rect)
  deriving DecidableEq, Repr

namespace Boundary

def ofBBox (west south east north : Binary64) : Boundary :=
  bbox (.ofCorners ⟨west, south⟩ ⟨east, north⟩)

def ofArea (area : Area) : Except Fault Boundary :=
  match area.envelope? with
  | some envelope => .ok (polygon area envelope)
  | none => .error .areaEmpty

def coordinate (numbers : List Binary64) (index : Nat) : Except Fault Binary64 :=
  match numbers[index]? with
  | some x => .ok x
  | none => .error (.noSuchIndex numbers.length index)

def position (numbers : List Binary64) : Except Fault Point := do
  return ⟨← coordinate numbers 0, ← coordinate numbers 1⟩

def ofRings (rings : List (List (List Binary64))) : Except Fault Boundary := do
  match ← rings.mapM (List.mapM position) with
  | [] => .error .areaWithoutRing
  | exterior :: holes => ofArea [.ofRings exterior holes]

def ofGeoJson (path : Path) (text : String) : Except Fault Boundary :=
  match GeoJson.parse text with
  | none => .error (.geojsonInvalid path)
  | some geometries =>
    match GeoJson.polygonsOf geometries with
    | [] => .error (.geojsonWithoutPolygon path)
    | polygons => ofArea polygons

def ofSpec (spec : BoundarySpec) (resolve : Path → Path) (read : Path → Option String) :
    Except Fault Boundary :=
  match spec with
  | .bbox west south east north => .ok (ofBBox west south east north)
  | .polygon rings => ofRings rings
  | .geojson path =>
    match read (resolve path) with
    | some text => ofGeoJson (resolve path) text
    | none => .error (.geojsonUnreadable (resolve path))

def envelope : Boundary → Rect
  | bbox rect => rect
  | polygon _ envelope => envelope

def contains (b : Boundary) (l : Location) : Bool :=
  let p := Point.ofLocation l
  match b with
  | bbox rect => rect.contains p
  | polygon area envelope => envelope.contains p && area.holds p

def geometryType : Boundary → String
  | bbox _ => "bbox"
  | polygon _ _ => "polygon"

def envelopeText (b : Boundary) : String :=
  "(" ++ ",".intercalate (b.envelope.values.map Decimal.plain) ++ ")"

end Boundary
end Cutout
