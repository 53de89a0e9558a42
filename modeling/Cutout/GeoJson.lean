import Cutout.Area
import Cutout.Json
/-! Geometries of GeoJSON documents. Geometries without an area are read, so that a wrong one is
noticed, but their positions are not held. Foreign members are ignored. -/
namespace Cutout.GeoJson

inductive Geometry where
  | polygon (polygon : Polygon)
  | multiPolygon (polygons : List Polygon)
  | collection (parts : List Geometry)
  | other
  deriving Repr

mutual

def Geometry.polygons : Geometry → List Polygon
  | .polygon g => [g]
  | .multiPolygon gs => gs
  | .collection parts => polygonsOf parts
  | .other => []

def polygonsOf : List Geometry → List Polygon
  | [] => []
  | g :: gs => g.polygons ++ polygonsOf gs

end

def text? : Json → Option String
  | .string s => some s
  | _ => none

def items? : Json → Option (List Json)
  | .array items => some items
  | _ => none

def position? (j : Json) : Option Point := do
  let items ← items? j
  let numbers ← items.mapM Json.number?
  match numbers with
  | x :: y :: _ => some ⟨x, y⟩
  | _ => none

def list? {α : Type} (item : Json → Option α) (j : Json) : Option (List α) := do
  (← items? j).mapM item

def ring? : Json → Option Ring := list? position?

def polygon? (j : Json) : Option Polygon := do
  match ← list? ring? j with
  | [] => some (.ofRings [] [])
  | exterior :: holes => some (.ofRings exterior holes)

def boxAllowed (j : Json) : Bool :=
  match j.get? "bbox" with
  | none | some .null => true
  | some box => (list? Json.number? box).isSome

def geometryOf : Nat → Json → Option Geometry
  | 0, _ => none
  | depth + 1, j => do
    let kind ← (← j.get? "type") |> text?
    let geometry ← match kind with
      | "Point" => do let _ ← position? (← j.get? "coordinates"); some .other
      | "MultiPoint" | "LineString" => do let _ ← ring? (← j.get? "coordinates"); some .other
      | "MultiLineString" => do let _ ← list? ring? (← j.get? "coordinates"); some .other
      | "Polygon" => do some (.polygon (← polygon? (← j.get? "coordinates")))
      | "MultiPolygon" => do some (.multiPolygon (← list? polygon? (← j.get? "coordinates")))
      | "GeometryCollection" => do
        some (.collection (← list? (geometryOf depth) (← j.get? "geometries")))
      | _ => none
    if boxAllowed j then some geometry else none

def idAllowed (j : Json) : Bool :=
  match j.get? "id" with
  | none | some (.string _) | some (.integer _) | some (.real _) => true
  | _ => false

def propertiesAllowed (j : Json) : Bool :=
  match j.get? "properties" with
  | none | some .null | some (.object _) => true
  | _ => false

def feature? (j : Json) : Option (List Geometry) := do
  if (← j.get? "type") |> text? |>.all (· ≠ "Feature") then none
  let geometries ← match ← j.get? "geometry" with
    | .null => some []
    | g => (geometryOf Json.maxDepth g).map ([·])
  if propertiesAllowed j && idAllowed j && boxAllowed j then some geometries else none

def parse (text : String) : Option (List Geometry) := do
  let j ← Json.parse text
  match ← (← j.get? "type") |> text? with
  | "Feature" => feature? j
  | "FeatureCollection" =>
    let features ← list? feature? (← j.get? "features")
    if boxAllowed j then some features.flatten else none
  | _ => return [← geometryOf Json.maxDepth j]

end Cutout.GeoJson
