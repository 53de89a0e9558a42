import Cutout.Boundary
import Cutout.Proofs.Collections
import Cutout.Proofs.Envelopes
import Cutout.Proofs.FiniteNumbers
/-! Boundaries from GeoJSON documents. What is read has closed exterior rings of finite positions, and the
boundary has the polygons that are somewhere in the document, behind the envelope of all of them. -/
namespace Cutout.GeoJson

theorem mapMEach {α β : Type} {f : α → Option β} {items : List α} {found : List β}
    (all : items.mapM f = some found) : ∀ y ∈ found, ∃ x ∈ items, f x = some y := by
  induction items generalizing found with
  | nil =>
    cases all
    exact fun y mem => absurd mem List.not_mem_nil
  | cons x rest ih =>
    simp only [List.mapM_cons, Option.bind_eq_bind, Option.bind_eq_some_iff, Option.pure_def] at all
    obtain ⟨y, first, others, more, same⟩ := all
    cases same
    refine List.forall_mem_cons.mpr ⟨⟨x, List.mem_cons_self, first⟩, fun z mem => ?_⟩
    obtain ⟨w, listed, is_z⟩ := ih more z mem
    exact ⟨w, List.mem_cons_of_mem x listed, is_z⟩

theorem getFinite {j value : Json} {key : String} (finite : j.Finite) (found : j.get? key = some value) :
    value.Finite := by
  cases finite with
  | object each =>
    obtain ⟨f, listed, rfl⟩ := Option.map_eq_some_iff.mp found
    exact each f (List.mem_of_find?_eq_some listed)
  | _ => cases found

theorem numberFinite {j : Json} {x : Binary64} (finite : j.Finite) (found : j.number? = some x) :
    x.isFinite = true := by
  cases finite with
  | integer finite =>
    cases found
    exact finite
  | real finite =>
    cases found
    exact finite
  | _ => cases found

theorem itemsFinite {j : Json} {items : List Json} (finite : j.Finite) (found : items? j = some items) :
    ∀ i ∈ items, i.Finite := by
  cases finite with
  | array each =>
    cases found
    exact each
  | _ => cases found

theorem listEach {α : Type} {item : Json → Option α} {p : α → Prop}
    (one : ∀ {j x}, j.Finite → item j = some x → p x) {j : Json} {found : List α} (finite : j.Finite)
    (read : list? item j = some found) : ∀ x ∈ found, p x := by
  obtain ⟨items, is_array, all⟩ := Option.bind_eq_some_iff.mp read
  intro x mem
  obtain ⟨i, listed, is_x⟩ := mapMEach all x mem
  exact one (itemsFinite finite is_array i listed) is_x

theorem positionFinite {j : Json} {p : Point} (finite : j.Finite) (read : position? j = some p) :
    p.isFinite = true := by
  simp only [position?, Option.bind_eq_bind, Option.bind_eq_some_iff] at read
  obtain ⟨items, is_array, numbers, all, read⟩ := read
  have each : ∀ x ∈ numbers, x.isFinite = true := by
    intro x mem
    obtain ⟨i, listed, is_x⟩ := mapMEach all x mem
    exact numberFinite (itemsFinite finite is_array i listed) is_x
  split at read
  · cases read
    exact Point.finiteIff.mpr ⟨each _ (by simp), each _ (by simp)⟩
  · cases read

def WellFormed (g : Polygon) : Prop :=
  g.exterior.isClosed = true ∧ ∀ q ∈ g.exterior, q.isFinite = true

theorem ringsFormed {exterior : Ring} (holes : List Ring) (finite : ∀ q ∈ exterior, q.isFinite = true) :
    WellFormed (.ofRings exterior holes) :=
  ⟨Ring.closedIsClosed finite, fun q mem => finite q (Ring.memClosed.mp mem)⟩

theorem polygonFormed {j : Json} {g : Polygon} (finite : j.Finite) (read : polygon? j = some g) :
    WellFormed g := by
  obtain ⟨rings, listed, made⟩ := Option.bind_eq_some_iff.mp read
  have each : ∀ r ∈ rings, ∀ q ∈ r, q.isFinite = true :=
    listEach (fun finite => listEach positionFinite finite) finite listed
  cases rings with
  | nil =>
    cases made
    exact ringsFormed [] fun q mem => absurd mem List.not_mem_nil
  | cons exterior holes =>
    cases made
    exact ringsFormed holes (each exterior List.mem_cons_self)

theorem polygonsOfEach {p : Polygon → Prop} {geometries : List Geometry}
    (each : ∀ geometry ∈ geometries, ∀ g ∈ geometry.polygons, p g) : ∀ g ∈ polygonsOf geometries, p g := by
  induction geometries with
  | nil => exact fun g mem => absurd mem List.not_mem_nil
  | cons first rest ih =>
    obtain ⟨head, others⟩ := List.forall_mem_cons.mp each
    exact List.forall_mem_append.mpr ⟨head, ih others⟩

theorem geometryCases {depth : Nat} {j : Json} {geometry : Geometry}
    (read : geometryOf (depth + 1) j = some geometry) : geometry = .other ∨
    (∃ value g, j.get? "coordinates" = some value ∧ polygon? value = some g ∧ geometry = .polygon g) ∨
    (∃ value gs, j.get? "coordinates" = some value ∧ list? polygon? value = some gs ∧
      geometry = .multiPolygon gs) ∨
    ∃ value parts, j.get? "geometries" = some value ∧ list? (geometryOf depth) value = some parts ∧
      geometry = .collection parts := by
  simp only [geometryOf, Option.bind_eq_bind, Option.bind_eq_some_iff] at read
  obtain ⟨_, -, kind, -, read⟩ := read
  split at read
  all_goals
    simp only [Option.bind_eq_some_iff, Option.bind_some, Option.bind_none,
      Option.ite_none_right_eq_some, Option.some.injEq, reduceCtorEq] at read
  case h_1 | h_2 | h_3 | h_4 =>
    obtain ⟨_, -, _, -, -, rfl⟩ := read
    exact .inl rfl
  case h_5 =>
    obtain ⟨value, there, g, made, -, rfl⟩ := read
    exact .inr (.inl ⟨value, g, there, made, rfl⟩)
  case h_6 =>
    obtain ⟨value, there, gs, made, -, rfl⟩ := read
    exact .inr (.inr (.inl ⟨value, gs, there, made, rfl⟩))
  case h_7 =>
    obtain ⟨value, there, parts, made, -, rfl⟩ := read
    exact .inr (.inr (.inr ⟨value, parts, there, made, rfl⟩))

theorem geometryFormed {depth : Nat} {j : Json} {geometry : Geometry} (finite : j.Finite)
    (read : geometryOf depth j = some geometry) : ∀ g ∈ geometry.polygons, WellFormed g := by
  induction depth generalizing j geometry with
  | zero => cases read
  | succ depth ih =>
    obtain rfl | ⟨value, g, there, made, rfl⟩ | ⟨value, gs, there, made, rfl⟩ |
      ⟨value, parts, there, made, rfl⟩ := geometryCases read
    · exact fun g mem => absurd mem List.not_mem_nil
    · exact List.forall_mem_singleton.mpr (polygonFormed (getFinite finite there) made)
    · exact listEach polygonFormed (getFinite finite there) made
    · exact polygonsOfEach (listEach ih (getFinite finite there) made)

theorem featureFormed {j : Json} {geometries : List Geometry} (finite : j.Finite)
    (read : feature? j = some geometries) :
    ∀ geometry ∈ geometries, ∀ g ∈ geometry.polygons, WellFormed g := by
  simp only [feature?, Option.bind_eq_bind, Option.bind_eq_some_iff] at read
  obtain ⟨_, -, read⟩ := read
  split at read
  · cases read
  · obtain ⟨value, there, read⟩ := Option.bind_eq_some_iff.mp read
    split at read
    all_goals
      simp only [Option.bind_eq_some_iff, Option.map_eq_some_iff, Option.ite_none_right_eq_some,
        Option.some.injEq] at read
    · obtain ⟨_, rfl, -, rfl⟩ := read
      exact fun geometry mem => absurd mem List.not_mem_nil
    · obtain ⟨_, ⟨geometry, made, rfl⟩, -, rfl⟩ := read
      exact List.forall_mem_singleton.mpr (geometryFormed (getFinite finite there) made)

theorem parseFormed {text : String} {geometries : List Geometry}
    (parsed : parse text = some geometries) : ∀ g ∈ polygonsOf geometries, WellFormed g := by
  simp only [parse, Option.bind_eq_bind, Option.bind_eq_some_iff] at parsed
  obtain ⟨j, value, _, -, kind, -, parsed⟩ := parsed
  have finite := Json.parseFinite value
  refine polygonsOfEach ?_
  split at parsed
  · exact featureFormed finite parsed
  · simp only [Option.bind_eq_some_iff, Option.ite_none_right_eq_some, Option.some.injEq] at parsed
    obtain ⟨value, there, features, made, -, rfl⟩ := parsed
    have each := listEach featureFormed (getFinite finite there) made
    intro geometry mem
    obtain ⟨feature, listed, mem⟩ := List.mem_flatten.mp mem
    exact each feature listed geometry mem
  · obtain ⟨geometry, made, same⟩ := Option.bind_eq_some_iff.mp parsed
    cases same
    exact List.forall_mem_singleton.mpr (geometryFormed finite made)

end Cutout.GeoJson

namespace Cutout.Boundary
open GeoJson (Geometry polygonsOf)

theorem areaAccepted {area : Area} :
    (∃ b, ofArea area = .ok b) ↔ ∃ g ∈ area, g.exterior ≠ [] := by
  have points : area.exteriorPoints = [] ↔ ∀ g ∈ area, g.exterior = [] := List.flatMap_eq_nil_iff
  unfold ofArea Area.envelope?
  cases listed : area.exteriorPoints with
  | nil =>
    have none := points.mp listed
    constructor
    · rintro ⟨b, accepted⟩
      cases accepted
    · rintro ⟨g, mem, some_point⟩
      exact absurd (none g mem) some_point
  | cons p rest =>
    refine iff_of_true ⟨_, rfl⟩ (by_contra fun none => ?_)
    have all : ∀ g ∈ area, g.exterior = [] := fun g mem => by_contra fun point => none ⟨g, mem, point⟩
    rw [points.mpr all] at listed
    cases listed

theorem areaFault {area : Area} {f : Fault} (failed : ofArea area = .error f) : f = .areaEmpty := by
  unfold ofArea at failed
  split at failed
  · cases failed
  · exact (Except.error.inj failed).symm

def missing : String := "Boundary: No (multi)polygon found in "

theorem emptyApart (place : String) : Fault.areaEmpty.message ≠ missing ++ place := by
  intro same
  have other : Fault.areaEmpty.message.toList[10]? = some 'P' := by decide
  have letter : missing.toList[10]? = some 'N' := by decide
  rw [same, String.toList_append, List.getElem?_append_left (by decide), letter] at other
  cases other

section Document
variable {path : Path} {resolve : Path → Path} {read : Path → Option String} {text : String}
  {geometries : List Geometry} (there : read (resolve path) = some text)
  (parsed : GeoJson.parse text = some geometries)
include there parsed

theorem geojsonIs : ofSpec (.geojson path) resolve read =
    if polygonsOf geometries = [] then .error (.geojsonWithoutPolygon (resolve path))
    else ofArea (polygonsOf geometries) := by
  simp only [ofSpec, there, ofGeoJson, parsed]
  split
  · rename_i none
    rw [if_pos none]
  · rename_i some_polygon
    rw [if_neg some_polygon]

theorem geojsonAccepted {b : Boundary} (accepted : ofSpec (.geojson path) resolve read = .ok b) :
    ∃ envelope, Area.envelope? (polygonsOf geometries) = some envelope ∧
      b = .polygon (polygonsOf geometries) envelope := by
  rw [geojsonIs there parsed] at accepted
  split at accepted
  · cases accepted
  · exact ofAreaIs accepted

/-- Every geometry is flattened to the polygons it has, each once and in order. So a document is
refused for missing polygons if it has none, and its boundary holds what one of them holds that is in
the envelope of all; where turns are exact, and so wherever coordinates are of moderate size, it holds
what one of them holds. -/
theorem geojsonKeepsPolygons :
    let document := Geometry.collection geometries
    let loaded := ofSpec (.geojson path) resolve read
    let polygons := polygonsOf geometries
    let held (l : Location) : Prop :=
      ∃ address g, document.At address g ∧ g.holds (.ofLocation l) = true
    (∀ (geometry : Geometry) list, geometry.Lists list ↔ list = geometry.polygons) ∧
    ((∃ f, loaded = .error f ∧ f.message = missing ++ (resolve path).quoted) ↔
      ∀ address g, ¬ document.At address g) ∧
    ((∃ b, loaded = .ok b) ↔ ∃ address g, document.At address g ∧ g.exterior ≠ []) ∧
    (∀ b, loaded = .ok b → ∀ l : Location,
      (b.contains l = true ↔ b.envelope.contains (.ofLocation l) = true ∧ held l) ∧
      (Area.TurnsExactly polygons (.ofLocation l) → (b.contains l = true ↔ held l))) ∧
    (Area.Throughout polygons Point.isModerate → ∀ l, Area.TurnsExactly polygons (.ofLocation l)) := by
  intro document loaded polygons held
  have loaded_is : loaded = _ := geojsonIs there parsed
  have listed : document.Lists polygons := document.listsPolygons
  have none : polygons = [] ↔ ∀ address g, ¬ document.At address g := by
    simp only [List.eq_nil_iff_forall_not_mem, listed.mem, not_exists]
    exact forall_comm
  have holds (l : Location) : Area.holds polygons (.ofLocation l) = true ↔ held l := by
    rw [Area.holds, List.any_eq_true]
    exact listed.somewhere
  refine ⟨fun geometry list => ⟨fun lists => lists.unique geometry.listsPolygons, ?_⟩, ?_, ?_, ?_, ?_⟩
  · rintro rfl
    exact geometry.listsPolygons
  · rw [loaded_is, ← none]
    split
    · rename_i empty
      exact iff_of_true ⟨_, rfl, rfl⟩ empty
    · rename_i some_polygon
      refine iff_of_false ?_ some_polygon
      rintro ⟨f, failed, message⟩
      rw [areaFault failed] at message
      exact emptyApart _ message
  · rw [loaded_is, ← listed.somewhere]
    split
    · rename_i empty
      refine iff_of_false (fun ⟨b, accepted⟩ => nomatch accepted) fun ⟨g, mem, _⟩ => ?_
      exact List.ne_nil_of_mem mem empty
    · exact areaAccepted
  · intro b accepted l
    obtain ⟨envelope, found, rfl⟩ := geojsonAccepted there parsed accepted
    have formed := GeoJson.parseFormed parsed
    refine ⟨?_, fun exact => ?_⟩
    · rw [← holds]
      exact Bool.and_eq_true_iff
    · rw [← holds]
      have idle := Area.envelopeIdle found (fun g mem => (formed g mem).1)
        (fun g mem => (formed g mem).2) l.locationFinite exact
      exact Bool.eq_iff_iff.mp idle
  · exact fun moderate l => Area.turnsExactlyOfModerate moderate l

end Document

def pointText (position : String) : String :=
  "\x7b\"type\":\"Point\",\"coordinates\":[" ++ position ++ "]\x7d"

def multiPolygonText (rings : List String) : String :=
  "\x7b\"type\":\"MultiPolygon\",\"coordinates\":[" ++
    ",".intercalate (rings.map fun ring => "[[" ++ ring ++ "]]") ++ "]\x7d"

def collectionText (parts : List String) : String :=
  "\x7b\"type\":\"GeometryCollection\",\"geometries\":[" ++ ",".intercalate parts ++ "]\x7d"

theorem documentLoads (text : String) {area : Area} {b : Boundary}
    (listed : (GeoJson.parse text).map polygonsOf = some area) (accepted : ofArea area = .ok b) :
    ∃ geometries, GeoJson.parse text = some geometries ∧ polygonsOf geometries = area ∧
      ofSpec (.geojson ⟨text⟩) id (fun _ => some text) = .ok b := by
  obtain ⟨geometries, parsed, rfl⟩ := Option.map_eq_some_iff.mp listed
  refine ⟨geometries, parsed, rfl, ?_⟩
  rw [geojsonIs rfl parsed, if_neg]
  · exact accepted
  · intro none
    rw [none] at accepted
    cases accepted

def nestedText : String :=
  collectionText [pointText "9,9",
    collectionText [multiPolygonText ["[0,0],[4,0],[4,4],[0,4]", "[6,0],[8,0],[8,4]"]]]

def squareAndTriangle : Area :=
  [.ofRings [corner 0 0, corner 4 0, corner 4 4, corner 0 4] [],
    .ofRings [corner 6 0, corner 8 0, corner 8 4] []]

theorem nestedPolygonsKept : ∃ geometries b, GeoJson.parse nestedText = some geometries ∧
    ofSpec (.geojson ⟨nestedText⟩) id (fun _ => some nestedText) = .ok b ∧
    (∀ l : Location, b.contains l = true ↔ ∃ address g,
      (Geometry.collection geometries).At address g ∧ g.holds (.ofLocation l) = true) ∧
    b.contains (.ofDegrees (.ofInt 2) (.ofInt 1)) = true ∧
    b.contains (.ofDegrees (.ofInt 7) (.ofInt 1)) = true ∧
    b.contains (.ofDegrees (.ofInt 5) (.ofInt 1)) = false := by
  have accepted : ofArea squareAndTriangle =
      .ok (.polygon squareAndTriangle ⟨corner 0 0, corner 8 4⟩) := by
    decide +kernel
  have moderate : ∀ g ∈ squareAndTriangle, ∀ q ∈ g.exterior, q.isModerate = true := by
    decide +kernel
  obtain ⟨geometries, parsed, polygons, loaded⟩ :=
    documentLoads nestedText (by decide +kernel) accepted
  obtain ⟨-, -, -, contains, exact⟩ :=
    @geojsonKeepsPolygons ⟨nestedText⟩ id (fun _ => some nestedText) _ _ rfl parsed
  rw [← polygons] at moderate
  exact ⟨geometries, _, parsed, loaded, fun l => (contains _ loaded l).2 (exact moderate l),
    by decide +kernel⟩

def tiny : Binary64 := (Binary64.ofNat 1).div (.ofNat (Nat.pow 10 200))

def sliver : Polygon := .ofRings [⟨tiny, tiny.neg⟩, ⟨tiny, tiny⟩, corner 1 1, corner 1 (-1)] []

def sliverText : String := "[1e-200,-1e-200],[1e-200,1e-200],[1,1],[1,-1]"

def distant : Polygon := .ofRings [corner (-2) (-2), corner (-1) (-2), corner (-2) (-1)] []

def distantText : String := "[-2,-2],[-1,-2],[-2,-1]"

theorem noPolygonTestDecides : ¬ ∃ inside : Polygon → Location → Prop,
    ∀ path resolve read text geometries b, read (resolve path) = some text →
      GeoJson.parse text = some geometries → ofSpec (.geojson path) resolve read = .ok b →
      ∀ l, b.contains l = true ↔ ∃ g ∈ polygonsOf geometries, inside g l := by
  rintro ⟨inside, decides⟩
  let origin : Location := ⟨0, 0⟩
  have decided (text : String) (area : Area) (b : Boundary)
      (listed : (GeoJson.parse text).map polygonsOf = some area) (accepted : ofArea area = .ok b) :
      b.contains origin = true ↔ ∃ g ∈ area, inside g origin := by
    obtain ⟨geometries, parsed, rfl, loaded⟩ := documentLoads text listed accepted
    exact decides ⟨text⟩ id _ text geometries b rfl parsed loaded origin
  have first := decided (multiPolygonText [sliverText]) [sliver]
    (.polygon [sliver] ⟨⟨tiny, .ofInt (-1)⟩, corner 1 1⟩) (by decide +kernel) (by decide +kernel)
  have second := decided (multiPolygonText [distantText]) [distant]
    (.polygon [distant] ⟨corner (-2) (-2), corner (-1) (-1)⟩) (by decide +kernel) (by decide +kernel)
  have both := decided (multiPolygonText [sliverText, distantText]) [sliver, distant]
    (.polygon [sliver, distant] ⟨corner (-2) (-2), corner 1 1⟩) (by decide +kernel) (by decide +kernel)
  have held := both.mp (by decide +kernel)
  -- Whichever of the two is to hold the origin does not hold it alone.
  rw [List.exists_mem_cons_iff] at held
  obtain inside | inside := held
  · have alone := first.mpr ⟨sliver, List.mem_cons_self, inside⟩
    exact absurd alone (by decide +kernel)
  · have alone := second.mpr inside
    exact absurd alone (by decide +kernel)

end Cutout.Boundary
