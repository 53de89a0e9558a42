import Cutout.Proofs.Envelopes
import Cutout.Proofs.Validation
import Mathlib.Data.List.Basic
import Mathlib.Data.Set.List
/-! Boundaries that are given inline. What an entry is accepted with can be read: no index is past the end
of a position, the first ring is the exterior and the others are its holes, and the envelope is the smallest
rectangle around the first ring. -/
namespace Cutout

namespace Binary64

section Value
variable {a b : Binary64} (first : a.isFinite = true) (second : b.isFinite = true)
  (same : a.value = b.value) (x : Binary64)
include first second same

theorem compareValue : compare? x a = compare? x b := by
  cases a with
  | nan => exact absurd first Bool.false_ne_true
  | infinite _ => exact absurd first Bool.false_ne_true
  | finite r m =>
    cases b with
    | nan => exact absurd second Bool.false_ne_true
    | infinite _ => exact absurd second Bool.false_ne_true
    | finite s n =>
      cases x with
      | nan => rfl
      | infinite _ => rfl
      | finite t k => exact congrArg (fun v => some (compare (finite t k).value v)) same

theorem leValue : x.le a = x.le b := by
  rw [le, le, compareValue first second same x]

theorem valueLe : a.le x = b.le x := by
  rw [le, le, compareSwap x a, compareSwap x b, compareValue first second same x]

end Value
end Binary64

namespace Rect
open Binary64

structure Smallest (r : Rect) (points : List Point) : Prop where
  holds : ∀ p ∈ points, r.contains p = true
  least : ∀ other : Rect, (∀ p ∈ points, other.contains p = true) →
    other.contains r.min = true ∧ other.contains r.max = true

theorem containsIff {r : Rect} {p : Point} : r.contains p = true ↔
    (r.min.x.le p.x = true ∧ p.x.le r.max.x = true) ∧
      r.min.y.le p.y = true ∧ p.y.le r.max.y = true := by
  simp only [contains, Bool.and_eq_true, and_assoc]

theorem Around.holds {r : Rect} {points : List Point} (around : r.Around points) {p : Point}
    (mem : p ∈ points) (finite : p.isFinite = true) : r.contains p = true := by
  obtain ⟨x, y⟩ := Point.finiteIff.mp finite
  obtain ⟨minX, minY⟩ := Point.finiteIff.mp around.corners.1
  obtain ⟨maxX, maxY⟩ := Point.finiteIff.mp around.corners.2
  rw [containsIff, leFinite minX x, leFinite x maxX, leFinite minY y, leFinite y maxY]
  exact ⟨⟨around.west.2 ⟨p, mem, rfl⟩, around.east.2 ⟨p, mem, rfl⟩⟩,
    around.south.2 ⟨p, mem, rfl⟩, around.north.2 ⟨p, mem, rfl⟩⟩

theorem Around.smallest {r : Rect} {points : List Point} (around : r.Around points)
    (finite : ∀ p ∈ points, p.isFinite = true) : r.Smallest points := by
  refine ⟨fun p mem => around.holds mem (finite p mem), fun other holds => ?_⟩
  obtain ⟨minX, minY⟩ := Point.finiteIff.mp around.corners.1
  obtain ⟨maxX, maxY⟩ := Point.finiteIff.mp around.corners.2
  -- Each side of the rectangle goes through a point, which the other one holds.
  have side {read : Point → Binary64} {v : Binary64} (here : v.isFinite = true)
      (there : ∀ p ∈ points, (read p).isFinite = true)
      (reached : v.value ∈ {u | ∃ q ∈ points, (read q).value = u}) {low high : Binary64}
      (inside : ∀ p ∈ points, low.le (read p) = true ∧ (read p).le high = true) :
      low.le v = true ∧ v.le high = true := by
    obtain ⟨q, mem, same⟩ := reached
    rw [← leValue (there q mem) here same, ← valueLe (there q mem) here same]
    exact inside q mem
  have x := fun p mem => (Point.finiteIff.mp (finite p mem)).1
  have y := fun p mem => (Point.finiteIff.mp (finite p mem)).2
  have across := fun p mem => (containsIff.mp (holds p mem)).1
  have up := fun p mem => (containsIff.mp (holds p mem)).2
  rw [containsIff, containsIff]
  exact ⟨⟨side minX x around.west.1 across, side minY y around.south.1 up⟩,
    side maxX x around.east.1 across, side maxY y around.north.1 up⟩

end Rect

def Point.numbers (p : Point) : List Binary64 := [p.x, p.y]

def Ring.numbers (r : Ring) : List (List Binary64) := r.map Point.numbers

theorem mapOfAll {α β : Type} {f : α → β} {items : List β} (each : ∀ b ∈ items, ∃ a, f a = b) :
    ∃ sources : List α, sources.map f = items :=
  (Set.ext_iff.mp (Set.range_list_map f) items).mpr each

theorem IsRing.ofNumbers {ring : List (List Binary64)} (sound : IsRing ring) :
    ∃ r : Ring, r.numbers = ring := by
  refine mapOfAll fun position mem => ?_
  obtain ⟨x, y, rfl⟩ := List.length_eq_two.mp (sound.2 position mem)
  exact ⟨⟨x, y⟩, rfl⟩

theorem mapMBack {α β ε : Type} {write : α → β} {read : β → Except ε α}
    (back : ∀ a, read (write a) = .ok a) (items : List α) :
    (items.map write).mapM read = .ok items := by
  have same : read ∘ write = pure := funext back
  rw [List.mapM_map, same]
  exact List.mapM_pure.trans (congrArg Except.ok (List.map_id items))

namespace Boundary

theorem positionReads (p : Point) : position p.numbers = .ok p := rfl

theorem ringsRead (rings : List Ring) :
    (rings.map Ring.numbers).mapM (List.mapM position) = .ok rings :=
  mapMBack (fun r => mapMBack positionReads r) rings

theorem envelopeFound {area : Area} (points : area.exteriorPoints ≠ []) :
    ∃ envelope, area.envelope? = some envelope := by
  unfold Area.envelope?
  split
  · rename_i none
    exact absurd none points
  · exact ⟨_, rfl⟩

theorem ofRingsLoads {exterior : Ring} (some_point : exterior ≠ []) (holes : List Ring) :
    ∃ envelope, ofRings ((exterior :: holes).map Ring.numbers) =
        .ok (.polygon [⟨exterior.closed, holes.map Ring.closed⟩] envelope) ∧
      ((∀ p ∈ exterior, p.isFinite = true) → envelope.Smallest exterior) := by
  let area : Area := [.ofRings exterior holes]
  have points : area.exteriorPoints = exterior.closed := List.append_nil _
  have among {p : Point} : p ∈ area.exteriorPoints ↔ p ∈ exterior := points ▸ Ring.memClosed
  obtain ⟨first, mem⟩ := List.exists_mem_of_ne_nil exterior some_point
  obtain ⟨envelope, found⟩ := envelopeFound (List.ne_nil_of_mem (among.mpr mem))
  refine ⟨envelope, ?_, fun finite => ?_⟩
  · have loaded : ofArea area = .ok (.polygon area envelope) := by rw [ofArea, found]
    rw [ofRings, ringsRead]
    exact loaded
  · have finites : ∀ p ∈ area.exteriorPoints, p.isFinite = true := fun p mem => finite p (among.mp mem)
    have smallest := (Area.envelopeAround found finites).smallest finites
    refine ⟨fun p mem => smallest.holds p (among.mpr mem), fun other holds => ?_⟩
    exact smallest.least other fun p mem => holds p (among.mp mem)

theorem inlineLoads {e : Entry} {spec : BoundarySpec} (accepted : e.boundarySpec = .ok spec)
    (inline : e.bbox.isSome ∨ e.polygon.isSome) (resolve : Path → Path) (read : Path → Option String) :
    (∃ west south east north, e.bbox = some [west, south, east, north] ∧
      ofSpec spec resolve read = .ok (ofBBox west south east north)) ∨
    ∃ (exterior : Ring) (holes : List Ring) (envelope : Rect),
      e.polygon = some ((exterior :: holes).map Ring.numbers) ∧
      ofSpec spec resolve read =
        .ok (.polygon [⟨exterior.closed, holes.map Ring.closed⟩] envelope) ∧
      ((∀ p ∈ exterior, p.isFinite = true) → envelope.Smallest exterior) := by
  obtain ⟨other, means⟩ | ⟨cause, offends⟩ := e.meansOrOffends
  · obtain rfl : other = spec := Except.ok.inj ((Entry.specOfMeans means).symm.trans accepted)
    cases means with
    | bbox alone box across up => exact .inl ⟨_, _, _, _, box, rfl⟩
    | @polygon rings alone given some_ring sound =>
      obtain ⟨all, rfl⟩ := mapOfAll fun ring mem => (sound ring mem).ofNumbers
      obtain ⟨exterior, holes, rfl⟩ := List.exists_cons_of_ne_nil (mt (congrArg _) some_ring)
      have long : 3 ≤ exterior.numbers.length := (sound _ List.mem_cons_self).1
      have some_point : exterior ≠ [] := by
        rintro rfl
        cases long
      obtain ⟨envelope, loads⟩ := ofRingsLoads some_point holes
      exact .inr ⟨exterior, holes, envelope, given, loads⟩
    | geojson alone file =>
      have one : e.geojson.isSome.toNat = 1 := by rw [file]; rfl
      rw [Entry.given] at alone
      have two : e.bbox.isSome.toNat = 1 ∨ e.polygon.isSome.toNat = 1 :=
        inline.imp (congrArg Bool.toNat) (congrArg Bool.toNat)
      omega
  · cases (Entry.faultOfOffends offends).symm.trans accepted

end Boundary

theorem holedSquareLoads :
    let exterior : Ring := [corner 0 0, corner 9 0, corner 9 9, corner 0 9]
    let hole : Ring := [corner 1 1, corner 2 1, corner 2 2]
    let rings := [exterior.numbers, hole.numbers]
    let e : Entry := ⟨⟨"out.osm"⟩, none, none, none, some rings, none, none, none⟩
    e.boundarySpec = .ok (.polygon rings) ∧ (e.bbox.isSome ∨ e.polygon.isSome) ∧
      (∀ p ∈ exterior, p.isFinite = true) ∧
      ∃ envelope, Boundary.ofSpec (.polygon rings) id (fun _ => none) =
          .ok (.polygon [⟨exterior ++ [corner 0 0], [hole ++ [corner 1 1]]⟩] envelope) ∧
        envelope.Smallest exterior := by
  intro exterior hole rings e
  have accepted : e.boundarySpec = .ok (.polygon rings) := by decide +kernel
  have finite : ∀ p ∈ exterior, p.isFinite = true := by decide +kernel
  have inline : e.bbox.isSome ∨ e.polygon.isSome := .inr rfl
  refine ⟨accepted, inline, finite, ?_⟩
  obtain ⟨_, _, _, _, box, _⟩ | ⟨outer, inner, envelope, given, loads, smallest⟩ :=
    Boundary.inlineLoads accepted inline id fun _ => none
  · cases box
  · have same : outer :: inner = [exterior, hole] := by
      have injective : Function.Injective Point.numbers := fun p q same => by
        cases p; cases q; cases same; rfl
      exact injective.list_map.list_map (Option.some.inj given).symm
    cases same
    have closed : exterior.closed = exterior ++ [corner 0 0] ∧
        [hole].map Ring.closed = [hole ++ [corner 1 1]] := by
      decide +kernel
    rw [closed.1, closed.2] at loads
    exact ⟨envelope, loads, smallest finite⟩

example : Boundary.ofRings [[[.zero, .zero], [.zero]]] = .error (.noSuchIndex 1 1) := rfl

end Cutout
