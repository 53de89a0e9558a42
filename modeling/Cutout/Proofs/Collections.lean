import Cutout.GeoJson
import Mathlib.Data.List.Sort
/-! Polygons in trees of geometries. A polygon has an address, the indices on the way to it, and the order
of a document is that of the addresses; the list of all polygons is the one that has each once, in order. -/
namespace Cutout.GeoJson

inductive Geometry.At : Geometry → List Nat → Polygon → Prop
  | polygon {g : Polygon} : At (.polygon g) [] g
  | part {gs : List Polygon} {i : Nat} {g : Polygon} (listed : gs[i]? = some g) :
      At (.multiPolygon gs) [i] g
  | nested {parts : List Geometry} {part : Geometry} {i : Nat} {address : List Nat} {g : Polygon}
      (listed : parts[i]? = some part) (inner : part.At address g) :
      At (.collection parts) (i :: address) g

def Geometry.Lists (geometry : Geometry) (polygons : List Polygon) : Prop :=
  ∃ placed : List (List Nat × Polygon), placed.map Prod.snd = polygons ∧
    (∀ address g, (address, g) ∈ placed ↔ geometry.At address g) ∧
    placed.Pairwise fun p q => p.1 < q.1

namespace Geometry

theorem Lists.unique {geometry : Geometry} {polygons others : List Polygon}
    (lists : geometry.Lists polygons) (lists' : geometry.Lists others) : polygons = others := by
  obtain ⟨placed, rfl, all, ascending⟩ := lists
  obtain ⟨placed', rfl, all', ascending'⟩ := lists'
  have same : placed = placed' :=
    ascending.eq_of_mem_iff ascending' fun p => (all p.1 p.2).trans (all' p.1 p.2).symm
  rw [same]

theorem Lists.mem {geometry : Geometry} {polygons : List Polygon} (lists : geometry.Lists polygons)
    {g : Polygon} : g ∈ polygons ↔ ∃ address, geometry.At address g := by
  obtain ⟨placed, rfl, all, -⟩ := lists
  simp only [List.mem_map, Prod.exists, all, exists_eq_right]

theorem Lists.somewhere {geometry : Geometry} {polygons : List Polygon}
    (lists : geometry.Lists polygons) {p : Polygon → Prop} :
    (∃ g ∈ polygons, p g) ↔ ∃ address g, geometry.At address g ∧ p g := by
  simp only [lists.mem]
  constructor
  · rintro ⟨g, ⟨address, found⟩, holds⟩
    exact ⟨address, g, found, holds⟩
  · rintro ⟨address, g, found, holds⟩
    exact ⟨g, ⟨address, found⟩, holds⟩

def ListedFrom (start : Nat) (parts : List Geometry) (polygons : List Polygon) : Prop :=
  ∃ placed : List (List Nat × Polygon), placed.map Prod.snd = polygons ∧
    (∀ address g, (address, g) ∈ placed ↔ ∃ i inner part, address = (start + i) :: inner ∧
      parts[i]? = some part ∧ part.At inner g) ∧
    placed.Pairwise fun p q => p.1 < q.1

theorem listedCons {start : Nat} {part : Geometry} {parts : List Geometry}
    {polygons others : List Polygon} (first : part.Lists polygons)
    (rest : ListedFrom (start + 1) parts others) :
    ListedFrom start (part :: parts) (polygons ++ others) := by
  obtain ⟨placed, rfl, all, ascending⟩ := first
  obtain ⟨placed', rfl, all', ascending'⟩ := rest
  refine ⟨placed.map (fun p => (start :: p.1, p.2)) ++ placed', ?_, ?_, ?_⟩
  · rw [List.map_append, List.map_map]
    rfl
  · intro address g
    rw [List.mem_append, all']
    constructor
    · rintro (mem | ⟨i, inner, found, rfl, listed, at_inner⟩)
      · obtain ⟨⟨inner, h⟩, given, same⟩ := List.mem_map.mp mem
        cases same
        exact ⟨0, inner, part, rfl, rfl, (all inner h).mp given⟩
      · exact ⟨i + 1, inner, found, by rw [Nat.add_right_comm, Nat.add_assoc], listed, at_inner⟩
    · rintro ⟨i, inner, found, rfl, listed, at_inner⟩
      cases i with
      | zero =>
        obtain rfl := Option.some.inj listed
        exact .inl (List.mem_map.mpr ⟨(inner, g), (all inner g).mpr at_inner, rfl⟩)
      | succ i => exact .inr ⟨i, inner, found, by rw [Nat.add_right_comm, Nat.add_assoc], listed, at_inner⟩
  -- Within the first part the order is its own, and all others have a greater first index.
  · refine List.pairwise_append.mpr ⟨?_, ascending', ?_⟩
    · refine List.pairwise_map.mpr (ascending.imp fun less => ?_)
      exact List.cons_lt_cons_iff.mpr (.inr ⟨rfl, less⟩)
    · rintro _ mem ⟨address, g⟩ mem'
      obtain ⟨p, -, rfl⟩ := List.mem_map.mp mem
      obtain ⟨i, inner, -, rfl, -⟩ := (all' address g).mp mem'
      exact List.cons_lt_cons_iff.mpr (.inl (by omega))

theorem listsCollection {parts : List Geometry} {polygons : List Polygon}
    (listed : ListedFrom 0 parts polygons) : (collection parts).Lists polygons := by
  obtain ⟨placed, value, all, ascending⟩ := listed
  refine ⟨placed, value, fun address g => (all address g).trans ?_, ascending⟩
  constructor
  · rintro ⟨i, inner, part, rfl, listed, at_inner⟩
    rw [Nat.zero_add]
    exact .nested listed at_inner
  · rintro (_ | _ | ⟨listed, at_inner⟩)
    exact ⟨_, _, _, by rw [Nat.zero_add], listed, at_inner⟩

theorem listsPolygon (g : Polygon) : (polygon g).Lists [g] := by
  refine ⟨[([], g)], rfl, fun address h => ?_, List.pairwise_singleton ..⟩
  rw [List.mem_singleton, Prod.mk.injEq]
  constructor
  · rintro ⟨rfl, rfl⟩
    exact .polygon
  · rintro (_ | _)
    exact ⟨rfl, rfl⟩

theorem atMulti {gs : List Polygon} {address : List Nat} {g : Polygon} :
    (collection (gs.map polygon)).At address g ↔ (multiPolygon gs).At address g := by
  -- A part of a multipolygon is where it would be as a polygon of a collection.
  constructor
  · rintro (_ | _ | ⟨listed, at_inner⟩)
    rw [List.getElem?_map, Option.map_eq_some_iff] at listed
    obtain ⟨h, listed, rfl⟩ := listed
    cases at_inner
    exact .part listed
  · rintro (_ | listed)
    refine .nested ?_ (.polygon : (polygon g).At [] g)
    rw [List.getElem?_map, listed, Option.map_some]

theorem listsMulti (gs : List Polygon) : (multiPolygon gs).Lists gs := by
  have listed (start : Nat) : ListedFrom start (gs.map polygon) gs := by
    induction gs generalizing start with
    | nil => exact ⟨[], rfl, by simp, .nil⟩
    | cons g rest ih => exact listedCons (listsPolygon g) (ih (start + 1))
  obtain ⟨placed, value, all, ascending⟩ := listsCollection (listed 0)
  exact ⟨placed, value, fun address g => (all address g).trans atMulti, ascending⟩

theorem listsNone : other.Lists [] :=
  ⟨[], rfl, fun _ _ => ⟨fun mem => absurd mem List.not_mem_nil, fun found => nomatch found⟩, .nil⟩

mutual

theorem listsPolygons : (geometry : Geometry) → geometry.Lists geometry.polygons
  | .polygon g => listsPolygon g
  | .multiPolygon gs => listsMulti gs
  | .collection parts => listsCollection (listedFrom parts 0)
  | .other => listsNone

theorem listedFrom : (parts : List Geometry) → (start : Nat) →
    ListedFrom start parts (polygonsOf parts)
  | [], _ => ⟨[], rfl, by simp, .nil⟩
  | part :: parts, start => listedCons (listsPolygons part) (listedFrom parts (start + 1))

end

end Geometry

end Cutout.GeoJson
