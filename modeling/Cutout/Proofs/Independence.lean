import Cutout.Proofs.Exactness
/-! Extracts of one run do not influence each other. The extract of a region ends the same whatever
other regions there are, wherever it stands among them and whatever the turns; only which passes are
run depends on all regions together, and a pass is run if one of them alone would need it. -/
namespace Cutout.Strategy

section Scans

theorem anyExtraMap {f : Extract → Extract} {kind : Kind} {xs : List Extract} :
    anyExtra (xs.map f) kind = true ↔ ∃ x ∈ xs, (f x).hasExtra kind = true := by
  rw [anyExtra, List.any_map, List.any_eq_true]
  exact Iff.rfl

theorem SystemOptions.memScans {o : SystemOptions} {elements : List Element} {xs : List Extract}
    {kinds : Kinds} : kinds ∈ o.scans elements xs ↔ kinds = .all ∨
      (∃ x ∈ xs, (o.networked elements x).hasExtra .relation = true ∧ kinds = .onlyRelations) ∨
      ∃ x ∈ xs, (o.joined elements x).hasExtra .way = true ∧ kinds = .onlyWays := by
  have listed {p : Prop} [Decidable p] {wanted : Kinds} :
      kinds ∈ (if p then [wanted] else []) ↔ p ∧ kinds = wanted := by
    split
    · simp [*]
    · simp [*]
  simp only [scans, List.mem_append, List.mem_singleton, listed, anyExtraMap, ← exists_and_right,
    and_assoc]
  rw [or_iff_left_of_imp fun all => .inl (.inl all), or_assoc]

theorem memScans {s : Strategy} {elements : List Element} {xs : List Extract} (some : xs ≠ [])
    {kinds : Kinds} :
    kinds ∈ s.scans elements xs ↔ ∃ x ∈ xs, kinds ∈ s.scans elements [x] := by
  obtain ⟨first, mem⟩ := List.exists_mem_of_ne_nil xs some
  cases s with
  | firstNode o => exact ⟨fun scanned => ⟨first, mem, scanned⟩, fun ⟨_, _, scanned⟩ => scanned⟩
  | systems o =>
    simp only [scans, SystemOptions.memScans, List.mem_singleton, exists_eq_left]
    constructor
    · intro scanned
      rcases scanned with all | ⟨x, mem, needed⟩ | ⟨x, mem, needed⟩
      · exact ⟨first, mem, .inl all⟩
      · exact ⟨x, mem, .inr (.inl needed)⟩
      · exact ⟨x, mem, .inr (.inr needed)⟩
    · intro scanned
      obtain ⟨x, mem, all | needed | needed⟩ := scanned
      · exact .inl all
      · exact .inr (.inl ⟨x, mem, needed⟩)
      · exact .inr (.inr ⟨x, mem, needed⟩)

end Scans

theorem extractsIndependent (s : Strategy) {source : Source} {elements : List Element}
    (held : source.Delivers elements) (accepted : InputOrder.Accepts elements)
    (regions others : List Region) (schedule turns single : Schedule) {i j : Nat} {region : Region}
    (here : regions[i]? = some region) (there : others[j]? = some region) :
    let joint := s.run source (regions.map .start) schedule
    let other := s.run source (others.map .start) turns
    let alone r := s.run source [.start r] single
    (joint.result = .ok () ∧ other.result = .ok () ∧ (alone region).result = .ok ()) ∧
      (∃ x, (alone region).session.extracts = [x] ∧ joint.session.extracts[i]? = some x ∧
        other.session.extracts[j]? = some x) ∧
      ∀ kinds, kinds ∈ joint.session.scans ↔ ∃ r ∈ regions, kinds ∈ (alone r).session.scans := by
  intro joint other alone
  have jointly := s.runAccepted held schedule accepted (regions.map .start)
  have otherwise := s.runAccepted held turns accepted (others.map .start)
  have singly (r : Region) := s.runAccepted held single accepted [.start r]
  have at' {list : List Region} {k : Nat} (place : list[k]? = some region) :
      ((list.map Extract.start).map (s.finished elements))[k]? =
        some (s.finished elements (.start region)) := by
    rw [List.getElem?_map, List.getElem?_map, place]
    rfl
  refine ⟨⟨jointly.1, otherwise.1, (singly region).1⟩,
    ⟨s.finished elements (.start region), (singly region).2.1, ?_, ?_⟩, fun kinds => ?_⟩
  · rw [jointly.2.1]
    exact at' here
  · rw [otherwise.2.1]
    exact at' there
  · have some : regions.map Extract.start ≠ [] :=
      List.ne_nil_of_mem (List.mem_map_of_mem (List.mem_of_getElem? here))
    rw [jointly.2.2, memScans some]
    simp only [List.mem_map, exists_exists_and_eq_and, alone, (singly _).2.2]

def nowhere : Region := .ofRules (fun _ => false) ∅ ∅

theorem nowhereBesideMeridian :
    let joint := (systems networks).run (.inMemory crossing) ([meridian, nowhere].map .start)
    let alone := (systems networks).run (.inMemory crossing) [.start nowhere]
    (∃ x, alone.session.extracts = [x] ∧ joint.session.extracts[1]? = some x) ∧
      joint.session.scans = [.all, .onlyRelations, .onlyWays, .all] ∧
      alone.session.scans = [.all, .all] := by
  have independent := extractsIndependent (systems networks) (deliversInMemory crossing) (by decide)
    [meridian, nowhere] [nowhere] .oneByOne .oneByOne .oneByOne (i := 1) (j := 0) rfl rfl
  obtain ⟨_, ⟨x, single, beside, _⟩, _⟩ := independent
  exact ⟨⟨x, single, beside⟩, by decide +kernel, by decide +kernel⟩

end Cutout.Strategy
