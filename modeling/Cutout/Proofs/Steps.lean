import Cutout.Proofs.Passes
import Cutout.Proofs.Slots
/-! Runs of steps, told by the extracts, the record of scans and what has been written in each round.
Notes have no part in what later steps do. -/
namespace Cutout

theorem Pass.roundsAre (turns : Nat → List Nat) (batches : List (List Element)) (xs : List Extract) :
    rounds turns batches xs = batches.map fun batch => xs.map (·.selected batch) := by
  -- Writing changes no set, so what each extract writes of a batch depends on that batch alone.
  induction batches generalizing turns xs with
  | nil => rfl
  | cons batch rest ih =>
    have written : List.zipWith Extract.since (xs.map (batch.foldl Extract.writeIncluded)) xs =
        xs.map (·.selected batch) := by
      rw [List.zipWith_map_left, List.zipWith_self]
      exact List.map_congr_left fun x _ => Extract.sinceFoldWrite batch x
    have after : write.overBatch (turns 0) batch xs = xs.map (batch.foldl Extract.writeIncluded) :=
      write.overBatchEach (turns 0) batch xs
    rw [rounds, ih, after, written, List.map_cons]
    simp only [List.map_map, Function.comp_def, Extract.selectedFoldWrite]

def Session.Shares (s : Session) (batches : List (List Element)) : Prop :=
  s.rounds = batches.map fun batch => s.extracts.map (·.selected batch)

structure Stand where
  extracts : List Extract
  scans : List Kinds
  rounds : List (List (List Element))

def Session.stand (s : Session) : Stand := ⟨s.extracts, s.scans, s.rounds⟩

namespace Step
variable {α β σ : Type}

theorem runPass (schedule : Schedule) (p : Pass σ) (start : σ) (source : Source) (s : Session) :
    (pass schedule p start source).run.run s =
      let scan := source.scan s.scans.length p.kinds p.metadata
      let scanned := p.overScan (schedule s.scans.length) scan start s.extracts
      (scanned.2, { s with
        extracts := scanned.1
        scans := s.scans ++ [p.kinds]
        notes := s.notes ++ scan.notes }) := rfl

theorem runWrite (schedule : Schedule) (source : Source) (s : Session) :
    (write schedule source).run.run s =
      let scan := source.scan s.scans.length .all true
      (pass schedule .write () source).run.run { s with
        rounds := scan.batches.map fun batch => s.extracts.map (·.selected batch)
        told := s.notes ++ scan.notes } := by
  simp only [← Pass.roundsAre (schedule s.scans.length)]
  rfl

/-- From every session that stands so, the step ends with the result and leaves the other stand. -/
def Ends (step : Step α) (before : Stand) (result : Except Fault α) (after : Stand) : Prop :=
  ∀ s : Session, s.stand = before → ∃ t, step.run.run s = (result, t) ∧ t.stand = after

theorem Ends.bind {step : Step α} {next : α → Step β} {before between after : Stand} {a : α}
    {result : Except Fault β} (first : step.Ends before (.ok a) between)
    (second : (next a).Ends between result after) : (step >>= next).Ends before result after := by
  intro s stands
  obtain ⟨t, run, stands⟩ := first s stands
  obtain ⟨u, rest, stands⟩ := second t stands
  refine ⟨u, ?_, stands⟩
  rw [ExceptT.run_bind, StateT.run_bind, run]
  exact rest

theorem Ends.stop {step : Step α} {before after : Stand} {fault : Fault}
    (first : step.Ends before (.error fault) after) (next : α → Step β) :
    (step >>= next).Ends before (.error fault) after := by
  intro s stands
  obtain ⟨t, run, stands⟩ := first s stands
  refine ⟨t, ?_, stands⟩
  rw [ExceptT.run_bind, StateT.run_bind, run]
  rfl

theorem endsPure (a : α) (before : Stand) : (pure a : Step α).Ends before (.ok a) before :=
  fun s stands => ⟨s, rfl, stands⟩

theorem endsNote (n : Note) (before : Stand) : (note n).Ends before (.ok ()) before :=
  fun _ stands => ⟨_, rfl, stands⟩

theorem endsUpdate (f before : Extract → Extract) (xs : List Extract) (scans : List Kinds)
    (rounds : List (List (List Element))) : (updateExtracts f).Ends ⟨xs.map before, scans, rounds⟩ (.ok ())
      ⟨xs.map fun x => f (before x), scans, rounds⟩ := by
  intro s stands
  obtain ⟨extracts, sameScans, sameRounds⟩ := Stand.mk.inj stands
  have updated : s.extracts.map f = xs.map fun x => f (before x) := by
    rw [extracts, List.map_map]
    rfl
  refine ⟨_, rfl, ?_⟩
  rw [← updated, ← sameScans, ← sameRounds]
  rfl

theorem endsExtracts (xs : List Extract) (scans : List Kinds) (rounds : List (List (List Element))) :
    extracts.Ends ⟨xs, scans, rounds⟩ (.ok xs) ⟨xs, scans, rounds⟩ := by
  intro s stands
  cases stands
  exact ⟨s, rfl, rfl⟩

theorem endsPass (schedule : Schedule) (p : Pass σ) (start : σ) (source : Source)
    (xs : List Extract) (scans : List Kinds) (rounds : List (List (List Element)))
    {result : List Extract × Except Fault σ}
    (scanned : p.overScan (schedule scans.length)
      (source.scan scans.length p.kinds p.metadata) start xs = result) :
    (pass schedule p start source).Ends ⟨xs, scans, rounds⟩ result.2
      ⟨result.1, scans ++ [p.kinds], rounds⟩ := by
  intro s stands
  cases stands
  cases scanned
  exact ⟨_, rfl, rfl⟩

theorem endsWrite (schedule : Schedule) (source : Source) (xs : List Extract) (scans : List Kinds)
    (rounds : List (List (List Element))) {result : List Extract × Except Fault Unit}
    (scanned : Pass.write.overScan (schedule scans.length)
      (source.scan scans.length .all true) () xs = result) :
    (write schedule source).Ends ⟨xs, scans, rounds⟩ result.2
      ⟨result.1, scans ++ [.all],
        (source.scan scans.length .all true).batches.map fun batch => xs.map (·.selected batch)⟩ := by
  intro s stands
  cases stands
  cases scanned
  rw [runWrite]
  exact ⟨_, rfl, rfl⟩

theorem Ends.outcome {step : Step Unit} {xs : List Extract} {after : Stand}
    {result : Except Fault Unit} (ends : step.Ends ⟨xs, [], []⟩ result after) :
    (step.outcome xs).result = result ∧ (step.outcome xs).session.stand = after := by
  obtain ⟨t, run, stands⟩ := ends (.start xs) rfl
  rw [Step.outcome, run]
  exact ⟨rfl, stands⟩

theorem observeNothing (kinds : Kinds) (metadata : Bool) (visit : Extract → Element → Extract)
    (items : List Element) :
    items.foldlM (Pass.stateless kinds metadata visit).observe () = .ok () := by
  induction items with
  | nil => rfl
  | cons e items ih => exact ih

section Delivered
variable {source : Source} {elements : List Element} (held : source.Delivers elements)
include held

theorem endsAccepted (schedule : Schedule) {p : Pass σ} (fits : p.metadata = true ∨ p.Blind)
    {start last : σ} (accepted : (p.wanted elements).foldlM p.observe start = .ok last)
    (xs : List Extract) (scans : List Kinds) (rounds : List (List (List Element))) :
    (pass schedule p start source).Ends ⟨xs, scans, rounds⟩ (.ok last)
      ⟨xs.map ((p.wanted elements).foldl p.visit), scans ++ [p.kinds], rounds⟩ :=
  endsPass schedule p start source xs scans rounds
    (Pass.overScanAccepted held fits accepted _ _ xs)

theorem endsRefused (schedule : Schedule) {p : Pass σ} (fits : p.metadata = true ∨ p.Blind)
    {start : σ} {fault : Fault}
    (refused : (p.wanted elements).foldlM p.observe start = .error fault) (xs : List Extract)
    (scans : List Kinds) (rounds : List (List (List Element))) :
    ∃ ys, (pass schedule p start source).Ends ⟨xs, scans, rounds⟩ (.error fault)
      ⟨ys, scans ++ [p.kinds], rounds⟩ := by
  have result := Pass.overScanRefused held fits refused (schedule scans.length) scans.length xs
  have ends := endsPass schedule p start source xs scans rounds rfl
  rw [result] at ends
  exact ⟨_, ends⟩

theorem endsStateless (schedule : Schedule) (kinds : Kinds) {visit : Extract → Element → Extract}
    (blind : ∀ x e, visit x e.bare = visit x e) (before : Extract → Extract) (xs : List Extract)
    (scans : List Kinds) (rounds : List (List (List Element))) :
    (pass schedule (.stateless kinds false visit) () source).Ends
      ⟨xs.map before, scans, rounds⟩ (.ok ())
      ⟨xs.map fun x => (elements.filter fun e => kinds.contains e.kind).foldl visit (before x),
        scans ++ [kinds], rounds⟩ := by
  have ends := endsAccepted held schedule (.inr ⟨fun _ _ => rfl, blind⟩)
    (observeNothing kinds false visit _) (xs.map before) scans rounds
  rw [List.map_map] at ends
  exact ends

theorem endsWritten (schedule : Schedule) (before : Extract → Extract) (xs : List Extract)
    (scans : List Kinds) (rounds : List (List (List Element))) :
    (write schedule source).Ends ⟨xs.map before, scans, rounds⟩ (.ok ())
      ⟨xs.map fun x => elements.foldl Extract.writeIncluded (before x), scans ++ [.all],
        (source.read .all true).batches.map fun batch => xs.map fun x =>
          (elements.foldl Extract.writeIncluded (before x)).selected batch⟩ := by
  have every : Pass.write.wanted elements = elements :=
    List.filter_eq_self.mpr fun e _ => by cases e <;> rfl
  have fits : Pass.write.metadata = true ∨ Pass.write.Blind := .inl rfl
  have taken := observeNothing .all true Extract.writeIncluded (Pass.write.wanted elements)
  have scanned := Pass.overScanAccepted held fits taken (schedule scans.length) scans.length
    (xs.map before)
  rw [every, List.map_map] at scanned
  have ends := endsWrite schedule source (xs.map before) scans rounds scanned
  simp only [source.scanRereadable held.rereadable, List.map_map, Function.comp_def] at ends
  simp only [Extract.selectedFoldWrite]
  exact ends

end Delivered
end Step
end Cutout
