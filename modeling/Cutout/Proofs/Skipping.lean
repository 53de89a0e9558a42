import Cutout.Proofs.Independence
import Cutout.Recipient
/-! Passes that are left out. A run over relation systems ends as if it had made all four passes; it
makes the second one and the third one just if extra relations and extra ways are left in the end. -/
namespace Cutout

def HoldsExtra (xs : List Extract) (kind : Kind) : Prop :=
  ∃ x ∈ xs, ∃ key, key ∈ (x.extra.of kind).ids

theorem anyExtraIff {xs : List Extract} {kind : Kind} :
    anyExtra xs kind = true ↔ HoldsExtra xs kind := by
  rw [anyExtra, List.any_eq_true]
  refine exists_congr fun x => and_congr_right fun _ => ?_
  rw [← Bool.not_eq_false, Extract.noExtraIff]
  simp only [not_forall, Bool.not_eq_false]
  exact Iff.rfl

theorem Pass.writeKeepsSets (scan : Scan) (turns : Nat → List Nat) (xs : List Extract) :
    (Pass.write.overScan turns scan () xs).1.map Extract.of = xs.map Extract.of := by
  have taken := Step.observeNothing .all true Extract.writeIncluded scan.batches.flatten
  have scanned := Pass.write.overScanPassed taken turns xs
  rw [scanned, List.map_map]
  refine List.map_congr_left fun x _ => ?_
  rw [Function.comp_apply, Pass.write, Pass.stateless, Extract.foldWrite]
  rfl

namespace Strategy.SystemOptions
variable (o : SystemOptions)

def passAlways (number : Nat) (p : Pass Unit) (source : Source) (schedule : Schedule) :
    Step Unit := do
  Step.note (.info s!"Pass {number}...")
  Step.pass schedule p () source
  Step.note (.info s!"Pass {number} done")

def runThrough (source : Source) (schedule : Schedule) : Step Unit := do
  Step.note (.info s!"Running '{name}' strategy in four passes...")
  Step.note (.info "Pass 1...")
  let survey ← Step.pass schedule o.findPrimary .start source
  Step.note (.info "Pass 1 done")
  let graph := survey.memberships.graph
  Step.updateExtracts fun x => x.addNetwork graph
  passAlways 2 o.completeSystems source schedule
  passAlways 3 completeExtraWays source schedule
  Step.note (.info "Pass 4...")
  Step.write schedule source
  Step.note (.info "Pass 4 done")

section Later
variable {o} {elements : List Element} {x : Extract}

theorem heldFinished {part : Part} {kind : Kind} :
    (o.finished elements x).held part kind = (o.gathered elements x).held part kind := by
  unfold finished
  rw [Extract.foldWrite]
  cases part <;> rfl

theorem extraFinished {kind : Kind} (other : kind ≠ .node) :
    (o.finished elements x).held .extra kind = (o.joined elements x).held .extra kind := by
  rw [heldFinished]
  ext key
  refine memFoldExtraWays.trans ?_
  simp [Extract.pulledNodesIff, Extract.held, other]

theorem systemsFinished : (o.finished elements x).held .extra .relation =
    (o.networked elements x).held .extra .relation := by
  rw [extraFinished (by decide)]
  ext key
  refine memFoldSystems.trans ?_
  simp [Extract.pulledMembersIff, Extract.held]

theorem holdsExtraCongr {f g : Extract → Extract} {kind : Kind}
    (same : ∀ x, (f x).held .extra kind = (g x).held .extra kind) (xs : List Extract) :
    HoldsExtra (xs.map f) kind ↔ HoldsExtra (xs.map g) kind := by
  unfold HoldsExtra
  simp only [List.mem_map, exists_exists_and_eq_and]
  refine exists_congr fun x => and_congr_right fun _ => exists_congr fun key => ?_
  exact Set.ext_iff.mp (same x) key

end Later

open Classical in
theorem scansByEnd (elements : List Element) (xs : List Extract) : o.scans elements xs =
    [.all] ++ (if HoldsExtra (xs.map (o.finished elements)) .relation then [.onlyRelations] else []) ++
      (if HoldsExtra (xs.map (o.finished elements)) .way then [.onlyWays] else []) ++ [.all] := by
  have relations : anyExtra (xs.map (o.networked elements)) .relation = true ↔
      HoldsExtra (xs.map (o.finished elements)) .relation :=
    anyExtraIff.trans (holdsExtraCongr (fun _ => systemsFinished.symm) xs)
  have ways : anyExtra (xs.map (o.joined elements)) .way = true ↔
      HoldsExtra (xs.map (o.finished elements)) .way :=
    anyExtraIff.trans (holdsExtraCongr (fun _ => (extraFinished (by decide)).symm) xs)
  unfold scans
  rw [if_congr relations rfl rfl, if_congr ways rfl rfl]

section Delivered
variable {source : Source} {elements : List Element} (held : source.Delivers elements)
  (schedule : Schedule)
include held

theorem endsPassAlways (number : Nat) (kinds : Kinds) {visit : Extract → Element → Extract}
    (blind : ∀ x e, visit x e.bare = visit x e) (before : Extract → Extract) (xs : List Extract)
    (scans : List Kinds) (rounds : List (List (List Element))) :
    (passAlways number (.stateless kinds false visit) source schedule).Ends
      ⟨xs.map before, scans, rounds⟩ (.ok ())
      ⟨xs.map fun x => (elements.filter fun e => kinds.contains e.kind).foldl visit (before x),
        scans ++ [kinds], rounds⟩ := by
  have scanned := Step.endsStateless held schedule kinds blind before xs scans rounds
  exact (Step.endsNote _ _).bind (scanned.bind (Step.endsNote _ _))

theorem endsThrough (accepted : InputOrder.Accepts elements) (xs : List Extract) :
    (o.runThrough source schedule).Ends ⟨xs, [], []⟩ (.ok ())
      ⟨xs.map (o.finished elements), [.all, .onlyRelations, .onlyWays, .all],
        (source.read .all true).batches.map fun batch =>
          xs.map fun x => (o.finished elements x).selected batch⟩ := by
  obtain ⟨survey, collected, first⟩ := o.endsFirstPass held schedule accepted xs
  have networked := Step.endsUpdate (·.addNetwork survey.memberships.graph) (o.found elements) xs [.all] []
  rw [collected] at networked
  have joined := endsPassAlways held schedule 2 .onlyRelations o.blindSystem
    (o.networked elements) xs [.all] []
  simp only [onlyRelationsOf, List.foldl_map] at joined
  have gathered := endsPassAlways held schedule 3 .onlyWays blindExtraWay (o.joined elements) xs
    [.all, .onlyRelations] []
  simp only [onlyWaysOf, List.foldl_map] at gathered
  have written := Step.endsWritten held schedule (o.gathered elements) xs
    [.all, .onlyRelations, .onlyWays] []
  refine (Step.endsNote _ _).bind ((Step.endsNote _ _).bind (first.bind ?_))
  rw [collected]
  refine (Step.endsNote _ _).bind (networked.bind (joined.bind (gathered.bind ?_)))
  exact (Step.endsNote _ _).bind (written.bind (Step.endsNote _ _))

end Delivered
end SystemOptions

open Classical in
theorem skippedPassesUnseen (o : SystemOptions) {source : Source} {elements : List Element}
    (held : source.Delivers elements) (accepted : InputOrder.Accepts elements)
    (xs : List Extract) (schedule turns : Schedule) :
    let run := (systems o).run source xs schedule
    let through := (o.runThrough source turns).outcome xs
    (run.result = .ok () ∧ through.result = .ok () ∧
      run.session.extracts = through.session.extracts ∧
      ∀ recipients, run.deliver recipients = through.deliver recipients) ∧
    (through.session.scans = [.all, .onlyRelations, .onlyWays, .all] ∧
      run.session.scans = [.all] ++
        (if HoldsExtra run.session.extracts .relation then [.onlyRelations] else []) ++
        (if HoldsExtra run.session.extracts .way then [.onlyWays] else []) ++ [.all]) ∧
    ∀ (scan : Scan) (order : Nat → List Nat) (ys : List Extract),
      (Pass.write.overScan order scan () ys).1.map Extract.of = ys.map Extract.of := by
  intro run through
  obtain ⟨succeeds, stands⟩ := (systems o).runEnds held schedule accepted xs
  obtain ⟨succeedsToo, standsToo⟩ := (o.endsThrough held turns accepted xs).outcome
  have extracts : run.session.extracts = xs.map (o.finished elements) :=
    congrArg Stand.extracts stands
  have same : run.session.extracts = through.session.extracts :=
    extracts.trans (congrArg Stand.extracts standsToo).symm
  have rounds : run.session.rounds = through.session.rounds :=
    (congrArg Stand.rounds stands).trans (congrArg Stand.rounds standsToo).symm
  refine ⟨⟨succeeds, succeedsToo, same, fun recipients => ?_⟩,
    ⟨congrArg Stand.scans standsToo, ?_⟩, Pass.writeKeepsSets⟩
  · have results : run.result = through.result := succeeds.trans succeedsToo.symm
    unfold Outcome.deliver
    rw [same, rounds, results]
  · rw [extracts, ← o.scansByEnd elements xs]
    exact congrArg Stand.scans stands

def routes : SystemOptions := { SystemOptions.defaults with relations := .parse "type:route" ':' }

theorem crossingSkips :
    let run := (systems routes).run (.inMemory crossing) [.start meridian]
    let through := (routes.runThrough (.inMemory crossing) .oneByOne).outcome [.start meridian]
    run.session.extracts = through.session.extracts ∧
      run.session.extracts.map idsOf = [[[1], [1], [1], [2, 3], [2], []]] ∧
      run.session.scans = [.all, .onlyWays, .all] ∧
      through.session.scans = [.all, .onlyRelations, .onlyWays, .all] := by
  have unseen := skippedPassesUnseen routes (deliversInMemory crossing) (by decide)
    [.start meridian] .oneByOne .oneByOne
  obtain ⟨⟨_, _, same, _⟩, ⟨all, _⟩, _⟩ := unseen
  exact ⟨same, by decide +kernel, by decide +kernel, all⟩

end Strategy
end Cutout
