import Cutout.Proofs.Runs
/-! Runs over regions leave just what the input means for each of them, whichever source delivers the
input, however it is cut into batches and in whichever turns the extracts see a batch. -/
namespace Cutout.Strategy

namespace FirstNodeOptions

theorem parsePercentRange (value : String) : 1 ≤ parsePercent value ∧ parsePercent value ≤ 100 := by
  rw [parsePercent]
  split
  · split
    · omega
    · simp
  · simp

theorem takeRange {o : FirstNodeOptions × List Note} (range : 1 ≤ o.1.percent ∧ o.1.percent ≤ 100)
    (entry : String × String) :
    1 ≤ (take o entry).1.percent ∧ (take o entry).1.percent ≤ 100 := by
  obtain ⟨key, value⟩ := entry
  unfold take
  dsimp only
  split
  · exact range
  · split
    · exact range
    · exact parsePercentRange value
  · exact range
  · exact range

theorem parseRange (options : Options) :
    1 ≤ (parse options).1.percent ∧ (parse options).1.percent ≤ 100 := by
  have range (entries : List (String × String)) (o : FirstNodeOptions × List Note)
      (before : 1 ≤ o.1.percent ∧ o.1.percent ≤ 100) :
      1 ≤ (entries.foldl take o).1.percent ∧ (entries.foldl take o).1.percent ≤ 100 := by
    induction entries generalizing o with
    | nil => exact before
    | cons entry rest ih => exact ih _ (takeRange before entry)
  exact range options.entries (defaults, []) ⟨by decide, by decide⟩

end FirstNodeOptions

/-! A way that leaves the region, a route that it shares with a way further out, and a relation over
that route. -/

def crossing : List Element := [
  .node ⟨1, ⟨0, 0⟩, [], none⟩, .node ⟨2, ⟨1, 0⟩, [], none⟩, .node ⟨3, ⟨1, 0⟩, [], none⟩,
  .way ⟨1, [1, 2], [], none⟩, .way ⟨2, [2, 3], [], none⟩,
  .relation ⟨1, [⟨.way, 1, ""⟩, ⟨.way, 2, ""⟩], [("type", "route")], none⟩,
  .relation ⟨2, [⟨.relation, 1, ""⟩, ⟨.way, 2, ""⟩], [("type", "network")], none⟩]

def meridian : Region := .ofRules (fun place => place.lon == 0) ∅ ∅

def networks : SystemOptions := { SystemOptions.defaults with systems := .parse "type" ':' }

def halfRoutes : Options := .ofEntries [("complete-partial-relations", "50"), ("tags", "type=route")]

def idsOf (x : Extract) : List (List Nat) :=
  Kind.all.map (fun kind => (x.primary.of kind).toList) ++
    Kind.all.map fun kind => (x.extra.of kind).toList

section Exact
variable {source : Source} {elements : List Element}

theorem systemsRunMeans (held : source.Delivers elements) (o : SystemOptions) (regions : List Region)
    (schedule : Schedule) :
    let outcome := (systems o).run source (regions.map .start) schedule
    (outcome.result = .ok () ↔ InputOrder.Accepts elements) ∧
      (InputOrder.Accepts elements →
        outcome.Leaves regions fun region x => o.Meaning region elements x) := by
  refine ⟨runSucceeds (systems o) held schedule _, fun accepted => ?_⟩
  exact leavesFinished (systems o) held schedule accepted regions fun region => o.finishedMeaning

theorem crossingNetworks :
    let outcome := (systems networks).run (.inMemory crossing) ([meridian].map .start)
    (outcome.Leaves [meridian] fun region x => networks.Meaning region crossing x) ∧
      outcome.session.extracts.map idsOf = [[[1], [1], [1], [2, 3], [2], [2]]] :=
  ⟨(systemsRunMeans (deliversInMemory crossing) networks [meridian] .oneByOne).2 (by decide),
    by decide +kernel⟩

theorem firstNodeRunMeans (held : source.Delivers elements) (options : Options)
    (regions : List Region) (schedule : Schedule) :
    let o := (FirstNodeOptions.parse options).1
    let outcome := (firstNode o).run source (regions.map .start) schedule
    (outcome.result = .ok () ↔ InputOrder.Accepts elements) ∧
      (InputOrder.Accepts elements →
        outcome.Leaves regions fun region x => o.Meaning region elements x) := by
  intro o outcome
  refine ⟨runSucceeds (firstNode o) held schedule _, fun accepted => ?_⟩
  have percent : 0 < o.percent := (FirstNodeOptions.parseRange options).1
  exact leavesFinished (firstNode o) held schedule accepted regions fun region =>
    o.finishedMeaning percent

theorem crossingHalfRoutes :
    let outcome := (firstNode (FirstNodeOptions.parse halfRoutes).1).run (.inMemory crossing)
      ([meridian].map .start)
    (outcome.Leaves [meridian] fun region x =>
      (FirstNodeOptions.parse halfRoutes).1.Meaning region crossing x) ∧
        outcome.session.extracts.map idsOf = [[[1], [1], [1, 2], [2, 3], [2], []]] :=
  ⟨(firstNodeRunMeans (deliversInMemory crossing) halfRoutes [meridian] .oneByOne).2 (by decide),
    by decide +kernel⟩

end Exact
end Cutout.Strategy
