import Cutout.Proofs.Agreement
import Cutout.Proofs.Areas
/-! How what is included follows the test of ways. Relation systems with a stricter test include no
more. The test by first nodes is stricter than the test by any node where no way is taken for its
tags alone. -/
namespace Cutout.Strategy
namespace SystemOptions
variable {o p : SystemOptions} {region : Region} {elements : List Element}

structure Stricter (o p : SystemOptions) (region : Region) : Prop where
  relations : p.relations = o.relations
  systems : p.systems = o.systems
  takes : ∀ (nodes : Set Nat) (w : Way), o.TakesWay region nodes w → p.TakesWay region nodes w

theorem stricterByFirstNode (o : SystemOptions)
    (unmatched : ∀ tags, region.matching tags = false) :
    { o with byFirstNode := true }.Stricter { o with byFirstNode := false } region := by
  refine ⟨rfl, rfl, fun nodes w takes => ?_⟩
  have starts : region.StartsWay nodes w := takes
  rcases starts with ⟨⟨ref, first, inside⟩, _⟩ | matching
  · exact ⟨ref, List.mem_of_mem_head? first, inside⟩
  · rw [unmatched] at matching
    exact absurd matching Bool.false_ne_true

section Stricter
variable (stricter : o.Stricter p region)
include stricter

theorem Stricter.selects (r : Relation) : p.isRelevant r = o.isRelevant r := by
  rw [isRelevant, isRelevant, stricter.relations]

theorem Stricter.partOfSystem : p.isPartOfSystem = o.isPartOfSystem := by
  funext r
  rw [isPartOfSystem, isPartOfSystem, stricter.systems]

theorem Stricter.primaryWays :
    o.primaryWays region elements ⊆ p.primaryWays region elements := by
  intro key primary
  obtain ⟨w, mem, takes, same⟩ := primary
  exact ⟨w, mem, stricter.takes _ w takes, same⟩

theorem Stricter.finds {r : Relation} (finds : o.Finds region elements r) :
    p.Finds region elements r := by
  obtain ⟨m, listed, inside⟩ := finds
  exact ⟨m, listed, isOfWider subset_rfl stricter.primaryWays inside⟩

variable {x y : Extract} (few : o.Meaning region elements x) (more : p.Meaning region elements y)
include few more

theorem Stricter.relationsIncluded : x.included .relation ⊆ y.included .relation := by
  intro key included
  obtain ⟨found, ⟨r, mem, finds, same⟩, path⟩ := (memRelations few).mp included
  refine (memRelations more).mpr ⟨found, ⟨r, mem, stricter.finds finds, same⟩, ?_⟩
  rw [systemRelations, stricter.partOfSystem]
  exact path

variable (relations : RelationsApart elements)
include relations

theorem Stricter.completes {r : Relation} (mem : .relation r ∈ elements)
    (completes : o.Completes region elements r) : p.Completes region elements r := by
  -- A relation may be found by the one test and be pulled in by a network under the other; it is
  -- completed all the same.
  rw [completesIff more relations mem, stricter.selects, stricter.partOfSystem]
  rcases (completesIff few relations mem).mp completes with ⟨finds, relevant⟩ | ⟨included, system⟩
  · exact .inl ⟨stricter.finds finds, relevant⟩
  · exact .inr ⟨stricter.relationsIncluded few more included, system⟩

theorem Stricter.members {kind : Kind} {key : Nat}
    (member : ∃ r, .relation r ∈ elements ∧ o.Completes region elements r ∧ r.HasMember kind key) :
    ∃ r, .relation r ∈ elements ∧ p.Completes region elements r ∧ r.HasMember kind key := by
  obtain ⟨r, mem, completes, listed⟩ := member
  exact ⟨r, mem, stricter.completes few more relations mem completes, listed⟩

theorem Stricter.waysIncluded : x.included .way ⊆ y.included .way := by
  intro key included
  rcases (memWays few).mp included with primary | member
  · exact (memWays more).mpr (.inl (stricter.primaryWays primary))
  · exact (memWays more).mpr (.inr (stricter.members few more relations member))

theorem Stricter.nodesIncluded (ways : WaysApart elements) :
    x.included .node ⊆ y.included .node := by
  intro key included
  rw [memNodes few ways] at included
  rw [memNodes more ways]
  rcases included with inside | member | ⟨w, mem, taken, listed⟩
  · exact .inl inside
  · exact .inr (.inl (stricter.members few more relations member))
  · exact .inr (.inr ⟨w, mem, stricter.waysIncluded few more relations taken, listed⟩)

theorem Stricter.included (ways : WaysApart elements) (kind : Kind) :
    x.included kind ⊆ y.included kind := by
  cases kind with
  | node => exact stricter.nodesIncluded few more relations ways
  | way => exact stricter.waysIncluded few more relations
  | relation => exact stricter.relationsIncluded few more

theorem Stricter.written (ways : WaysApart elements) :
    x.written.toList.Sublist y.written.toList := by
  rw [few.written, more.written]
  refine List.monotone_filter_right elements fun e taken => ?_
  exact stricter.included few more relations ways e.kind taken

end Stricter
end SystemOptions

theorem firstNodesIncludeLess {source : Source} {elements : List Element} (o : SystemOptions)
    (held : source.Delivers elements) (accepted : InputOrder.Accepts elements)
    (ways : WaysApart elements) (relations : RelationsApart elements) {region : Region}
    (unmatched : ∀ tags, region.matching tags = false) :
    (systems { o with byFirstNode := true }).Gives source region fun x =>
      (systems { o with byFirstNode := false }).Gives source region fun y =>
        (∀ kind, x.included kind ⊆ y.included kind) ∧
          x.written.toList.Sublist y.written.toList := by
  have stricter := SystemOptions.stricterByFirstNode o unmatched
  refine givesFinished _ held accepted (givesFinished _ held accepted ⟨?_, ?_⟩)
  · exact stricter.included SystemOptions.finishedMeaning SystemOptions.finishedMeaning relations ways
  · exact stricter.written SystemOptions.finishedMeaning SystemOptions.finishedMeaning relations ways

theorem eastByFirstNodes :
    let byFirst (first : Bool) : SystemOptions := { networks with byFirstNode := first }
    let found (o : SystemOptions) :=
      ((systems o).run (.inMemory crossing) [.start east]).session.extracts.map idsOf
    ((systems (byFirst true)).Gives (.inMemory crossing) east fun x =>
      (systems (byFirst false)).Gives (.inMemory crossing) east fun y =>
        (∀ kind, x.included kind ⊆ y.included kind) ∧
          x.written.toList.Sublist y.written.toList) ∧
    found (byFirst true) = [[[2, 3], [2], [1, 2], [1], [1], []]] ∧
      found (byFirst false) = [[[2, 3], [1, 2], [1, 2], [1], [], []]] := by
  have unmatched : ∀ tags, east.matching tags = false := TagRules.noneMatches
  have less := firstNodesIncludeLess networks (deliversInMemory crossing) (by decide)
    (waysApartOfNodup (by decide)) (relationsApartOfNodup (by decide)) unmatched
  exact ⟨less, by decide +kernel, by decide +kernel⟩

example :
    let tagged : List Element := [.way ⟨1, [1], [("bridge", "yes")], none⟩]
    let region : Region := .ofRules (fun _ => false) ∅ (.parse "bridge" ':')
    let found (first : Bool) := ((systems { networks with byFirstNode := first }).run
      (.inMemory tagged) [.start region]).session.extracts.map idsOf
    found true = [[[], [1], [], [1], [], []]] ∧ found false = [[[], [], [], [], [], []]] := by
  decide +kernel

end Cutout.Strategy
