import Cutout.Proofs.FiniteSets
import Cutout.Proofs.Meaning
import Cutout.Proofs.Slots
/-! Calls that pull in the nodes of ways and the members of relations. They add the ids that they name,
as far as these are not primary, and touch nothing else. So their order does not show, and a call that
was made before does nothing. -/
namespace Cutout

inductive Pull where
  | nodesOf (w : Way)
  | membersOf (r : Relation)
  deriving DecidableEq, Repr

def Pull.Names : Pull → Kind → Nat → Prop
  | nodesOf w, kind, key => kind = .node ∧ key ∈ w.nodeKeys
  | membersOf r, kind, key => kind ≠ .relation ∧ r.HasMember kind key

namespace Extract
variable {x : Extract} {kind : Kind} {key : Nat}

def pull (x : Extract) : Pull → Extract
  | .nodesOf w => x.addWayNodes w
  | .membersOf r => x.addMembers r

def pullAll (x : Extract) (calls : List Pull) : Extract := calls.foldl pull x

theorem pulledByNodes {w : Way} {slot : Slot} : x.PulledNodes w slot ↔
    ∃ kind key, (Pull.nodesOf w).Names kind key ∧ x.Pulled kind key slot := by
  constructor
  · intro pulled
    obtain ⟨key, listed, node⟩ := pulled
    exact ⟨.node, key, ⟨rfl, listed⟩, node⟩
  · intro named
    obtain ⟨_, key, ⟨rfl, listed⟩, node⟩ := named
    exact ⟨key, listed, node⟩

theorem pulledByMembers {r : Relation} {slot : Slot} : x.PulledMembers r slot ↔
    ∃ kind key, (Pull.membersOf r).Names kind key ∧ x.Pulled kind key slot := by
  constructor
  · intro pulled
    obtain ⟨m, listed, other, member⟩ := pulled
    exact ⟨m.kind, m.key, ⟨other, m, listed, rfl, rfl⟩, member⟩
  · intro named
    obtain ⟨_, _, ⟨other, m, listed, rfl, rfl⟩, member⟩ := named
    exact ⟨m, listed, other, member⟩

theorem memPull {call : Pull} {slot : Slot} : slot ∈ x.pull call ↔
    slot ∈ x ∨ ∃ kind key, call.Names kind key ∧ x.Pulled kind key slot := by
  cases call with
  | nodesOf w => rw [pull, memAddWayNodes, pulledByNodes]
  | membersOf r => rw [pull, memAddMembers, pulledByMembers]

def spared (x : Extract) : (Region × IdSets × Array Element) × IdSet := (x.base, x.extra.relations)

theorem sparedPullIn (x : Extract) (other : kind ≠ .relation) (key : Nat) :
    (x.pullIn kind key).spared = x.spared := by
  refine Prod.ext (x.basePullIn kind key) ?_
  rw [pullIn]
  split
  · rfl
  · exact (x.extra.ofInsert kind .relation key).trans (if_neg other.symm)

theorem sparedPull (x : Extract) (call : Pull) : (x.pull call).spared = x.spared := by
  cases call with
  | nodesOf w => exact foldKeeps (fun x key => x.sparedPullIn (by decide) key) w.nodeKeys x
  | membersOf r =>
    refine foldKeeps (fun x m => ?_) r.members x
    split
    · rfl
    · rename_i other
      exact x.sparedPullIn other m.key

theorem basePull (x : Extract) (call : Pull) : (x.pull call).base = x.base :=
  congrArg Prod.fst (x.sparedPull call)

theorem pullInKnown (known : x.includes kind key = true) : x.pullIn kind key = x := by
  rw [pullIn]
  split
  · rfl
  · rename_i free
    have extra : x.extra.contains kind key = true := by
      rw [includes, Bool.or_eq_true] at known
      exact known.resolve_left free
    rw [IdSets.insertKnown extra]

theorem pullKnown {call : Pull}
    (known : ∀ kind key, call.Names kind key → x.includes kind key = true) : x.pull call = x := by
  cases call with
  | nodesOf w => exact foldIdle fun key listed => pullInKnown (known .node key ⟨rfl, listed⟩)
  | membersOf r =>
    refine foldIdle fun m listed => ?_
    split
    · rfl
    · rename_i other
      exact pullInKnown (known m.kind m.key ⟨other, m, listed, rfl, rfl⟩)

theorem sparedPullAll (x : Extract) (calls : List Pull) : (x.pullAll calls).spared = x.spared :=
  foldKeeps sparedPull calls x

theorem memPullAll {calls : List Pull} {slot : Slot} : slot ∈ x.pullAll calls ↔
    slot ∈ x ∨ ∃ call ∈ calls, ∃ kind key, call.Names kind key ∧ x.Pulled kind key slot :=
  memFold (fun x (call : Pull) slot => ∃ kind key, call.Names kind key ∧ x.Pulled kind key slot)
    (fun _ _ _ => memPull) (fun x call _ _ => by simp only [pulledCongr (x.basePull call)])
    calls x slot

def named (calls : List Pull) (kind : Kind) : Set Nat := {key | ∃ call ∈ calls, call.Names kind key}

theorem extraPullAll (x : Extract) (calls : List Pull) (kind : Kind) :
    ((x.pullAll calls).extra.of kind).ids =
      (x.extra.of kind).ids ∪ (named calls kind \ (x.primary.of kind).ids) := by
  ext key
  have gained : ⟨.extra, kind, key⟩ ∈ x.pullAll calls ↔ _ := memPullAll
  refine gained.trans (or_congr_right ?_)
  constructor
  · intro pulled
    obtain ⟨call, mem, _, _, names, same, free⟩ := pulled
    cases same
    exact ⟨⟨call, mem, names⟩, free⟩
  · intro pulled
    obtain ⟨⟨call, mem, names⟩, free⟩ := pulled
    exact ⟨call, mem, kind, key, names, rfl, free⟩

theorem namedIncluded {calls : List Pull} {call : Pull} (mem : call ∈ calls)
    (names : call.Names kind key) : (x.pullAll calls).includes kind key = true := by
  rw [includesIff, memPullAll, memPullAll]
  by_cases primary : ⟨.primary, kind, key⟩ ∈ x
  · exact .inl (.inl primary)
  · exact .inr (.inr ⟨call, mem, kind, key, names, rfl, primary⟩)

theorem pullAgain {calls again : List Pull} (known : ∀ call ∈ again, call ∈ calls) :
    (x.pullAll calls).pullAll again = x.pullAll calls :=
  foldIdle fun call mem => pullKnown fun _ _ names => namedIncluded (known call mem) names

structure Alike (x y : Extract) : Prop where
  base : y.base = x.base
  extra : ∀ kind, ∃ ids : Finset Nat, (x.extra.of kind).Refines ids ∧ (y.extra.of kind).Refines ids

theorem alikeOfNamed {calls others : List Pull} (same : named others = named calls) :
    (x.pullAll calls).Alike (x.pullAll others) := by
  refine ⟨?_, fun kind => ?_⟩
  · have before := congrArg Prod.fst (x.sparedPullAll calls)
    exact (congrArg Prod.fst (x.sparedPullAll others)).trans before.symm
  · have ids : ((x.pullAll calls).extra.of kind).ids = ((x.pullAll others).extra.of kind).ids := by
      rw [extraPullAll, extraPullAll, same]
    exact IdSet.refinesBoth (Set.ext_iff.mp ids)

theorem pullsOrderFree (x : Extract) (calls : List Pull) :
    let y := x.pullAll calls
    y.extra.nodes.ids = x.extra.nodes.ids ∪ (named calls .node \ x.primary.nodes.ids) ∧
    y.extra.ways.ids = x.extra.ways.ids ∪ (named calls .way \ x.primary.ways.ids) ∧
    (y.primary = x.primary ∧ y.extra.relations = x.extra.relations ∧ y.region = x.region ∧
      y.written = x.written) ∧
    (∀ again : List Pull, (∀ call ∈ again, call ∈ calls) → y.pullAll again = y) ∧
    ∀ others : List Pull, (∀ call, call ∈ others ↔ call ∈ calls) → y.Alike (x.pullAll others) := by
  intro y
  have spared : y.spared = x.spared := x.sparedPullAll calls
  have base : y.base = x.base := congrArg Prod.fst spared
  have frame : y.frame = x.frame := frameOfBase base
  refine ⟨x.extraPullAll calls .node, x.extraPullAll calls .way, ⟨primaryOfBase base,
    congrArg Prod.snd spared, regionOfFrame frame, writtenOfFrame frame⟩,
    fun again known => pullAgain known, fun others same => alikeOfNamed ?_⟩
  funext kind
  simp only [named, same]

example :
    let x := (start (.ofRules (fun _ => false) ∅ ∅)).addPrimary .node 1
    let members : List Member := [⟨.node, -2, ""⟩, ⟨.way, 7, ""⟩, ⟨.relation, 9, ""⟩]
    let y := x.pullAll [.nodesOf ⟨5, [-1, 2, 2], [], none⟩, .membersOf ⟨6, members, [], none⟩]
    (y.extra.nodes.toList, y.extra.ways.toList, y.extra.relations.toList) = ([2], [7], []) := by
  decide +kernel

end Extract
end Cutout
