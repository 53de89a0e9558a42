import Cutout.Proofs.Exactness
/-! The share of members that completes a relation. It never speaks for a relation without a member
inside, and a full share pulls nothing in. To ask for a larger share takes less: of one relation, of
a list of relations, and over a whole run. -/
namespace Cutout
open Strategy (isInside)

namespace Extract

theorem pullInIdle {x : Extract} {kind : Kind} {key : Nat}
    (primary : x.primary.contains kind key = true) : x.pullIn kind key = x := if_pos primary

theorem addMembersIdle {x : Extract} {r : Relation}
    (inside : ∀ m ∈ r.members, isInside x m = true) : x.addMembers r = x := by
  refine foldIdle fun m mem => ?_
  have primary := inside m mem
  rw [isInside, Bool.and_eq_true] at primary
  rw [pullInIdle primary.2, ite_self]

structure Within (x y : Extract) : Prop where
  holds : ∀ slot ∈ x, slot ∈ y
  written : x.written.toList.Sublist y.written.toList

end Extract

namespace Strategy.FirstNodeOptions
open Extract

section Relation
variable {o : FirstNodeOptions} {x : Extract} {r : Relation}

def findUnshared (o : FirstNodeOptions) (x : Extract) (r : Relation) : Extract :=
  if r.members.any (isInside x) then
    let y := x.addPrimary .relation r.key
    if o.acceptsType r && o.acceptsTags r then y.addMembers r else y
  else x

theorem countPosIff : 0 < r.members.countP (isInside x) ↔
    r.Touches (x.held .primary .node) (x.held .primary .way) := by
  rw [List.countP_pos_iff, ← List.any_eq_true, anyInsideIff]

theorem fullShareIff (percent : o.percent = 100) :
    o.acceptsShare r.members.length (r.members.countP (isInside x)) = true ↔
      ∀ m ∈ r.members, isInside x m = true := by
  have most := List.countP_le_length (p := isInside x) (l := r.members)
  rw [acceptsShare, percent, decide_eq_true_eq, ← List.countP_eq_length]
  omega

theorem settleNone (percent : 0 < o.percent) : o.settle r 0 x = x := by
  rw [settle, if_neg (Nat.lt_irrefl 0)]
  split
  · rename_i settles
    obtain ⟨_, ⟨inside, _⟩ | share⟩ := settles
    · exact absurd inside (Nat.lt_irrefl 0)
    · rw [acceptsShare, decide_eq_true_eq, Nat.zero_mul, Nat.le_zero, Nat.mul_eq_zero] at share
      have empty : r.members = [] := List.length_eq_zero_iff.mp (by omega)
      refine addMembersIdle ?_
      simp [empty]
  · rfl

theorem findUntouched (percent : 0 < o.percent)
    (untouched : ¬ r.Touches (x.held .primary .node) (x.held .primary .way)) :
    o.findRelation x r = x := by
  have none : r.members.countP (isInside x) = 0 := by
    rw [← countPosIff] at untouched
    omega
  rw [findRelationIs, none, settleNone percent]

theorem findTouched (touched : r.Touches (x.held .primary .node) (x.held .primary .way)) :
    ⟨.primary, .relation, r.key⟩ ∈ o.findRelation x r :=
  memFindRelation.mpr (.inr (.inl ⟨countPosIff.mpr touched, rfl⟩))

theorem findFull (percent : o.percent = 100) : o.findRelation x r = o.findUnshared x r := by
  have any : r.members.any (isInside x) = true ↔ 0 < r.members.countP (isInside x) := by
    rw [countPosIff, anyInsideIff]
  by_cases touched : 0 < r.members.countP (isInside x)
  · rw [findRelationIs, settle, findUnshared, if_pos touched, if_pos (any.mpr touched)]
    by_cases accepted : (o.acceptsType r && o.acceptsTags r) = true
    · rw [if_pos accepted, if_pos (settlesAtOnce touched accepted)]
    · rw [if_neg accepted]
      split
      · rename_i settles
        rw [settlesByShare fun _ => accepted, Bool.and_eq_true, fullShareIff percent] at settles
        -- All members are inside, so none is left to be pulled in.
        refine addMembersIdle fun m mem => ?_
        rw [insideAfter]
        exact settles.1 m mem
      · rfl
  · have none : r.members.countP (isInside x) = 0 := by omega
    rw [findRelationIs, none, settleNone (by omega), findUnshared, if_neg (mt any.mp touched)]

end Relation

structure AsksLess (o p : FirstNodeOptions) : Prop where
  types : p.types = o.types
  tags : p.tags = o.tags
  percent : o.percent ≤ p.percent

section Larger
variable {o p : FirstNodeOptions} (less : o.AsksLess p)
include less

theorem AsksLess.share {members inside : Nat} (enough : p.acceptsShare members inside = true) :
    o.acceptsShare members inside = true := by
  have cost : members * o.percent ≤ members * p.percent := Nat.mul_le_mul_left members less.percent
  rw [acceptsShare, decide_eq_true_eq] at enough ⊢
  omega

theorem AsksLess.settles {r : Relation} {inside : Nat} (settles : p.Settles r inside) :
    o.Settles r inside := by
  obtain ⟨tags, given⟩ := settles
  rw [acceptsTags, less.tags] at tags
  refine ⟨tags, ?_⟩
  rcases given with ⟨some, type⟩ | enough
  · rw [acceptsType, less.types] at type
    exact .inl ⟨some, type⟩
  · exact .inr (less.share enough)

theorem AsksLess.relations {relations : List Relation} {x : Extract} {slot : Slot}
    (held : slot ∈ relations.foldl p.findRelation x) : slot ∈ relations.foldl o.findRelation x := by
  rw [memFoldRelations] at held ⊢
  rcases held with known | ⟨r, mem, found | ⟨settles, pulled⟩⟩
  · exact .inl known
  · exact .inr ⟨r, mem, .inl found⟩
  · exact .inr ⟨r, mem, .inr ⟨less.settles settles, pulled⟩⟩

variable {region : Region} {elements : List Element}

theorem AsksLess.completes {r : Relation} (completes : p.Completes region elements r) :
    o.Completes region elements r := by
  obtain ⟨found, tags, accepted⟩ := completes
  rw [less.tags] at tags
  rw [less.types] at accepted
  have cost := Nat.mul_le_mul_right r.members.length less.percent
  exact ⟨found, tags, accepted.imp_right cost.trans⟩

theorem AsksLess.ways : p.extraWays region elements ⊆ o.extraWays region elements := by
  intro key extra
  obtain ⟨free, r, mem, completes, member⟩ := extra
  exact ⟨free, r, mem, less.completes completes, member⟩

theorem AsksLess.nodes : p.extraNodes region elements ⊆ o.extraNodes region elements := by
  intro key extra
  obtain ⟨free, ⟨r, mem, completes, member⟩ | ⟨w, mem, included, listed⟩⟩ := extra
  · exact ⟨free, .inl ⟨r, mem, less.completes completes, member⟩⟩
  · exact ⟨free, .inr ⟨w, mem, included.imp_right (less.ways ·), listed⟩⟩

theorem AsksLess.meanings {x y : Extract} (more : p.Meaning region elements x)
    (fewer : o.Meaning region elements y) : x.Within y := by
  have holds (part : Part) (kind : Kind) : ((x.of part).of kind).ids ⊆ ((y.of part).of kind).ids := by
    cases part with
    | primary =>
      cases kind with
      | node => exact (more.primaryNodes.trans fewer.primaryNodes.symm).le
      | way => exact (more.primaryWays.trans fewer.primaryWays.symm).le
      | relation => exact (more.primaryRelations.trans fewer.primaryRelations.symm).le
    | extra =>
      cases kind with
      | node => exact (more.extraNodes.le.trans less.nodes).trans fewer.extraNodes.ge
      | way => exact (more.extraWays.le.trans less.ways).trans fewer.extraWays.ge
      | relation => exact (more.extraRelations.trans fewer.extraRelations.symm).le
  refine ⟨fun slot held => holds slot.part slot.kind held, ?_⟩
  rw [more.written, fewer.written]
  refine List.monotone_filter_right elements fun e included => ?_
  rw [includesIff] at included ⊢
  exact included.imp (holds .primary e.kind ·) (holds .extra e.kind ·)

theorem AsksLess.extracts {regions : List Region} {xs ys : List Extract}
    (more : List.Forall₂ (fun region x => p.Meaning region elements x) regions xs)
    (fewer : List.Forall₂ (fun region y => o.Meaning region elements y) regions ys) :
    List.Forall₂ Extract.Within xs ys := by
  induction more generalizing ys with
  | nil =>
    cases fewer
    exact .nil
  | cons means _ ih =>
    cases fewer with
    | cons others rest => exact .cons (less.meanings means others) (ih rest)

end Larger

theorem runsWithin {source : Source} {elements : List Element} (held : source.Delivers elements)
    (accepted : InputOrder.Accepts elements) (options larger : Options)
    (less : (parse options).1.AsksLess (parse larger).1) (regions : List Region)
    (schedule : Schedule) :
    let extracts (options : Options) : List Extract :=
      ((firstNode (parse options).1).run source (regions.map .start) schedule).session.extracts
    List.Forall₂ Extract.Within (extracts larger) (extracts options) := by
  have more := ((firstNodeRunMeans held larger regions schedule).2 accepted).2
  have fewer := ((firstNodeRunMeans held options regions schedule).2 accepted).2
  exact less.extracts more fewer

theorem sharesExact (options : Options) :
    let o := (parse options).1
    (1 ≤ o.percent ∧ o.percent ≤ 100) ∧
    (∀ (x : Extract) (r : Relation),
      (¬ r.Touches (x.held .primary .node) (x.held .primary .way) → o.findRelation x r = x) ∧
      (r.Touches (x.held .primary .node) (x.held .primary .way) →
        ⟨.primary, .relation, r.key⟩ ∈ o.findRelation x r) ∧
      (o.percent = 100 → o.findRelation x r = o.findUnshared x r)) ∧
    ∀ larger : Options, o.AsksLess (parse larger).1 → ∀ (x : Extract) (relations : List Relation),
      ∀ slot ∈ relations.foldl (parse larger).1.findRelation x,
        slot ∈ relations.foldl o.findRelation x := by
  intro o
  have range : 1 ≤ o.percent ∧ o.percent ≤ 100 := parseRange options
  refine ⟨range, fun x r => ⟨?_, ?_, ?_⟩, ?_⟩
  · exact findUntouched range.1
  · exact findTouched
  · exact findFull
  · exact fun _ less x relations slot => less.relations

end Strategy.FirstNodeOptions
end Cutout
