import Cutout.Proofs.Meaning
/-! Which inputs a first pass accepts: those sorted by kind and id whose ids all fit into id sets. The
check holds each element against the one before it; since the order is transitive, that settles all
pairs. -/
namespace Cutout

def IdsInOrder (a b : Int) : Prop :=
  (a ≤ 0 ∧ 0 < b) ∨ ((0 < a ↔ 0 < b) ∧ a.natAbs ≤ b.natAbs)

instance (a b : Int) : Decidable (IdsInOrder a b) := by
  unfold IdsInOrder
  infer_instance

def InOrder (a b : Kind × Int) : Prop :=
  a.1.rank < b.1.rank ∨ (a.1 = b.1 ∧ IdsInOrder a.2 b.2)

instance (a b : Kind × Int) : Decidable (InOrder a b) := by
  unfold InOrder
  infer_instance

theorem InOrder.trans {a b c : Kind × Int} (first : InOrder a b) (second : InOrder b c) :
    InOrder a c := by
  obtain ⟨kindA, idA⟩ := a
  obtain ⟨kindB, idB⟩ := b
  obtain ⟨kindC, idC⟩ := c
  simp only [InOrder, IdsInOrder] at first second ⊢
  rcases first with first | ⟨rfl, first⟩
  · rcases second with second | ⟨rfl, second⟩
    · exact .inl (Nat.lt_trans first second)
    · exact .inl first
  · rcases second with second | ⟨rfl, second⟩
    · exact .inl second
    · exact .inr ⟨rfl, by omega⟩

def Element.place (e : Element) : Kind × Int := (e.kind, e.id)

def Element.Fits (e : Element) : Prop :=
  e.id.natAbs ≤ maxId ∧ ∀ named ∈ InputOrder.references e, named.2.natAbs ≤ maxId

instance (e : Element) : Decidable e.Fits := by
  unfold Element.Fits
  infer_instance

namespace InputOrder

def Admits (o : InputOrder) (place : Kind × Int) : Prop :=
  ∀ last, o.last = some last → InOrder last place

structure Accepts (elements : List Element) : Prop where
  sorted : elements.Pairwise fun a b => InOrder a.place b.place
  fits : ∀ e ∈ elements, e.Fits

instance (elements : List Element) : Decidable (Accepts elements) :=
  decidable_of_iff (elements.Pairwise (fun a b => InOrder a.place b.place) ∧ ∀ e ∈ elements, e.Fits)
    ⟨fun ⟨sorted, fits⟩ => ⟨sorted, fits⟩, fun ⟨sorted, fits⟩ => ⟨sorted, fits⟩⟩

theorem checkRangeIff {kind : Kind} {id : Int} :
    checkRange kind id = .ok () ↔ id.natAbs ≤ maxId := by
  rw [checkRange]
  split <;> simp_all

theorem idBeforeIff {a b : Int} : idBefore b a = false ↔ IdsInOrder a b := by
  simp only [idBefore, IdsInOrder, Bool.or_eq_false_iff, Bool.and_eq_false_iff,
    Bool.not_eq_false', decide_eq_true_eq, decide_eq_false_iff_not, beq_eq_false_iff_ne, ne_eq,
    decide_eq_decide]
  omega

theorem rankEq {a b : Kind} (same : a.rank = b.rank) : a = b := by
  cases a <;> cases b <;> first | rfl | cases same

theorem acceptsIff {o : InputOrder} {kind : Kind} {id : Int} :
    o.accepts kind id = .ok () ↔ o.Admits (kind, id) := by
  obtain ⟨last⟩ := o
  cases last with
  | none => simp [accepts, Admits]
  | some last =>
    obtain ⟨lastKind, lastId⟩ := last
    simp only [accepts, Admits, Option.some.injEq, forall_eq', InOrder]
    split
    · rename_i back
      have other : lastKind ≠ kind := fun same => by simp [same] at back
      simp [other]
      omega
    · rename_i forth
      split
      · rename_i before
        rw [Bool.and_eq_true, decide_eq_true_eq] at before
        have late : ¬ IdsInOrder lastId id := by
          rw [← idBeforeIff, before.2]
          simp
        simp [before.1, late]
      · rename_i free
        simp only [true_iff]
        by_cases same : lastKind = kind
        · refine .inr ⟨same, idBeforeIff.mp ?_⟩
          simpa [same] using free
        · refine .inl (Nat.lt_of_le_of_ne (Nat.not_lt.mp forth) fun equal => same (rankEq equal))

theorem checkIff {o : InputOrder} {kind : Kind} {id : Int} {after : InputOrder} :
    o.check kind id = (.ok (), after) ↔
      (id.natAbs ≤ maxId ∧ o.Admits (kind, id)) ∧ after = ⟨some (kind, id)⟩ := by
  rw [check, ← checkRangeIff, ← acceptsIff (o := o)]
  cases range : checkRange kind id with
  | error fault => simp
  | ok =>
    cases order : o.accepts kind id with
    | error fault => simp
    | ok => simp [eq_comm]

theorem checkReferencesIff {named : List (Kind × Int)} :
    checkReferences named = .ok () ↔ ∀ place ∈ named, place.2.natAbs ≤ maxId := by
  induction named with
  | nil => simp [checkReferences]
  | cons place rest ih =>
    obtain ⟨kind, id⟩ := place
    have own : checkRange kind id = .ok () ↔ id.natAbs ≤ maxId := checkRangeIff
    rw [List.forall_mem_cons, ← ih, ← own, checkReferences]
    cases checkRange kind id with
    | error fault => simp [bind, Except.bind]
    | ok => simp [bind, Except.bind]

theorem checkElementIff {o : InputOrder} {e : Element} {after : InputOrder} :
    o.checkElement e = (.ok (), after) ↔
      (e.Fits ∧ o.Admits e.place) ∧ after = ⟨some e.place⟩ := by
  rw [checkElement]
  cases own : o.check e.kind e.id with
  | mk result next =>
    cases result with
    | error fault =>
      have refused : ¬ (e.id.natAbs ≤ maxId ∧ o.Admits e.place) := fun passes => by
        have passed := checkIff.mpr ⟨passes, rfl⟩
        rw [own] at passed
        cases passed
      simp only [Prod.mk.injEq, reduceCtorEq, false_and, false_iff, Element.Fits]
      tauto
    | ok =>
      obtain ⟨⟨range, admitted⟩, rfl⟩ := checkIff.mp own
      have admitted : o.Admits e.place := admitted
      rw [Prod.mk.injEq, checkReferencesIff, Element.Fits, and_iff_left admitted,
        and_iff_right range, eq_comm (b := after)]
      exact Iff.rfl

end InputOrder

namespace Strategy.Survey

variable {counts : Relation → Bool}

theorem observeIff {s after : Survey} {e : Element} : s.observe counts e = .ok after ↔
    (e.Fits ∧ s.order.Admits e.place) ∧
      after = ⟨⟨some e.place⟩, ((relationsOf [e]).filter counts).foldl .add s.memberships⟩ := by
  rw [observe]
  cases checked : s.order.checkElement e with
  | mk result next =>
    cases result with
    | error fault =>
      have refused : ¬ (e.Fits ∧ s.order.Admits e.place) := fun passes => by
        have passed := InputOrder.checkElementIff.mpr ⟨passes, rfl⟩
        rw [checked] at passed
        cases passed
      simp [refused]
    | ok =>
      obtain ⟨passes, rfl⟩ := InputOrder.checkElementIff.mp checked
      have same {a b : Survey} : (Except.ok a : Except Fault Survey) = .ok b ↔ b = a := by
        rw [Except.ok.injEq, eq_comm]
      rw [and_iff_right passes]
      cases e with
      | node n => exact same
      | way w => exact same
      | relation r =>
        have grown : ((relationsOf [.relation r]).filter counts).foldl .add s.memberships =
            if counts r then s.memberships.add r else s.memberships := by
          by_cases counted : counts r = true <;> simp [relationsOf, counted]
        rw [grown]
        exact same

theorem observeAll {elements : List Element} {s : Survey} :
    (∃ after, elements.foldlM (observe counts) s = .ok after) ↔
      InputOrder.Accepts elements ∧ ∀ e ∈ elements, s.order.Admits e.place := by
  induction elements generalizing s with
  | nil => exact iff_of_true ⟨s, rfl⟩ ⟨⟨.nil, by simp⟩, by simp⟩
  | cons e rest ih =>
    rw [List.foldlM_cons]
    constructor
    · intro ⟨after, accepted⟩
      cases first : s.observe counts e with
      | error fault => simp [first, bind, Except.bind] at accepted
      | ok next =>
        rw [first] at accepted
        obtain ⟨tail, behind⟩ := ih.mp ⟨after, accepted⟩
        obtain ⟨⟨fits, admitted⟩, rfl⟩ := observeIff.mp first
        have ordered : ∀ f ∈ rest, InOrder e.place f.place := fun f mem => behind f mem _ rfl
        refine ⟨⟨List.pairwise_cons.mpr ⟨ordered, tail.sorted⟩,
          List.forall_mem_cons.mpr ⟨fits, tail.fits⟩⟩, List.forall_mem_cons.mpr ⟨admitted, ?_⟩⟩
        intro f mem last recorded
        exact (admitted last recorded).trans (ordered f mem)
    · intro ⟨accepted, admitted⟩
      obtain ⟨ordered, sorted⟩ := List.pairwise_cons.mp accepted.sorted
      obtain ⟨fits, others⟩ := List.forall_mem_cons.mp accepted.fits
      have passes : e.Fits ∧ s.order.Admits e.place :=
        ⟨fits, (List.forall_mem_cons.mp admitted).1⟩
      rw [observeIff.mpr ⟨passes, rfl⟩]
      refine ih.mpr ⟨⟨sorted, others⟩, fun f mem last recorded => ?_⟩
      cases recorded
      exact ordered f mem

theorem membershipsOfObserved {elements : List Element} {s after : Survey}
    (accepted : elements.foldlM (observe counts) s = .ok after) :
    after.memberships = ((relationsOf elements).filter counts).foldl .add s.memberships := by
  induction elements generalizing s with
  | nil =>
    cases accepted
    rfl
  | cons e rest ih =>
    rw [List.foldlM_cons] at accepted
    cases first : s.observe counts e with
    | error fault => simp [first, bind, Except.bind] at accepted
    | ok next =>
      rw [first] at accepted
      have single : relationsOf (e :: rest) = relationsOf [e] ++ relationsOf rest := by
        simp only [relationsOf, ← List.filterMap_append, List.singleton_append]
      rw [ih accepted, (observeIff.mp first).2, single, List.filter_append, List.foldl_append]

theorem observeStart {elements : List Element} :
    (∃ after, elements.foldlM (observe counts) start = .ok after) ↔
      InputOrder.Accepts elements := by
  rw [observeAll, and_iff_left]
  intro e mem last recorded
  cases recorded

end Strategy.Survey

theorem noNodesLater {elements : List Element} (later : ∀ e ∈ elements, 1 ≤ e.kind.rank) :
    nodesOf elements = [] := by
  refine List.eq_nil_iff_forall_not_mem.mpr fun n mem => ?_
  exact absurd (later _ (memNodesOf.mp mem)) (Nat.not_succ_le_self 0)

theorem noWaysLater {elements : List Element} (later : ∀ e ∈ elements, 2 ≤ e.kind.rank) :
    waysOf elements = [] := by
  refine List.eq_nil_iff_forall_not_mem.mpr fun w mem => ?_
  exact absurd (later _ (memWaysOf.mp mem)) (Nat.not_succ_le_self 1)

theorem InputOrder.Accepts.byKind {elements : List Element} (accepted : Accepts elements) :
    elements = (nodesOf elements).map .node ++
      ((waysOf elements).map .way ++ (relationsOf elements).map .relation) := by
  have sorted := accepted.sorted
  clear accepted
  induction elements with
  | nil => rfl
  | cons e rest ih =>
    obtain ⟨behind, sorted⟩ := List.pairwise_cons.mp sorted
    have later : ∀ f ∈ rest, e.kind.rank ≤ f.kind.rank := by
      intro f mem
      rcases behind f mem with less | ⟨same, _⟩
      · exact Nat.le_of_lt less
      · exact Nat.le_of_eq (congrArg Kind.rank same)
    have ih := ih sorted
    cases e with
    | node n => exact congrArg (Element.node n :: ·) ih
    | way w =>
      have noNodes : nodesOf rest = [] := noNodesLater later
      have before : nodesOf (.way w :: rest) = [] := noNodes
      rw [noNodes] at ih
      rw [before]
      exact congrArg (Element.way w :: ·) ih
    | relation r =>
      have noWays : waysOf rest = [] := noWaysLater later
      have noNodes : nodesOf rest = [] :=
        noNodesLater fun f mem => Nat.le_of_succ_le (later f mem)
      have before : nodesOf (.relation r :: rest) = [] := noNodes
      have between : waysOf (.relation r :: rest) = [] := noWays
      rw [noNodes, noWays] at ih
      rw [before, between]
      exact congrArg (Element.relation r :: ·) ih

theorem InputOrder.Accepts.foldByKind {elements : List Element} (accepted : Accepts elements)
    {α : Type} (f : α → Element → α) (a : α) : elements.foldl f a =
      (relationsOf elements).foldl (fun a r => f a (.relation r))
        ((waysOf elements).foldl (fun a w => f a (.way w))
          ((nodesOf elements).foldl (fun a n => f a (.node n)) a)) := by
  conv_lhs => rw [accepted.byKind]
  rw [List.foldl_append, List.foldl_append, List.foldl_map, List.foldl_map, List.foldl_map]

theorem onlyWaysOf (elements : List Element) :
    elements.filter (fun e => Kinds.onlyWays.contains e.kind) = (waysOf elements).map .way := by
  induction elements with
  | nil => rfl
  | cons e rest ih =>
    cases e with
    | node n => exact ih
    | way w => exact congrArg (Element.way w :: ·) ih
    | relation r => exact ih

theorem onlyRelationsOf (elements : List Element) :
    elements.filter (fun e => Kinds.onlyRelations.contains e.kind) =
      (relationsOf elements).map .relation := by
  induction elements with
  | nil => rfl
  | cons e rest ih =>
    cases e with
    | node n => exact ih
    | way w => exact ih
    | relation r => exact congrArg (Element.relation r :: ·) ih

end Cutout
