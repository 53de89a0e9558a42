import Cutout.Proofs.Hooks
import Cutout.Proofs.Sorted
/-! Calls that put an id into a set. All that an operation does to the sets of an extract is to make
such calls, with ids that it is shown: those of an element that fits, and of the membership graph. -/
namespace Cutout

def Slot.put (sets : Part → IdSets) (call : Slot) : Part → IdSets := fun part =>
  if part = call.part then (sets part).insert call.kind call.key else sets part

def Slot.HeldBy (slot : Slot) (sets : Part → IdSets) : Prop :=
  (sets slot.part).contains slot.kind slot.key = true

theorem heldPut {sets : Part → IdSets} {call slot : Slot} :
    slot.HeldBy (call.put sets) ↔ slot.HeldBy sets ∨ slot = call := by
  obtain ⟨part, kind, key⟩ := slot
  obtain ⟨callPart, callKind, callKey⟩ := call
  unfold Slot.HeldBy Slot.put
  by_cases same : part = callPart
  · simp [same]
  · simp [same]

theorem heldPutAll {calls : List Slot} {sets : Part → IdSets} {slot : Slot} :
    slot.HeldBy (calls.foldl Slot.put sets) ↔ slot.HeldBy sets ∨ slot ∈ calls := by
  induction calls generalizing sets with
  | nil => simp
  | cons call calls ih =>
    rw [List.foldl_cons, ih, heldPut, List.mem_cons, or_assoc]

namespace Extract

def Fills (x y : Extract) : Prop :=
  ∃ calls : List Slot, (∀ call ∈ calls, call.key ≤ maxId) ∧ calls.foldl Slot.put x.of = y.of

theorem fillsSame {x y : Extract} (same : y.of = x.of) : x.Fills y :=
  ⟨[], by simp, same.symm⟩

theorem Fills.trans {x y z : Extract} (first : x.Fills y) (second : y.Fills z) : x.Fills z := by
  obtain ⟨calls, fit, ends⟩ := first
  obtain ⟨more, fitToo, endsToo⟩ := second
  refine ⟨calls ++ more, ?_, by rw [List.foldl_append, ends, endsToo]⟩
  intro call mem
  rcases List.mem_append.mp mem with mem | mem
  · exact fit call mem
  · exact fitToo call mem

theorem fillsFold {α : Type} {f : Extract → α → Extract} {items : List α}
    (step : ∀ (x : Extract), ∀ a ∈ items, x.Fills (f x a)) (x : Extract) :
    x.Fills (items.foldl f x) := by
  induction items generalizing x with
  | nil => exact fillsSame rfl
  | cons a items ih =>
    have first := step x a List.mem_cons_self
    exact first.trans (ih (fun x b mem => step x b (List.mem_cons_of_mem a mem)) (f x a))

theorem fillsIf {p : Prop} [Decidable p] {x y : Extract} (fills : x.Fills y) :
    x.Fills (if p then y else x) := by
  split
  · exact fills
  · exact fillsSame rfl

section Hooks
variable {x : Extract} {kind : Kind} {key : Nat}

theorem fillsAddPrimary (fits : key ≤ maxId) : x.Fills (x.addPrimary kind key) := by
  refine ⟨[⟨.primary, kind, key⟩], by simpa using fits, ?_⟩
  funext part
  cases part <;> rfl

theorem fillsPullIn (fits : key ≤ maxId) : x.Fills (x.pullIn kind key) := by
  unfold pullIn
  split
  · exact fillsSame rfl
  · refine ⟨[⟨.extra, kind, key⟩], by simpa using fits, ?_⟩
    funext part
    cases part <;> rfl

theorem fillsAddWayNodes {w : Way} (fits : (Element.way w).Fits) : x.Fills (x.addWayNodes w) := by
  refine fillsFold (fun x key mem => fillsPullIn ?_) x
  obtain ⟨ref, listed, rfl⟩ := List.mem_map.mp mem
  exact fits.2 (.node, ref) (List.mem_map_of_mem listed)

theorem fillsAddMembers {r : Relation} (fits : (Element.relation r).Fits) :
    x.Fills (x.addMembers r) := by
  refine fillsFold (fun x m mem => ?_) x
  split
  · exact fillsSame rfl
  · exact fillsPullIn (fits.2 (m.kind, m.id) (List.mem_map_of_mem mem))

end Hooks

theorem absorbInserts {next : Nat → List Nat} (small : ∀ id, ∀ v ∈ next id, v ≤ maxId)
    (blocked : Nat → Bool) (n : Nat) {pending : List Nat} (fit : ∀ id ∈ pending, id ≤ maxId)
    (s : IdSet) : ∃ ids : List Nat, (∀ id ∈ ids, id ≤ maxId) ∧
      absorb next blocked n pending s = s.insertMany ids := by
  induction n generalizing pending s with
  | zero => exact ⟨[], by simp, rfl⟩
  | succ n ih =>
    cases pending with
    | nil => exact ⟨[], by simp, rfl⟩
    | cons id pending =>
      obtain ⟨own, others⟩ := List.forall_mem_cons.mp fit
      unfold absorb
      split
      · exact ih others s
      · have ahead : ∀ v ∈ next id ++ pending, v ≤ maxId := by
          intro v mem
          rcases List.mem_append.mp mem with mem | mem
          · exact small id v mem
          · exact others v mem
        obtain ⟨ids, fit, ends⟩ := ih ahead (s.insert id)
        exact ⟨id :: ids, List.forall_mem_cons.mpr ⟨own, fit⟩, ends⟩

theorem absorbFromSeeds {next : Nat → List Nat} (small : ∀ id, ∀ v ∈ next id, v ≤ maxId)
    {blocked : Nat → Bool} {n : Nat} {seeds : List Nat} {s found : IdSet}
    (ends : found = absorb next blocked n (seeds.flatMap next) s) :
    ∃ ids : List Nat, (∀ id ∈ ids, id ≤ maxId) ∧ found = s.insertMany ids := by
  subst ends
  refine absorbInserts small blocked n (fun v mem => ?_) s
  obtain ⟨id, _, mem⟩ := List.mem_flatMap.mp mem
  exact small id v mem

theorem putRelations (part : Part) (ids : List Nat) (sets : Part → IdSets) :
    (ids.map fun id => Slot.mk part .relation id).foldl Slot.put sets = fun other =>
      if other = part then { sets part with relations := (sets part).relations.insertMany ids }
      else sets other := by
  induction ids generalizing sets with
  | nil =>
    funext other
    by_cases same : other = part
    · rw [if_pos same, same]
      rfl
    · rw [if_neg same]
      rfl
  | cons id ids ih =>
    rw [List.map_cons, List.foldl_cons, ih]
    funext other
    by_cases same : other = part
    · rw [if_pos same, if_pos same, Slot.put, if_pos rfl]
      rfl
    · rw [if_neg same, if_neg same, Slot.put, if_neg same]

theorem fillsRelations {x y : Extract} (part : Part) {ids : List Nat}
    (fit : ∀ id ∈ ids, id ≤ maxId) (ends : y.of = fun other =>
      if other = part then { x.of part with relations := (x.of part).relations.insertMany ids }
      else x.of other) : x.Fills y := by
  refine ⟨ids.map fun id => ⟨part, .relation, id⟩, ?_, by rw [putRelations, ends]⟩
  intro call mem
  obtain ⟨id, listed, rfl⟩ := List.mem_map.mp mem
  exact fit id listed

theorem fillsNetwork {g : RelationGraph} (small : ∀ id, ∀ v ∈ g.neighbors id, v ≤ maxId)
    (x : Extract) : x.Fills (x.addNetwork g) := by
  have walked : (x.addNetwork g).extra.relations = absorb g.neighbors _ _ _ _ := rfl
  obtain ⟨ids, fit, ends⟩ := absorbFromSeeds small walked
  refine fillsRelations .extra fit ?_
  funext other
  cases other with
  | primary => rfl
  | extra => exact congrArg (fun ids => { x.extra with relations := ids }) ends

theorem fillsParents {parents : Adjacency} (small : ∀ id, ∀ v ∈ parents.get id, v ≤ maxId)
    (x : Extract) : x.Fills (x.addParents parents) := by
  have walked : (x.addParents parents).primary.relations = absorb parents.get _ _ _ _ := rfl
  obtain ⟨ids, fit, ends⟩ := absorbFromSeeds small walked
  refine fillsRelations .primary fit ?_
  funext other
  cases other with
  | primary => exact congrArg (fun ids => { x.primary with relations := ids }) ends
  | extra => rfl

theorem fillsWrite (x : Extract) (e : Element) : x.Fills (x.writeIncluded e) :=
  fillsIf (fillsSame rfl)

end Extract

namespace Strategy
open Extract (fillsSame fillsIf fillsAddPrimary fillsAddWayNodes fillsAddMembers)

theorem fillsFindNode {n : Node} (fits : (Element.node n).Fits) (x : Extract) :
    x.Fills (findNode x n) :=
  fillsIf (fillsAddPrimary fits.1)

namespace SystemOptions
variable (o : SystemOptions)

theorem fillsFind {e : Element} (fits : e.Fits) (x : Extract) : x.Fills (o.find x e) := by
  cases e with
  | node n => exact fillsFindNode fits x
  | way w => exact fillsIf ((fillsAddPrimary fits.1).trans (fillsAddWayNodes fits))
  | relation r =>
    have found : x.Fills (x.addPrimary .relation r.key) := fillsAddPrimary fits.1
    exact fillsIf (found.trans (fillsIf (fillsAddMembers fits)))

theorem fillsCompleteSystem {e : Element} (fits : e.Fits) (x : Extract) :
    x.Fills (o.completeSystem x e) := by
  cases e with
  | node n => exact fillsSame rfl
  | way w => exact fillsSame rfl
  | relation r => exact fillsIf (fillsAddMembers fits)

theorem fillsCompleteExtraWay {e : Element} (fits : e.Fits) (x : Extract) :
    x.Fills (completeExtraWay x e) := by
  cases e with
  | node n => exact fillsSame rfl
  | way w => exact fillsIf (fillsAddWayNodes fits)
  | relation r => exact fillsSame rfl

end SystemOptions

namespace FirstNodeOptions
variable (o : FirstNodeOptions)

theorem fillsFind {e : Element} (fits : e.Fits) (x : Extract) : x.Fills (o.find x e) := by
  cases e with
  | node n => exact fillsFindNode fits x
  | way w => exact fillsIf (fillsAddPrimary fits.1)
  | relation r =>
    rw [find, findRelationIs, settle]
    exact (fillsIf (fillsAddPrimary fits.1)).trans (fillsIf (fillsAddMembers fits))

theorem fillsCompleteWay {e : Element} (fits : e.Fits) (x : Extract) :
    x.Fills (completeWay x e) := by
  cases e with
  | node n => exact fillsSame rfl
  | way w => exact fillsIf (fillsAddWayNodes fits)
  | relation r => exact fillsSame rfl

end FirstNodeOptions
end Strategy
end Cutout
