import Mathlib.Algebra.GroupWithZero.Nat
import Mathlib.Data.Finset.Sort
import Cutout.IdSet
import Cutout.Proofs.Histories
/-! Sets of ids as finite sets. After any calls that put ids in, the answers of the calls, the counter,
the one bits of all words and the list tell of the same ids. Only membership is carried from call to
call; whatever else is asked of a set follows from it. -/
namespace Cutout

def onesOf (word : UInt64) : Nat := (List.range 64).countP word.toNat.testBit

theorem lengthSetBits (word : UInt64) : (setBits word).length = onesOf word := by
  have distinct : (setBits word).Nodup := (setBitsAscending word).imp Nat.ne_of_lt
  have same : (setBits word).Perm ((List.range 64).filter word.toNat.testBit) := by
    rw [List.perm_ext_iff_of_nodup distinct (List.nodup_range.filter _)]
    intro bit
    rw [memSetBits, List.mem_filter, List.mem_range]
    exact ⟨fun one => ⟨IdSet.Bitmap.bitSmall one, one⟩, And.right⟩
  rw [same.length_eq, onesOf, List.countP_eq_length_filter]

namespace IdSet
namespace Bitmap

def chunkOnes (words : Chunk) : Nat := (words.toList.map fun (_, word) => onesOf word).sum

def ones (m : Bitmap) : Nat := (m.toList.map fun (_, words) => chunkOnes words).sum

theorem lengthChunkIds (chunk : Nat) (words : Chunk) :
    (chunkIds chunk words).length = chunkOnes words := by
  simp only [chunkIds, chunkOnes, List.length_flatMap, List.length_map, lengthSetBits]

theorem lengthIds (m : Bitmap) : m.ids.length = m.ones := by
  simp only [ids, ones, List.length_flatMap, lengthChunkIds]

end Bitmap

structure Refines (s : IdSet) (ids : Finset Nat) : Prop where
  has : ∀ id, s.contains id = true ↔ id ∈ ids
  counts : s.size = ids.card
  bits : s.bits.ones = ids.card
  empty : s.isEmpty = true ↔ ids = ∅
  lists : s.toList = ids.sort

theorem refinesOf {s : IdSet} {ids : Finset Nat} (has : ∀ id, s.contains id = true ↔ id ∈ ids) :
    s.Refines ids := by
  have listed : s.toList.toFinset = ids := by
    ext id
    rw [List.mem_toFinset, memToList, has]
  have counts : s.size = ids.card := by
    rw [← listed, List.toFinset_card_of_nodup s.toListNodup, lengthToList]
  refine ⟨has, counts, ?_, ?_, ?_⟩
  · rw [← counts, ← Bitmap.lengthIds, s.counted]
  · rw [isEmpty, beq_iff_eq, counts, Finset.card_eq_zero]
  · rw [← listed]
    exact ((List.toFinset_sort _ s.toListNodup).mpr (s.toListAscending.imp Nat.le_of_lt)).symm

theorem refinesBoth {s t : IdSet} (same : ∀ id, s.contains id = true ↔ t.contains id = true) :
    ∃ ids : Finset Nat, s.Refines ids ∧ t.Refines ids :=
  ⟨s.toList.toFinset, refinesOf (by simp), refinesOf (by simp [same])⟩

end IdSet

section Calls
variable {σ α : Type} {call : σ → α → Bool × σ} {held : σ → α → Prop}

structure PutsIn (call : σ → α → Bool × σ) (held : σ → α → Prop) : Prop where
  answers : ∀ s a, (call s a).1 = true ↔ ¬ held s a
  holds : ∀ s a b, held (call s a).2 b ↔ held s b ∨ b = a

theorem PutsIn.holdsAll (puts : PutsIn call held) (calls : List α) (s : σ) (b : α) :
    held (callAll call calls s).2 b ↔ held s b ∨ b ∈ calls := by
  induction calls generalizing s with
  | nil => simp [callAll]
  | cons a rest ih =>
    have step := ih (call s a).2
    rw [puts.holds, or_assoc, ← List.mem_cons] at step
    exact step

theorem PutsIn.answersAll [BEq α] [LawfulBEq α] (puts : PutsIn call held) {s : σ} (empty : ∀ a, ¬ held s a)
    (calls : List α) :
    (callAll call calls s).1 = calls.mapIdx fun i a => decide (a ∉ calls.take i) := by
  -- The calls so far are what is held, so the induction goes on from any number of them.
  have after (calls before : List α) (s : σ) (known : ∀ a, held s a ↔ a ∈ before) :
      (callAll call calls s).1 =
        calls.mapIdx fun i a => decide (a ∉ before ++ calls.take i) := by
    induction calls generalizing before s with
    | nil => rfl
    | cons a rest ih =>
      have first : (call s a).1 = decide (a ∉ before) := by
        rw [Bool.eq_iff_iff, puts.answers, known, decide_eq_true_eq]
      have later := ih (before ++ [a]) (call s a).2 fun b => by
        rw [puts.holds, known, List.mem_append, List.mem_singleton]
      have unfolded : (callAll call (a :: rest) s).1 =
          (call s a).1 :: (callAll call rest (call s a).2).1 := rfl
      have same (i : Nat) (b : α) : decide (b ∉ before ++ [a] ++ rest.take i) =
          decide (b ∉ before ++ (a :: rest).take (i + 1)) := decide_eq_decide.mpr (by simp)
      rw [unfolded, first, later, List.mapIdx_cons]
      simp only [same, List.take_zero, List.append_nil]
  exact after calls [] s fun a => by simp [empty a]

end Calls

namespace IdSet

theorem setPutsIn : PutsIn set fun s id => s.contains id = true where
  answers s id := by rw [setMissing, Bool.not_eq_true', Bool.not_eq_true]
  holds s id other := by
    rw [← insert, containsInsert, Bool.or_eq_true, decide_eq_true_eq]

def setAll (ids : List Nat) (s : IdSet) : List Bool × IdSet := callAll set ids s

end IdSet

namespace IdSets

def setOf (s : IdSets) (call : Kind × Nat) : Bool × IdSets := s.set call.1 call.2

def setAll (calls : List (Kind × Nat)) (s : IdSets) : List Bool × IdSets := callAll setOf calls s

def callsOf (kind : Kind) (calls : List (Kind × Nat)) : List Nat :=
  (calls.filter fun call => call.1 = kind).map (·.2)

theorem setPutsIn : PutsIn setOf fun s call => s.contains call.1 call.2 = true where
  answers s call := IdSet.setPutsIn.answers (s.of call.1) call.2
  holds s call other := by
    rw [setOf, ← insert, containsInsert, Bool.or_eq_true, decide_eq_true_eq, Prod.ext_iff]

theorem ofSetAll (kind : Kind) (calls : List (Kind × Nat)) (s : IdSets) :
    (setAll calls s).2.of kind = (IdSet.setAll (callsOf kind calls) (s.of kind)).2 := by
  induction calls generalizing s with
  | nil => rfl
  | cons call rest ih =>
    obtain ⟨called, id⟩ := call
    have step := ih (s.insert called id)
    rw [ofInsert] at step
    by_cases own : kind = called
    · subst own
      rw [if_pos rfl] at step
      rw [callsOf, List.filter_cons_of_pos (by simp), List.map_cons]
      exact step
    · rw [if_neg own] at step
      rw [callsOf, List.filter_cons_of_neg (by simpa using Ne.symm own)]
      exact step

end IdSets

theorem idSetsRefine (ids : List Nat) (calls : List (Kind × Nat)) :
    let one := IdSet.setAll ids ∅
    let each := IdSets.setAll calls ∅
    one.1 = ids.mapIdx (fun i id => decide (id ∉ ids.take i)) ∧
    one.2.Refines ids.toFinset ∧
    ((∀ id ∈ ids, id ≤ maxId) → one.2.size ≤ maxId + 1) ∧
    each.1 = calls.mapIdx (fun i call => decide (call ∉ calls.take i)) ∧
    ∀ kind, each.2.of kind = (IdSet.setAll (IdSets.callsOf kind calls) ∅).2 ∧
      (∀ id, each.2.contains kind id = true ↔ (kind, id) ∈ calls) ∧
      (each.2.isEmpty kind = true ↔ ∀ call ∈ calls, call.1 ≠ kind) := by
  intro one each
  have holds (kind : Kind) (id : Nat) : each.2.contains kind id = true ↔ (kind, id) ∈ calls := by
    have held := IdSets.setPutsIn.holdsAll calls ∅ (kind, id)
    rwa [IdSets.containsEmpty, or_iff_right Bool.false_ne_true] at held
  have refined : one.2.Refines ids.toFinset := IdSet.refinesOf fun id => by
    have held := IdSet.setPutsIn.holdsAll ids ∅ id
    rwa [IdSet.containsEmpty, or_iff_right Bool.false_ne_true, ← List.mem_toFinset] at held
  refine ⟨?_, refined, fun fit => ?_, ?_, fun kind => ⟨?_, holds kind, ?_⟩⟩
  · exact IdSet.setPutsIn.answersAll (s := ∅) (fun id => by simp) ids
  · have within : ids.toFinset ⊆ Finset.range (maxId + 1) := fun id mem =>
      Finset.mem_range_succ_iff.mpr (fit id (List.mem_toFinset.mp mem))
    rw [refined.counts]
    exact (Finset.card_le_card within).trans_eq (Finset.card_range _)
  · exact IdSets.setPutsIn.answersAll (s := ∅) (fun call => by simp) calls
  · cases kind <;> exact IdSets.ofSetAll _ calls ∅
  · have none : each.2.isEmpty kind = true ↔ ∀ id, each.2.contains kind id = false :=
      IdSet.isEmptyIff
    simp only [none, ← Bool.not_eq_true, holds]
    exact ⟨fun missing call mem same => missing call.2 (same ▸ mem),
      fun other id mem => other (kind, id) mem rfl⟩

end Cutout
