import Cutout.Sorting
/-! Sorted pairs as a map from an id to ids. The pairs of a key lie side by side, so that a search by
halves for the first of them finds all. -/
namespace Cutout

/-- The place of the first item that is not below, if all items that are come before the others. -/
def search {α : Type} (below : α → Bool) (items : Array α) (low high : Nat) : Nat :=
  if low < high then
    let middle := low + (high - low) / 2
    if items[middle]?.any below then search below items (middle + 1) high
    else search below items low middle
  else low
termination_by high - low

structure Adjacency where
  pairs : Array (Nat × Nat)
  ascending : pairs.toList.Pairwise fun a b => a.1 < b.1 ∨ a.1 = b.1 ∧ a.2 < b.2

namespace Adjacency

def le (a b : Nat × Nat) : Bool := a.1 < b.1 || a.1 == b.1 && a.2 ≤ b.2

theorem leIff {a b : Nat × Nat} : le a b = true ↔ a.1 < b.1 ∨ a.1 = b.1 ∧ a.2 ≤ b.2 := by
  simp [le]

theorem sortedAscending (pairs : List (Nat × Nat)) :
    (Sorting.sort le pairs).eraseReps.Pairwise fun a b => a.1 < b.1 ∨ a.1 = b.1 ∧ a.2 < b.2 := by
  have sorted := Sorting.sortSorted le (fun a b c => ?_) (fun a b => ?_) pairs
  · refine (Sorting.ascendingEraseReps (fun a b => ?_) sorted).imp fun {a b} order => ?_
    · simp only [leIff, Prod.ext_iff]
      omega
    · obtain ⟨order, different⟩ := order
      rw [leIff] at order
      rw [ne_eq, Prod.ext_iff] at different
      omega
  · simp only [leIff]
    omega
  · rw [Bool.or_eq_true, leIff, leIff]
    omega

def ofPairs (pairs : List (Nat × Nat)) : Adjacency :=
  ⟨(Sorting.sort le pairs).eraseReps.toArray, sortedAscending pairs⟩

def valuesFrom (a : Adjacency) (key place : Nat) : List Nat :=
  if inside : place < a.pairs.size then
    if a.pairs[place].1 = key then a.pairs[place].2 :: a.valuesFrom key (place + 1) else []
  else []
termination_by a.pairs.size - place

def get (a : Adjacency) (key : Nat) : List Nat :=
  a.valuesFrom key (search (fun pair => pair.1 < key) a.pairs 0 a.pairs.size)

def size (a : Adjacency) : Nat := a.pairs.size

def isEmpty (a : Adjacency) : Bool := a.pairs.isEmpty

end Adjacency
end Cutout
