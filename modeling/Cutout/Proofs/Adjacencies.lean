import Mathlib.Algebra.BigOperators.Group.Finset.Basic
import Mathlib.Algebra.Order.BigOperators.Group.Finset
import Mathlib.Data.Finset.Dedup
import Cutout.Adjacency
/-! What an adjacency answers. A search by halves ends behind the pairs with smaller keys, and of the
others the pairs with the key come first. -/
namespace Cutout

theorem searchIs {α : Type} {below : α → Bool} {items : Array α} {front back : List α}
    (parts : items.toList = front ++ back) (lower : ∀ a ∈ front, below a = true)
    (higher : ∀ a ∈ back, below a = false) {low high : Nat} (first : low ≤ front.length)
    (last : front.length ≤ high) (inside : high ≤ items.size) :
    search below items low high = front.length := by
  -- The place sought lies between `low` and `high`, and every halving keeps it there.
  fun_induction search below items low high with
  | case1 low high open_ middle is_below ih =>
    obtain ⟨a, there, isBelow⟩ := (Option.any_eq_true _ _).mp is_below
    refine ih (Nat.lt_of_not_le fun behind => ?_) last inside
    rw [← Array.getElem?_toList, parts, List.getElem?_append_right behind] at there
    rw [higher a (List.mem_of_getElem? there)] at isBelow
    cases isBelow
  | case2 low high open_ middle not_below ih =>
    refine ih first (Nat.le_of_not_lt fun before => not_below ?_) (by omega)
    have there : items[middle]? = some front[middle] := by
      rw [← Array.getElem?_toList, parts, List.getElem?_append_left before]
      exact List.getElem?_eq_getElem before
    rw [there]
    exact lower _ (List.getElem_mem before)
  | case3 low high closed => omega

/-! A test that holds of an item only if it holds of all before it cuts a list in two. -/

section Falling
variable {α : Type} {test : α → Bool} {items : List α}
  (falls : items.Pairwise fun a b => test b = true → test a = true)
include falls

theorem cutInTwo : items = items.filter test ++ items.filter fun a => !test a := by
  induction items with
  | nil => rfl
  | cons a rest ih =>
    obtain ⟨behind, falls⟩ := List.pairwise_cons.mp falls
    cases holds : test a with
    | true => simpa [holds] using ih falls
    | false =>
      have none : ∀ b ∈ rest, ¬ test b = true := fun b mem later => by
        rw [behind b mem later] at holds
        cases holds
      rw [List.filter_cons_of_neg (by simp [holds]), List.filter_eq_nil_iff.mpr none, List.nil_append]
      refine (List.filter_eq_self.mpr fun b mem => ?_).symm
      rcases List.mem_cons.mp mem with rfl | mem
      · simp [holds]
      · simpa using none b mem

theorem takeWhileIs : items.takeWhile test = items.filter test := by
  induction items with
  | nil => rfl
  | cons a rest ih =>
    obtain ⟨behind, falls⟩ := List.pairwise_cons.mp falls
    cases holds : test a with
    | true => rw [List.takeWhile_cons_of_pos holds, List.filter_cons_of_pos holds, ih falls]
    | false =>
      have here : ¬ test a = true := by simp [holds]
      rw [List.takeWhile_cons_of_neg here, List.filter_cons_of_neg here]
      exact (List.filter_eq_nil_iff.mpr fun b mem later => here (behind b mem later)).symm

end Falling

namespace Adjacency

theorem valuesFromIs (a : Adjacency) (key place : Nat) : a.valuesFrom key place =
    ((a.pairs.toList.drop place).takeWhile fun pair => pair.1 = key).map Prod.snd := by
  fun_induction a.valuesFrom key place with
  | case1 place inside same ih =>
    have next : a.pairs.toList.drop place = _ :: _ := List.drop_eq_getElem_cons inside
    rw [ih, next, List.takeWhile_cons_of_pos (by simpa using same), List.map_cons]
    rfl
  | case2 place inside other =>
    have next : a.pairs.toList.drop place = _ :: _ := List.drop_eq_getElem_cons inside
    rw [next, List.takeWhile_cons_of_neg (by simpa using other), List.map_nil]
  | case3 place outside =>
    have none : a.pairs.toList.drop place = [] := List.drop_eq_nil_iff.mpr (Nat.le_of_not_lt outside)
    rw [none, List.takeWhile_nil, List.map_nil]

theorem getIs (a : Adjacency) (key : Nat) :
    a.get key = (a.pairs.toList.filter fun pair => pair.1 = key).map Prod.snd := by
  have sorted : a.pairs.toList.Pairwise fun a b => a.1 ≤ b.1 := a.ascending.imp (by omega)
  have falls : a.pairs.toList.Pairwise fun a b =>
      decide (b.1 < key) = true → decide (a.1 < key) = true :=
    sorted.imp fun order below => by
      simp only [decide_eq_true_eq] at below ⊢
      omega
  have parts := cutInTwo falls
  have found : search (fun pair => pair.1 < key) a.pairs 0 a.pairs.size =
      (a.pairs.toList.filter fun pair => pair.1 < key).length := by
    refine searchIs parts (fun pair mem => (List.mem_filter.mp mem).2) (fun pair mem => ?_)
      (Nat.zero_le _) (List.length_filter_le _ _) (Nat.le_refl _)
    simpa using (List.mem_filter.mp mem).2
  have rest : a.pairs.toList.drop (a.pairs.toList.filter fun pair => pair.1 < key).length =
      a.pairs.toList.filter fun pair => !decide (pair.1 < key) := by
    conv => lhs; arg 2; rw [parts]
    exact List.drop_left
  -- Behind the search no key is smaller, so those that are the same come first.
  have together : (a.pairs.toList.filter fun pair => !decide (pair.1 < key)).Pairwise fun a b =>
      decide (b.1 = key) = true → decide (a.1 = key) = true := by
    refine (sorted.filter _).imp_of_mem fun first _ order same => ?_
    have above := (List.mem_filter.mp first).2
    simp only [Bool.not_eq_true', decide_eq_false_iff_not, decide_eq_true_eq] at above same ⊢
    omega
  rw [get, found, valuesFromIs, rest, takeWhileIs together, List.filter_filter]
  refine congrArg (List.map Prod.snd) (List.filter_congr fun pair _ => ?_)
  by_cases same : pair.1 = key <;> simp [same]

theorem memGet {a : Adjacency} {key value : Nat} :
    value ∈ a.get key ↔ (key, value) ∈ a.pairs.toList := by
  rw [getIs, List.mem_map]
  constructor
  · rintro ⟨⟨_, _⟩, mem, rfl⟩
    obtain ⟨mem, same⟩ := List.mem_filter.mp mem
    exact of_decide_eq_true same ▸ mem
  · intro mem
    exact ⟨_, List.mem_filter.mpr ⟨mem, decide_eq_true rfl⟩, rfl⟩

theorem getAscending (a : Adjacency) (key : Nat) : (a.get key).Pairwise (· < ·) := by
  rw [getIs, List.pairwise_map]
  refine (a.ascending.filter _).imp_of_mem fun first second order => ?_
  have same := of_decide_eq_true (List.mem_filter.mp first).2
  have also := of_decide_eq_true (List.mem_filter.mp second).2
  omega

theorem memPairs {pairs : List (Nat × Nat)} {pair : Nat × Nat} :
    pair ∈ (ofPairs pairs).pairs.toList ↔ pair ∈ pairs :=
  Sorting.memEraseReps.trans (Sorting.sortPerm le pairs).mem_iff

theorem memGetOfPairs {pairs : List (Nat × Nat)} {key value : Nat} :
    value ∈ (ofPairs pairs).get key ↔ (key, value) ∈ pairs := memGet.trans memPairs

theorem sizeOfPairs (pairs : List (Nat × Nat)) : (ofPairs pairs).size = pairs.toFinset.card := by
  have distinct : (ofPairs pairs).pairs.toList.Nodup :=
    (ofPairs pairs).ascending.imp fun order same => by
      subst same
      omega
  have members : (ofPairs pairs).pairs.toList.toFinset = pairs.toFinset := by
    ext pair
    rw [List.mem_toFinset, List.mem_toFinset, memPairs]
  rw [← members, List.toFinset_card_of_nodup distinct]
  rfl

/-! What the answers take together. -/

def sources (a : Adjacency) : Finset Nat := (a.pairs.toList.map Prod.fst).toFinset

theorem getOutside {a : Adjacency} {id : Nat} (outside : id ∉ a.sources) : a.get id = [] := by
  refine List.eq_nil_iff_forall_not_mem.mpr fun value mem => outside ?_
  exact List.mem_toFinset.mpr (List.mem_map.mpr ⟨_, memGet.mp mem, rfl⟩)

theorem sumSources (a : Adjacency) : ∑ id ∈ a.sources, (a.get id).length = a.size := by
  have counted (id : Nat) : (a.get id).length = (a.pairs.toList.map Prod.fst).count id := by
    rw [getIs, List.length_map, List.count, List.countP_map, ← List.countP_eq_length_filter]
    exact List.countP_congr fun pair _ => by simp
  simp only [counted]
  rw [sources, List.sum_toFinset_count_eq_length, List.length_map]
  rfl

theorem sumLe (a : Adjacency) (ids : Finset Nat) : ∑ id ∈ ids, (a.get id).length ≤ a.size := by
  rw [← sumSources, ← Finset.sum_filter_add_sum_filter_not ids (· ∈ a.sources)]
  have rest : ∑ id ∈ ids.filter (· ∉ a.sources), (a.get id).length = 0 := by
    refine Finset.sum_eq_zero fun id mem => ?_
    rw [getOutside (Finset.mem_filter.mp mem).2, List.length_nil]
  rw [rest, Nat.add_zero]
  refine Finset.sum_le_sum_of_subset fun id mem => (Finset.mem_filter.mp mem).2

end Adjacency
end Cutout
