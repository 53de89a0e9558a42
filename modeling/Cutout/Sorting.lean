/-! Lists in order: a sort by merging, and what is left of a sorted list without its repetitions. -/
namespace Cutout.Sorting
variable {α : Type} (le : α → α → Bool)

def merge : List α → List α → List α
  | [], ys => ys
  | xs, [] => xs
  | x :: xs, y :: ys =>
    if le x y then x :: merge xs (y :: ys) else y :: merge (x :: xs) ys
termination_by xs ys => xs.length + ys.length

def sort (xs : List α) : List α :=
  if 2 ≤ xs.length then
    let half := xs.length / 2
    merge le (sort (xs.take half)) (sort (xs.drop half))
  else xs
termination_by xs.length
decreasing_by
  · rw [List.length_take]
    omega
  · rw [List.length_drop]
    omega

theorem mergeIs (xs ys : List α) : merge le xs ys = xs.merge ys le := by
  fun_induction merge le xs ys with
  | case1 ys => simp
  | case2 xs => simp
  | case3 x xs y ys first ih => rw [List.cons_merge_cons_pos _ _ _ first, ih]
  | case4 x xs y ys first ih => rw [List.cons_merge_cons_neg _ _ _ first, ih]

theorem sortPerm (xs : List α) : (sort le xs).Perm xs := by
  fun_induction sort le xs with
  | case1 xs several half left right =>
    rw [mergeIs]
    have parts := (List.merge_perm_append le).trans (left.append right)
    rwa [List.take_append_drop] at parts
  | case2 xs few => exact .refl xs

theorem sortSorted (trans : ∀ a b c, le a b = true → le b c = true → le a c = true)
    (total : ∀ a b, (le a b || le b a) = true) (xs : List α) :
    (sort le xs).Pairwise fun a b => le a b = true := by
  fun_induction sort le xs with
  | case1 xs several half left right =>
    rw [mergeIs]
    exact List.pairwise_merge trans total _ _ left right
  | case2 xs few =>
    cases xs with
    | nil => exact .nil
    | cons x rest =>
      cases rest with
      | nil => exact List.pairwise_singleton _ x
      | cons y rest => exact absurd (Nat.le_add_left 2 rest.length) few

section Repetitions
variable [BEq α]

theorem repsLoop (a : α) (xs done : List α) : List.eraseRepsBy.loop (· == ·) a xs done =
    done.reverse ++ List.eraseRepsBy.loop (· == ·) a xs [] := by
  induction xs generalizing a done with
  | nil => simp [List.eraseRepsBy.loop]
  | cons x rest ih =>
    rw [List.eraseRepsBy.loop, List.eraseRepsBy.loop]
    split
    · exact ih a done
    · rw [ih x (a :: done), ih x [a], List.reverse_cons, List.append_assoc]
      rfl

variable [LawfulBEq α]

theorem eraseRepsCons (a b : α) (rest : List α) : (a :: b :: rest).eraseReps =
    if a == b then (b :: rest).eraseReps else a :: (b :: rest).eraseReps := by
  simp only [List.eraseReps, List.eraseRepsBy]
  rw [List.eraseRepsBy.loop]
  cases same : a == b with
  | true => rw [eq_of_beq same, if_pos rfl]
  | false =>
    rw [if_neg Bool.false_ne_true]
    exact repsLoop b rest [a]

theorem memEraseReps {a : α} {xs : List α} : a ∈ xs.eraseReps ↔ a ∈ xs := by
  induction xs with
  | nil => rfl
  | cons x xs ih =>
    cases xs with
    | nil => rfl
    | cons y rest =>
      rw [eraseRepsCons]
      split
      · rename_i same
        rw [ih, eq_of_beq same]
        simp
      · rw [List.mem_cons, ih, ← List.mem_cons]

variable {le}

theorem ascendingEraseReps (antisymm : ∀ a b, le a b = true → le b a = true → a = b)
    {xs : List α} (sorted : xs.Pairwise fun a b => le a b = true) :
    xs.eraseReps.Pairwise fun a b => le a b = true ∧ a ≠ b := by
  induction xs with
  | nil => exact .nil
  | cons x xs ih =>
    obtain ⟨first, sorted⟩ := List.pairwise_cons.mp sorted
    cases xs with
    | nil => exact List.pairwise_singleton _ x
    | cons y rest =>
      rw [eraseRepsCons]
      split
      · exact ih sorted
      · rename_i different
        refine List.pairwise_cons.mpr ⟨fun b mem => ?_, ih sorted⟩
        have later := memEraseReps.mp mem
        refine ⟨first b later, fun same => different (beq_iff_eq.mpr ?_)⟩
        -- An item that came back later would be on both sides of the one behind it.
        subst same
        refine antisymm x y (first y List.mem_cons_self) ?_
        rcases List.mem_cons.mp later with rfl | behind
        · exact first x List.mem_cons_self
        · exact (List.pairwise_cons.mp sorted).1 x behind

end Repetitions
end Cutout.Sorting
