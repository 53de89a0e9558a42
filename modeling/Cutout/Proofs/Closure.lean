import Mathlib.Algebra.BigOperators.Group.Finset.Basic
import Mathlib.Algebra.Order.BigOperators.Group.Finset
import Cutout.Extract
/-! The work loop behind relation networks and ancestors. With the steps that it is given it adds
exactly what can be reached from the pending ids over ids that are neither blocked nor known. -/
namespace Cutout.Extract

inductive Reach (next : Nat → List Nat) (stop : Nat → Prop) (pending : List Nat) : Nat → Prop where
  | start {v} (mem : v ∈ pending) (free : ¬ stop v) : Reach next stop pending v
  | step {u v} (before : Reach next stop pending u) (mem : v ∈ next u) (free : ¬ stop v) :
      Reach next stop pending v

section Reach
variable {next : Nat → List Nat} {stop : Nat → Prop} {pending : List Nat}

theorem Reach.notStopped {v} (reached : Reach next stop pending v) : ¬ stop v := by
  cases reached with
  | start mem free => exact free
  | step before mem free => exact free

theorem Reach.mono {weaker : Nat → Prop} {more : List Nat} {v}
    (reached : Reach next stop pending v) (fewer : ∀ u, weaker u → stop u)
    (inMore : ∀ u ∈ pending, ¬ weaker u → Reach next weaker more u) :
    Reach next weaker more v := by
  induction reached with
  | start mem free => exact inMore _ mem (mt (fewer _) free)
  | step before mem free ih => exact .step ih mem (mt (fewer _) free)

theorem reachPerm {more : List Nat} {v} (same : pending.Perm more) :
    Reach next stop pending v ↔ Reach next stop more v :=
  ⟨fun reached => reached.mono (fun _ h => h) fun _ mem => .start (same.mem_iff.mp mem),
    fun reached => reached.mono (fun _ h => h) fun _ mem => .start (same.mem_iff.mpr mem)⟩

theorem reachNil {v} : ¬ Reach next stop [] v := by
  intro reached
  induction reached with
  | start mem free => simp at mem
  | step before mem free ih => exact ih

theorem reachStopped {id v} (stopped : stop id) :
    Reach next stop (id :: pending) v ↔ Reach next stop pending v := by
  constructor
  · intro reached
    refine reached.mono (fun _ h => h) fun u mem free => ?_
    rcases List.mem_cons.mp mem with rfl | mem
    · exact absurd stopped free
    · exact .start mem free
  · intro reached
    exact reached.mono (fun _ h => h) fun u mem free => .start (List.mem_cons_of_mem _ mem) free

theorem reachTaken {id v} (free : ¬ stop id) : Reach next stop (id :: pending) v ↔
    v = id ∨ Reach next (fun u => stop u ∨ u = id) (next id ++ pending) v := by
  -- To take an id off the pending ones is to stop at it from then on and to go on from it.
  constructor
  · intro reached
    induction reached with
    | @start v mem fresh =>
      by_cases same : v = id
      · exact .inl same
      · refine .inr (.start ?_ (not_or.mpr ⟨fresh, same⟩))
        exact List.mem_append_right _ ((List.mem_cons.mp mem).resolve_left same)
    | @step u v before mem fresh ih =>
      by_cases same : v = id
      · exact .inl same
      · have open' := not_or.mpr ⟨fresh, same⟩
        rcases ih with rfl | ih
        · exact .inr (.start (List.mem_append_left _ mem) open')
        · exact .inr (.step ih mem open')
  · have first : Reach next stop (id :: pending) id := .start List.mem_cons_self free
    intro given
    rcases given with rfl | reached
    · exact first
    · refine reached.mono (fun _ => .inl) fun u mem fresh => ?_
      rcases List.mem_append.mp mem with mem | mem
      · exact .step first mem fresh
      · exact .start (List.mem_cons_of_mem _ mem) fresh

end Reach

/-! The steps are enough. What is still to be pushed is bounded by the edges that leave ids outside
the set, and every id that enters it takes its edges with it. -/

def outside (support : Finset Nat) (s : IdSet) : Finset Nat :=
  support.filter fun id => s.contains id = false

def load (next : Nat → List Nat) (support : Finset Nat) (s : IdSet) : Nat :=
  ∑ id ∈ outside support s, (next id).length

section Load
variable {next : Nat → List Nat} (support : Finset Nat)

theorem outsideInsert (s : IdSet) (id : Nat) :
    outside support (s.insert id) = (outside support s).erase id := by
  ext u
  simp only [outside, Finset.mem_filter, Finset.mem_erase, IdSet.containsInsert,
    Bool.or_eq_false_iff, decide_eq_false_iff_not]
  tauto

theorem loadInsert (covers : ∀ id ∉ support, next id = []) {s : IdSet} {id : Nat}
    (missing : s.contains id = false) :
    load next support (s.insert id) + (next id).length = load next support s := by
  rw [load, load, outsideInsert]
  by_cases known : id ∈ support
  · exact Finset.sum_erase_add _ _ (Finset.mem_filter.mpr ⟨known, missing⟩)
  · have absent : id ∉ outside support s := fun h => known (Finset.mem_filter.mp h).1
    rw [Finset.erase_eq_of_notMem absent, covers id known, List.length_nil, Nat.add_zero]

theorem loadLe (s : IdSet) : load next support s ≤ ∑ id ∈ support, (next id).length :=
  Finset.sum_le_sum_of_subset (Finset.filter_subset _ _)

theorem absorbExact (covers : ∀ id ∉ support, next id = []) (blocked : Nat → Bool) (n : Nat)
    (pending : List Nat) (s : IdSet) (enough : pending.length + load next support s ≤ n) (v : Nat) :
    (absorb next blocked n pending s).contains v = true ↔ s.contains v = true ∨
      Reach next (fun u => blocked u = true ∨ s.contains u = true) pending v := by
  -- An id that enters the set pays with its edges for what it pushes, so `enough` stays true.
  induction n generalizing pending s with
  | zero =>
    have none : pending = [] := List.eq_nil_of_length_eq_zero (by omega)
    simp [absorb, none, reachNil]
  | succ n ih =>
    cases pending with
    | nil => simp [absorb, reachNil]
    | cons id pending =>
      simp only [absorb, Bool.or_eq_true]
      rw [List.length_cons] at enough
      split
      · rename_i stopped
        rw [ih pending s (by omega), reachStopped stopped]
      · rename_i free
        have missing : s.contains id = false := by simpa using (not_or.mp free).2
        have spent := loadInsert support covers missing
        rw [ih _ _ (by rw [List.length_append]; omega), reachTaken free]
        simp only [IdSet.containsInsert, Bool.or_eq_true, decide_eq_true_eq, or_assoc]

end Load

end Cutout.Extract
