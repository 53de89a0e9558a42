import Cutout.Proofs.Memberships
/-! The walks over the membership graph, step by step. A step looks at one of the ids that are still to
be looked at, whichever it is, so nothing is said of the order in which a walk takes them: every order
comes to an end, and all of them end with the same set. -/
namespace Cutout.Extract

structure Walk where
  pending : List Nat
  found : IdSet

namespace Walk

inductive Step (next : Nat → List Nat) (blocked : Nat → Bool) : Walk → Walk → Prop
  | pass {w id rest} (taken : w.pending.Perm (id :: rest))
      (stopped : blocked id = true ∨ w.found.contains id = true) : Step next blocked w ⟨rest, w.found⟩
  | enter {w id rest more} (taken : w.pending.Perm (id :: rest))
      (free : ¬ (blocked id = true ∨ w.found.contains id = true))
      (laid : more.Perm (next id ++ rest)) : Step next blocked w ⟨more, w.found.insert id⟩

def Reaches (next : Nat → List Nat) (blocked : Nat → Bool) (w : Walk) (v : Nat) : Prop :=
  w.found.contains v = true ∨
    Reach next (fun u => blocked u = true ∨ w.found.contains u = true) w.pending v

structure Settles (next : Nat → List Nat) (blocked : Nat → Bool) (w : Walk) (found : IdSet) : Prop where
  ends : Acc (fun later earlier => Step next blocked earlier later) w
  reached : Relation.ReflTransGen (Step next blocked) w ⟨[], found⟩
  only : ∀ last, Relation.ReflTransGen (Step next blocked) w last →
    (∀ later, ¬ Step next blocked last later) →
    last.pending = [] ∧ ∀ v, last.found.contains v = found.contains v

section Steps
variable {next : Nat → List Nat} {blocked : Nat → Bool} {w later : Walk} {v : Nat}

theorem stepReaches (step : Step next blocked w later) :
    later.Reaches next blocked v ↔ w.Reaches next blocked v := by
  cases step with
  | pass taken stopped =>
    rw [Reaches, Reaches, reachPerm taken, reachStopped stopped]
  | enter taken free laid =>
    rw [Reaches, Reaches, reachPerm taken, reachTaken free, reachPerm laid]
    simp only [IdSet.containsInsert, Bool.or_eq_true, decide_eq_true_eq, or_assoc]

theorem runReaches (run : Relation.ReflTransGen (Step next blocked) w later) :
    later.Reaches next blocked v ↔ w.Reaches next blocked v := by
  induction run with
  | refl => rfl
  | tail _ step ih => exact (stepReaches step).trans ih

theorem reachesFound {found : IdSet} :
    (⟨[], found⟩ : Walk).Reaches next blocked v ↔ found.contains v = true :=
  or_iff_left reachNil

def weight (next : Nat → List Nat) (support : Finset Nat) (w : Walk) : Nat :=
  w.pending.length + load next support w.found

theorem stepLighter {support : Finset Nat} (covers : ∀ id ∉ support, next id = [])
    (step : Step next blocked w later) : later.weight next support + 1 = w.weight next support := by
  cases step with
  | pass taken stopped =>
    rw [weight, weight, taken.length_eq, List.length_cons]
    dsimp only
    omega
  | enter taken free laid =>
    -- What is laid down is paid for by the edges of the id that enters.
    have missing := Bool.eq_false_iff.mpr (not_or.mp free).2
    have spent := loadInsert support covers missing
    rw [weight, weight, taken.length_eq, laid.length_eq, List.length_append, List.length_cons]
    dsimp only
    omega

theorem walkEnds {support : Finset Nat} (covers : ∀ id ∉ support, next id = []) (w : Walk) :
    Acc (fun later earlier => Step next blocked earlier later) w := by
  have lighter {later earlier : Walk} (step : Step next blocked earlier later) :
      later.weight next support < earlier.weight next support := by
    have weights := stepLighter covers step
    omega
  exact (Subrelation.wf lighter (measure (weight next support)).wf).apply w

theorem stuckDone (stuck : ∀ later, ¬ Step next blocked w later) : w.pending = [] := by
  obtain ⟨pending, found⟩ := w
  cases pending with
  | nil => rfl
  | cons id rest =>
    exfalso
    by_cases stopped : blocked id = true ∨ found.contains id = true
    · exact stuck _ (.pass (.refl _) stopped)
    · exact stuck _ (.enter (.refl _) stopped (.refl _))

theorem absorbRun (blocked : Nat → Bool) {support : Finset Nat} (covers : ∀ id ∉ support, next id = []) {n : Nat}
    {pending : List Nat} {s : IdSet} (enough : pending.length + load next support s ≤ n) :
    Relation.ReflTransGen (Step next blocked) ⟨pending, s⟩ ⟨[], absorb next blocked n pending s⟩ := by
  -- The weight is a bound for the steps, so they do not run out before the ids do.
  induction n generalizing pending s with
  | zero =>
    obtain rfl : pending = [] := List.eq_nil_of_length_eq_zero (by omega)
    exact .refl
  | succ n ih =>
    cases pending with
    | nil => exact .refl
    | cons id rest =>
      unfold absorb
      split
      · rename_i stopped
        have step : Step next blocked ⟨id :: rest, s⟩ ⟨rest, s⟩ :=
          .pass (.refl _) (by simpa using stopped)
        have lighter := stepLighter covers step
        simp only [weight] at lighter
        exact .head step (ih (by omega))
      · rename_i free
        have step : Step next blocked ⟨id :: rest, s⟩ ⟨next id ++ rest, s.insert id⟩ :=
          .enter (.refl _) (by simpa using free) (.refl _)
        have lighter := stepLighter covers step
        simp only [weight] at lighter
        exact .head step (ih (by omega))

theorem absorbSettles {support : Finset Nat} (covers : ∀ id ∉ support, next id = []) {n : Nat}
    {pending : List Nat} {s : IdSet} (enough : pending.length + load next support s ≤ n) :
    Settles next blocked ⟨pending, s⟩ (absorb next blocked n pending s) where
  ends := walkEnds covers _
  reached := absorbRun blocked covers enough
  only last run stuck := by
    obtain ⟨pending, found⟩ := last
    obtain rfl : pending = [] := stuckDone stuck
    refine ⟨rfl, fun v => Bool.eq_iff_iff.mpr ?_⟩
    have here := runReaches (v := v) run
    have there := runReaches (v := v) (absorbRun blocked covers enough)
    rw [reachesFound] at here there
    exact here.trans there.symm

end Steps
end Walk

theorem absorbNothing (next : Nat → List Nat) {blocked : Nat → Bool} {pending : List Nat} {s : IdSet}
    (stopped : ∀ id ∈ pending, blocked id = true ∨ s.contains id = true) (n : Nat) :
    absorb next blocked n pending s = s := by
  induction n generalizing pending with
  | zero => rfl
  | succ n ih =>
    cases pending with
    | nil => rfl
    | cons id rest =>
      obtain ⟨first, others⟩ := List.forall_mem_cons.mp stopped
      unfold absorb
      rw [if_pos (by simpa using first)]
      exact ih others

theorem networkTwice (x : Extract) (g : RelationGraph) :
    (x.addNetwork g).addNetwork g = x.addNetwork g := by
  have stopped : ∀ v ∈ x.primary.relations.toList.flatMap g.neighbors,
      x.primary.relations.contains v = true ∨
        (x.addNetwork g).extra.relations.contains v = true := by
    intro v mem
    rw [addNetworkRelations]
    by_cases stop : x.primary.relations.contains v = true ∨ x.extra.relations.contains v = true
    · exact stop.imp_right .inl
    · exact .inr (.inr (.start mem stop))
  have same := absorbNothing g.neighbors stopped
    ((x.primary.relations.toList.flatMap g.neighbors).length + (g.members.size + g.parents.size))
  exact congrArg (fun found => { x with extra := { x.extra with relations := found } }) same

theorem parentsTwice (x : Extract) (parents : Adjacency) :
    (x.addParents parents).addParents parents = x.addParents parents := by
  let y := x.addParents parents
  have known (v : Nat) : y.primary.relations.contains v = true ↔ _ := addParentsRelations x parents v
  have stopped : ∀ v ∈ y.primary.relations.toList.flatMap parents.get,
      x.extra.relations.contains v = true ∨ y.primary.relations.contains v = true := by
    intro v mem
    obtain ⟨u, u_in, edge⟩ := List.mem_flatMap.mp mem
    rw [IdSet.memToList, known] at u_in
    rw [known]
    by_cases stop : x.extra.relations.contains v = true ∨ x.primary.relations.contains v = true
    · exact stop.imp_right .inl
    · rcases u_in with seed | before
      · have mem : v ∈ x.primary.relations.toList.flatMap parents.get :=
          List.mem_flatMap.mpr ⟨u, IdSet.memToList.mpr seed, edge⟩
        exact .inr (.inr (.start mem stop))
      · exact .inr (.inr (.step before edge stop))
  have same := absorbNothing parents.get stopped
    ((y.primary.relations.toList.flatMap parents.get).length + parents.size)
  exact congrArg (fun found => { x with primary := { x.primary with relations := found } }) same

theorem networkExact (x : Extract) (rs : List Relation) :
    let g := RelationGraph.ofRelations rs
    let after := x.addNetwork g
    Walk.Settles g.neighbors x.primary.relations.contains
      ⟨x.primary.relations.toList.flatMap g.neighbors, x.extra.relations⟩ after.extra.relations ∧
    after = { x with extra := { x.extra with relations := after.extra.relations } } ∧
    (∀ v, after.extra.relations.contains v = true ↔ x.extra.relations.contains v = true ∨
      x.primary.relations.contains v = false ∧ ∃ p, x.primary.relations.contains p = true ∧
        Relation.TransGen (fun a b => Related rs a b ∧ x.extra.relations.contains b = false) p v) ∧
    after.addNetwork g = after ∧
    ((∀ id, x.extra.relations.contains id = false) → ∀ v,
      (x.primary.relations.contains v = true ∨ after.extra.relations.contains v = true) ↔
        ∃ p, x.primary.relations.contains p = true ∧ Relation.ReflTransGen (Related rs) p v) := by
  intro g after
  refine ⟨?_, rfl, fun v => ?_, networkTwice x g, fun fresh v => ?_⟩
  · exact Walk.absorbSettles (fun _ => g.neighborsOutside) (Nat.add_le_add_left (networkLoad g _) _)
  · rw [addNetworkRelations, reachAround (fun u => x.extra.relations.contains u = true)
      (fun _ _ => RelationGraph.memNeighbors) (fun u => by rw [IdSet.memToList])]
    simp only [IdSet.memToList, Bool.not_eq_true]
  · rw [addNetworkConnected x rs fresh]
    constructor
    · rintro (seed | ⟨_, found⟩)
      · exact ⟨v, seed, .refl⟩
      · exact found
    · intro found
      by_cases seed : x.primary.relations.contains v = true
      · exact .inl seed
      · exact .inr ⟨Bool.eq_false_iff.mpr seed, found⟩

theorem ancestorsExact (x : Extract) (rs : List Relation) :
    let parents := (Memberships.ofRelations rs).upward
    let after := x.addParents parents
    Walk.Settles parents.get x.extra.relations.contains
      ⟨x.primary.relations.toList.flatMap parents.get, x.primary.relations⟩ after.primary.relations ∧
    after = { x with primary := { x.primary with relations := after.primary.relations } } ∧
    (∀ v, after.primary.relations.contains v = true ↔ x.primary.relations.contains v = true ∨
      ∃ p, x.primary.relations.contains p = true ∧
        Relation.TransGen (fun member parent => RelationEdge rs parent member ∧
          x.extra.relations.contains parent = false) p v) ∧
    after.addParents parents = after := by
  intro parents after
  refine ⟨?_, rfl, fun v => ?_, parentsTwice x parents⟩
  · exact Walk.absorbSettles (fun _ => Adjacency.getOutside)
      (Nat.add_le_add_left (parentsLoad parents _) _)
  · have edges (a b : Nat) : b ∈ parents.get a ↔ RelationEdge rs b a := RelationGraph.memUpward
    rw [addParentsRelations, reachAround (fun u => x.extra.relations.contains u = true)
      edges (fun u => by rw [IdSet.memToList, or_comm])]
    simp only [IdSet.memToList, Bool.not_eq_true]
    by_cases seed : x.primary.relations.contains v = true <;> simp [seed]

end Cutout.Extract
