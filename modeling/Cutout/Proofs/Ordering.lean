import Mathlib.Data.Bool.Basic
import Mathlib.Data.Prod.Lex
import Cutout.Proofs.Histories
import Cutout.Proofs.Sorted
/-! The check of an input's order, call by call, going on behind faults. Places are compared by a key,
and the place on record is the greatest one in range that has been shown so far; so a call is judged by
all calls before it, though it looks at one of them only. -/
namespace Cutout

def orderKey (place : Kind × Int) : Nat ×ₗ Bool ×ₗ Nat :=
  toLex (place.1.rank, toLex (decide (0 < place.2), place.2.natAbs))

theorem inOrderIff {a b : Kind × Int} : InOrder a b ↔ orderKey a ≤ orderKey b := by
  have kinds : a.1 = b.1 ↔ a.1.rank = b.1.rank := ⟨congrArg Kind.rank, InputOrder.rankEq⟩
  simp only [InOrder, IdsInOrder, orderKey, Prod.Lex.toLex_le_toLex, Bool.lt_iff, kinds,
    decide_eq_true_eq, decide_eq_false_iff_not, decide_eq_decide, Int.not_lt]

theorem orderKeyInj {a b : Kind × Int} (same : orderKey a = orderKey b) : a = b := by
  simp only [orderKey, EmbeddingLike.apply_eq_iff_eq, Prod.mk.injEq, decide_eq_decide] at same
  obtain ⟨ranks, positive, size⟩ := same
  exact Prod.ext (InputOrder.rankEq ranks) (by omega)

namespace InputOrder

theorem checkAnswer (o : InputOrder) (kind : Kind) (id : Int) :
    o.check kind id = (.ok (), ⟨some (kind, id)⟩) ∨ ∃ fault, o.check kind id = (.error fault, o) := by
  unfold check
  cases checkRange kind id with
  | error fault => exact .inr ⟨fault, rfl⟩
  | ok =>
    cases o.accepts kind id with
    | error fault => exact .inr ⟨fault, rfl⟩
    | ok => exact .inl rfl

inductive Call where
  | alone (kind : Kind) (id : Int)
  | element (e : Element)

namespace Call

def place : Call → Kind × Int
  | alone kind id => (kind, id)
  | element e => e.place

def named : Call → List (Kind × Int)
  | alone _ _ => []
  | element e => references e

def answer (o : InputOrder) : Call → Except Fault Unit × InputOrder
  | alone kind id => o.check kind id
  | element e => o.checkElement e

def InRange (call : Call) : Prop := call.place.2.natAbs ≤ maxId

def NamesInRange (call : Call) : Prop := ∀ named ∈ call.named, named.2.natAbs ≤ maxId

def Passes (call : Call) (o : InputOrder) : Prop :=
  call.InRange ∧ ∀ last, o.last = some last → orderKey last ≤ orderKey call.place

theorem passesIff {call : Call} {o : InputOrder} :
    call.Passes o ↔ call.InRange ∧ o.Admits call.place := by
  simp only [Passes, Admits, inOrderIff]

theorem answerIs (call : Call) (o : InputOrder) : call.answer o =
    ((o.check call.place.1 call.place.2).1 >>= fun _ => checkReferences call.named,
      (o.check call.place.1 call.place.2).2) := by
  cases call with
  | alone kind id =>
    simp only [answer, place, named]
    rcases o.check kind id with ⟨_ | _, next⟩ <;> rfl
  | element e =>
    simp only [answer, place, named, checkElement, Element.place]
    rcases o.check e.kind e.id with ⟨_ | _, next⟩ <;> rfl

structure Judged (call : Call) (o : InputOrder) : Prop where
  accepted : (call.answer o).1 = .ok () ↔ call.Passes o ∧ call.NamesInRange
  recorded : call.Passes o → (call.answer o).2.last = some call.place
  kept : ¬ call.Passes o → (call.answer o).2 = o

theorem judged (call : Call) (o : InputOrder) : call.Judged o := by
  have passes : o.check call.place.1 call.place.2 = (.ok (), ⟨some call.place⟩) ↔ call.Passes o := by
    rw [checkIff, and_iff_left rfl, passesIff]
    rfl
  rcases o.checkAnswer call.place.1 call.place.2 with checked | ⟨fault, refused⟩
  · have own := passes.mp checked
    refine ⟨?_, fun _ => ?_, absurd own⟩
    · rw [answerIs, checked, and_iff_right own]
      exact checkReferencesIff
    · rw [answerIs, checked]
  · have other : ¬ call.Passes o := fun own => by
      rw [passes.mpr own] at refused
      cases refused
    refine ⟨?_, fun own => absurd own other, fun _ => ?_⟩
    · rw [answerIs, refused]
      exact iff_of_false (by rintro ⟨⟩) (fun given => other given.1)
    · rw [answerIs, refused]

end Call

def judge (calls : List Call) : List (Except Fault Unit) × InputOrder :=
  callAll (fun o call => call.answer o) calls .start

theorem judgeSnoc (calls : List Call) (call : Call) : judge (calls ++ [call]) =
    ((judge calls).1 ++ [(call.answer (judge calls).2).1], (call.answer (judge calls).2).2) :=
  callAllAppend (fun o call => Call.answer o call) calls [call] start

structure Greatest (last : Option (Kind × Int)) (calls : List Call) : Prop where
  shown : ∀ place, last = some place → ∃ call ∈ calls, call.InRange ∧ call.place = place
  highest : ∀ call ∈ calls, call.InRange →
    ∃ place, last = some place ∧ orderKey call.place ≤ orderKey place

theorem Greatest.step {o : InputOrder} {calls : List Call} (greatest : Greatest o.last calls)
    (call : Call) : Greatest (call.answer o).2.last (calls ++ [call]) := by
  have own : call ∈ calls ++ [call] := List.mem_append_right _ List.mem_cons_self
  by_cases passes : call.Passes o
  · rw [(call.judged o).recorded passes]
    refine ⟨fun place same => ⟨call, own, passes.1, Option.some.inj same⟩, fun other mem inside => ?_⟩
    rcases List.mem_append.mp mem with before | same
    · obtain ⟨place, last, below⟩ := greatest.highest other before inside
      exact ⟨call.place, rfl, below.trans (passes.2 place last)⟩
    · rw [List.mem_singleton.mp same]
      exact ⟨call.place, rfl, le_refl _⟩
  · rw [(call.judged o).kept passes]
    refine ⟨fun place last => ?_, fun other mem inside => ?_⟩
    · obtain ⟨earlier, mem, shown⟩ := greatest.shown place last
      exact ⟨earlier, List.mem_append_left _ mem, shown⟩
    · rcases List.mem_append.mp mem with before | same
      · exact greatest.highest other before inside
      · rw [List.mem_singleton.mp same] at inside ⊢
        have above := not_and.mp passes inside
        simp only [not_forall] at above
        obtain ⟨place, last, above⟩ := above
        exact ⟨place, last, le_of_not_ge above⟩

theorem greatestRecorded (calls : List Call) : Greatest (judge calls).2.last calls := by
  induction calls using List.reverseRecOn with
  | nil => exact ⟨nofun, List.forall_mem_nil _⟩
  | append_singleton calls call ih =>
    rw [judgeSnoc]
    exact ih.step call

theorem recordedIff {calls : List Call} {place : Kind × Int} : (judge calls).2.last = some place ↔
    (∃ call ∈ calls, call.InRange ∧ call.place = place) ∧
      ∀ call ∈ calls, call.InRange → orderKey call.place ≤ orderKey place := by
  have greatest := greatestRecorded calls
  constructor
  · intro last
    refine ⟨greatest.shown place last, fun call mem inside => ?_⟩
    obtain ⟨other, same, below⟩ := greatest.highest call mem inside
    rw [last] at same
    exact Option.some.inj same ▸ below
  · rintro ⟨⟨call, mem, inside, rfl⟩, highest⟩
    obtain ⟨last, recorded, below⟩ := greatest.highest call mem inside
    obtain ⟨other, listed, inRange, same⟩ := greatest.shown last recorded
    have above := highest other listed inRange
    rw [recorded, orderKeyInj (le_antisymm below (same ▸ above))]

theorem passesAll {calls : List Call} {call : Call} : call.Passes (judge calls).2 ↔
    call.InRange ∧
      ∀ earlier ∈ calls, earlier.InRange → orderKey earlier.place ≤ orderKey call.place := by
  refine and_congr_right fun _ => ⟨fun behind earlier mem inside => ?_, fun behind last recorded => ?_⟩
  · obtain ⟨last, recorded, below⟩ := (greatestRecorded calls).highest earlier mem inside
    exact below.trans (behind last recorded)
  · obtain ⟨⟨earlier, mem, inside, rfl⟩, _⟩ := recordedIff.mp recorded
    exact behind earlier mem inside

theorem acceptedAll (calls : List Call) : (∀ answer ∈ (judge calls).1, answer = .ok ()) ↔
    calls.Pairwise (fun a b => orderKey a.place ≤ orderKey b.place) ∧
      ∀ call ∈ calls, call.InRange ∧ call.NamesInRange := by
  induction calls using List.reverseRecOn with
  | nil => exact ⟨fun _ => ⟨.nil, List.forall_mem_nil _⟩, fun _ => List.forall_mem_nil _⟩
  | append_singleton calls call ih =>
    rw [judgeSnoc, List.forall_mem_append, List.forall_mem_singleton, ih,
      (call.judged _).accepted, passesAll, List.pairwise_append, List.forall_mem_append,
      List.forall_mem_singleton]
    simp only [List.pairwise_singleton, List.mem_singleton, forall_eq, true_and]
    constructor
    · rintro ⟨⟨sorted, fits⟩, ⟨inside, behind⟩, names⟩
      exact ⟨⟨sorted, fun earlier mem => behind earlier mem (fits earlier mem).1⟩, fits, inside, names⟩
    · rintro ⟨⟨sorted, behind⟩, fits, inside, names⟩
      exact ⟨⟨sorted, fits⟩, ⟨inside, fun earlier mem _ => behind earlier mem⟩, names⟩

theorem orderExact (calls : List Call) :
    (∀ before call after, calls = before ++ call :: after →
      let o := (judge before).2
      let next := (judge (before ++ [call])).2
      ((judge calls).1[before.length]? = some (.ok ()) ↔ call.Passes o ∧ call.NamesInRange) ∧
      (call.Passes o → next.last = some call.place) ∧ (¬ call.Passes o → next = o)) ∧
    (∀ before after, calls = before ++ after → ∀ earlier, (judge before).2.last = some earlier →
      ∃ last, (judge calls).2.last = some last ∧ orderKey earlier ≤ orderKey last) ∧
    (∀ place, (judge calls).2.last = some place ↔
      (∃ call ∈ calls, call.InRange ∧ call.place = place) ∧
        ∀ call ∈ calls, call.InRange → orderKey call.place ≤ orderKey place) ∧
    ((∀ answer ∈ (judge calls).1, answer = .ok ()) ↔
      calls.Pairwise (fun a b => orderKey a.place ≤ orderKey b.place) ∧
        ∀ call ∈ calls, call.InRange ∧ call.NamesInRange) := by
  refine ⟨?_, ?_, fun place => recordedIff, acceptedAll calls⟩
  · rintro before call after rfl
    have judged := call.judged (judge before).2
    refine ⟨?_, ?_, ?_⟩
    · rw [judge, answerAt, Option.some.injEq]
      exact judged.accepted
    · rw [judgeSnoc]
      exact judged.recorded
    · rw [judgeSnoc]
      exact judged.kept
  · rintro before after rfl earlier recorded
    obtain ⟨call, mem, inside, rfl⟩ := (greatestRecorded before).shown earlier recorded
    exact (greatestRecorded (before ++ after)).highest call (List.mem_append_left _ mem) inside

end InputOrder
end Cutout
