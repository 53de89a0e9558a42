import Mathlib.Algebra.Order.Ring.Nat
import Mathlib.Data.List.Forall2
import Mathlib.Data.List.Infix
import Cutout.Progress
import Cutout.Proofs.Histories
/-! The progress bar over any calls. What it counts is the bytes of the reads that are complete and the offset
of the one under way; its percentage is their share of the total, which does not fall as long as the offsets
of a read do not. -/
namespace Cutout.Progress

inductive Call where
  | update (offset : Nat)
  | fileDone (size : Nat)
  | remove
  | done
  deriving DecidableEq, Repr

namespace Call

def make : Call → Progress → Progress × String
  | update offset, p => p.update offset
  | fileDone size, p => p.fileDone size
  | remove, p => p.remove
  | done, p => p.done

def reports : Call → Bool
  | update _ | fileDone _ => true
  | remove | done => false

def size : Call → Nat
  | fileDone size => size
  | _ => 0

end Call

def call (p : Progress) (c : Call) : (Nat × String) × Progress :=
  let (p, text) := c.make p
  ((p.percent, text), p)

def sizes (calls : List Call) : Nat := (calls.map Call.size).sum

def offset (calls : List Call) : Nat :=
  match (calls.filter Call.reports).getLast? with
  | some (.update offset) => offset
  | _ => 0

def bytes (calls : List Call) : Nat := sizes calls + offset calls

def share (total bytes : Nat) : Nat := if total = 0 then 0 else 100 * min bytes total / total

theorem shareAll (total bytes : Nat) : share total bytes ≤ 100 := by
  unfold share
  split
  · exact Nat.zero_le 100
  · rename_i some_byte
    refine (Nat.div_le_div_right (Nat.mul_le_mul_left 100 (Nat.min_le_right bytes total))).trans ?_
    exact (Nat.mul_div_cancel 100 (Nat.pos_of_ne_zero some_byte)).le

theorem shareMono (total : Nat) {few more : Nat} (le : few ≤ more) : share total few ≤ share total more := by
  unfold share
  split
  · exact Nat.le_refl 0
  · exact Nat.div_le_div_right (Nat.mul_le_mul_left 100 (by omega))

section Snoc
variable (calls : List Call)

theorem sizesSnoc (c : Call) : sizes (calls ++ [c]) = sizes calls + c.size := by
  simp [sizes]

theorem offsetUpdate (n : Nat) : offset (calls ++ [.update n]) = n := by
  simp [offset, Call.reports]

theorem offsetFileDone (n : Nat) : offset (calls ++ [.fileDone n]) = 0 := by
  simp [offset, Call.reports]

theorem offsetOther {c : Call} (silent : c.reports = false) : offset (calls ++ [c]) = offset calls := by
  simp [offset, silent]

end Snoc

theorem callLeaves (p : Progress) (c : Call) :
    let after := (call p c).2
    after.total = p.total ∧ after.enabled = p.enabled ∧
    after.finished = (match c with | .fileDone size => wrapped (p.finished + size) | _ => p.finished) ∧
    after.current = (match c with | .update offset => offset | .fileDone _ => 0 | _ => p.current) := by
  cases c with
  | update offset =>
    simp only [call, Call.make, update]
    split <;> exact ⟨rfl, rfl, rfl, rfl⟩
  | fileDone size =>
    simp only [call, Call.make, fileDone]
    split <;> exact ⟨rfl, rfl, rfl, rfl⟩
  | remove =>
    simp only [call, Call.make, remove]
    split <;> exact ⟨rfl, rfl, rfl, rfl⟩
  | done =>
    simp only [call, Call.make, done]
    split <;> exact ⟨rfl, rfl, rfl, rfl⟩

structure Counts (total : Nat) (enabled : Bool) (calls : List Call) (p : Progress) : Prop where
  whole : p.total = total
  shown : p.enabled = (enabled && total ≠ 0)
  finished : p.finished = sizes calls
  current : p.current = offset calls

section Counts
variable {total : Nat} {enabled : Bool} {calls : List Call} {p : Progress}

theorem countsStart : Counts total enabled [] (start total enabled) := ⟨rfl, rfl, rfl, rfl⟩

theorem countsCall (counts : Counts total enabled calls p) {c : Call}
    (fits : bytes (calls ++ [c]) < 2 ^ 64) : Counts total enabled (calls ++ [c]) (call p c).2 := by
  obtain ⟨whole, shown, finished, current⟩ := callLeaves p c
  have size := sizesSnoc calls c
  refine ⟨whole.trans counts.whole, shown.trans counts.shown, ?_, ?_⟩
  · rw [finished, size]
    cases c with
    | fileDone n =>
      have small : sizes calls + n < 2 ^ 64 := by
        rw [bytes, size] at fits
        exact (Nat.le_add_right _ _).trans_lt fits
      rw [counts.finished]
      exact Nat.mod_eq_of_lt small
    | update n => exact counts.finished
    | remove => exact counts.finished
    | done => exact counts.finished
  · rw [current]
    cases c with
    | update n => exact (offsetUpdate calls n).symm
    | fileDone n => exact (offsetFileDone calls n).symm
    | remove => exact counts.current.trans (offsetOther calls rfl).symm
    | done => exact counts.current.trans (offsetOther calls rfl).symm

theorem percentShare (counts : Counts total enabled calls p) (small : 100 * total < 2 ^ 64)
    (fits : bytes calls < 2 ^ 64) : p.percent = share total (bytes calls) := by
  have sum : wrapped (p.finished + p.current) = bytes calls := by
    rw [counts.finished, counts.current]
    exact Nat.mod_eq_of_lt fits
  have product : wrapped (min (bytes calls) total * 100) = 100 * min (bytes calls) total := by
    rw [Nat.mul_comm]
    refine Nat.mod_eq_of_lt (Nat.lt_of_le_of_lt ?_ small)
    exact Nat.mul_le_mul_left 100 (Nat.min_le_right _ _)
  rw [percent, share, counts.whole, sum, product]

end Counts

def IsBar (percent : Nat) (text : String) : Prop :=
  ∃ filled blank pad, filled = percent / 5 ∧ filled + blank = cells ∧
    pad + (toString percent).length = 3 ∧
    text = "\r[" ++ chars filled '=' ++ chars blank ' ' ++ "] " ++ chars pad ' ' ++ toString percent ++ "%"

inductive Shows (percent : Nat) : Call → String → Prop where
  | same (offset : Nat) : Shows percent (.update offset) ""
  | update {text} (offset : Nat) (bar : IsBar percent text) : Shows percent (.update offset) text
  | fileDone {text} (size : Nat) (bar : IsBar percent text) : Shows percent (.fileDone size) text
  | away : Shows percent .remove ""
  | remove : Shows percent .remove ("\r" ++ chars 40 ' ' ++ "\r")
  | done {text} (bar : IsBar 100 text) : Shows percent .done (text ++ "\n")

theorem barIs {percent : Nat} (part : percent ≤ 100) : IsBar percent (bar percent) := by
  have short : ∀ percent ≤ 100, (toString percent).length ≤ 3 := by decide +kernel
  have wide := short percent part
  have twenty : cells = 20 := rfl
  refine ⟨percent / 5, cells - percent / 5, 3 - (toString percent).length, rfl, by omega, by omega, ?_⟩
  simp only [bar, String.append_assoc]

theorem shows {p : Progress} (on : p.enabled = true) (c : Call) (part : (call p c).2.percent ≤ 100) :
    Shows (call p c).1.1 c (call p c).1.2 := by
  cases c with
  | update offset =>
    simp only [call, Call.make, update] at part ⊢
    split
    · rename_i redrawn
      rw [if_pos redrawn] at part
      exact .update offset (barIs part)
    · exact .same offset
  | fileDone size =>
    simp only [call, Call.make, fileDone, on, if_true] at part ⊢
    exact .fileDone size (barIs part)
  | remove =>
    simp only [call, Call.make, remove]
    split
    · exact .remove
    · exact .away
  | done =>
    simp only [call, Call.make, done, on, if_true]
    exact .done (barIs (Nat.le_refl 100))

theorem silentCall {p : Progress} (off : p.enabled = false) (gone : p.visible = false) (c : Call) :
    (call p c).1.2 = "" ∧ (call p c).2.enabled = false ∧ (call p c).2.visible = false := by
  cases c <;> simp [call, Call.make, update, fileDone, remove, done, off, gone]

theorem silentAll {p : Progress} (off : p.enabled = false) (gone : p.visible = false) (calls : List Call) :
    ∀ answer ∈ (callAll call calls p).1, answer.2 = "" := by
  induction calls generalizing p with
  | nil => exact List.forall_mem_nil _
  | cons c rest ih =>
    obtain ⟨nothing, off, gone⟩ := silentCall off gone c
    exact List.forall_mem_cons.mpr ⟨nothing, ih off gone⟩

section Runs
variable {total : Nat} {enabled : Bool} {calls : List Call}

def Fits (calls : List Call) : Prop := ∀ before ∈ calls.inits, bytes before < 2 ^ 64

instance : Decidable (Fits calls) := List.decidableBAll _ _

theorem initsSnoc (c : Call) : (calls ++ [c]).inits = calls.inits ++ [calls ++ [c]] := by
  rw [List.inits_append]
  rfl

theorem fitsSnoc {c : Call} (fits : Fits (calls ++ [c])) : Fits calls ∧ bytes (calls ++ [c]) < 2 ^ 64 := by
  rw [Fits, initsSnoc, List.forall_mem_append, List.forall_mem_singleton] at fits
  exact fits

structure Ran (total : Nat) (enabled : Bool) (calls : List Call) : Prop where
  counts : Counts total enabled calls (callAll call calls (start total enabled)).2
  percents : (start total enabled).percent :: (callAll call calls (start total enabled)).1.map Prod.fst =
    calls.inits.map fun before => share total (bytes before)
  shown : enabled = true → total ≠ 0 →
    List.Forall₂ (fun c answer => Shows answer.1 c answer.2) calls (callAll call calls (start total enabled)).1

theorem ranAll (small : 100 * total < 2 ^ 64) (fits : Fits calls) : Ran total enabled calls := by
  induction calls using List.reverseRecOn with
  | nil =>
    have counts : Counts total enabled [] (start total enabled) := countsStart
    have first := percentShare counts small (Nat.two_pow_pos 64)
    exact ⟨counts, congrArg (fun percent => [percent]) first, fun _ _ => .nil⟩
  | append_singleton calls c ih =>
    obtain ⟨before, all⟩ := fitsSnoc fits
    obtain ⟨counts, percents, shown⟩ := ih before
    have last := countsCall counts all
    have percent := percentShare last small all
    refine ⟨?_, ?_, fun on some_byte => ?_⟩
    · rw [callAllAppend]
      exact last
    · rw [callAllAppend, initsSnoc, List.map_append, List.map_append, ← percents, List.map_singleton, ← percent]
      rfl
    · have still_on : (callAll call calls (start total enabled)).2.enabled = true := by
        rw [counts.shown, on, decide_eq_true some_byte]
        rfl
      rw [callAllAppend]
      refine List.rel_append (shown on some_byte) (.cons (shows still_on c ?_) .nil)
      rw [percent]
      exact shareAll total _

/-- Reads of files, one after the other: the offsets of a read go up to its size at most and do not fall, and
with its size it is complete. The first one is under way at `offset`. -/
inductive Passes : (size offset : Nat) → List Call → Prop where
  | ends (size offset : Nat) : Passes size offset []
  | update {size offset next rest} (ahead : offset ≤ next) (within : next ≤ size)
      (more : Passes size next rest) : Passes size offset (.update next :: rest)
  | fileDone {size offset other rest} (more : Passes other 0 rest) :
      Passes size offset (.fileDone size :: rest)
  | remove {size offset rest} (more : Passes size offset rest) : Passes size offset (.remove :: rest)
  | done {size offset rest} (more : Passes size offset rest) : Passes size offset (.done :: rest)

theorem Passes.step {size from_offset : Nat} {c : Call} {rest prior : List Call}
    (passes : Passes size from_offset (c :: rest)) (here : offset prior = from_offset)
    (within : from_offset ≤ size) : bytes prior ≤ bytes (prior ++ [c]) ∧
      ∃ size, offset (prior ++ [c]) ≤ size ∧ Passes size (offset (prior ++ [c])) rest := by
  rw [bytes, bytes, sizesSnoc]
  cases passes with
  | update ahead inside more =>
    rw [offsetUpdate, here]
    exact ⟨Nat.add_le_add_left ahead _, size, inside, more⟩
  | @fileDone _ _ other _ more =>
    rw [offsetFileDone, here]
    exact ⟨Nat.add_le_add_left within _, other, Nat.zero_le _, more⟩
  | remove more =>
    rw [offsetOther prior rfl, here]
    exact ⟨Nat.le_refl _, size, within, more⟩
  | done more =>
    rw [offsetOther prior rfl, here]
    exact ⟨Nat.le_refl _, size, within, more⟩

theorem Passes.ascend {size : Nat} {calls prior : List Call} (passes : Passes size (offset prior) calls)
    (within : offset prior ≤ size) :
    (∀ next ∈ calls.inits, bytes prior ≤ bytes (prior ++ next)) ∧
      (calls.inits.map fun next => bytes (prior ++ next)).Pairwise (· ≤ ·) := by
  induction calls generalizing size prior with
  | nil => simp
  | cons c rest ih =>
    obtain ⟨grows, other, inside, more⟩ := passes.step rfl within
    obtain ⟨above, ascend⟩ := ih more inside
    simp only [List.append_assoc, List.singleton_append] at above ascend
    have least : ∀ next ∈ (c :: rest).inits, bytes prior ≤ bytes (prior ++ next) := by
      rw [List.inits_cons]
      refine List.forall_mem_cons.mpr ⟨by rw [List.append_nil], List.forall_mem_map.mpr fun next mem => ?_⟩
      exact grows.trans (above next mem)
    refine ⟨least, ?_⟩
    rw [List.inits_cons, List.map_cons, List.map_map]
    refine List.pairwise_cons.mpr ⟨List.forall_mem_map.mpr fun next mem => ?_, ascend⟩
    rw [List.append_nil]
    exact grows.trans (above next mem)

end Runs

/-- Behind every call the percentage is the share that the calls so far have of the total, so it is at most
a hundred and all bars have twenty cells; it does not fall in reads one after the other, and a bar that is
not shown or has no total writes nothing. -/
theorem barExact {total : Nat} (small : 100 * total < 2 ^ 64) (enabled : Bool) {calls : List Call}
    (fits : Fits calls) :
    let answers := (callAll call calls (start total enabled)).1
    let percents := (start total enabled).percent :: answers.map Prod.fst
    percents = calls.inits.map (fun before => share total (sizes before + offset before)) ∧
    (∀ percent ∈ percents, percent ≤ 100) ∧
    (enabled = true → total ≠ 0 →
      List.Forall₂ (fun c answer => Shows answer.1 c answer.2) calls answers) ∧
    (enabled = false ∨ total = 0 → ∀ answer ∈ answers, answer.2 = "") ∧
    ∀ size, Passes size 0 calls → percents.Pairwise (· ≤ ·) := by
  intro answers percents
  have ran : Ran total enabled calls := ranAll small fits
  have exact : percents = calls.inits.map fun before => share total (bytes before) := ran.percents
  refine ⟨exact, ?_, ran.shown, fun off => ?_, fun size passes => ?_⟩
  · rw [exact]
    exact List.forall_mem_map.mpr fun before _ => shareAll total _
  · refine silentAll ?_ rfl calls
    rcases off with off | none
    · simp [start, off]
    · simp [start, none]
  · have ascend : (calls.inits.map fun next => bytes ([] ++ next)).Pairwise (· ≤ ·) :=
      (Passes.ascend passes (Nat.zero_le size)).2
    rw [exact, List.pairwise_map]
    rw [List.pairwise_map] at ascend
    exact ascend.imp fun le => shareMono total le

theorem twoReadsShown :
    let calls : List Call := [.update 100, .update 250, .fileDone 250, .remove, .update 101, .fileDone 250]
    let answers := (callAll call calls (start 750 true)).1
    100 * 750 < 2 ^ 64 ∧ Fits calls ∧ Passes 250 0 calls ∧
    answers.map Prod.fst = [13, 33, 33, 33, 46, 66] ∧ answers.all (fun answer => answer.2 ≠ "") ∧
    ((start 750 true).percent :: answers.map Prod.fst).Pairwise (· ≤ ·) := by
  intro calls answers
  have small : 100 * 750 < 2 ^ 64 := by decide
  have fits : Fits calls := by decide +kernel
  have passes : Passes 250 0 calls :=
    .update (by decide) (by decide) (.update (by decide) (by decide) (.fileDone (.remove
      (.update (by decide) (by decide) (.fileDone (.ends 0 0))))))
  have exact := barExact small true fits
  exact ⟨small, fits, passes, by decide +kernel, by decide +kernel, exact.2.2.2.2 250 passes⟩

end Cutout.Progress
