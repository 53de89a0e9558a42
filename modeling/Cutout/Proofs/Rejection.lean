import Cutout.Proofs.Exactness
import Cutout.Proofs.Writing
import Cutout.Run
/-! Inputs that are rejected in the first scan, by an element or by the source itself. The run ends
with the fault of the first such element; what is left are the finds in the complete batches before. -/
namespace Cutout

namespace InputOrder

inductive Refuses (last : Option Element) (e : Element) : Fault → Prop where
  | ownId (large : maxId < e.id.natAbs) : Refuses last e (.idOutOfRange e.kind e.id)
  | kind {f} (fits : e.id.natAbs ≤ maxId) (behind : last = some f)
      (back : e.kind.rank < f.kind.rank) :
      Refuses last e (.kindsOutOfOrder e.kind e.id f.kind f.id)
  | order {f} (fits : e.id.natAbs ≤ maxId) (behind : last = some f) (same : e.kind = f.kind)
      (back : ¬ IdsInOrder f.id e.id) : Refuses last e (.idsOutOfOrder e.kind e.id f.id)
  | named {kind id earlier later} (fits : e.id.natAbs ≤ maxId)
      (ordered : ∀ f, last = some f → InOrder f.place e.place)
      (names : references e = earlier ++ (kind, id) :: later)
      (small : ∀ place ∈ earlier, place.2.natAbs ≤ maxId) (large : maxId < id.natAbs) :
      Refuses last e (.idOutOfRange kind id)

theorem checkRangeRefuses {kind : Kind} {id : Int} {fault : Fault} :
    checkRange kind id = .error fault ↔ maxId < id.natAbs ∧ fault = .idOutOfRange kind id := by
  unfold checkRange
  split
  · simp only [reduceCtorEq, false_iff, not_and]
    omega
  · rename_i large
    rw [Except.error.injEq, eq_comm, and_iff_right (Nat.not_le.mp large)]

theorem checkReferencesRefuses {named : List (Kind × Int)} {fault : Fault}
    (refused : checkReferences named = .error fault) : ∃ earlier kind id later,
      named = earlier ++ (kind, id) :: later ∧ (∀ place ∈ earlier, place.2.natAbs ≤ maxId) ∧
        maxId < id.natAbs ∧ fault = .idOutOfRange kind id := by
  induction named with
  | nil => cases refused
  | cons place rest ih =>
    obtain ⟨kind, id⟩ := place
    unfold checkReferences at refused
    cases own : checkRange kind id with
    | error found =>
      rw [own] at refused
      cases refused
      obtain ⟨large, same⟩ := checkRangeRefuses.mp own
      exact ⟨[], kind, id, rest, rfl, by simp, large, same⟩
    | ok =>
      rw [own] at refused
      obtain ⟨earlier, other, far, later, rfl, small, large, same⟩ := ih refused
      refine ⟨(kind, id) :: earlier, other, far, later, rfl, ?_, large, same⟩
      exact List.forall_mem_cons.mpr ⟨checkRangeIff.mp own, small⟩

theorem acceptsRefuses {o : InputOrder} {last : Option Element}
    (recorded : o.last = last.map Element.place) {e : Element} {fault : Fault}
    (fits : e.id.natAbs ≤ maxId) (refused : o.accepts e.kind e.id = .error fault) :
    Refuses last e fault := by
  unfold accepts at refused
  cases last with
  | none => simp [recorded] at refused
  | some f =>
    simp only [recorded, Option.map_some, Element.place] at refused
    split at refused
    · rename_i back
      cases refused
      exact .kind fits rfl back
    · split at refused
      · rename_i before
        rw [Bool.and_eq_true, decide_eq_true_eq] at before
        cases refused
        refine .order fits rfl before.1 fun ordered => ?_
        rw [idBeforeIff.mpr ordered] at before
        exact Bool.false_ne_true before.2
      · cases refused

theorem checkElementRefuses {o : InputOrder} {last : Option Element}
    (recorded : o.last = last.map Element.place) {e : Element} {fault : Fault}
    (refused : (o.checkElement e).1 = .error fault) : Refuses last e fault := by
  unfold checkElement check at refused
  cases range : checkRange e.kind e.id with
  | error found =>
    simp only [range, Except.error.injEq] at refused
    obtain ⟨large, rfl⟩ := checkRangeRefuses.mp range
    exact refused ▸ .ownId large
  | ok =>
    have fits := checkRangeIff.mp range
    cases order : o.accepts e.kind e.id with
    | error found =>
      simp only [range, order, Except.error.injEq] at refused
      exact acceptsRefuses recorded fits (refused ▸ order)
    | ok =>
      simp only [range, order] at refused
      obtain ⟨earlier, kind, id, later, names, small, large, rfl⟩ :=
        checkReferencesRefuses refused
      refine .named fits (fun f behind => ?_) names small large
      subst behind
      exact acceptsIff.mp order f.place recorded

end InputOrder

namespace Strategy.Survey
variable {counts : Relation → Bool}

theorem observeRefuses {s : Survey} {last : Option Element}
    (recorded : s.order.last = last.map Element.place) {e : Element} {fault : Fault}
    (refused : s.observe counts e = .error fault) : InputOrder.Refuses last e fault := by
  unfold observe at refused
  cases checked : s.order.checkElement e with
  | mk result order =>
    simp only [checked] at refused
    cases result with
    | error found =>
      cases refused
      exact InputOrder.checkElementRefuses recorded (congrArg Prod.fst checked)
    | ok => cases e <;> cases refused

theorem orderOfObserved {elements : List Element} {after : Survey}
    (accepted : elements.foldlM (observe counts) start = .ok after) :
    after.order.last = elements.getLast?.map Element.place := by
  rcases List.eq_nil_or_concat elements with rfl | ⟨before, e, rfl⟩
  · cases accepted
    rfl
  · rw [List.concat_eq_append, List.foldlM_append, bindOk] at accepted
    obtain ⟨mid, _, last⟩ := accepted
    rw [List.foldlM_cons, bindOk] at last
    obtain ⟨_, taken, nothing⟩ := last
    cases nothing
    rw [(observeIff.mp taken).2, List.concat_eq_append, List.getLast?_concat]
    rfl

end Strategy.Survey
structure Outcome.StopsAfter (o : Outcome) (s : Strategy) (xs : List Extract) (seen : List Element)
    (fault : Fault) : Prop where
  result : o.result = .error fault
  scans : o.session.scans = [.all]
  extracts : o.session.extracts = xs.map (seen.foldl s.firstPass.visit)
  written : o.session.extracts.map Extract.written = xs.map Extract.written
  rounds : o.session.rounds = []

/-- Every run over the source stops so, and a program that makes it leaves its outputs as if it had not
got to read anything: opened, neither filled nor finished, and then removed. -/
structure Strategy.Rejects (s : Strategy) (source : Source) (seen : List Element) (fault : Fault) :
    Prop where
  stops : ∀ xs schedule, (s.run source xs schedule).StopsAfter s xs seen fault
  outputs : ∀ (m : Medium) (p : Run.Plan) (path : Path) (notes : List Note) (files : Files),
    p.strategy = s → let opened := Run.openAll p files p.config.entries
    opened.result = .ok () → Run.input? opened.files path = some source →
      ∃ told, Run.extract m p path notes files =
        Run.failed m fault told (opened.targets.map .start) (.start opened.files)

theorem Run.concludeUnwritten {outcome : Outcome} (unwritten : outcome.session.rounds = [])
    {fault : Fault} (fails : outcome.result = .error fault) (m : Medium) (notes : List Note)
    (targets : List Target) (files : Files) : conclude m outcome notes targets files =
      failed m fault (notes ++ outcome.session.notes) (targets.map .start) (.start files) := by
  unfold conclude
  rw [unwritten, fails]
  rfl

namespace Strategy

theorem firstPassWritten (s : Strategy) (x : Extract) (e : Element) :
    (s.firstPass.visit x e).written = x.written :=
  Extract.writtenOfFrame (s.firstPassFrame x e)

theorem endsFirstScan (s : Strategy) {source : Source} (rereadable : source.rereadable = true)
    (schedule : Schedule) (xs : List Extract) {result : List Extract × Except Fault Survey}
    (scanned : s.firstPass.overScan (schedule 0) (source.read .all false) .start xs = result) :
    (Step.pass schedule s.firstPass .start source).Ends ⟨xs, [], []⟩ result.2
      ⟨result.1, [.all], []⟩ := by
  have read : source.scan 0 s.firstPass.kinds s.firstPass.metadata = source.read .all false := by
    rw [s.firstPassAll, s.firstPassBare, source.scanRereadable rereadable]
  have ends := Step.endsPass schedule s.firstPass .start source xs [] []
    ((congrArg (fun scan => s.firstPass.overScan (schedule 0) scan .start xs) read).trans scanned)
  rw [s.firstPassAll] at ends
  exact ends

theorem rejectsOfScan (s : Strategy) {source : Source} (rereadable : source.rereadable = true)
    {seen : List Element} {fault : Fault}
    (scanned : ∀ turns xs, s.firstPass.overScan turns (source.read .all false) .start xs =
      (xs.map (seen.foldl s.firstPass.visit), .error fault)) : s.Rejects source seen fault := by
  have stops (xs : List Extract) (schedule : Schedule) :
      (s.run source xs schedule).StopsAfter s xs seen fault := by
    have first := s.endsFirstScan rereadable schedule xs (scanned (schedule 0) xs)
    obtain ⟨result, stands⟩ := (s.stepsStop first).outcome
    rw [← s.runSteps rereadable] at result stands
    have extracts := congrArg Stand.extracts stands
    refine ⟨result, congrArg Stand.scans stands, extracts, ?_, congrArg Stand.rounds stands⟩
    refine (congrArg (List.map Extract.written) extracts).trans ?_
    rw [List.map_map]
    exact List.map_congr_left fun x _ => Extract.foldKeeps s.firstPassWritten seen x
  refine ⟨stops, ?_⟩
  intro m p path notes files chosen opened ready found
  have stopped := stops (opened.targets.map fun t => .start t.region) .oneByOne
  subst chosen
  unfold Run.extract
  simp only [opened, ready, found]
  exact ⟨_, Run.concludeUnwritten stopped.rounds stopped.result m _ _ _⟩

theorem rejectionLeavesPrefix (s : Strategy) (source : Source) :
    let first := source.read .all false
    (source.rereadable = true → ¬ InputOrder.Accepts first.batches.flatten →
      ∃ (stop : Position) (fault : Fault), first.batches = stop.batches ∧
        InputOrder.Accepts stop.earlier ∧
        InputOrder.Refuses stop.earlier.getLast? stop.element fault ∧
        s.Rejects source stop.seen fault) ∧
    (source.rereadable = true → InputOrder.Accepts first.batches.flatten →
      ∀ fault, first.ending = .error fault → s.Rejects source first.batches.flatten fault) ∧
    (source.rereadable = false → ∀ xs schedule,
      s.run source xs schedule = ⟨.start xs, .error (.notRereadable s.name)⟩) := by
  intro first
  refine ⟨fun rereadable refused => ?_, fun rereadable accepted fault broken => ?_,
    fun single xs schedule => ?_⟩
  · cases checked : first.batches.flatten.foldlM s.firstPass.observe .start with
    | ok survey =>
      rw [s.firstPassObserves] at checked
      exact absurd (Survey.observeStart.mp ⟨survey, checked⟩) refused
    | error fault =>
      obtain ⟨stop, mid, cut, passed, stopped, scanned⟩ := s.firstPass.overScanStopped checked
      rw [s.firstPassObserves] at passed stopped
      have accepted := Survey.observeStart.mp ⟨mid, passed⟩
      have refuses := Survey.observeRefuses (Survey.orderOfObserved passed) stopped
      exact ⟨stop, fault, cut, accepted, refuses, s.rejectsOfScan rereadable scanned⟩
  · have checks : ∃ survey, first.batches.flatten.foldlM s.firstPass.observe .start = .ok survey := by
      rw [s.firstPassObserves]
      exact Survey.observeStart.mpr accepted
    obtain ⟨survey, checked⟩ := checks
    refine s.rejectsOfScan rereadable fun turns xs => ?_
    rw [s.firstPass.overScanPassed checked turns xs, broken]
    rfl
  · unfold run checkSource
    rw [single]
    rfl

/-! A node of the meridian, a second one in a batch with a way that leads too far, and a third batch that
is not reached; then the first two nodes before a read that breaks off. -/

def leadingFar : Scan where
  batches := [[.node ⟨1, ⟨0, 0⟩, [], none⟩],
    [.node ⟨2, ⟨0, 0⟩, [], none⟩, .way ⟨1, [1, 2, -9223372036854775808], [], none⟩],
    [.way ⟨2, [1], [], none⟩]]
  ending := .ok ()
  notes := []

def breakingOff : Scan where
  batches := [[.node ⟨1, ⟨0, 0⟩, [], none⟩], [.node ⟨2, ⟨0, 0⟩, [], none⟩]]
  ending := .error .blobUndecodable
  notes := []

def repeating (rereadable : Bool) (scan : Scan) : Source := ⟨"scan", rereadable, 0, fun _ _ => scan⟩

theorem meridianRejections :
    let s := systems networks
    let far := s.run (repeating true leadingFar) [.start meridian]
    let broken := s.run (repeating true breakingOff) [.start meridian]
    let single := s.run (repeating false leadingFar) [.start meridian]
    (∃ (stop : Position) (fault : Fault), leadingFar.batches = stop.batches ∧
      InputOrder.Refuses stop.earlier.getLast? stop.element fault ∧
      s.Rejects (repeating true leadingFar) stop.seen fault) ∧
    far.result = .error (.idOutOfRange .node (-9223372036854775808)) ∧
    far.session.extracts.map idsOf = [[[1], [], [], [], [], []]] ∧
    s.Rejects (repeating true breakingOff) breakingOff.batches.flatten .blobUndecodable ∧
    broken.session.extracts.map idsOf = [[[1, 2], [], [], [], [], []]] ∧
    single = ⟨.start [.start meridian], .error (.notRereadable s.name)⟩ := by
  have far := rejectionLeavesPrefix (systems networks) (repeating true leadingFar)
  have broken := rejectionLeavesPrefix (systems networks) (repeating true breakingOff)
  have single := rejectionLeavesPrefix (systems networks) (repeating false leadingFar)
  obtain ⟨stop, fault, cut, _, refuses, rejects⟩ := far.1 rfl (by decide)
  have stopped := broken.2.1 rfl (by decide) .blobUndecodable rfl
  exact ⟨⟨stop, fault, cut, refuses, rejects⟩, by decide +kernel, by decide +kernel, stopped,
    by decide +kernel, single.2.2 rfl _ _⟩

end Strategy
end Cutout
