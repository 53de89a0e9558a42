import Cutout.Proofs.Cleanup
import Cutout.Proofs.Writing
/-! What a run that goes through leaves. Each output file has the document of the elements that its extract
includes in the end, all other files are as they were, and the counts that are told are those of the
documents. -/
namespace Cutout

theorem Tally.countAll (elements : List Element) (t : Tally) : elements.foldl count t =
    ⟨t.nodes + elements.countP fun e => e.kind = .node,
      t.ways + elements.countP fun e => e.kind = .way,
      t.relations + elements.countP fun e => e.kind = .relation⟩ := by
  induction elements generalizing t with
  | nil => simp
  | cons e rest ih =>
    rw [List.foldl_cons, ih]
    cases kind : e.kind <;> simp [count, kind] <;> omega

theorem Tally.ofElementsIs (elements : List Element) : ofElements elements =
    ⟨elements.countP fun e => e.kind = .node, elements.countP fun e => e.kind = .way,
      elements.countP fun e => e.kind = .relation⟩ := by
  rw [ofElements, countAll]
  simp

namespace Run
variable {files g : Files} {path : Path} {source : Source}

theorem inputKept (within : files.Within g)
    (same : g.get? (Files.reach path) = files.get? (Files.reach path))
    (opened : input? files path = some source) : input? g path = some source := by
  unfold input? at opened ⊢
  split
  · rename_i standard
    rwa [if_pos standard] at opened
  · rename_i file
    rw [if_neg file] at opened
    obtain ⟨place, leads, opened⟩ := Option.bind_eq_some_iff.mp opened
    refine Option.bind_eq_some_iff.mpr ⟨place, Files.placeMore within leads, ?_⟩
    rw [Files.placeReach leads] at opened ⊢
    rw [same]
    cases there : files.get? (Files.reach path) with
    | some content =>
      rw [there] at opened
      exact opened
    | none =>
      simp only [there] at opened ⊢
      split at opened
      · rename_i directory
        rw [if_pos (within.isDirectory directory)]
        exact opened
      · cases opened

theorem inputContent (opened : input? files path = some source) (rereadable : source.rereadable = true)
    (ends : (source.read .all true).ending = .ok ()) :
    ∃ content, files.fileAt path = some content ∧ source = Pbf.source path content.toBytes := by
  have file := inputRereadable opened
  rw [rereadable] at file
  unfold input? at opened
  split at opened
  · rename_i standard
    simp [standard] at file
  · obtain ⟨place, leads, opened⟩ := Option.bind_eq_some_iff.mp opened
    cases there : files.get? place with
    | some content =>
      simp only [there] at opened
      cases opened
      exact ⟨content, by simp [Files.fileAt, leads, there], rfl⟩
    | none =>
      simp only [there] at opened
      split at opened
      · cases opened
        cases ends
      · cases opened

theorem extractSucceeds {m : Medium} {p : Plan} {notes : List Note}
    (succeeds : (extract m p path notes files).result = .ok ()) :
    let opened := openAll p files p.config.entries
    opened.result = .ok () ∧ ∃ source told, input? opened.files path = some source ∧
      let outcome := p.strategy.run source (opened.targets.map fun t => .start t.region)
      extract m p path notes files = conclude m outcome told opened.targets opened.files := by
  intro opened
  unfold extract at succeeds ⊢
  dsimp only at succeeds ⊢
  split at succeeds
  · cases succeeds
  · rename_i whole
    split at succeeds
    · cases succeeds
    · rename_i source there
      exact ⟨whole, source, _, there, rfl⟩

theorem concludeSucceeds {m : Medium} {outcome : Outcome} {notes : List Note}
    {targets : List Target} (succeeds : (conclude m outcome notes targets files).result = .ok ()) :
    let filled := fill m (targets.map .start) outcome.session.rounds (.start files)
    let closed := finish m filled.sender filled.delivery
    outcome.result = .ok () ∧ filled.result = .ok () ∧ closed.result = .ok () ∧
      conclude m outcome notes targets files = ⟨.ok (), notes ++ outcome.session.notes ++
        counts closed.sender ++ [.info s!"Done! Wrote {targets.length} extracts"],
        closed.delivery.stream, closed.delivery.files⟩ := by
  intro filled closed
  unfold conclude at succeeds ⊢
  dsimp only at succeeds ⊢
  split at succeeds
  · cases succeeds
  · rename_i written
    split at succeeds
    · cases succeeds
    · rename_i ran
      split at succeeds
      · cases succeeds
      · rename_i ended
        exact ⟨ran, written, ended, rfl⟩

theorem placesApart {outputs : List Path} (distinct : (places outputs).Nodup) :
    Outlet.Apart (outputs.map Path.outputPlace) := by
  rw [places, List.Nodup, List.pairwise_filterMap] at distinct
  rw [Outlet.Apart, List.pairwise_map]
  refine distinct.imp fun apart place here there => ?_
  exact apart place here place there rfl

end Run

theorem Run.extractsKept (s : Strategy) {source : Source} (rereadable : source.rereadable = true)
    {targets : List Target}
    (ran : (s.run source (targets.map fun t => .start t.region)).result = .ok ()) :
    let session := (s.run source (targets.map fun t => .start t.region)).session
    (source.read .all true).ending = .ok () ∧ session.Shares (source.read .all true).batches ∧
      session.extracts.length = targets.length := by
  have started : targets.map (fun t => Extract.start t.region) =
      (targets.map Target.region).map .start := by
    rw [List.map_map]
    rfl
  rw [started] at ran ⊢
  obtain ⟨ends, shares, regions, _⟩ := s.runWrites rereadable .oneByOne _ ran
  have lengths := congrArg List.length regions
  rw [List.length_map, List.length_map] at lengths
  exact ⟨ends, shares, lengths⟩

def CommandLine.outputs (c : CommandLine) (files : Files) : List Path :=
  match Run.plan c files with
  | .ok (p, _) => p.outputs
  | .error _ => []

theorem CommandLine.runExtracts {c : CommandLine} {files : Files} {m : Medium}
    (succeeds : (c.run files m).result = .ok ()) : ∃ p warnings source notes,
      Run.plan c files = .ok (p, warnings) ∧ Run.input? files c.input = some source ∧
        source.rereadable = true ∧ c.run files m = Run.extract m p c.input notes files := by
  unfold run at succeeds ⊢
  split at succeeds
  · cases succeeds
  · rename_i p warnings planned
    split at succeeds
    · cases succeeds
    · rename_i source opened
      dsimp only at succeeds
      split at succeeds
      · cases succeeds
      · rename_i checked
        have rereadable : source.rereadable = true := by
          unfold Strategy.checkSource at checked
          split at checked
          · assumption
          · cases checked
        exact ⟨p, warnings, source, _, planned, opened, rereadable, rfl⟩

namespace Run

section Opened
variable {p : Plan} {files : Files} {o : Opened} (opens : Opens p files p.config.entries o)
include opens

theorem Opens.paths (whole : o.result = .ok ()) : o.targets.map Target.output = p.outputs := by
  refine opens.outputs.eq_of_length ?_
  rw [List.length_map, List.length_map, opens.whole whole]

theorem Opens.apart (distinct : (places (o.targets.map Target.output)).Nodup) :
    Outlet.Apart (o.targets.map Target.place) := by
  have placed : o.targets.map Target.place = (o.targets.map Target.output).map Path.outputPlace := by
    rw [List.map_map]
    exact List.map_congr_left opens.placed
  rw [placed]
  exact placesApart distinct

end Opened

structure Completes (targets : List Target) (xs : List Extract) (elements : List Element)
    (files : Files) (report : Report) : Prop where
  documents : ∀ (i : Nat) (t : Target) (x : Extract), targets[i]? = some t → xs[i]? = some x →
    ∀ place, t.place = some place →
      report.files.get? place = some (.text (t.document (x.selected elements)))
  elsewhere : ∀ place, some place ∉ targets.map Target.place →
    report.files.get? place = files.get? place
  notes : ∃ told, report.notes = told ++
    (targets.zip xs).map (fun (t, x) => t.written (.ofElements (x.selected elements))) ++
      [.info s!"Done! Wrote {targets.length} extracts"]

theorem countsOf {outputs : List Output} {pairs : List (Target × Extract)} {elements : List Element}
    (length : outputs.length = pairs.length)
    (each : ∀ (i : Nat) (t : Target) (x : Extract), pairs[i]? = some (t, x) → ∃ o,
      outputs[i]? = some o ∧ o.finished = true ∧ o.note = t.written (.ofElements (x.selected elements))) :
    counts outputs = pairs.map fun (t, x) => t.written (.ofElements (x.selected elements)) := by
  have told : outputs.map (fun o => (o.finished, o.note)) = pairs.map fun (t, x) =>
      (true, t.written (.ofElements (x.selected elements))) := by
    refine List.ext_getElem? fun i => ?_
    rw [List.getElem?_map, List.getElem?_map]
    cases pair : pairs[i]? with
    | none =>
      have behind := List.getElem?_eq_none_iff.mp pair
      rw [← length] at behind
      rw [List.getElem?_eq_none_iff.mpr behind]
      rfl
    | some given =>
      obtain ⟨t, x⟩ := given
      obtain ⟨o, here, finished, note⟩ := each i t x pair
      rw [here, Option.map_some, finished, note]
      rfl
  have all : ∀ o ∈ outputs, o.finished = true := by
    intro o mem
    have known : (o.finished, o.note) ∈ outputs.map fun o => (o.finished, o.note) :=
      List.mem_map_of_mem (f := fun o => (o.finished, o.note)) mem
    rw [told] at known
    obtain ⟨_, _, same⟩ := List.mem_map.mp known
    exact (congrArg Prod.fst same).symm
  rw [counts, List.filter_eq_self.mpr all]
  have notes := congrArg (List.map Prod.snd) told
  rw [List.map_map, List.map_map] at notes
  exact notes

section Concluded
variable {m : Medium} {targets : List Target} {outcome : Outcome} {files : Files} {notes : List Note}
  (succeeds : (conclude m outcome notes targets files).result = .ok ())
  (apart : Outlet.Apart (targets.map Target.place))
  (empty : ∀ place, some place ∈ targets.map Target.place → files.get? place = some (.text ""))
  {batches : List (List Element)} (shares : outcome.session.Shares batches)
include succeeds apart empty shares

theorem concludedAt {i : Nat} {t : Target} {x : Extract} (target : targets[i]? = some t)
    (extract : outcome.session.extracts[i]? = some x) :
    let filled := fill m (targets.map .start) outcome.session.rounds (.start files)
    let closed := finish m filled.sender filled.delivery
    ∃ o, closed.sender[i]? = some o ∧ o.finished = true ∧
      o.note = t.written (.ofElements (x.selected batches.flatten)) ∧
      ∀ place, t.place = some place → closed.delivery.files.get? place =
        some (.text (t.document (x.selected batches.flatten))) := by
  intro filled closed
  obtain ⟨_, written, ended, _⟩ := concludeSucceeds succeeds
  have fresh : ∀ place, t.place = some place → files.get? place = some (.text "") :=
    fun place here => empty place (here ▸ List.mem_map_of_mem (List.mem_of_getElem? target))
  simp only [closed, filled]
  rw [shares] at written ended ⊢
  obtain ⟨o, here, has⟩ := fillAt apart target extract fresh written
  exact finishAt apart target (servesFill (servesStart targets) _ _) here has ended

theorem concludeCompletes (lengths : outcome.session.extracts.length = targets.length) :
    Completes targets outcome.session.extracts batches.flatten files
      (conclude m outcome notes targets files) := by
  obtain ⟨_, _, _, ends⟩ := concludeSucceeds succeeds
  have each {i : Nat} {t : Target} {x : Extract} (target : targets[i]? = some t)
      (extract : outcome.session.extracts[i]? = some x) :=
    concludedAt succeeds apart empty shares target extract
  have reaches := ((reachesStart targets files).fill m outcome.session.rounds).finish m
  rw [ends]
  refine ⟨fun i t x target extract place there => ?_, fun place other => ?_,
    notes ++ outcome.session.notes, ?_⟩
  · obtain ⟨_, _, _, _, file⟩ := each target extract
    exact file place there
  · exact reaches.elsewhere place other
  · refine congrArg (notes ++ outcome.session.notes ++ · ++ _) (countsOf ?_ fun i t x pair => ?_)
    · have outputs := congrArg List.length reaches.serves
      rw [List.length_map, List.length_map] at outputs
      rw [outputs, List.length_zip, lengths, Nat.min_self]
    · obtain ⟨target, extract⟩ := List.getElem?_zip_eq_some.mp pair
      obtain ⟨o, here, finished, note, _⟩ := each target extract
      exact ⟨o, here, finished, note⟩

end Concluded

section Finished
variable {p : Plan} {o : Opened} (opens : Opens p files p.config.entries o)
  (whole : o.result = .ok ())
include opens whole

theorem Opens.memPlaces (place : Place) :
    place ∈ places p.outputs ↔ some place ∈ o.targets.map Target.place := by
  rw [← opens.paths whole]
  exact Run.memPlaces opens.placed

theorem completedEach {xs : List Extract} {elements : List Element} {report : Report}
    (completes : Completes o.targets xs elements o.files report)
    (lengths : xs.length = o.targets.length) {i : Nat} {e : Entry}
    (entry : p.config.entries[i]? = some e) : ∃ t x seen, o.targets[i]? = some t ∧
      xs[i]? = some x ∧ t.Prepared p.config p.settings e seen ∧
        (∀ place, place ∉ places p.outputs → seen.get? place = files.get? place) ∧
        ∀ place, t.output.outputPlace = some place →
          report.files.get? place = some (.text (t.document (x.selected elements))) := by
  obtain ⟨inside, _⟩ := List.getElem?_eq_some_iff.mp entry
  have within : i < o.targets.length := (opens.whole whole).symm ▸ inside
  have target : o.targets[i]? = some o.targets[i] := List.getElem?_eq_getElem within
  have extract : xs[i]? = some _ := List.getElem?_eq_getElem (lengths.symm ▸ within)
  obtain ⟨f, seen, known, _, prepared, unread⟩ := opens.prepared i _ target
  cases entry.symm.trans known
  refine ⟨_, _, seen, target, extract, prepared, fun place other => ?_, fun place there => ?_⟩
  · exact unread place fun mem => other ((opens.memPlaces whole place).mpr mem)
  · exact completes.documents i _ _ target extract place (prepared.place.trans there)

theorem completedElsewhere {xs : List Extract} {elements : List Element} {report : Report}
    (completes : Completes o.targets xs elements o.files report) {place : Place}
    (other : place ∉ places p.outputs) : report.files.get? place = files.get? place := by
  rw [opens.memPlaces whole] at other
  exact (completes.elsewhere place other).trans (opens.elsewhere place other)

end Finished
end Run

/-- The files and notes of a run that has written its extracts. The whole input has been read; the file of an
entry has the document of what its extract includes in the end; no other file has changed, and the counts told
for each extract are those of its document. -/
def CommandLine.Writes (c : CommandLine) (files : Files) (report : Report) : Prop :=
  ∃ p warnings content, Run.plan c files = .ok (p, warnings) ∧
    files.fileAt c.input = some content ∧
    let scan := Pbf.scan content.toBytes .all true
    let targets := (Run.openAll p files p.config.entries).targets
    let session := (p.strategy.run (Pbf.source c.input content.toBytes)
      (targets.map fun t => .start t.region)).session
    scan.ending = .ok () ∧
    (∀ (i : Nat) (e : Entry), p.config.entries[i]? = some e → ∃ t x seen,
      targets[i]? = some t ∧ session.extracts[i]? = some x ∧
      t.Prepared p.config ⟨c.directory, c.overwrite, c.clean⟩ e seen ∧
      (∀ place, place ∉ Run.places p.outputs → seen.get? place = files.get? place) ∧
      ∀ place, t.output.outputPlace = some place → report.files.get? place =
        some (.text (t.document (x.selected scan.batches.flatten)))) ∧
    (∀ place, place ∉ Run.places p.outputs → report.files.get? place = files.get? place) ∧
    ∃ told, report.notes = told ++ (targets.zip session.extracts).map (fun (t, x) =>
        let selected := x.selected scan.batches.flatten
        t.written ⟨selected.countP fun e => e.kind = .node,
          selected.countP fun e => e.kind = .way,
          selected.countP fun e => e.kind = .relation⟩) ++
      [.info s!"Done! Wrote {targets.length} extracts"]

theorem CommandLine.successfulRunWrites (c : CommandLine) (files : Files) (m : Medium)
    (succeeds : (c.run files m).result = .ok ()) (distinct : (Run.places (c.outputs files)).Nodup)
    (separate : Files.reach c.input ∉ Run.places (c.outputs files)) :
    c.Writes files (c.run files m) := by
  obtain ⟨p, warnings, source, notes, planned, opened, rereadable, extracts⟩ := runExtracts succeeds
  have outputs : c.outputs files = p.outputs := by rw [CommandLine.outputs, planned]
  rw [outputs] at distinct separate
  rw [extracts] at succeeds ⊢
  obtain ⟨whole, source', told, again, concluded⟩ := Run.extractSucceeds succeeds
  have opens := Run.openAllSpec p files p.config.entries
  have same := opens.elsewhere _ fun mem => separate ((opens.memPlaces whole _).mpr mem)
  obtain rfl := Option.some.inj ((Run.inputKept opens.within same opened).symm.trans again)
  rw [concluded] at succeeds ⊢
  obtain ⟨ends, shares, lengths⟩ := Run.extractsKept p.strategy rereadable
    (Run.concludeSucceeds succeeds).1
  obtain ⟨content, there, rfl⟩ := Run.inputContent opened rereadable ends
  have completes := Run.concludeCompletes succeeds (opens.apart (opens.paths whole ▸ distinct))
    opens.here shares lengths
  have settings := Run.planSettings planned
  rw [Writes, ← settings]
  refine ⟨p, warnings, content, planned, there, ends, fun i e entry => ?_, fun place other => ?_, ?_⟩
  · exact Run.completedEach opens whole completes lengths entry
  · exact Run.completedElsewhere opens whole completes other
  · obtain ⟨told, notes⟩ := completes.notes
    simp only [Tally.ofElementsIs] at notes
    exact ⟨told, notes⟩

/-! Two nodes, of which one is in the box, and a way between them. -/

def twoNodes : ByteArray := ⟨#[
  0, 0, 0, 11, 10, 7, 79, 83, 77, 68, 97, 116, 97, 24, 48,
  10, 46, 10, 2, 10, 0,
  18, 30, 10, 13, 8, 2, 64, 128, 245, 214, 244, 3, 72, 128, 182, 229, 127,
  10, 13, 8, 4, 64, 128, 132, 175, 95, 72, 128, 191, 223, 128, 1,
  18, 8, 26, 6, 8, 10, 66, 2, 2, 2]⟩

def twoOutputs : CommandLine where
  input := ⟨"in.pbf"⟩
  config := ⟨"c.toml"⟩
  directory := none
  strategy := none
  assignments := []
  overwrite := true
  clean := []
  threads := none
  verbose := false
  noProgress := false

def twoOutputsFiles : Files :=
  let config := "[[extracts]]\noutput = \"a.osm\"\nbbox = [13, 52, 14, 53]\n" ++
    "[[extracts]]\noutput = \"b.jsonl\"\nbbox = [13, 9, 14, 11]\n"
  ⟨[(["c.toml"], .text config), (["in.pbf"], .bytes twoNodes), (["a.osm"], .text "old")], []⟩

theorem twoOutputsWritten : (twoOutputs.run twoOutputsFiles).result = .ok () ∧
    (Run.places (twoOutputs.outputs twoOutputsFiles)).Nodup ∧
    Files.reach twoOutputs.input ∉ Run.places (twoOutputs.outputs twoOutputsFiles) ∧
    twoOutputs.Writes twoOutputsFiles (twoOutputs.run twoOutputsFiles) := by
  have succeeds : (twoOutputs.run twoOutputsFiles).result = .ok () :=
    passedIff.mp (by decide +kernel)
  have distinct : (Run.places (twoOutputs.outputs twoOutputsFiles)).Nodup := by decide +kernel
  have separate : Files.reach twoOutputs.input ∉
      Run.places (twoOutputs.outputs twoOutputsFiles) := by decide +kernel
  exact ⟨succeeds, distinct, separate,
    CommandLine.successfulRunWrites twoOutputs twoOutputsFiles .sound succeeds distinct separate⟩

end Cutout
