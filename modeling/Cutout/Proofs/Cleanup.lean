import Cutout.Proofs.Outputs
import Cutout.Proofs.Passes
import Mathlib.Control.Monad.Basic
/-! What a failed run leaves. The outputs that have been made are gone, and nothing else has changed. An
existing file can be among them only if it is to be replaced, or if the way to it goes up again from a
directory that is not there: such a file is not seen before the directory has been made. -/
namespace Cutout

def Path.outputPlace (output : Path) : Option Place :=
  if output.isDash then none else some (Files.reach output)

structure Target.Prepared (c : Config) (s : OutputSettings) (e : Entry) (seen : Files) (t : Target) :
    Prop where
  output : t.output = c.outputPath e s.directory
  place : t.place = t.output.outputPlace
  format : Target.formatOf e t.output = .ok t.format
  boundary : ∃ spec, e.boundarySpec = .ok spec ∧ Target.loadBoundary c seen t.output spec = .ok t.boundary
  conflicting : t.conflicting = .parse (e.conflicting.getD "") Region.separator
  matching : t.matching = .parse (e.matching.getD "") Region.separator
  clean : t.clean = s.clean

structure Target.Makes (s : OutputSettings) (t : Target) (f g : Files) : Prop where
  here : ∀ place, t.place = some place → g.get? place = some (.text "")
  elsewhere : ∀ place, t.place ≠ some place → g.get? place = f.get? place
  within : f.Within g
  fresh : s.overwrite = false → t.output.Plain f → ∀ place, t.place = some place →
    f.isFile place = false

theorem Target.makeOutputSpec {f g : Files} {output : Path} {overwrite : Bool}
    {place : Option Place} (made : makeOutput f output overwrite = .ok (place, g)) :
    (output.isDash = true ∧ place = none ∧ g = f) ∨
      (output.isDash = false ∧ ∃ there, place = some there ∧ f.Creates output overwrite there g) := by
  unfold makeOutput at made
  cases dash : output.isDash with
  | true =>
    rw [dash, if_pos rfl] at made
    cases made
    exact .inl ⟨rfl, rfl, rfl⟩
  | false =>
    rw [dash, if_neg Bool.false_ne_true] at made
    obtain ⟨⟨there, after⟩, created, made⟩ := bindOk.mp made
    cases made
    exact .inr ⟨rfl, there, rfl, Files.createSpec created⟩

theorem Target.prepareSpec {c : Config} {s : OutputSettings} {f g : Files} {e : Entry} {t : Target}
    (prepared : prepare c s f e = .ok (t, g)) : Prepared c s e f t ∧ Makes s t f g := by
  unfold prepare at prepared
  obtain ⟨format, detected, prepared⟩ := bindOk.mp prepared
  obtain ⟨spec, specified, prepared⟩ := bindOk.mp prepared
  obtain ⟨boundary, loaded, prepared⟩ := bindOk.mp prepared
  obtain ⟨⟨place, after⟩, made, prepared⟩ := bindOk.mp prepared
  cases prepared
  have given : e.boundarySpec = .ok spec := by
    unfold boundarySpecOf at specified
    split at specified
    · rename_i known
      cases specified
      exact known
    · cases specified
  have bounded : ∃ spec, e.boundarySpec = .ok spec ∧
      loadBoundary c f (c.outputPath e s.directory) spec = .ok boundary := ⟨spec, given, loaded⟩
  rcases makeOutputSpec made with ⟨dash, rfl, rfl⟩ | ⟨file, there, rfl, creates⟩
  · refine ⟨⟨rfl, ?_, detected, bounded, rfl, rfl, rfl⟩, ⟨nofun, fun _ _ => rfl, .refl _, fun _ _ => nofun⟩⟩
    rw [Path.outputPlace, if_pos dash]
  · refine ⟨⟨rfl, ?_, detected, bounded, rfl, rfl, rfl⟩, ?_, ?_, creates.within, ?_⟩
    · rw [Path.outputPlace, if_neg (by simp [file]), creates.reached]
    · intro place here
      cases here
      rw [creates.get, if_pos rfl]
    · intro place apart
      have other : place ≠ there := fun same => apart (congrArg some same.symm)
      rw [creates.get, if_neg other]
    · intro kept plain place here
      cases here
      exact creates.fresh kept plain

namespace Run

def Plan.outputs (p : Plan) : List Path :=
  p.config.entries.map fun e => p.config.outputPath e p.settings.directory

structure Opens (p : Plan) (files : Files) (entries : List Entry) (o : Opened) : Prop where
  outputs : o.targets.map Target.output <+:
    entries.map fun e => p.config.outputPath e p.settings.directory
  prepared : ∀ (i : Nat) (t : Target), o.targets[i]? = some t → ∃ e seen, entries[i]? = some e ∧
    files.Within seen ∧ t.Prepared p.config p.settings e seen ∧
      ∀ place, some place ∉ o.targets.map Target.place → seen.get? place = files.get? place
  here : ∀ place, some place ∈ o.targets.map Target.place → o.files.get? place = some (.text "")
  elsewhere : ∀ place, some place ∉ o.targets.map Target.place →
    o.files.get? place = files.get? place
  within : files.Within o.files
  fresh : p.settings.overwrite = false → (∀ t ∈ o.targets, t.output.Plain files) →
    ∀ place, some place ∈ o.targets.map Target.place → files.isFile place = false
  whole : o.result = .ok () → o.targets.length = entries.length

theorem opensNone (p : Plan) (files : Files) (entries : List Entry) {result : Except Fault Unit}
    (stopped : result = .ok () → entries = []) : Opens p files entries ⟨[], files, result⟩ where
  outputs := List.nil_prefix
  prepared i t here := by simp at here
  here place mem := by simp at mem
  elsewhere _ _ := rfl
  within := .refl files
  fresh _ _ place mem := by simp at mem
  whole ok := by simp [stopped ok]

theorem opensCons {p : Plan} {files between : Files} {e : Entry} {rest : List Entry} {t : Target}
    {o : Opened} (first : t.Prepared p.config p.settings e files)
    (makes : t.Makes p.settings files between) (others : Opens p between rest o) :
    Opens p files (e :: rest) { o with targets := t :: o.targets } where
  outputs := by
    rw [List.map_cons, List.map_cons, first.output]
    exact List.cons_prefix_cons.mpr ⟨rfl, others.outputs⟩
  prepared i u found := by
    cases i with
    | zero =>
      cases found
      exact ⟨e, files, rfl, .refl files, first, fun _ _ => rfl⟩
    | succ i =>
      obtain ⟨f, seen, known, within, prepared, same⟩ := others.prepared i u found
      refine ⟨f, seen, known, makes.within.trans within, prepared, fun place apart => ?_⟩
      rw [List.map_cons, List.mem_cons, not_or] at apart
      have other : t.place ≠ some place := fun there => apart.1 there.symm
      exact (same place apart.2).trans (makes.elsewhere place other)
  here place mem := by
    by_cases later : some place ∈ o.targets.map Target.place
    · exact others.here place later
    · have now : t.place = some place :=
        ((List.mem_cons.mp mem).resolve_right later).symm
      exact (others.elsewhere place later).trans (makes.here place now)
  elsewhere place apart := by
    rw [List.map_cons, List.mem_cons, not_or] at apart
    obtain ⟨now, later⟩ := apart
    have other : t.place ≠ some place := fun same => now same.symm
    exact (others.elsewhere place later).trans (makes.elsewhere place other)
  within := makes.within.trans others.within
  fresh kept plain place mem := by
    obtain ⟨plainFirst, plainOthers⟩ := List.forall_mem_cons.mp plain
    rcases List.mem_cons.mp mem with now | later
    · exact makes.fresh kept plainFirst place now.symm
    · have still : ∀ u ∈ o.targets, u.output.Plain between := by
        intro u target climbs
        obtain ⟨there, leads⟩ := plainOthers u target climbs
        exact ⟨there, Files.placeMore makes.within leads⟩
      have free := others.fresh kept still place later
      cases file : files.isFile place with
      | false => rfl
      | true =>
        rw [makes.within.files place file] at free
        cases free
  whole ok := congrArg (· + 1) (others.whole ok)

theorem openAllSpec (p : Plan) (files : Files) (entries : List Entry) :
    Opens p files entries (openAll p files entries) := by
  induction entries generalizing files with
  | nil => exact opensNone p files [] fun _ => rfl
  | cons e rest ih =>
    rw [openAll]
    cases prepared : Target.prepare p.config p.settings files e with
    | error fault => exact opensNone p files (e :: rest) nofun
    | ok made =>
      obtain ⟨first, makes⟩ := Target.prepareSpec prepared
      exact opensCons first makes (ih made.2)

theorem getRemoved (targets : List Target) (files : Files) (place : Place) :
    (removeOutputs targets files).2.get? place =
      if some place ∈ targets.map Target.place then none else files.get? place := by
  induction targets generalizing files with
  | nil => rfl
  | cons t rest ih =>
    rw [removeOutputs]
    cases there : t.place with
    | none =>
      rw [ih]
      simp [there]
    | some other =>
      have removed : (removeOutputs rest (files.remove other)).2.get? place =
          if some place ∈ (t :: rest).map Target.place then none else files.get? place := by
        rw [ih, Files.getRemove]
        simp only [List.map_cons, List.mem_cons, there, Option.some.injEq]
        by_cases same : place = other
        · simp [same]
        · simp [same]
      simp only
      split <;> exact removed

theorem leaveElsewhere (m : Medium) {place : Place} {outputs : List Output}
    (other : ¬ Sent.ownsAny Output.Owns outputs place) (d : Delivery) :
    (outputs.foldl (fun d o => o.leave m d) d).files.get? place = d.files.get? place := by
  induction outputs generalizing d with
  | nil => rfl
  | cons o rest ih =>
    rw [Sent.ownsAnyCons, not_or] at other
    have flushed := (Outlet.staysFlush m o.outlet d).elsewhere place other.1
    exact (ih other.2 _).trans flushed

structure Reaches (targets : List Target) (files : Files) (outputs : List Output) (d : Delivery) :
    Prop where
  serves : Serves outputs targets
  elsewhere : ∀ place, some place ∉ targets.map Target.place →
    d.files.get? place = files.get? place

section Reached
variable {targets : List Target} {files : Files} {outputs : List Output} {d : Delivery}

theorem reachesStart (targets : List Target) (files : Files) :
    Reaches targets files (targets.map .start) (.start files) :=
  ⟨servesStart targets, fun _ _ => rfl⟩

theorem Reaches.stays (reaches : Reaches targets files outputs d) {s : Sent Fault (List Output)}
    (serves : Serves s.sender targets) (stays : Sent.Stays (Sent.ownsAny Output.Owns) outputs d s) :
    Reaches targets files s.sender s.delivery := by
  refine ⟨serves, fun place other => ?_⟩
  have apart := other
  rw [← reaches.serves.owned] at apart
  exact (stays.elsewhere place apart).trans (reaches.elsewhere place other)

theorem Reaches.fill (reaches : Reaches targets files outputs d) (m : Medium)
    (rounds : List (List (List Element))) :
    let filled := fill m outputs rounds d
    Reaches targets files filled.sender filled.delivery :=
  reaches.stays (servesFill reaches.serves rounds d) (staysFill m outputs rounds d)

theorem Reaches.finish (reaches : Reaches targets files outputs d) (m : Medium) :
    let closed := finish m outputs d
    Reaches targets files closed.sender closed.delivery :=
  reaches.stays (servesFinish reaches.serves d) (staysClosing m outputs d)

theorem getFailed (reaches : Reaches targets files outputs d) (m : Medium) (fault : Fault)
    (notes : List Note) (place : Place) : (failed m fault notes outputs d).files.get? place =
      if some place ∈ targets.map Target.place then none else files.get? place := by
  rw [failed]
  refine (getRemoved _ _ place).trans ?_
  rw [reaches.serves.sameTargets]
  by_cases mem : some place ∈ targets.map Target.place
  · rw [if_pos mem, if_pos mem]
  · rw [if_neg mem, if_neg mem]
    have apart := mem
    rw [← reaches.serves.owned] at apart
    exact (leaveElsewhere m apart d).trans (reaches.elsewhere place mem)

end Reached

def places (outputs : List Path) : List Place := outputs.filterMap Path.outputPlace

theorem memPlaces {targets : List Target} {place : Place}
    (placed : ∀ t ∈ targets, t.place = t.output.outputPlace) :
    place ∈ places (targets.map Target.output) ↔ some place ∈ targets.map Target.place := by
  simp only [places, List.mem_filterMap, List.mem_map]
  constructor
  · rintro ⟨_, ⟨t, mem, rfl⟩, there⟩
    exact ⟨t, mem, (placed t mem).trans there⟩
  · intro ⟨t, mem, there⟩
    exact ⟨t.output, ⟨t, mem, rfl⟩, (placed t mem).symm.trans there⟩

theorem planSettings {c : CommandLine} {files : Files} {p : Plan} {warnings : List Note}
    (planned : plan c files = .ok (p, warnings)) : p.settings = ⟨c.directory, c.overwrite, c.clean⟩ := by
  unfold plan at planned
  obtain ⟨config, _, planned⟩ := bindOk.mp planned
  obtain ⟨⟨strategy, notes⟩, _, planned⟩ := bindOk.mp planned
  cases planned
  rfl

def LeavesWithout (files : Files) (made : List Path) (after : Files) : Prop :=
  ∀ place, after.get? place = if place ∈ places made then none else files.get? place

theorem concludeEnds (m : Medium) (outcome : Outcome) (notes : List Note) (targets : List Target)
    (files : Files) : (conclude m outcome notes targets files).result = .ok () ∨
      ∃ fault told outputs d, Reaches targets files outputs d ∧
        conclude m outcome notes targets files = failed m fault told outputs d := by
  have filled := (reachesStart targets files).fill m outcome.session.rounds
  unfold conclude
  dsimp only
  split
  · exact .inr ⟨_, _, _, _, filled, rfl⟩
  · split
    · exact .inr ⟨_, _, _, _, filled, rfl⟩
    · split
      · exact .inr ⟨_, _, _, _, filled.finish m, rfl⟩
      · exact .inl rfl

theorem extractEnds (m : Medium) (p : Plan) (path : Path) (notes : List Note) (files : Files) :
    let opened := openAll p files p.config.entries
    (extract m p path notes files).result = .ok () ∨ ∃ fault told outputs d,
      Reaches opened.targets opened.files outputs d ∧
        extract m p path notes files = failed m fault told outputs d := by
  intro opened
  have started := reachesStart opened.targets opened.files
  unfold extract
  dsimp only
  split
  · exact .inr ⟨_, _, _, _, started, rfl⟩
  · split
    · exact .inr ⟨_, _, _, _, started, rfl⟩
    · exact concludeEnds m _ _ _ _

theorem Opens.placed {p : Plan} {files : Files} {entries : List Entry} {o : Opened}
    (opens : Opens p files entries o) : ∀ t ∈ o.targets, t.place = t.output.outputPlace := by
  intro t mem
  obtain ⟨i, here⟩ := List.mem_iff_getElem?.mp mem
  obtain ⟨_, _, _, _, prepared, _⟩ := opens.prepared i t here
  exact prepared.place

theorem extractFails {m : Medium} {p : Plan} {path : Path} {notes : List Note} {files : Files}
    (fails : (extract m p path notes files).result ≠ .ok ()) :
    let made := (openAll p files p.config.entries).targets.map Target.output
    LeavesWithout files made (extract m p path notes files).files := by
  intro made place
  have opens := openAllSpec p files p.config.entries
  obtain ⟨fault, told, outputs, d, reaches, ends⟩ :=
    (extractEnds m p path notes files).resolve_left fails
  rw [ends, getFailed reaches]
  simp only [made, memPlaces opens.placed]
  split
  · rfl
  · rename_i other
    exact opens.elsewhere place other

theorem leavesAll {p : Plan} {files after : Files} (kept : p.settings.overwrite = false) :
    let made := (openAll p files p.config.entries).targets.map Target.output
    (∀ o ∈ made, o.Plain files) → LeavesWithout files made after →
      ∀ place, after.get? place = files.get? place := by
  intro made plain leaves place
  have opens := openAllSpec p files p.config.entries
  rw [leaves place]
  split
  · rename_i lost
    have free := opens.fresh kept (List.forall_mem_map.mp plain) place ((memPlaces opens.placed).mp lost)
    cases there : files.get? place with
    | none => rfl
    | some content =>
      have file := Files.isFileIff.mpr ⟨content, there⟩
      rw [free] at file
      cases file
  · rfl

theorem inputRereadable {files : Files} {path : Path} {source : Source}
    (opened : input? files path = some source) :
    source.rereadable = !(path.isDash || path.isEmpty) := by
  unfold input? at opened
  split at opened
  · cases opened
    rfl
  · rename_i file
    obtain ⟨place, _, opened⟩ := Option.bind_eq_some_iff.mp opened
    split at opened
    · cases opened
      rfl
    · split at opened
      · cases opened
        simp [directorySource, file]
      · cases opened

end Run

/-- What the files are after a command line has failed. Nothing has changed if it does not lead to a plan or
to an input that can be read again. Otherwise the outputs that had been opened are gone, and nothing else has
changed; nothing at all if no file is to be replaced and all ways to these outputs are plain. -/
structure CommandLine.CleansUp (c : CommandLine) (files after : Files) : Prop where
  unplanned : ∀ fault, Run.plan c files = .error fault → after = files
  unopened : Run.input? files c.input = none → after = files
  standard : c.input.isDash = true ∨ c.input.isEmpty = true → after = files
  opened : ∀ p warnings source, Run.plan c files = .ok (p, warnings) →
    Run.input? files c.input = some source → source.rereadable = true →
      let made := (Run.openAll p files p.config.entries).targets.map Target.output
      made <+: p.outputs ∧ Run.LeavesWithout files made after ∧
        (c.overwrite = false → (∀ o ∈ made, o.Plain files) →
          ∀ place, after.get? place = files.get? place)

theorem CommandLine.failedRunCleansUp (c : CommandLine) (files : Files) (m : Medium)
    (fails : (c.run files m).result ≠ .ok ()) : c.CleansUp files (c.run files m).files where
  unplanned fault planned := by rw [run, planned]
  unopened opened := by
    cases planned : Run.plan c files with
    | error fault => rw [run, planned]
    | ok plan => simp only [run, planned, opened]
  standard standard := by
    cases planned : Run.plan c files with
    | error fault => rw [run, planned]
    | ok plan =>
      cases opened : Run.input? files c.input with
      | none => simp only [run, planned, opened]
      | some source =>
        have rereadable : source.rereadable = false := by
          rw [Run.inputRereadable opened]
          rcases standard with dash | empty
          · simp [dash]
          · simp [empty]
        simp [run, planned, opened, Strategy.checkSource, rereadable]
  opened p warnings source planned opened rereadable := by
    obtain ⟨notes, extracts⟩ : ∃ notes, c.run files m = Run.extract m p c.input notes files := by
      simp only [run, planned, opened, Strategy.checkSource, rereadable, if_true]
      exact ⟨_, rfl⟩
    rw [extracts] at fails ⊢
    have leaves := Run.extractFails fails
    have opens := Run.openAllSpec p files p.config.entries
    refine ⟨opens.outputs, leaves, fun kept plain => Run.leavesAll ?_ plain leaves⟩
    rw [Run.planSettings planned]
    exact kept

/-! The way to the first output goes up again from a directory that is not there, so the file that it leads
to is not seen. The second output fails, and both are gone. -/

def upwards : CommandLine where
  input := ⟨"in.pbf"⟩
  config := ⟨"c.toml"⟩
  directory := none
  strategy := none
  assignments := []
  overwrite := false
  clean := []
  threads := none
  verbose := false
  noProgress := false

def upwardsFiles : Files :=
  let config := "[[extracts]]\noutput = \"x/../a.osm\"\nbbox = [13, 52, 14, 53]\n" ++
    "[[extracts]]\noutput = \"b.pbf\"\nbbox = [13, 52, 14, 53]\n"
  ⟨[(["c.toml"], .text config), (["in.pbf"], .text ""), (["a.osm"], .text "keep")], []⟩

def closing : CommandLine := { upwards with overwrite := true }

def closingFiles : Files :=
  let config := "[[extracts]]\noutput = \"a.osm\"\nbbox = [13, 52, 14, 53]\n" ++
    "[[extracts]]\noutput = \"b.osm\"\nbbox = [13, 52, 14, 53]\n"
  ⟨[(["c.toml"], .text config), (["in.pbf"], .text ""), (["a.osm"], .text "keep")], []⟩

def breakingOff : Medium := fun number => if number = 1 then some 3 else none

theorem upwardsCleansUp : ((upwards.run upwardsFiles).result ≠ .ok () ∧
      upwards.CleansUp upwardsFiles (upwards.run upwardsFiles).files) ∧
    (closing.run closingFiles breakingOff).result =
        .error (.outputNotClosed ⟨"b.osm"⟩ (.outputNotFinished ⟨"b.osm"⟩)) ∧
      closing.CleansUp closingFiles (closing.run closingFiles breakingOff).files := by
  have failed : (upwards.run upwardsFiles).result.toBool = false := by decide +kernel
  have fails : (upwards.run upwardsFiles).result ≠ .ok () := fun ok => by
    rw [passedIff.mpr ok] at failed
    cases failed
  have broken : (closing.run closingFiles breakingOff).result =
      .error (.outputNotClosed ⟨"b.osm"⟩ (.outputNotFinished ⟨"b.osm"⟩)) := by decide +kernel
  have breaks : (closing.run closingFiles breakingOff).result ≠ .ok () := by
    rw [broken]
    exact nofun
  have cleansUp := CommandLine.failedRunCleansUp upwards upwardsFiles .sound fails
  exact ⟨⟨fails, cleansUp⟩, broken,
    CommandLine.failedRunCleansUp closing closingFiles breakingOff breaks⟩

theorem upwardsLoses : upwards.overwrite = false ∧
    (upwards.run upwardsFiles).result.toBool = false ∧
    (upwardsFiles.get? ["a.osm"]).isSome = true ∧
    ((upwards.run upwardsFiles).files.get? ["a.osm"]).isSome = false := by
  decide +kernel

end Cutout
