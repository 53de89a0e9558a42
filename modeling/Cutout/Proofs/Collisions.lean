import Cutout.Proofs.Delivery
/-! Outputs of one run at one place. An output that has been made is seen when the next ones are opened, so
a second one is opened there only if files may be replaced, or if the way to it goes up again from a
directory that is not there. -/
namespace Cutout
namespace Run

section Opening
variable {p : Plan} (kept : p.settings.overwrite = false) (entries : List Entry)
include kept

theorem openAllFresh (files : Files) : ∀ t ∈ (openAll p files entries).targets,
    t.output.Plain files → ∀ place, t.place = some place → files.isFile place = false := by
  induction entries generalizing files with
  | nil => simp [openAll]
  | cons e rest ih =>
    rw [openAll]
    cases prepared : Target.prepare p.config p.settings files e with
    | error fault => simp
    | ok made =>
      obtain ⟨first, between⟩ := made
      obtain ⟨_, makes⟩ := Target.prepareSpec prepared
      intro t target plain place here
      rcases List.mem_cons.mp target with rfl | later
      · exact makes.fresh kept plain place here
      · have still : t.output.Plain between := fun climbs =>
          (plain climbs).imp fun _ => Files.placeMore makes.within
        have free := ih between t later still place here
        cases file : files.isFile place with
        | false => rfl
        | true =>
          rw [makes.within.files place file] at free
          cases free

theorem openAllApart (files : Files) : (openAll p files entries).targets.Pairwise fun first second =>
    ∀ place, first.place = some place → second.place = some place → ¬ second.output.Plain files := by
  induction entries generalizing files with
  | nil => exact .nil
  | cons e rest ih =>
    rw [openAll]
    cases prepared : Target.prepare p.config p.settings files e with
    | error fault => exact .nil
    | ok made =>
      obtain ⟨first, between⟩ := made
      obtain ⟨_, makes⟩ := Target.prepareSpec prepared
      have still {output : Path} (plain : output.Plain files) : output.Plain between :=
        fun climbs => (plain climbs).imp fun _ => Files.placeMore makes.within
      refine .cons (fun second later place here there plain => ?_) ?_
      · have free := openAllFresh kept rest between second later (still plain) place there
        have file := Files.isFileIff.mpr ⟨_, makes.here place here⟩
        rw [free] at file
        cases file
      · refine (ih between).imp fun apart place here there plain => ?_
        exact apart place here there (still plain)

end Opening

theorem placesNodup {outputs : List Path} (apart : outputs.Pairwise fun first second =>
    ∀ place, first.outputPlace = some place → second.outputPlace ≠ some place) :
    (places outputs).Nodup := by
  rw [places, List.Nodup, List.pairwise_filterMap]
  refine apart.imp fun other place here _ there same => ?_
  exact other place here (same ▸ there)

end Run

theorem Path.notPlain {p : Path} {files : Files} :
    ¬ p.Plain files ↔ p.Climbs ∧ files.place? p = none := by
  rw [Path.Plain, Classical.not_imp, Option.eq_none_iff_forall_ne_some, not_exists]

def CommandLine.FillsAlone (c : CommandLine) (files after : Files) : Prop :=
  ∃ p warnings source, Run.plan c files = .ok (p, warnings) ∧
    let opened := Run.openAll p files p.config.entries
    Run.input? opened.files c.input = some source ∧
    let session := (p.strategy.run source (opened.targets.map fun t => .start t.region)).session
    opened.targets.map Target.output = p.outputs ∧
    ∀ (i : Nat) (t : Target), opened.targets[i]? = some t → ∃ x, session.extracts[i]? = some x ∧
      ∀ place, t.place = some place → after.get? place =
        some (.text (t.document (x.selected (source.read .all true).batches.flatten)))

theorem CommandLine.outputsApart (c : CommandLine) (files : Files) (m : Medium)
    (succeeds : (c.run files m).result = .ok ()) :
    ((c.outputs files).Pairwise fun first second => ∀ place, first.outputPlace = some place →
      second.outputPlace = some place →
        c.overwrite = true ∨ (second.Climbs ∧ files.place? second = none)) ∧
    (c.overwrite = false → (∀ output ∈ c.outputs files, output.Plain files) →
      (Run.places (c.outputs files)).Nodup) ∧
    ((Run.places (c.outputs files)).Nodup → c.FillsAlone files (c.run files m).files) := by
  obtain ⟨p, warnings, _, notes, planned, found, rereadable, extracts⟩ := runExtracts succeeds
  have outputs : c.outputs files = p.outputs := by rw [CommandLine.outputs, planned]
  rw [outputs]
  rw [extracts] at succeeds ⊢
  obtain ⟨whole, source, told, opened, concluded⟩ := Run.extractSucceeds succeeds
  have opens := Run.openAllSpec p files p.config.entries
  have settings := Run.planSettings planned
  have apart (kept : c.overwrite = false) : p.outputs.Pairwise fun first second =>
      ∀ place, first.outputPlace = some place → second.outputPlace = some place →
        ¬ second.Plain files := by
    rw [← opens.paths whole, List.pairwise_map]
    have made := Run.openAllApart (by rw [settings]; exact kept) p.config.entries files
    refine made.imp_of_mem fun first second collide place here there => ?_
    rw [← opens.placed _ first] at here
    rw [← opens.placed _ second] at there
    exact collide place here there
  refine ⟨?_, fun kept plain => ?_, fun distinct => ?_⟩
  · cases kept : c.overwrite with
    | true => exact List.pairwise_of_forall fun _ _ _ _ _ => .inl rfl
    | false =>
      refine (apart kept).imp fun collide place here there => .inr ?_
      exact Path.notPlain.mp (collide place here there)
  · refine Run.placesNodup ((apart kept).imp_of_mem fun _ second collide place here there => ?_)
    exact collide place here there (plain _ second)
  · have again : source.rereadable = true := by
      rw [Run.inputRereadable opened, ← Run.inputRereadable found]
      exact rereadable
    rw [concluded] at succeeds ⊢
    obtain ⟨_, shares, lengths⟩ := Run.extractsKept p.strategy again
      (Run.concludeSucceeds succeeds).1
    have separate := opens.apart (opens.paths whole ▸ distinct)
    have completes := Run.concludeCompletes succeeds separate opens.here shares lengths
    refine ⟨p, warnings, source, planned, opened, opens.paths whole, fun i t target => ?_⟩
    obtain ⟨inside, _⟩ := List.getElem?_eq_some_iff.mp target
    have extract := List.getElem?_eq_getElem (lengths.symm ▸ inside)
    exact ⟨_, extract, completes.documents i t _ target extract⟩

/-! The outputs of `twoOutputs`, made where nothing is to be replaced. -/

def freshOutputs : CommandLine := { twoOutputs with overwrite := false }

def freshOutputsFiles : Files :=
  let config := "[[extracts]]\noutput = \"a.osm\"\nbbox = [13, 52, 14, 53]\n" ++
    "[[extracts]]\noutput = \"d/a.osm\"\nbbox = [13, 9, 14, 11]\n"
  ⟨[(["c.toml"], .text config), (["in.pbf"], .bytes twoNodes)], []⟩

theorem freshOutputsApart : freshOutputs.overwrite = false ∧
    (freshOutputs.run freshOutputsFiles).result = .ok () ∧
    (∀ output ∈ freshOutputs.outputs freshOutputsFiles, output.Plain freshOutputsFiles) ∧
    (Run.places (freshOutputs.outputs freshOutputsFiles)).Nodup ∧
    freshOutputs.FillsAlone freshOutputsFiles (freshOutputs.run freshOutputsFiles).files := by
  have succeeds : (freshOutputs.run freshOutputsFiles).result = .ok () :=
    passedIff.mp (by decide +kernel)
  have outputs : freshOutputs.outputs freshOutputsFiles = [⟨"a.osm"⟩, ⟨"d/a.osm"⟩] := by
    decide +kernel
  have plain : ∀ output ∈ freshOutputs.outputs freshOutputsFiles, output.Plain freshOutputsFiles := by
    have straight : ∀ output ∈ [(⟨"a.osm"⟩ : Path), ⟨"d/a.osm"⟩], ['.', '.'] ∉ Files.parts output := by
      decide +kernel
    rw [outputs]
    exact fun output mem climbs => absurd climbs (straight output mem)
  obtain ⟨_, apart, alone⟩ := CommandLine.outputsApart freshOutputs freshOutputsFiles .sound
    succeeds
  have distinct := apart rfl plain
  exact ⟨rfl, succeeds, plain, distinct, alone distinct⟩

/-! Two outputs at one place. The longer document is laid under the shorter one, so that the file holds neither;
with leave to replace files, and without it when the way to the second output goes up from nowhere. -/

def collidingFiles (first second : String) : Files :=
  let config := "[[extracts]]\noutput = \"" ++ first ++ "\"\nbbox = [13.25, 52.25, 13.75, 52.75]\n" ++
    "[[extracts]]\noutput = \"" ++ second ++ "\"\nbbox = [1, 2, 3, 4]\n"
  ⟨[(["c.toml"], .text config), (["in.pbf"], .text "")], []⟩

def collidingText : String :=
  "<?xml version=\"1.0\" encoding=\"UTF-8\"?>\n<osm version=\"0.6\" generator=\"carve/0.1.0\">\n" ++
    "  <bounds minlat=\"2\" minlon=\"1\" maxlat=\"4\" maxlon=\"3\"/>\n</osm>\n13.75\"/>\n</osm>\n"

theorem outputsCollide :
    (∀ run ∈ [(twoOutputs, collidingFiles "a.osm" "a.osm"),
        (freshOutputs, collidingFiles "a.osm" "x/../a.osm")],
      (run.1.run run.2).result.toBool = true ∧
        (run.1.outputs run.2).map Path.outputPlace = [some ["a.osm"], some ["a.osm"]]) ∧
    ((freshOutputs.run (collidingFiles "a.osm" "x/../a.osm")).files.get? ["a.osm"]).map
      (fun content => content.toBytes.data.toList) = some collidingText.toUTF8.data.toList := by
  refine ⟨?_, ?_⟩
  · decide +kernel
  · decide +kernel

end Cutout
