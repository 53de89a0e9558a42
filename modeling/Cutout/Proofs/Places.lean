import Cutout.Files
/-! Files by their places: what a change leaves at every place, and where paths lead. Only a way back through
a directory that is still to be made leads elsewhere before a file is made than after. -/
namespace Cutout
namespace Files
variable {f g : Files} {place other : Place}

theorem isFileIff : f.isFile place = true ↔ ∃ content, f.get? place = some content := by
  rw [isFile, List.any_eq_true, ← List.find?_isSome, get?, Option.isSome_iff_exists]
  simp only [Option.map_eq_some_iff, Prod.exists, exists_eq_right]
  exact exists_comm

theorem getPut (f : Files) (place other : Place) (content : Content) :
    (f.put place content).get? other = if other = place then some content else f.get? other := by
  unfold put
  split
  · rename_i file
    let replace : Place × Content → Place × Content := fun e =>
      if e.1 == place then (place, content) else e
    have keys : (fun e : Place × Content => e.1 == other) ∘ replace = fun e => e.1 == other := by
      funext e
      by_cases here : e.1 = place <;> simp [replace, here]
    have found : (f.entries.map replace).find? (fun e => e.1 == other) =
        (f.entries.find? fun e => e.1 == other).map replace := by
      rw [List.find?_map, keys]
    simp only [get?]
    rw [found]
    by_cases same : other = place
    · subst same
      obtain ⟨old, known⟩ := isFileIff.mp file
      obtain ⟨e, first, _⟩ := Option.map_eq_some_iff.mp known
      have key := List.find?_some first
      simp_all [replace]
    · cases first : f.entries.find? fun e => e.1 == other with
      | none => simp [same]
      | some e =>
        have key := List.find?_some first
        simp_all [replace]
  · rename_i free
    simp only [get?, List.find?_append]
    by_cases same : other = place
    · have none : (f.entries.find? fun e => e.1 == place) = none := by
        refine List.find?_eq_none.mpr fun e mem here => free ?_
        exact List.any_eq_true.mpr ⟨e, mem, here⟩
      simp [same, none]
    · have apart : ¬ place = other := fun eq => same eq.symm
      simp [same, apart]

theorem getRemove (f : Files) (place other : Place) :
    (f.remove place).get? other = if other = place then none else f.get? other := by
  unfold remove get?
  rw [List.find?_filter]
  by_cases same : other = place
  · simp [same]
  · have reached : (fun e : Place × Content => decide ((e.1 != place) = true ∧ (e.1 == other) = true)) =
        fun e => e.1 == other := by
      funext e
      by_cases here : e.1 = other
      · simp [here, same]
      · simp [here]
    rw [reached, if_neg same]

theorem getOverlay (f : Files) (place other : Place) (offset : Nat) (text : String) :
    (f.overlay place offset text).get? other =
      if other = place then some (((f.get? place).getD (.text "")).overlay offset text)
      else f.get? other := by
  rw [overlay, getPut]

theorem isFilePut (content : Content) :
    (f.put place content).isFile other = true ↔ other = place ∨ f.isFile other = true := by
  rw [isFileIff, isFileIff, getPut]
  split
  · rename_i same
    simp [same]
  · rename_i apart
    simp [apart]

theorem madePut (f : Files) (place : Place) (content : Content) :
    (f.put place content).made = f.made := by
  unfold put
  split <;> rfl

theorem isDirectoryIff : f.isDirectory place = true ↔
    (∀ name ∈ place, name = "/" ∨ name = "..") ∨ place ∈ f.made ∨
      ∃ file, f.isFile file = true ∧ file ≠ place ∧ place <+: file := by
  have below : (f.entries.any fun e => e.1 != place && place.isPrefixOf e.1) = true ↔
      ∃ file, f.isFile file = true ∧ file ≠ place ∧ place <+: file := by
    simp only [List.any_eq_true, isFile, beq_iff_eq, Bool.and_eq_true, bne_iff_ne, ne_eq,
      List.isPrefixOf_iff_prefix]
    constructor
    · intro ⟨e, mem, apart, prefixed⟩
      exact ⟨e.1, ⟨e, mem, rfl⟩, apart, prefixed⟩
    · rintro ⟨file, ⟨e, mem, rfl⟩, apart, prefixed⟩
      exact ⟨e, mem, apart, prefixed⟩
  rw [isDirectory, Bool.or_eq_true, Bool.or_eq_true, below, or_assoc]
  simp

structure Within (f g : Files) : Prop where
  files : ∀ place, f.isFile place = true → g.isFile place = true
  made : f.made ⊆ g.made

theorem Within.refl (f : Files) : f.Within f := ⟨fun _ file => file, List.Subset.refl _⟩

theorem Within.trans {h : Files} (first : f.Within g) (second : g.Within h) : f.Within h :=
  ⟨fun place file => second.files place (first.files place file),
    List.Subset.trans first.made second.made⟩

theorem Within.isDirectory (within : f.Within g) (there : f.isDirectory place = true) :
    g.isDirectory place = true := by
  rw [isDirectoryIff] at there ⊢
  rcases there with outer | made | ⟨file, known, below⟩
  · exact .inl outer
  · exact .inr (.inl (within.made made))
  · exact .inr (.inr ⟨file, within.files file known, below⟩)

theorem withinPut (f : Files) (place : Place) (content : Content) :
    f.Within (f.put place content) := by
  refine ⟨fun other file => (isFilePut content).mpr (.inr file), ?_⟩
  rw [madePut]
  exact List.Subset.refl _

def next? (place : Place) (part : List Char) : Option Place :=
  if part.isEmpty || part = ['.'] then some place
  else if part = ['.', '.'] then some (above place)
  else if isName (String.ofList part) then some (place ++ [String.ofList part])
  else none

theorem walkCons {enter : Place → Bool} {last : Place} {part : List Char}
    {rest : List (List Char)} : walk enter place (part :: rest) = some last ↔
      enter place = true ∧ ∃ next, next? place part = some next ∧
        walk enter next rest = some last := by
  rw [walk, next?]
  cases enters : enter place with
  | false => simp
  | true =>
    split
    · simp
    · split
      · simp
      · split <;> simp_all

theorem walkMore {enter wider : Place → Bool} (more : ∀ place, enter place = true → wider place = true)
    {last : Place} {parts : List (List Char)} (walked : walk enter place parts = some last) :
    walk wider place parts = some last := by
  induction parts generalizing place with
  | nil => exact walked
  | cons part rest ih =>
    obtain ⟨enters, next, leads, walked⟩ := walkCons.mp walked
    exact walkCons.mpr ⟨more place enters, next, leads, ih walked⟩

theorem walkReach {enter : Place → Bool} {p : Path} (walked : walk enter (origin p) (parts p) = some place) :
    place = reach p := by
  rw [reach, walkMore (fun _ _ => rfl) walked]
  rfl

theorem walkDown {enter : Place → Bool} {last : Place} {parts : List (List Char)}
    (down : ['.', '.'] ∉ parts) (walked : walk enter place parts = some last) : place <+: last := by
  induction parts generalizing place with
  | nil =>
    cases walked
    exact List.prefix_refl _
  | cons part rest ih =>
    obtain ⟨_, next, leads, walked⟩ := walkCons.mp walked
    rw [List.mem_cons, not_or] at down
    obtain ⟨notUp, down⟩ := down
    refine List.IsPrefix.trans ?_ (ih down walked)
    unfold next? at leads
    split at leads
    · cases leads
      exact List.prefix_refl _
    · split at leads
      · rename_i up
        exact absurd up.symm notUp
      · split at leads
        · cases leads
          exact List.prefix_append _ _
        · cases leads

theorem walkToFile {last : Place} {parts : List (List Char)} (down : ['.', '.'] ∉ parts)
    (there : f.isFile last = true) (walked : walk (fun place => !f.isFile place) place parts = some last) :
    walk f.isDirectory place parts = some last := by
  induction parts generalizing place with
  | nil => exact walked
  | cons part rest ih =>
    have below := walkDown down walked
    obtain ⟨enters, next, leads, walked⟩ := walkCons.mp walked
    rw [List.mem_cons, not_or] at down
    refine walkCons.mpr ⟨?_, next, leads, ih down.2 walked⟩
    refine isDirectoryIff.mpr (.inr (.inr ⟨last, there, fun same => ?_, below⟩))
    rw [← same, there] at enters
    cases enters

theorem placeMore (within : f.Within g) {p : Path} (leads : f.place? p = some place) :
    g.place? p = some place := by
  unfold place? at leads ⊢
  split at leads
  · cases leads
  · rename_i fine
    rw [if_neg fine]
    exact walkMore (fun _ => within.isDirectory) leads

theorem placeReach {p : Path} (leads : f.place? p = some place) : place = reach p := by
  unfold place? at leads
  split at leads
  · cases leads
  · exact walkReach leads

end Files

def Path.Climbs (p : Path) : Prop := ['.', '.'] ∈ Files.parts p

def Path.Plain (p : Path) (f : Files) : Prop := p.Climbs → ∃ place, f.place? p = some place

namespace Files
variable {f g : Files} {place other : Place}

theorem newPlaceIs {p : Path} (made : f.newPlace? p = some place) :
    p.isEmpty = false ∧ isShort p = true ∧
      walk (fun place => !f.isFile place) (origin p) (parts p) = some place := by
  have full : p.isEmpty = false := by
    obtain ⟨text⟩ := p
    by_cases empty : text = ""
    · subst empty
      cases made
    · simpa [Path.isEmpty] using empty
  unfold newPlace? at made
  split at made
  all_goals try cases made
  split at made
  · cases made
  · rename_i short
    split at made
    · rename_i last walked
      split at made
      · cases made
      · cases made
        exact ⟨full, by simpa using short, walked⟩
    · cases made

structure Creates (f : Files) (p : Path) (overwrite : Bool) (place : Place) (g : Files) : Prop where
  reached : place = reach p
  get : ∀ other, g.get? other = if other = place then some (.text "") else f.get? other
  within : f.Within g
  fresh : overwrite = false → p.Plain f → f.isFile place = false

theorem placeFree {p : Path} (absent : f.has p = false) (plain : p.Plain f) (full : p.isEmpty = false)
    (short : isShort p = true)
    (walked : walk (fun place => !f.isFile place) (origin p) (parts p) = some place) :
    f.isFile place = false := by
  cases file : f.isFile place with
  | false => rfl
  | true =>
    -- Below a file's directories there is a file, so a way that only goes down passes the check of
    -- what exists; one that goes up again passes it by assumption.
    have leads : f.place? p = some place := by
      by_cases climbs : p.Climbs
      · obtain ⟨there, leads⟩ := plain climbs
        rw [leads, placeReach leads, walkReach walked]
      · rw [place?, full, short]
        exact walkToFile climbs file walked
    simp [has, leads, file] at absent

theorem finishSpec {p : Path} {overwrite : Bool} {made : List Place} (more : f.made ⊆ made)
    (allowed : overwrite = false → f.has p = false)
    (finished : create.finish p { f with made } = .ok (place, g)) :
    f.Creates p overwrite place g := by
  unfold create.finish at finished
  split at finished
  · rename_i last new
    cases finished
    obtain ⟨full, short, walked⟩ := newPlaceIs new
    have wider : f.Within { f with made } := ⟨fun _ file => file, more⟩
    refine ⟨walkReach walked, fun other => getPut _ _ _ _, wider.trans (withinPut _ _ _), ?_⟩
    intro kept plain
    exact placeFree (allowed kept) plain full short walked
  · cases finished

theorem createSpec {p : Path} {overwrite : Bool} (made : f.create p overwrite = .ok (place, g)) :
    f.Creates p overwrite place g := by
  unfold create at made
  split at made
  · cases made
  · rename_i passed
    have allowed (kept : overwrite = false) : f.has p = false := by simpa [kept] using passed
    split at made
    · split at made
      · exact finishSpec (List.subset_append_left _ _) allowed made
      · cases made
    · exact finishSpec (List.Subset.refl _) allowed made

end Files
end Cutout
