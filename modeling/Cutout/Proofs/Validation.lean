import Cutout.Config
import Mathlib.Order.Basic
/-! Which boundaries a configuration may give. Each entry has one boundary of the right shape, or the
first one that has not is named with what is wrong. A box whose numbers are in no order passes as well,
and nothing is inside. -/
namespace Cutout

namespace Binary64

def AtMost (a b : Binary64) : Prop := a.le b = true

def NotAbove (a b : Binary64) : Prop := b.lt a = false

theorem compareSwap (a b : Binary64) : compare? b a = (compare? a b).map Ordering.swap := by
  cases a with
  | nan => cases b <;> rfl
  | infinite s =>
    cases b with
    | nan => rfl
    | infinite t => cases s <;> cases t <;> rfl
    | finite _ _ => cases s <;> rfl
  | finite s m =>
    cases b with
    | nan => rfl
    | infinite t => cases t <;> rfl
    | finite t n => exact congrArg some (Int.compare_swap _ _).symm

theorem compareSome {a b : Binary64} (first : a ≠ nan) (second : b ≠ nan) :
    (compare? a b).isSome = true := by
  cases a with
  | nan => exact absurd rfl first
  | infinite _ =>
    cases b with
    | nan => exact absurd rfl second
    | infinite _ => rfl
    | finite _ _ => rfl
  | finite _ _ =>
    cases b with
    | nan => exact absurd rfl second
    | infinite _ => rfl
    | finite _ _ => rfl

theorem atMostIff {a b : Binary64} (first : a ≠ nan) (second : b ≠ nan) :
    a.AtMost b ↔ a.NotAbove b := by
  obtain ⟨o, compared⟩ := Option.isSome_iff_exists.mp (compareSome first second)
  rw [AtMost, NotAbove, le, lt, compareSwap a b, compared]
  cases o <;> decide

theorem notAboveOfAtMost {a b : Binary64} (most : a.AtMost b) : a.NotAbove b := by
  rw [AtMost, le] at most
  rw [NotAbove, lt, compareSwap a b]
  cases compared : compare? a b with
  | none => rfl
  | some o =>
    rw [compared] at most
    cases o with
    | lt => rfl
    | eq => rfl
    | gt => cases most

end Binary64

section Row
variable {α ε : Type}

theorem firstWrong {Sound : α → Prop} {Wrong : α → ε → Prop}
    (decided : ∀ a, Sound a ∨ ∃ cause, Wrong a cause) (items : List α) :
    (∀ a ∈ items, Sound a) ∨ ∃ earlier a later cause, items = earlier ++ a :: later ∧
      (∀ b ∈ earlier, Sound b) ∧ Wrong a cause := by
  induction items with
  | nil => exact .inl nofun
  | cons a rest ih =>
    rcases decided a with here | ⟨cause, here⟩
    · rcases ih with others | ⟨earlier, b, later, cause, rfl, others, wrong⟩
      · exact .inl (List.forall_mem_cons.mpr ⟨here, others⟩)
      · have before := List.forall_mem_cons.mpr ⟨here, others⟩
        exact .inr ⟨a :: earlier, b, later, cause, rfl, before, wrong⟩
    · exact .inr ⟨[], a, rest, cause, rfl, nofun, here⟩

variable {check : α → Except ε Unit}

theorem rowCons (check : α → Except ε Unit) (a : α) (rest : List α) :
    (a :: rest).forM check = (check a).bind fun _ => rest.forM check := rfl

theorem rowPasses {items : List α} (passed : ∀ a ∈ items, check a = .ok ()) :
    items.forM check = .ok () := by
  induction items with
  | nil => rfl
  | cons a rest ih =>
    obtain ⟨first, others⟩ := List.forall_mem_cons.mp passed
    rw [rowCons, first]
    exact ih others

theorem rowFails {earlier later : List α} {a : α} {cause : ε}
    (passed : ∀ b ∈ earlier, check b = .ok ()) (fails : check a = .error cause) :
    (earlier ++ a :: later).forM check = .error cause := by
  induction earlier with
  | nil => rw [List.nil_append, rowCons, fails]; rfl
  | cons b rest ih =>
    obtain ⟨first, others⟩ := List.forall_mem_cons.mp passed
    rw [List.cons_append, rowCons, first]
    exact ih others

end Row

def IsRing (ring : List (List Binary64)) : Prop :=
  3 ≤ ring.length ∧ ∀ position ∈ ring, position.length = 2

inductive RingOffends (ring : List (List Binary64)) : BoundaryFault → Prop
  | short (few : ring.length < 3) : RingOffends ring .shortRing
  | notPairs (enough : 3 ≤ ring.length) (odd : ∃ position ∈ ring, position.length ≠ 2) :
    RingOffends ring .notPairs

namespace Entry
open Binary64 (AtMost NotAbove)

theorem checkRingPasses {ring : List (List Binary64)} (sound : IsRing ring) :
    checkRing ring = .ok () := by
  rw [checkRing, if_neg (by have := sound.1; omega), if_neg]
  simpa using sound.2

theorem checkRingFails {ring : List (List Binary64)} {cause : BoundaryFault}
    (wrong : RingOffends ring cause) : checkRing ring = .error cause := by
  cases wrong with
  | short few => exact if_pos few
  | notPairs enough odd =>
    rw [checkRing, if_neg (by omega), if_pos]
    simpa using odd

theorem ringOrFault (ring : List (List Binary64)) :
    IsRing ring ∨ ∃ cause, RingOffends ring cause := by
  by_cases few : ring.length < 3
  · exact .inr ⟨_, .short few⟩
  · by_cases odd : ∃ position ∈ ring, position.length ≠ 2
    · exact .inr ⟨_, .notPairs (by omega) odd⟩
    · refine .inl ⟨by omega, fun position mem => ?_⟩
      by_contra other
      exact odd ⟨position, mem, other⟩

def given (e : Entry) : Nat :=
  e.bbox.isSome.toNat + e.polygon.isSome.toNat + e.geojson.isSome.toNat

inductive Means (inOrder : Binary64 → Binary64 → Prop) (e : Entry) : BoundarySpec → Prop
  | bbox {west south east north : Binary64} (alone : e.given = 1)
    (box : e.bbox = some [west, south, east, north]) (across : inOrder west east)
    (up : inOrder south north) : Means inOrder e (.bbox west south east north)
  | polygon {rings : List (List (List Binary64))} (alone : e.given = 1)
    (given : e.polygon = some rings) (some_ring : rings ≠ [])
    (sound : ∀ ring ∈ rings, IsRing ring) : Means inOrder e (.polygon rings)
  | geojson {path : Path} (alone : e.given = 1) (given : e.geojson = some path) :
    Means inOrder e (.geojson path)

def WellFormed (inOrder : Binary64 → Binary64 → Prop) (e : Entry) : Prop :=
  ∃ spec, e.Means inOrder spec

inductive Offends (e : Entry) : BoundaryFault → Prop
  | notExactlyOne (other : e.given ≠ 1) : Offends e .notExactlyOne
  | bboxLength {numbers : List Binary64} (alone : e.given = 1) (box : e.bbox = some numbers)
    (wrong : numbers.length ≠ 4) : Offends e .bboxLength
  | bboxInverted {west south east north : Binary64} (alone : e.given = 1)
    (box : e.bbox = some [west, south, east, north])
    (inverted : ¬ (west.NotAbove east ∧ south.NotAbove north)) : Offends e .bboxInverted
  | noOuterRing (alone : e.given = 1) (given : e.polygon = some []) : Offends e .noOuterRing
  | ring {earlier later : List (List (List Binary64))} {ring : List (List Binary64)}
    {cause : BoundaryFault} (alone : e.given = 1)
    (given : e.polygon = some (earlier ++ ring :: later)) (sound : ∀ r ∈ earlier, IsRing r)
    (wrong : RingOffends ring cause) : Offends e cause

theorem countNone {α : Type} {o : Option α} : o.isSome.toNat = 0 ↔ o = none := by
  cases o <;> simp

section Alone
variable {e : Entry}

theorem specOfBox {numbers : List Binary64} (alone : e.given = 1) (box : e.bbox = some numbers) :
    e.boundarySpec = boxSpec numbers := by
  have one : e.bbox.isSome.toNat = 1 := by rw [box]; rfl
  rw [given] at alone
  have polygon : e.polygon = none := countNone.mp (by omega)
  have file : e.geojson = none := countNone.mp (by omega)
  rw [boundarySpec, box, polygon, file]

theorem specOfPolygon {rings : List (List (List Binary64))} (alone : e.given = 1)
    (polygon : e.polygon = some rings) : e.boundarySpec = polygonSpec rings := by
  have one : e.polygon.isSome.toNat = 1 := by rw [polygon]; rfl
  rw [given] at alone
  have box : e.bbox = none := countNone.mp (by omega)
  have file : e.geojson = none := countNone.mp (by omega)
  rw [boundarySpec, box, polygon, file]

theorem specOfFile {path : Path} (alone : e.given = 1) (file : e.geojson = some path) :
    e.boundarySpec = .ok (.geojson path) := by
  have one : e.geojson.isSome.toNat = 1 := by rw [file]; rfl
  rw [given] at alone
  have box : e.bbox = none := countNone.mp (by omega)
  have polygon : e.polygon = none := countNone.mp (by omega)
  rw [boundarySpec, box, polygon, file]

theorem specOfOthers (other : e.given ≠ 1) : e.boundarySpec = .error .notExactlyOne := by
  rw [given] at other
  unfold boundarySpec
  split
  · rename_i box polygon file
    exact absurd (by rw [box, polygon, file]; rfl) other
  · rename_i box polygon file
    exact absurd (by rw [box, polygon, file]; rfl) other
  · rename_i box polygon file
    exact absurd (by rw [box, polygon, file]; rfl) other
  · rfl

end Alone

theorem boxPasses {west south east north : Binary64} (across : west.NotAbove east)
    (up : south.NotAbove north) :
    boxSpec [west, south, east, north] = .ok (.bbox west south east north) := by
  rw [NotAbove] at across up
  rw [boxSpec, across, up]
  rfl

theorem boxFails {west south east north : Binary64}
    (inverted : ¬ (west.NotAbove east ∧ south.NotAbove north)) :
    boxSpec [west, south, east, north] = .error .bboxInverted := by
  have above : (east.lt west || north.lt south) = true := by
    rw [NotAbove, NotAbove, ← Bool.or_eq_false_iff, Bool.not_eq_false] at inverted
    exact inverted
  rw [boxSpec, above]
  rfl

theorem boxWrong {numbers : List Binary64} (wrong : numbers.length ≠ 4) :
    boxSpec numbers = .error .bboxLength := by
  unfold boxSpec
  split
  · exact absurd rfl wrong
  · rfl

theorem polygonUnless {rings : List (List (List Binary64))} (some_ring : rings ≠ []) :
    polygonSpec rings = (rings.forM checkRing).bind fun _ => .ok (.polygon rings) := by
  rw [polygonSpec, if_neg (by simpa using some_ring)]
  rfl

theorem specOfMeans {e : Entry} {spec : BoundarySpec} (means : e.Means NotAbove spec) :
    e.boundarySpec = .ok spec := by
  cases means with
  | bbox alone box across up => rw [specOfBox alone box, boxPasses across up]
  | polygon alone polygon some_ring sound =>
    have passes := rowPasses fun ring mem => checkRingPasses (sound ring mem)
    rw [specOfPolygon alone polygon, polygonUnless some_ring, passes]
    rfl
  | geojson alone file => exact specOfFile alone file

theorem faultOfOffends {e : Entry} {cause : BoundaryFault} (offends : e.Offends cause) :
    e.boundarySpec = .error cause := by
  cases offends with
  | notExactlyOne other => exact specOfOthers other
  | bboxLength alone box wrong => rw [specOfBox alone box, boxWrong wrong]
  | bboxInverted alone box inverted => rw [specOfBox alone box, boxFails inverted]
  | noOuterRing alone polygon => exact specOfPolygon alone polygon
  | @ring earlier later ring _ alone polygon sound wrong =>
    have passed : ∀ r ∈ earlier, checkRing r = .ok () := fun r mem => checkRingPasses (sound r mem)
    have fails : (earlier ++ ring :: later).forM checkRing = .error cause :=
      rowFails passed (checkRingFails wrong)
    rw [specOfPolygon alone polygon, polygonUnless (by simp), fails]
    rfl

theorem fourNumbers {numbers : List Binary64} (four : numbers.length = 4) :
    ∃ west south east north, numbers = [west, south, east, north] := by
  match numbers, four with
  | [west, south, east, north], _ => exact ⟨west, south, east, north, rfl⟩

section Decided
variable {e : Entry}

theorem boxDecided {numbers : List Binary64} (alone : e.given = 1) (box : e.bbox = some numbers) :
    e.WellFormed NotAbove ∨ ∃ cause, e.Offends cause := by
  by_cases four : numbers.length = 4
  · obtain ⟨west, south, east, north, rfl⟩ := fourNumbers four
    by_cases inOrder : west.NotAbove east ∧ south.NotAbove north
    · exact .inl ⟨_, .bbox alone box inOrder.1 inOrder.2⟩
    · exact .inr ⟨_, .bboxInverted alone box inOrder⟩
  · exact .inr ⟨_, .bboxLength alone box four⟩

theorem polygonDecided {rings : List (List (List Binary64))} (alone : e.given = 1)
    (polygon : e.polygon = some rings) : e.WellFormed NotAbove ∨ ∃ cause, e.Offends cause := by
  by_cases none : rings = []
  · subst none
    exact .inr ⟨_, .noOuterRing alone polygon⟩
  · rcases firstWrong ringOrFault rings with
      sound | ⟨earlier, ring, later, cause, rfl, sound, wrong⟩
    · exact .inl ⟨_, .polygon alone polygon none sound⟩
    · exact .inr ⟨cause, .ring alone polygon sound wrong⟩

theorem meansOrOffends (e : Entry) : e.WellFormed NotAbove ∨ ∃ cause, e.Offends cause := by
  by_cases alone : e.given = 1
  · cases box : e.bbox with
    | some numbers => exact boxDecided alone box
    | none =>
      cases polygon : e.polygon with
      | some rings => exact polygonDecided alone polygon
      | none =>
        cases file : e.geojson with
        | some path => exact .inl ⟨_, .geojson alone file⟩
        | none =>
          rw [given, box, polygon, file] at alone
          cases alone
  · exact .inr ⟨_, .notExactlyOne alone⟩

end Decided

def Ordered (e : Entry) : Prop := ∀ numbers, e.bbox = some numbers → Binary64.nan ∉ numbers

theorem meansWeaker {inOrder weaker : Binary64 → Binary64 → Prop} {e : Entry} {spec : BoundarySpec}
    (means : e.Means inOrder spec)
    (weakens : ∀ numbers, e.bbox = some numbers →
      ∀ a ∈ numbers, ∀ b ∈ numbers, inOrder a b → weaker a b) : e.Means weaker spec := by
  cases means with
  | bbox alone box across up =>
    have weakens := weakens _ box
    have across := weakens _ (by simp) _ (by simp) across
    have up := weakens _ (by simp) _ (by simp) up
    exact .bbox alone box across up
  | polygon alone polygon some_ring sound => exact .polygon alone polygon some_ring sound
  | geojson alone file => exact .geojson alone file

theorem soundOfAtMost {e : Entry} (sound : e.WellFormed AtMost) : e.WellFormed NotAbove := by
  obtain ⟨spec, means⟩ := sound
  exact ⟨spec, meansWeaker means fun _ _ _ _ _ _ => Binary64.notAboveOfAtMost⟩

theorem soundOfOrdered {e : Entry} (ordered : e.Ordered) (sound : e.WellFormed NotAbove) :
    e.WellFormed AtMost := by
  obtain ⟨spec, means⟩ := sound
  refine ⟨spec, meansWeaker means fun numbers box a first b second => ?_⟩
  have number {n : Binary64} (mem : n ∈ numbers) : n ≠ .nan :=
    ne_of_mem_of_not_mem mem (ordered _ box)
  exact (Binary64.atMostIff (number first) (number second)).mpr

end Entry

namespace Rect

theorem numbersOfLe {a b : Binary64} (le : a.le b = true) : a ≠ .nan ∧ b ≠ .nan := by
  constructor
  · rintro rfl
    cases le
  · rintro rfl
    cases a <;> cases le

theorem cornersAcross (a b : Point) :
    (ofCorners a b).min.x = a.x ∧ (ofCorners a b).max.x = b.x ∨
      (ofCorners a b).min.x = b.x ∧ (ofCorners a b).max.x = a.x := by
  cases before : a.x.lt b.x with
  | true => exact .inl (by simp [ofCorners, before])
  | false => exact .inr (by simp [ofCorners, before])

theorem cornersUp (a b : Point) :
    (ofCorners a b).min.y = a.y ∧ (ofCorners a b).max.y = b.y ∨
      (ofCorners a b).min.y = b.y ∧ (ofCorners a b).max.y = a.y := by
  cases below : a.y.lt b.y with
  | true => exact .inl (by simp [ofCorners, below])
  | false => exact .inr (by simp [ofCorners, below])

theorem cornerNumbers {a b p : Point} (inside : (ofCorners a b).contains p = true) :
    (a.x ≠ .nan ∧ b.x ≠ .nan) ∧ a.y ≠ .nan ∧ b.y ≠ .nan := by
  simp only [contains, Bool.and_eq_true] at inside
  obtain ⟨⟨⟨west, east⟩, south⟩, north⟩ := inside
  have west := (numbersOfLe west).1
  have east := (numbersOfLe east).2
  have south := (numbersOfLe south).1
  have north := (numbersOfLe north).2
  constructor
  · rcases cornersAcross a b with ⟨least, greatest⟩ | ⟨least, greatest⟩
    · exact ⟨least ▸ west, greatest ▸ east⟩
    · exact ⟨greatest ▸ east, least ▸ west⟩
  · rcases cornersUp a b with ⟨least, greatest⟩ | ⟨least, greatest⟩
    · exact ⟨least ▸ south, greatest ▸ north⟩
    · exact ⟨greatest ▸ north, least ▸ south⟩

end Rect

theorem Entry.nothingInside {e : Entry} {spec : BoundarySpec} (means : e.Means Binary64.NotAbove spec)
    (unordered : ¬ e.WellFormed Binary64.AtMost) (resolve : Path → Path)
    (read : Path → Option String) :
    ∃ b, Boundary.ofSpec spec resolve read = .ok b ∧ ∀ l, b.contains l = false := by
  cases means with
  | @bbox west south east north alone box across up =>
    refine ⟨.ofBBox west south east north, rfl, fun l => ?_⟩
    by_contra inside
    rw [Bool.not_eq_false] at inside
    obtain ⟨⟨westNumber, eastNumber⟩, southNumber, northNumber⟩ := Rect.cornerNumbers inside
    have across := (Binary64.atMostIff westNumber eastNumber).mpr across
    have up := (Binary64.atMostIff southNumber northNumber).mpr up
    exact unordered ⟨_, .bbox alone box across up⟩
  | polygon alone polygon some_ring sound =>
    exact absurd ⟨_, .polygon alone polygon some_ring sound⟩ unordered
  | geojson alone file => exact absurd ⟨_, .geojson alone file⟩ unordered

namespace Config
open Binary64 (AtMost NotAbove)

def WellFormed (inOrder : Binary64 → Binary64 → Prop) (c : Config) : Prop :=
  c.entries ≠ [] ∧ ∀ e ∈ c.entries, e.WellFormed inOrder

inductive Offends (c : Config) : Fault → Prop
  | noExtracts (none : c.entries = []) : Offends c .noExtracts
  | badExtract {earlier later : List Entry} {e : Entry} {cause : BoundaryFault}
    (entries : c.entries = earlier ++ e :: later) (sound : ∀ d ∈ earlier, d.WellFormed NotAbove)
    (wrong : e.Offends cause) : Offends c (.badExtract (earlier.length + 1) e.output cause)

theorem checkPasses {entries : List Entry} (sound : ∀ e ∈ entries, e.WellFormed NotAbove)
    (number : Nat) : checkEntries number entries = .ok () := by
  induction entries generalizing number with
  | nil => rfl
  | cons e rest ih =>
    obtain ⟨⟨spec, means⟩, others⟩ := List.forall_mem_cons.mp sound
    rw [checkEntries, Entry.specOfMeans means]
    exact ih others (number + 1)

theorem checkFails {earlier later : List Entry} {e : Entry} {cause : BoundaryFault}
    (sound : ∀ d ∈ earlier, d.WellFormed NotAbove) (wrong : e.Offends cause) (number : Nat) :
    checkEntries number (earlier ++ e :: later) =
      .error (.badExtract (earlier.length + number) e.output cause) := by
  induction earlier generalizing number with
  | nil => rw [List.nil_append, checkEntries, Entry.faultOfOffends wrong, List.length_nil, Nat.zero_add]
  | cons d rest ih =>
    obtain ⟨⟨spec, means⟩, others⟩ := List.forall_mem_cons.mp sound
    rw [List.cons_append, checkEntries, Entry.specOfMeans means]
    simp only
    rw [ih others, List.length_cons, Nat.add_right_comm, Nat.add_assoc]

theorem passesOfWellFormed {c : Config} (sound : c.WellFormed NotAbove) : c.validate = .ok () := by
  rw [validate, if_neg (by simpa using sound.1)]
  exact checkPasses sound.2 1

theorem failsOfOffends {c : Config} {fault : Fault} (offends : c.Offends fault) :
    c.validate = .error fault := by
  cases offends with
  | noExtracts none => rw [validate, none]; rfl
  | badExtract entries sound wrong =>
    rw [validate, entries, if_neg (by simp)]
    exact checkFails sound wrong 1

theorem soundOrOffends (c : Config) : c.WellFormed NotAbove ∨ ∃ fault, c.Offends fault := by
  by_cases none : c.entries = []
  · exact .inr ⟨_, .noExtracts none⟩
  · rcases firstWrong Entry.meansOrOffends c.entries with
      sound | ⟨earlier, e, later, cause, entries, sound, wrong⟩
    · exact .inl ⟨none, sound⟩
    · exact .inr ⟨_, .badExtract entries sound wrong⟩

/-- Accepted is what is well-formed, up to boxes with NaN: none of those is refused, and such a box
holds no location. Anything else is named with its number and its output. -/
theorem validateExact (c : Config) :
    (c.validate = .ok () ↔ c.WellFormed NotAbove) ∧
      (∀ fault, c.validate = .error fault ↔ c.Offends fault) ∧
      ((∀ e ∈ c.entries, e.Ordered) → (c.validate = .ok () ↔ c.WellFormed AtMost)) ∧
      (c.WellFormed AtMost → c.validate = .ok ()) ∧
      (c.validate = .ok () → ∀ e ∈ c.entries, ¬ e.WellFormed AtMost →
        ∃ spec, e.boundarySpec = .ok spec ∧ ∀ resolve read,
          ∃ b, Boundary.ofSpec spec resolve read = .ok b ∧ ∀ l, b.contains l = false) := by
  have accepted : c.validate = .ok () ↔ c.WellFormed NotAbove := by
    refine ⟨fun passes => ?_, passesOfWellFormed⟩
    rcases soundOrOffends c with sound | ⟨fault, offends⟩
    · exact sound
    · cases (failsOfOffends offends).symm.trans passes
  have refused (fault : Fault) : c.validate = .error fault ↔ c.Offends fault := by
    refine ⟨fun fails => ?_, failsOfOffends⟩
    rcases soundOrOffends c with sound | ⟨other, offends⟩
    · cases (passesOfWellFormed sound).symm.trans fails
    · have same := (failsOfOffends offends).symm.trans fails
      cases same
      exact offends
  have weakened (sound : c.WellFormed AtMost) : c.validate = .ok () :=
    passesOfWellFormed ⟨sound.1, fun e mem => Entry.soundOfAtMost (sound.2 e mem)⟩
  refine ⟨accepted, refused, fun ordered => ⟨fun passes => ?_, weakened⟩, weakened, ?_⟩
  · have ⟨some_entry, sound⟩ := accepted.mp passes
    exact ⟨some_entry, fun e mem => Entry.soundOfOrdered (ordered e mem) (sound e mem)⟩
  · intro passes e mem unordered
    obtain ⟨spec, means⟩ := (accepted.mp passes).2 e mem
    exact ⟨spec, Entry.specOfMeans means, Entry.nothingInside means unordered⟩

end Config

theorem unorderedBoxAccepted :
    let box := some [.nan, .zero, .ofNat 1, .ofNat 1]
    let e : Entry := ⟨⟨"out.osm"⟩, none, none, box, none, none, none, none⟩
    let c : Config := ⟨none, none, [], [e], ⟨""⟩⟩
    c.validate = .ok () ∧ ¬ c.WellFormed Binary64.AtMost ∧
      ¬ (c.validate = .ok () ↔ c.WellFormed Binary64.AtMost) := by
  intro box e c
  have passes : c.validate = .ok () := by decide +kernel
  have unordered : ¬ c.WellFormed Binary64.AtMost := by
    intro ⟨_, sound⟩
    obtain ⟨spec, means⟩ := sound _ (List.mem_singleton_self _)
    cases means with
    | bbox _ given across _ =>
      have west := (List.cons.inj (Option.some.inj given)).1
      rw [← west] at across
      cases across
    | polygon _ given _ _ => cases given
    | geojson _ given => cases given
  exact ⟨passes, unordered, fun same => unordered (same.mp passes)⟩

example :
    let point (x y : Nat) : List Binary64 := [.ofNat x, .ofNat y]
    let rings := [[point 0 0, point 9 0, point 9 9], [point 7 1, point 8 1]]
    let box := point 0 0 ++ point 9 9
    let a : Entry := ⟨⟨"a.osm"⟩, none, none, some box, none, none, none, none⟩
    let b : Entry := ⟨⟨"b.osm"⟩, none, none, none, some rings, none, none, none⟩
    let c : Config := ⟨none, none, [], [a, b], ⟨""⟩⟩
    c.validate = .error (.badExtract 2 ⟨"b.osm"⟩ .shortRing) := by
  decide +kernel

end Cutout
