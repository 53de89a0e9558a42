import Mathlib.Order.Bounds.Basic
import Cutout.Boundary
import Cutout.Proofs.Turns
/-! The envelope of an area, and positions beyond it. Around a position that a closed ring passes by on
one side the edges wind up as often as down, so no area holds a position outside of its envelope. -/
namespace Cutout
open Binary64

structure Spans (range : Binary64 × Binary64) (among : Binary64 → Prop) : Prop where
  finite : ∀ v, among v → v.isFinite = true
  low : among range.1
  high : among range.2
  bounds : ∀ v, among v → range.1.value ≤ v.value ∧ v.value ≤ range.2.value

namespace Spans
variable {range : Binary64 × Binary64} {among : Binary64 → Prop}

theorem congr {same : Binary64 → Prop} (spans : Spans range among)
    (agree : ∀ v, among v ↔ same v) : Spans range same := by
  have equal : among = same := funext fun v => propext (agree v)
  rwa [← equal]

theorem single {v : Binary64} (finite : v.isFinite = true) : Spans (v, v) (· = v) where
  finite _ same := same ▸ finite
  low := rfl
  high := rfl
  bounds _ same := same ▸ ⟨Int.le_refl _, Int.le_refl _⟩

theorem widen (spans : Spans range among) {v : Binary64} (finite : v.isFinite = true) :
    Spans (Area.widen v range) fun u => u = v ∨ among u := by
  have above := ltFinite (spans.finite _ spans.high) finite
  have below := ltFinite finite (spans.finite _ spans.low)
  have ordered := (spans.bounds _ spans.low).2
  have all : ∀ u, u = v ∨ among u → u.isFinite = true := by
    intro u mem
    rcases mem with rfl | mem
    · exact finite
    · exact spans.finite u mem
  unfold Area.widen
  split
  · rename_i wider
    have up := (above.mp wider).le
    refine ⟨all, .inr spans.low, .inl rfl, fun u mem => ?_⟩
    rcases mem with rfl | mem
    · exact ⟨ordered.trans up, le_rfl⟩
    · exact (spans.bounds u mem).imp_right up.trans'
  · rename_i notAbove
    split
    · rename_i wider
      have down := (below.mp wider).le
      refine ⟨all, .inl rfl, .inr spans.high, fun u mem => ?_⟩
      rcases mem with rfl | mem
      · exact ⟨le_rfl, down.trans ordered⟩
      · exact (spans.bounds u mem).imp_left down.trans
    · rename_i notBelow
      refine ⟨all, .inr spans.low, .inr spans.high, fun u mem => ?_⟩
      rcases mem with rfl | mem
      · exact ⟨not_lt.mp (mt below.mpr notBelow), not_lt.mp (mt above.mpr notAbove)⟩
      · exact spans.bounds u mem

theorem widenAll (spans : Spans range among) {values : List Binary64}
    (finite : ∀ v ∈ values, v.isFinite = true) :
    Spans (values.foldl (fun range v => Area.widen v range) range) fun u =>
      u ∈ values ∨ among u := by
  induction values generalizing range among with
  | nil => exact spans.congr fun u => by simp
  | cons v rest ih =>
    obtain ⟨first, others⟩ := List.forall_mem_cons.mp finite
    refine (ih (spans.widen first) others).congr fun u => ?_
    rw [List.mem_cons, or_left_comm, or_assoc]

end Spans

structure Rect.Around (r : Rect) (points : List Point) : Prop where
  corners : r.min.isFinite = true ∧ r.max.isFinite = true
  west : IsLeast {v | ∃ q ∈ points, q.x.value = v} r.min.x.value
  east : IsGreatest {v | ∃ q ∈ points, q.x.value = v} r.max.x.value
  south : IsLeast {v | ∃ q ∈ points, q.y.value = v} r.min.y.value
  north : IsGreatest {v | ∃ q ∈ points, q.y.value = v} r.max.y.value

theorem Spans.ofPoints {p : Point} {ps : List Point} (read : Point → Binary64)
    (finite : ∀ q ∈ p :: ps, (read q).isFinite = true) :
    Spans (ps.foldl (fun range q => Area.widen (read q) range) (read p, read p)) fun v =>
      ∃ q ∈ p :: ps, read q = v := by
  obtain ⟨first, others⟩ := List.forall_mem_cons.mp finite
  have spans := (Spans.single first).widenAll (List.forall_mem_map.mpr others)
  rw [List.foldl_map] at spans
  refine spans.congr fun v => ?_
  rw [List.mem_map, or_comm, eq_comm]
  simp only [List.mem_cons, exists_eq_or_imp]

theorem Spans.sorted {range : Binary64 × Binary64} {among : Binary64 → Prop}
    (spans : Spans range among) :
    let ends := if range.1.lt range.2 then (range.1, range.2) else (range.2, range.1)
    Spans ends among := by
  have ordered := ltFinite (spans.finite _ spans.low) (spans.finite _ spans.high)
  intro ends
  unfold ends
  split
  · exact spans
  · rename_i notLess
    have close : range.2.value ≤ range.1.value := not_lt.mp (mt ordered.mpr notLess)
    refine ⟨spans.finite, spans.high, spans.low, fun v mem => ?_⟩
    have inside := spans.bounds v mem
    exact ⟨close.trans inside.1, inside.2.trans close⟩

theorem Spans.least {range : Binary64 × Binary64} {points : List Point} {read : Point → Binary64}
    (spans : Spans range fun v => ∃ q ∈ points, read q = v) :
    IsLeast {v | ∃ q ∈ points, (read q).value = v} range.1.value := by
  obtain ⟨q, mem, same⟩ := spans.low
  refine ⟨⟨q, mem, congrArg value same⟩, fun v reached => ?_⟩
  obtain ⟨q, mem, rfl⟩ := reached
  exact (spans.bounds _ ⟨q, mem, rfl⟩).1

theorem Spans.greatest {range : Binary64 × Binary64} {points : List Point}
    {read : Point → Binary64} (spans : Spans range fun v => ∃ q ∈ points, read q = v) :
    IsGreatest {v | ∃ q ∈ points, (read q).value = v} range.2.value := by
  obtain ⟨q, mem, same⟩ := spans.high
  refine ⟨⟨q, mem, congrArg value same⟩, fun v reached => ?_⟩
  obtain ⟨q, mem, rfl⟩ := reached
  exact (spans.bounds _ ⟨q, mem, rfl⟩).2

theorem Area.envelopeAround {area : Area} {envelope : Rect}
    (found : area.envelope? = some envelope)
    (finite : ∀ q ∈ area.exteriorPoints, q.isFinite = true) :
    envelope.Around area.exteriorPoints := by
  unfold Area.envelope? at found
  split at found
  · cases found
  · rename_i p ps points
    rw [points] at finite ⊢
    obtain rfl := Option.some.inj found
    have parts := fun q mem => Point.finiteIff.mp (finite q mem)
    have x := (Spans.ofPoints Point.x fun q mem => (parts q mem).1).sorted
    have y := (Spans.ofPoints Point.y fun q mem => (parts q mem).2).sorted
    refine ⟨⟨?_, ?_⟩, x.least, x.greatest, y.least, y.greatest⟩
    · exact Point.finiteIff.mpr ⟨x.finite _ x.low, y.finite _ y.low⟩
    · exact Point.finiteIff.mpr ⟨x.finite _ x.high, y.finite _ y.high⟩

inductive Point.Beyond (p : Point) (points : List Point) : Prop
  | west (beside : ∀ q ∈ points, p.x.value < q.x.value)
  | east (beside : ∀ q ∈ points, q.x.value < p.x.value)
  | south (below : ∀ q ∈ points, p.y.value < q.y.value)
  | north (above : ∀ q ∈ points, q.y.value < p.y.value)

theorem Rect.Around.beyond {r : Rect} {points : List Point} (around : r.Around points) {p : Point}
    (finite : p.isFinite = true) (outside : r.contains p = false) : p.Beyond points := by
  obtain ⟨finiteX, finiteY⟩ := Point.finiteIff.mp finite
  obtain ⟨minX, minY⟩ := Point.finiteIff.mp around.corners.1
  obtain ⟨maxX, maxY⟩ := Point.finiteIff.mp around.corners.2
  have some_side : ¬ (((r.min.x.value ≤ p.x.value ∧ p.x.value ≤ r.max.x.value) ∧
      r.min.y.value ≤ p.y.value) ∧ p.y.value ≤ r.max.y.value) := by
    rw [← leFinite minX finiteX, ← leFinite finiteX maxX, ← leFinite minY finiteY,
      ← leFinite finiteY maxY, ← Bool.and_eq_true_iff, ← Bool.and_eq_true_iff,
      ← Bool.and_eq_true_iff]
    exact Bool.eq_false_iff.mp outside
  have x {q : Point} (mem : q ∈ points) :=
    And.intro (around.west.2 ⟨q, mem, rfl⟩) (around.east.2 ⟨q, mem, rfl⟩)
  have y {q : Point} (mem : q ∈ points) :=
    And.intro (around.south.2 ⟨q, mem, rfl⟩) (around.north.2 ⟨q, mem, rfl⟩)
  by_cases west : p.x.value < r.min.x.value
  · exact .west fun q mem => west.trans_le (x mem).1
  by_cases east : r.max.x.value < p.x.value
  · exact .east fun q mem => (x mem).2.trans_lt east
  by_cases south : p.y.value < r.min.y.value
  · exact .south fun q mem => south.trans_le (y mem).1
  · exact .north fun q mem => (y mem).2.trans_lt (by omega)

theorem Point.Beyond.subset {p : Point} {points some : List Point} (beyond : p.Beyond points)
    (among : ∀ q ∈ some, q ∈ points) : p.Beyond some := by
  cases beyond with
  | west beside => exact .west fun q mem => beside q (among q mem)
  | east beside => exact .east fun q mem => beside q (among q mem)
  | south below => exact .south fun q mem => below q (among q mem)
  | north above => exact .north fun q mem => above q (among q mem)

theorem betweenBeside {v a b : Binary64} (finite : v.isFinite = true) (first : a.isFinite = true)
    (second : b.isFinite = true)
    (beside : (v.value < a.value ∧ v.value < b.value) ∨ (a.value < v.value ∧ b.value < v.value)) :
    between v a b = false := by
  rw [Bool.eq_false_iff, between]
  split
  · rw [ne_eq, Bool.and_eq_true, leFinite first finite, leFinite finite second]
    omega
  · rw [ne_eq, Bool.and_eq_true, leFinite second finite, leFinite finite first]
    omega

def climb (counts : Bool) (p q : Point) : Int :=
  if counts && decide (p.y.value < q.y.value) then 1 else 0

theorem climbLow {counts : Bool} {p q : Point} (low : q.y.value ≤ p.y.value) :
    climb counts p q = 0 := by
  rw [climb, decide_eq_false (not_lt.mpr low), Bool.and_false, if_neg Bool.false_ne_true]

theorem climbHigh {counts : Bool} {p q : Point} (high : p.y.value < q.y.value) :
    climb counts p q = if counts then 1 else 0 := by
  rw [climb, decide_eq_true high, Bool.and_true]

section Edges
variable {p a b : Point} (finite : p.isFinite = true) (first : a.isFinite = true)
  (second : b.isFinite = true)
include finite first second

theorem crossingAside (aside : (a.y.value < p.y.value ∧ b.y.value < p.y.value) ∨
    (p.y.value < a.y.value ∧ p.y.value < b.y.value)) : crossing p (a, b) = some 0 := by
  obtain ⟨-, height⟩ := Point.finiteIff.mp finite
  obtain ⟨-, start⟩ := Point.finiteIff.mp first
  obtain ⟨-, stop⟩ := Point.finiteIff.mp second
  rw [crossing]
  rcases aside with ⟨here, there⟩ | ⟨here, there⟩
  · rw [if_pos ((leFinite start height).mpr here.le),
      if_neg (mt (leFinite height stop).mp there.not_ge)]
  · rw [if_neg (mt (leFinite start height).mp here.not_ge),
      if_neg (mt (leFinite stop height).mp there.not_ge)]

theorem crossingBeside {counts : Bool}
    (beside : (p.x.value < a.x.value ∧ p.x.value < b.x.value) ∨
      (a.x.value < p.x.value ∧ b.x.value < p.x.value))
    (up : a.y.value ≤ p.y.value → p.y.value < b.y.value →
      Turn.of a b p = if counts then .left else .right)
    (down : p.y.value < a.y.value → b.y.value ≤ p.y.value →
      Turn.of a b p = if counts then .right else .left) :
    crossing p (a, b) = some (climb counts p b - climb counts p a) := by
  obtain ⟨place, height⟩ := Point.finiteIff.mp finite
  obtain ⟨from_x, start⟩ := Point.finiteIff.mp first
  obtain ⟨to_x, stop⟩ := Point.finiteIff.mp second
  have apart : between p.x a.x b.x = false := betweenBeside place from_x to_x beside
  have level := sameFinite stop height
  rw [crossing]
  by_cases low : a.y.value ≤ p.y.value
  · rw [if_pos ((leFinite start height).mpr low), climbLow low]
    by_cases reaches : p.y.value ≤ b.y.value
    · rw [if_pos ((leFinite height stop).mpr reaches)]
      by_cases same : b.y.value = p.y.value
      · -- An edge that ends level with the position does not count, whichever its turn.
        rw [climbLow same.le]
        cases Turn.of a b p <;> simp [level.mpr same, apart]
      · have passes : p.y.value < b.y.value := by omega
        have unlevel : b.y.same p.y = false := Bool.eq_false_iff.mpr (mt level.mp same)
        rw [up low passes, climbHigh passes]
        cases counts <;> simp [unlevel]
    · rw [if_neg (mt (leFinite height stop).mp reaches), climbLow (not_le.mp reaches).le]
      rfl
  · have high : p.y.value < a.y.value := not_le.mp low
    rw [if_neg (mt (leFinite start height).mp low), climbHigh high]
    by_cases falls : b.y.value ≤ p.y.value
    · rw [if_pos ((leFinite stop height).mpr falls), down high falls, climbLow falls]
      cases counts <;> rfl
    · rw [if_neg (mt (leFinite stop height).mp falls), climbHigh (not_le.mp falls), Int.sub_self]

end Edges

theorem Point.Beyond.crossing {p : Point} {points : List Point} (beyond : p.Beyond points)
    (finite : p.isFinite = true) (finites : ∀ q ∈ points, q.isFinite = true) :
    ∃ counts, ∀ a ∈ points, ∀ b ∈ points, Turn.of a b p = Turn.exact a b p →
      crossing p (a, b) = some (climb counts p b - climb counts p a) := by
  cases beyond with
  | west beside =>
    refine ⟨true, fun a first b second exact => ?_⟩
    have left := beside a first
    have right := beside b second
    refine crossingBeside finite (finites a first) (finites b second) (.inl ⟨left, right⟩)
      (fun low passes => ?_) fun high falls => ?_
    · exact exact.trans (Turn.ofIntLeft (Turn.determinantUp left right low passes))
    · exact exact.trans (Turn.ofIntRight (Turn.determinantDown left right high falls))
  | east beside =>
    refine ⟨false, fun a first b second exact => ?_⟩
    have left := beside a first
    have right := beside b second
    have mirrored := Turn.determinantMirrored a.x.value a.y.value b.x.value b.y.value
      p.x.value p.y.value
    refine crossingBeside finite (finites a first) (finites b second) (.inr ⟨left, right⟩)
      (fun low passes => ?_) fun high falls => ?_
    · have climbs := Turn.determinantUp (Int.neg_lt_neg left) (Int.neg_lt_neg right) low passes
      exact exact.trans (Turn.ofIntRight (by omega))
    · have drops := Turn.determinantDown (Int.neg_lt_neg left) (Int.neg_lt_neg right) high falls
      exact exact.trans (Turn.ofIntLeft (by omega))
  | south below =>
    refine ⟨false, fun a first b second _ => ?_⟩
    exact crossingAside finite (finites a first) (finites b second)
      (.inr ⟨below a first, below b second⟩)
  | north above =>
    refine ⟨false, fun a first b second _ => ?_⟩
    exact crossingAside finite (finites a first) (finites b second)
      (.inl ⟨above a first, above b second⟩)

theorem Point.Beyond.apart {p q : Point} {points : List Point} (beyond : p.Beyond points)
    (finite : p.isFinite = true) (other : q.isFinite = true) (mem : q ∈ points) :
    p.same q = false := by
  obtain ⟨x, y⟩ := Point.finiteIff.mp finite
  obtain ⟨otherX, otherY⟩ := Point.finiteIff.mp other
  rw [Bool.eq_false_iff, ne_eq, Point.same, Bool.and_eq_true, sameFinite x otherX,
    sameFinite y otherY]
  intro same
  cases beyond with
  | west beside => exact (beside q mem).ne same.1
  | east beside => exact (beside q mem).ne same.1.symm
  | south below => exact (below q mem).ne same.2
  | north above => exact (above q mem).ne same.2.symm

theorem windingTelescopes {p : Point} {height : Point → Int} {first : Point} {rest : List Point}
    (each : ∀ edge ∈ Ring.edges (first :: rest),
      crossing p edge = some (height edge.2 - height edge.1)) (n : Int) :
    winding p (Ring.edges (first :: rest)) n =
      some (n + (height ((first :: rest).getLast (List.cons_ne_nil _ _)) - height first)) := by
  -- The induction is over the points; the heights between the first and the last one cancel.
  induction rest generalizing first n with
  | nil => simp [Ring.edges, winding]
  | cons second rest ih =>
    have split : Ring.edges (first :: second :: rest) =
        (first, second) :: Ring.edges (second :: rest) := rfl
    rw [split] at each ⊢
    obtain ⟨here, later⟩ := List.forall_mem_cons.mp each
    rw [winding, here]
    refine (ih later _).trans ?_
    rw [List.getLast_cons_cons]
    refine congrArg some ?_
    dsimp only
    omega

namespace Ring

theorem memClosed {r : Ring} {q : Point} : q ∈ r.closed ↔ q ∈ r := by
  rw [closed]
  split
  · rfl
  · rw [List.mem_append, Option.mem_toList]
    exact or_iff_left_of_imp List.mem_of_mem_head?

theorem isClosedIs {r : Ring} {first last : Point} (head : r.head? = some first)
    (ends : r.getLast? = some last) : r.isClosed = first.same last := by
  rw [isClosed, head, ends]

theorem closedIsClosed {r : Ring} (finite : ∀ q ∈ r, q.isFinite = true) :
    r.closed.isClosed = true := by
  rw [closed]
  split
  · assumption
  · cases r with
    | nil => rfl
    | cons first rest =>
      obtain ⟨x, y⟩ := Point.finiteIff.mp (finite first List.mem_cons_self)
      have ends : ((first :: rest) ++ [first]).getLast? = some first := List.getLast?_concat
      rw [List.head?_cons, Option.toList_some, isClosedIs rfl ends, Point.same, Bool.and_eq_true]
      exact ⟨(sameFinite x x).mpr rfl, (sameFinite y y).mpr rfl⟩

theorem sideBeyond {r : Ring} {p : Point} (closed : r.isClosed = true)
    (finites : ∀ q ∈ r, q.isFinite = true) (finite : p.isFinite = true)
    (exact : ∀ edge ∈ r.edges, Turn.of edge.1 edge.2 p = Turn.exact edge.1 edge.2 p)
    (beyond : p.Beyond r) : r.side p = .outside := by
  match r with
  | [] => rfl
  | [only] =>
    have apart := beyond.apart finite (finites only List.mem_cons_self) List.mem_cons_self
    simp [side, apart]
  | first :: second :: rest =>
    obtain ⟨counts, crossed⟩ := beyond.crossing finite finites
    have each : ∀ edge ∈ Ring.edges (first :: second :: rest),
        crossing p edge = some (climb counts p edge.2 - climb counts p edge.1) := by
      intro edge mem
      obtain ⟨start, stop⟩ := List.of_mem_zip mem
      exact crossed _ start _ (List.mem_of_mem_tail stop) (exact edge mem)
    have last := List.getLast_mem (List.cons_ne_nil first (second :: rest))
    have closes : climb counts p ((first :: second :: rest).getLast (List.cons_ne_nil _ _)) =
        climb counts p first := by
      rw [isClosedIs rfl (List.getLast?_eq_some_getLast (List.cons_ne_nil _ _)), Point.same,
        Bool.and_eq_true] at closed
      have level := (sameFinite (Point.finiteIff.mp (finites first List.mem_cons_self)).2
        (Point.finiteIff.mp (finites _ last)).2).mp closed.2
      rw [climb, climb, level]
    have around : winding p (Ring.edges (first :: second :: rest)) 0 = some 0 := by
      rw [windingTelescopes each, closes, Int.sub_self]
      rfl
    simp [side, around]

end Ring

namespace Area

def ofParts (parts : List (Ring × List Ring)) : Area :=
  parts.map fun part => .ofRings part.1 part.2

def TurnsExactly (area : Area) (p : Point) : Prop :=
  ∀ g ∈ area, ∀ edge ∈ g.exterior.edges, Turn.of edge.1 edge.2 p = Turn.exact edge.1 edge.2 p

def Throughout (area : Area) (kind : Point → Bool) : Prop :=
  ∀ g ∈ area, ∀ q ∈ g.exterior, kind q = true

variable {parts : List (Ring × List Ring)} {area : Area}

theorem throughoutParts {kind : Point → Bool} (all : ∀ part ∈ parts, ∀ q ∈ part.1, kind q = true) :
    (ofParts parts).Throughout kind := by
  intro g mem q listed
  obtain ⟨part, given, rfl⟩ := List.mem_map.mp mem
  exact all part given q (Ring.memClosed.mp listed)

theorem closedParts (finite : ∀ part ∈ parts, ∀ q ∈ part.1, q.isFinite = true) :
    ∀ g ∈ ofParts parts, g.exterior.isClosed = true := by
  intro g mem
  obtain ⟨part, given, rfl⟩ := List.mem_map.mp mem
  exact Ring.closedIsClosed (finite part given)

theorem turnsExactlyOfModerate (moderate : area.Throughout Point.isModerate) (l : Location) :
    area.TurnsExactly (.ofLocation l) := by
  intro g mem edge listed
  obtain ⟨start, stop⟩ := List.of_mem_zip listed
  exact Turn.ofModerate (moderate g mem _ start) (moderate g mem _ (List.mem_of_mem_tail stop))
    l.locationModerate

section Envelope
variable {envelope : Rect} (found : area.envelope? = some envelope)
  (closed : ∀ g ∈ area, g.exterior.isClosed = true) (finites : area.Throughout Point.isFinite)
  {p : Point} (finite : p.isFinite = true) (exact : area.TurnsExactly p)
include found closed finites finite exact

theorem sidesOutside (outside : envelope.contains p = false) :
    ∀ g ∈ area, g.exterior.side p = .outside := by
  intro g mem
  have among {q : Point} (listed : q ∈ g.exterior) : q ∈ area.exteriorPoints :=
    List.mem_flatMap.mpr ⟨g, mem, listed⟩
  have around : envelope.Around area.exteriorPoints := envelopeAround found fun q listed => by
    obtain ⟨h, given, listed⟩ := List.mem_flatMap.mp listed
    exact finites h given q listed
  have beyond : p.Beyond g.exterior := (around.beyond finite outside).subset fun q => among
  exact Ring.sideBeyond (closed g mem) (finites g mem) finite (exact g mem) beyond

theorem heldInEnvelope {g : Polygon} (mem : g ∈ area) (inside : g.exterior.side p ≠ .outside) :
    envelope.contains p = true := by
  by_contra outside
  rw [Bool.not_eq_true] at outside
  exact inside (sidesOutside found closed finites finite exact outside g mem)

theorem envelopeIdle : (envelope.contains p && area.holds p) = area.holds p := by
  cases outside : envelope.contains p with
  | true => exact Bool.true_and _
  | false =>
    have apart : area.holds p = false := by
      refine List.any_eq_false.mpr fun g mem => ?_
      rw [Polygon.holds, sidesOutside found closed finites finite exact outside g mem]
      exact Bool.false_ne_true
    rw [apart, Bool.and_false]

end Envelope
end Area

theorem Boundary.ofAreaIs {area : Area} {b : Boundary} (accepted : ofArea area = .ok b) :
    ∃ envelope, area.envelope? = some envelope ∧ b = .polygon area envelope := by
  unfold ofArea at accepted
  split at accepted
  · rename_i envelope found
    exact ⟨envelope, found, (Except.ok.inj accepted).symm⟩
  · cases accepted

/-- What an area holds is in its envelope, so the envelope takes nothing from it, as long as turns are
exact. They are where coordinates are of moderate size. -/
theorem Boundary.envelopeUnseen {parts : List (Ring × List Ring)} {b : Boundary}
    (accepted : ofArea (.ofParts parts) = .ok b)
    (finite : ∀ part ∈ parts, ∀ q ∈ part.1, q.isFinite = true) :
    let area := Area.ofParts parts
    (∀ l : Location, area.TurnsExactly (.ofLocation l) →
      (∀ g ∈ area, g.exterior.side (.ofLocation l) ≠ .outside →
        b.envelope.contains (.ofLocation l) = true) ∧
      b.contains l = area.holds (.ofLocation l)) ∧
    ((∀ part ∈ parts, ∀ q ∈ part.1, q.isModerate = true) →
      ∀ l : Location, area.TurnsExactly (.ofLocation l)) := by
  intro area
  obtain ⟨envelope, found, rfl⟩ := ofAreaIs accepted
  have closed := Area.closedParts finite
  have finites := Area.throughoutParts finite
  refine ⟨fun l exact => ⟨fun g mem inside => ?_, ?_⟩, fun moderate l => ?_⟩
  · exact Area.heldInEnvelope found closed finites l.locationFinite exact mem inside
  · exact Area.envelopeIdle found closed finites l.locationFinite exact
  · exact Area.turnsExactlyOfModerate (Area.throughoutParts moderate) l

def corner (x y : Int) : Point := ⟨.ofInt x, .ofInt y⟩

def bowTie : List (Ring × List Ring) :=
  [([corner 0 0, corner 8 8, corner 8 0, corner 0 8], [[corner 6 3, corner 7 3, corner 7 5]])]

theorem bowTieUnseen :
    let area := Area.ofParts bowTie
    ∃ b, Boundary.ofArea area = .ok b ∧ (∀ l, b.contains l = area.holds (.ofLocation l)) ∧
      b.contains (.ofDegrees (.ofInt 4) (.ofInt 4)) = true ∧
      b.contains (.ofDegrees (.ofInt 8) (.ofInt 0)) = true ∧
      b.contains (.ofDegrees (.ofInt 4) (.ofInt 6)) = false ∧
      b.contains (.ofDegrees (.ofInt 9) (.ofInt 4)) = false := by
  intro area
  have accepted : Boundary.ofArea (.ofParts bowTie) =
      .ok (.polygon (.ofParts bowTie) ⟨corner 0 0, corner 8 8⟩) := by
    decide +kernel
  have unseen := Boundary.envelopeUnseen accepted (by decide +kernel)
  refine ⟨_, accepted, fun l => (unseen.1 l (unseen.2 (by decide +kernel) l)).2, ?_⟩
  decide +kernel

/-- Where the products of a turn fall below the least number, an edge is taken for a straight one: the
origin is not in this ring, but the edges seem to wind around it. -/
example :
    let least : Binary64 := .finite false 1
    let area := Area.ofParts [([⟨least, least.neg⟩, ⟨least, least⟩, corner 1 1, corner 1 (-1)], [])]
    let origin : Location := ⟨0, 0⟩
    area.holds (.ofLocation origin) = true ∧
      (Boundary.ofArea area).toOption.map (·.contains origin) = some false := by
  decide +kernel

end Cutout
