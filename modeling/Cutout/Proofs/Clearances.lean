import Cutout.Proofs.Turns
/-! The plain determinant, where it is clear of its error. Each difference and product of rounded numbers is
off by its share in the last of 53 binary places, so the sign of such a determinant is the exact one. That
the refined ones are exact too is not proved here; `Turn.of` relies on it for coordinates of moderate size. -/
namespace Cutout

namespace Binary64

def kept (n : Nat) : Nat := roundDiv n (2 ^ spacing n) * 2 ^ spacing n

theorem keptWhole {n k : Nat} (whole : 2 ^ k ∣ n) : 2 ^ k ∣ kept n := by
  by_cases wide : k ≤ spacing n
  · exact Nat.dvd_mul_left_of_dvd (Nat.pow_dvd_pow 2 wide) _
  · obtain ⟨count, parts⟩ := (Nat.pow_dvd_pow 2 (Nat.le_of_not_le wide)).trans whole
    have same : kept n = n := by
      rw [kept]
      generalize spacing n = step at parts ⊢
      rw [parts, Nat.mul_comm _ count, roundDivExact (Nat.two_pow_pos step)]
    rwa [same]

theorem keptClose (n : Nat) : 2 ^ 53 * ((kept n : Int) - n).natAbs ≤ n ∧
    2 ^ 53 * ((kept n : Int) - n).natAbs ≤ kept n := by
  by_cases fine : spacing n = 0
  · have same : kept n = n := by
      rw [kept, fine, Nat.pow_zero, Nat.mul_one]
      simpa using roundDivExact Nat.one_pos n
    omega
  · have some_units : n ≠ 0 := by
      rintro rfl
      exact fine rfl
    have places : n.log2 = 52 + spacing n := by
      unfold spacing at fine ⊢
      omega
    have large : 2 ^ 52 * 2 ^ spacing n ≤ n := by
      rw [← Nat.pow_add, ← places]
      exact Nat.log2_self_le some_units
    have step := Nat.two_pow_pos (spacing n)
    have at_least := Nat.mul_le_mul_right (2 ^ spacing n) (roundDivGe step large)
    obtain ⟨above, below⟩ := roundDivNear step n
    rw [← kept] at at_least above below
    omega

structure Near (n : Int) (x : Binary64) : Prop where
  finite : x.isFinite = true
  close : 2 ^ 53 * (x.value - n).natAbs ≤ n.natAbs
  closeBack : 2 ^ 53 * (x.value - n).natAbs ≤ x.value.natAbs
  whole : ∀ {k : Nat}, 2 ^ k ∣ n.natAbs → 2 ^ k ∣ x.value.natAbs

theorem Near.above {n : Int} {x : Binary64} (near : Near n x) : x.value.natAbs ≤ 2 * n.natAbs := by
  have close := near.close
  omega

theorem nearestNear {n : Nat} (small : n < 2 ^ (1023 + unitBits)) (negative : Bool) :
    Near (if negative then -(n : Int) else n) (nearest negative n (2 ^ unitBits)) := by
  have unit : 0 < 2 ^ unitBits := Nat.two_pow_pos unitBits
  obtain ⟨close, closeBack⟩ := keptClose n
  have room : kept n < 1 <<< (1024 + unitBits) := by
    rw [Nat.one_shiftLeft, Nat.add_right_comm 1023 1, Nat.pow_succ]
    omega
  have found : nearest negative n (2 ^ unitBits) = Binary64.finite negative (kept n) := by
    unfold nearest
    dsimp only
    rw [Nat.shiftLeft_eq n, Nat.mul_div_cancel n unit, Nat.shiftLeft_eq _ (spacing n),
      Nat.shiftLeft_eq _ (spacing n), Nat.mul_comm n, roundDivScaled unit]
    exact if_pos room
  have size : (Binary64.finite negative (kept n)).value.natAbs = kept n := by
    cases negative
    · rfl
    · exact Int.natAbs_neg _
  have difference : ((Binary64.finite negative (kept n)).value -
      (if negative then -(n : Int) else n)).natAbs = ((kept n : Int) - n).natAbs := by
    cases negative
    · rfl
    · change (-(kept n : Int) - -(n : Int)).natAbs = _
      omega
  have same : (if negative then -(n : Int) else n).natAbs = n := by
    split <;> omega
  rw [found]
  refine ⟨rfl, ?_, ?_, ?_⟩
  · rwa [difference, same]
  · rwa [difference, size]
  · intro k whole
    rw [size]
    exact keptWhole (same ▸ whole)

theorem finiteIs {x : Binary64} (finite : x.isFinite = true) :
    ∃ negative units, x = .finite negative units ∧
      x.value = if negative then -(units : Int) else units := by
  cases x with
  | finite negative units => exact ⟨negative, units, rfl, rfl⟩
  | nan => cases finite
  | infinite _ => cases finite

theorem negValue (x : Binary64) : x.neg.value = -x.value := by
  cases x with
  | finite negative units => cases negative <;> simp [neg, value, units?]
  | nan => rfl
  | infinite _ => rfl

theorem absIs {x : Binary64} (finite : x.isFinite = true) : x.abs = .finite false x.value.natAbs := by
  obtain ⟨negative, units, rfl, is_value⟩ := finiteIs finite
  rw [is_value, abs]
  congr 1
  split <;> omega

section Operations
variable {a b : Binary64} (first : a.isFinite = true) (second : b.isFinite = true)
include first second

theorem addNear (small : (a.value + b.value).natAbs < 2 ^ (1023 + unitBits)) :
    Near (a.value + b.value) (a.add b) := by
  obtain ⟨minus, m, rfl, is_m⟩ := finiteIs first
  obtain ⟨minus', n, rfl, is_n⟩ := finiteIs second
  rw [add, ← is_m, ← is_n]
  generalize value _ + value _ = sum at small ⊢
  split
  · rename_i none
    rw [none]
    refine ⟨rfl, ?_, ?_, fun _ => ?_⟩
    all_goals cases minus <;> cases minus' <;> simp [value, units?]
  · have signed : (if decide (sum < 0) then -(sum.natAbs : Int) else sum.natAbs) = sum := by
      simp only [decide_eq_true_eq]
      split <;> omega
    rw [Nat.one_shiftLeft]
    have near := nearestNear small (decide (sum < 0))
    rwa [signed] at near

theorem subNear (small : (a.value - b.value).natAbs < 2 ^ (1023 + unitBits)) :
    Near (a.value - b.value) (a.sub b) := by
  have signed : a.value + b.neg.value = a.value - b.value := by rw [negValue, Int.sub_eq_add_neg]
  rw [← signed] at small ⊢
  exact addNear first (negFinite second) small

theorem mulNear {n : Int} (whole : a.value * b.value = (2 ^ unitBits : Nat) * n)
    (small : n.natAbs < 2 ^ (1023 + unitBits)) : Near n (a.mul b) := by
  obtain ⟨minus, m, rfl, is_m⟩ := finiteIs first
  obtain ⟨minus', m', rfl, is_m'⟩ := finiteIs second
  have unit : 0 < 2 ^ unitBits := Nat.two_pow_pos unitBits
  have product : value (.finite minus m) * value (.finite minus' m') =
      if minus != minus' then -((m * m' : Nat) : Int) else (m * m' : Nat) := by
    rw [is_m, is_m']
    cases minus <;> cases minus' <;> simp
  have sizes : m * m' = 2 ^ unitBits * n.natAbs := by
    have size := congrArg Int.natAbs (product.symm.trans whole)
    rw [Int.natAbs_mul, Int.natAbs_natCast] at size
    rw [← size]
    split <;> omega
  have signed : (if minus != minus' then -(n.natAbs : Int) else n.natAbs) = n := by
    refine Int.eq_of_mul_eq_mul_left (Int.ne_of_gt (Int.natCast_pos.mpr unit)) ?_
    rw [← whole, product, sizes, Int.natCast_mul]
    split
    · exact Int.mul_neg ..
    · rfl
  rw [mul, sizes, Nat.one_shiftLeft, Nat.two_mul, Nat.pow_add, nearestScaled unit]
  have near := nearestNear small (minus != minus')
  rwa [signed] at near

end Operations

theorem productClose {m n a b : Int} (first : 2 ^ 53 * (a - m).natAbs ≤ a.natAbs)
    (second : 2 ^ 53 * (b - n).natAbs ≤ b.natAbs) :
    2 ^ 106 * (a * b - m * n).natAbs ≤ (2 ^ 54 + 1) * (a.natAbs * b.natAbs) := by
  have parts : a * b - m * n = ((a - m) * b + a * (b - n)) - (a - m) * (b - n) := by ring
  have less : (a * b - m * n).natAbs ≤ (a - m).natAbs * b.natAbs + a.natAbs * (b - n).natAbs +
      (a - m).natAbs * (b - n).natAbs := by
    rw [parts, ← Int.natAbs_mul, ← Int.natAbs_mul, ← Int.natAbs_mul]
    omega
  have left := Nat.mul_le_mul_right b.natAbs first
  have right := Nat.mul_le_mul_left a.natAbs second
  have both := Nat.mul_le_mul first second
  rw [Nat.mul_assoc] at left
  rw [Nat.mul_left_comm] at right
  rw [Nat.mul_mul_mul_comm] at both
  omega

/-- Three roundings of 2^-53 each come to 3·2^-53 + 3·2^-106 + 2^-159 of the result. -/
theorem roundedProductClose {unit : Nat} {m n a b c z : Int} (first : 2 ^ 53 * (a - m).natAbs ≤ a.natAbs)
    (second : 2 ^ 53 * (b - n).natAbs ≤ b.natAbs) (whole : a * b = unit * c)
    (third : 2 ^ 53 * (z - c).natAbs ≤ z.natAbs) :
    2 ^ 159 * (unit * z - m * n).natAbs ≤ (3 * 2 ^ 106 + 3 * 2 ^ 53 + 1) * (unit * z.natAbs) := by
  have factors := productClose first second
  rw [← Int.natAbs_mul a, whole, Int.natAbs_mul unit c, Int.natAbs_natCast] at factors
  have last := Nat.mul_le_mul_left unit third
  rw [Nat.mul_left_comm] at last
  have larger : unit * c.natAbs ≤ unit * z.natAbs + unit * (z - c).natAbs := by
    rw [← Nat.mul_add]
    exact Nat.mul_le_mul_left unit (by omega)
  have parts : unit * z - m * n = unit * (z - c) + (unit * c - m * n) := by ring
  have both := Int.natAbs_add_le (unit * (z - c)) (unit * c - m * n)
  rw [← parts, Int.natAbs_mul, Int.natAbs_natCast] at both
  generalize (unit * c - m * n).natAbs = rest at *
  omega

theorem moderateBounds {x : Binary64} (moderate : (Turn.steps? x).isSome = true) :
    x.isFinite = true ∧ 2 ^ (unitBits - Turn.stepBits) ∣ x.value.natAbs ∧
      x.value.natAbs < 2 ^ (unitBits + Turn.stepBits) := by
  cases units : x.units? with
  | none =>
    rw [Turn.steps?, units] at moderate
    cases moderate
  | some u =>
    have same : x.value = u := by rw [value, units, Option.getD_some]
    simp only [Turn.steps?, units, Option.bind_eq_bind, Option.bind_some, Nat.one_shiftLeft] at moderate
    split at moderate
    · rename_i bounds
      rw [same, isFinite, units]
      exact ⟨rfl, Int.natCast_dvd.mp (Int.dvd_of_emod_eq_zero bounds.1), bounds.2⟩
    · cases moderate

structure Factor (n : Int) (x : Binary64) : Prop where
  near : Near n x
  whole : 2 ^ (unitBits - Turn.stepBits) ∣ x.value.natAbs
  small : x.value.natAbs < 2 ^ (unitBits + Turn.stepBits + 2)

theorem factor {x y : Binary64} (first : (Turn.steps? x).isSome = true)
    (second : (Turn.steps? y).isSome = true) : Factor (x.value - y.value) (x.sub y) := by
  obtain ⟨finite, whole, small⟩ := moderateBounds first
  obtain ⟨finite', whole', small'⟩ := moderateBounds second
  have most : 2 * 2 ^ (unitBits + Turn.stepBits) ≤ 2 ^ (1023 + unitBits) := by
    rw [Nat.mul_comm, ← Nat.pow_succ]
    exact Nat.pow_le_pow_right (by decide) (by decide)
  have near := subNear finite finite' (by omega)
  have above := near.above
  refine ⟨near, near.whole ?_, ?_⟩
  · rw [← Int.natCast_dvd] at whole whole' ⊢
    exact Int.dvd_sub whole whole'
  · rw [Nat.pow_add _ _ 2]
    omega

/-- A product of two of them stands for the exact one; it counts units, the exact one their squares. -/
structure Product (n : Int) (x : Binary64) : Prop where
  finite : x.isFinite = true
  close : 2 ^ 159 * ((2 ^ unitBits : Nat) * x.value - n).natAbs ≤
    (3 * 2 ^ 106 + 3 * 2 ^ 53 + 1) * (2 ^ unitBits * x.value.natAbs)
  whole : 2 ^ (unitBits - 2 * Turn.stepBits) ∣ x.value.natAbs
  small : x.value.natAbs < 2 ^ (unitBits + 2 * Turn.stepBits + 5)

theorem Factor.product {m n : Int} {x y : Binary64} (first : Factor m x) (second : Factor n y) :
    Product (m * n) (x.mul y) := by
  obtain ⟨s, is_x⟩ := Int.natCast_dvd.mpr first.whole
  obtain ⟨t, is_y⟩ := Int.natCast_dvd.mpr second.whole
  obtain ⟨units, is_units⟩ : ∃ u : Int, u = (2 ^ (unitBits - 2 * Turn.stepBits) : Nat) * (s * t) :=
    ⟨_, rfl⟩
  have step : 2 ^ (unitBits - Turn.stepBits) * 2 ^ (unitBits - Turn.stepBits) =
      2 ^ unitBits * 2 ^ (unitBits - 2 * Turn.stepBits) := by
    rw [← Nat.pow_add, ← Nat.pow_add]
    exact congrArg _ (by decide)
  have whole : x.value * y.value = (2 ^ unitBits : Nat) * units := by
    rw [is_x, is_y, mul_mul_mul_comm, ← Int.natCast_mul, step, Int.natCast_mul, Int.mul_assoc, ← is_units]
  have size : 2 ^ unitBits * units.natAbs = x.value.natAbs * y.value.natAbs := by
    rw [← Int.natAbs_mul, whole, Int.natAbs_mul, Int.natAbs_natCast]
  have small : units.natAbs < 2 ^ (unitBits + 2 * Turn.stepBits + 4) := by
    refine Nat.lt_of_mul_lt_mul_left (a := 2 ^ unitBits) ?_
    rw [size, ← Nat.pow_add]
    refine (Nat.mul_lt_mul'' first.small second.small).trans_le ?_
    rw [← Nat.pow_add]
    exact Nat.pow_le_pow_right (by decide) (by decide)
  have near : Near units (x.mul y) := mulNear first.near.finite second.near.finite whole
    (small.trans_le (Nat.pow_le_pow_right (by decide) (by decide)))
  refine ⟨near.finite, ?_, near.whole ?_, ?_⟩
  · exact roundedProductClose first.near.closeBack second.near.closeBack whole near.closeBack
  · rw [is_units, Int.natAbs_mul, Int.natAbs_natCast]
    exact Nat.dvd_mul_right ..
  · have above := near.above
    rw [Nat.pow_succ]
    omega

end Binary64

namespace Turn
open Binary64

theorem plainErrorIs : plainError = finite false ((3 * 2 ^ 49 + 1) * 2 ^ (unitBits - 102)) := by
  decide +kernel

theorem errorIs (size : Nat) : plainError.mul (finite false size) =
    nearest false ((3 * 2 ^ 49 + 1) * size) (2 ^ (unitBits + 102)) := by
  have square : 1 <<< (2 * unitBits) = 2 ^ (unitBits - 102) * 2 ^ (unitBits + 102) := by
    rw [Nat.one_shiftLeft, ← Nat.pow_add]
    exact congrArg _ (by decide)
  have product : (3 * 2 ^ 49 + 1) * 2 ^ (unitBits - 102) * size =
      2 ^ (unitBits - 102) * ((3 * 2 ^ 49 + 1) * size) := by ring
  rw [plainErrorIs, mul, square, product, nearestScaled (Nat.two_pow_pos _), bne_self_eq_false]

theorem errorSome {size units : Nat} {negative : Bool} (large : 2 ^ 74 ≤ size)
    (found : plainError.mul (finite false size) = finite negative units) : 0 < units := by
  rw [errorIs] at found
  refine nearestFrom (k := 0) (Nat.two_pow_pos _) ?_ found
  rw [Nat.pow_add, Nat.mul_left_comm, Nat.mul_comm]
  exact Nat.mul_le_mul_right _ (by omega)

theorem errorClose {size units : Nat} {negative : Bool} (large : 2 ^ 104 ≤ size)
    (small : size < 2 ^ (unitBits + 1012))
    (found : plainError.mul (finite false size) = finite negative units) :
    (2 ^ 53 - 1) * ((3 * 2 ^ 49 + 1) * size) ≤ 2 ^ 155 * units := by
  have normal : 2 ^ 52 * 2 ^ (unitBits + 102) ≤ (3 * 2 ^ 49 + 1) * size * 2 ^ unitBits := by
    rw [Nat.pow_add, Nat.mul_left_comm, Nat.mul_comm]
    exact Nat.mul_le_mul_right _ (by omega)
  have room : (3 * 2 ^ 49 + 1) * size < 2 ^ 961 * 2 ^ (unitBits + 102) := by
    have most : 2 ^ 961 * 2 ^ (unitBits + 102) = 2 ^ 51 * 2 ^ (unitBits + 1012) := by
      rw [← Nat.pow_add, ← Nat.pow_add]
      exact congrArg _ (by decide)
    omega
  have parts : 0 < 2 ^ (unitBits + 102) := Nat.two_pow_pos _
  obtain ⟨count, is_count, -, below⟩ := nearestClose (by decide) parts normal room false
  rw [errorIs, is_count] at found
  obtain ⟨-, rfl⟩ := finite.inj found
  refine Nat.le_of_mul_le_mul_right ?_ (Nat.two_pow_pos unitBits)
  calc (2 ^ 53 - 1) * ((3 * 2 ^ 49 + 1) * size) * 2 ^ unitBits
      = (2 ^ 53 - 1) * ((3 * 2 ^ 49 + 1) * size * 2 ^ unitBits) := Nat.mul_assoc ..
    _ ≤ 2 ^ 53 * (count * 2 ^ (unitBits + 102)) := below
    _ = 2 ^ 155 * count * 2 ^ unitBits := by rw [Nat.pow_add]; ring

theorem signKept {m n f s d : Int} {unit : Nat} (pos : 0 < unit)
    (first : 2 ^ 159 * (unit * f - m).natAbs ≤
      (3 * 2 ^ 106 + 3 * 2 ^ 53 + 1) * (unit * f.natAbs))
    (second : 2 ^ 159 * (unit * s - n).natAbs ≤
      (3 * 2 ^ 106 + 3 * 2 ^ 53 + 1) * (unit * s.natAbs))
    (difference : 2 ^ 53 * (d - (f - s)).natAbs ≤ d.natAbs)
    (outweighs : d = 0 ∧ f = 0 ∧ s = 0 ∨ (3 * 2 ^ 106 + 3 * 2 ^ 53 + 1) * (f.natAbs + s.natAbs) <
      (2 ^ 159 - 2 ^ 106) * d.natAbs) :
    ofInt (m - n) = ofInt d := by
  have parts : (unit * d - (m - n) : Int) =
      unit * (d - (f - s)) + ((unit * f - m) - (unit * s - n)) := by ring
  have rounded := Int.natAbs_mul unit (d - (f - s))
  rw [Int.natAbs_natCast] at rounded
  have last := Nat.mul_le_mul_left unit difference
  rw [Nat.mul_left_comm] at last
  have near : (unit * d - (m - n) : Int).natAbs ≤ unit * (d - (f - s)).natAbs +
      ((unit * f - m).natAbs + (unit * s - n).natAbs) := by
    rw [parts, ← rounded]
    exact (Int.natAbs_add_le _ _).trans (Nat.add_le_add_left (Int.natAbs_sub_le _ _) _)
  rcases outweighs with ⟨rfl, rfl, rfl⟩ | less
  · simp only [Int.mul_zero, Int.natAbs_zero, Nat.mul_zero] at first second
    rw [show m - n = 0 by omega]
  · have less := Nat.mul_lt_mul_of_pos_left less pos
    have near : (unit * d - (m - n) : Int).natAbs < unit * d.natAbs := by
      rw [Nat.mul_left_comm, Nat.mul_add, Nat.mul_left_comm unit] at less
      omega
    rcases lt_trichotomy d 0 with neg | zero | positive
    · have size : ((unit * d.natAbs : Nat) : Int) = -(unit * d) := by
        rw [Int.natCast_mul, Int.ofNat_natAbs_of_nonpos neg.le, Int.mul_neg]
      rw [ofIntRight neg, ofIntRight (by omega)]
    · rw [zero, Int.natAbs_zero, Nat.mul_zero] at near
      omega
    · have size : ((unit * d.natAbs : Nat) : Int) = unit * d := by
        rw [Int.natCast_mul, Int.natAbs_of_nonneg positive.le]
      rw [ofIntLeft positive, ofIntLeft (by omega)]

theorem clearOutweighs {f s d v : Int} {error : Nat}
    (difference : 2 ^ 53 * (d - (f - s)).natAbs ≤ d.natAbs)
    (sum : 2 ^ 53 * (v - (f + s)).natAbs ≤ v.natAbs)
    (apart : d = 0 ∨ 2 ^ 74 ≤ d.natAbs) (some_error : v ≠ 0 → 0 < error)
    (large : 2 ^ 104 ≤ v.natAbs → (2 ^ 53 - 1) * ((3 * 2 ^ 49 + 1) * v.natAbs) ≤ 2 ^ 155 * error)
    (clear : error ≤ d.natAbs) :
    d = 0 ∧ f = 0 ∧ s = 0 ∨ (3 * 2 ^ 106 + 3 * 2 ^ 53 + 1) * (f.natAbs + s.natAbs) <
      (2 ^ 159 - 2 ^ 106) * d.natAbs := by
  have signs : (f + s).natAbs = f.natAbs + s.natAbs ∨ (f - s).natAbs = f.natAbs + s.natAbs := by omega
  rcases signs with same | opposite
  · have total : 2 ^ 53 * (f.natAbs + s.natAbs) ≤ (2 ^ 53 + 1) * v.natAbs := by
      rw [← same]
      clear same difference
      omega
    by_cases none : v = 0
    · left
      omega
    · have some_error := some_error none
      right
      clear same sum difference
      generalize f.natAbs + s.natAbs = sizes at *
      by_cases small : v.natAbs < 2 ^ 104
      · omega
      · have large := large (by omega)
        omega
  · have total : 2 ^ 53 * (f.natAbs + s.natAbs) ≤ (2 ^ 53 + 1) * d.natAbs := by
      rw [← opposite]
      clear opposite sum
      omega
    by_cases none : d = 0
    · left
      omega
    · right
      have some_value := Int.natAbs_pos.mpr none
      clear opposite sum difference apart
      generalize f.natAbs + s.natAbs = sizes at *
      omega

theorem ofValueFinite {x : Binary64} (finite : x.isFinite = true) : ofValue x = ofInt x.value := by
  have none : zero.value = 0 := rfl
  simp only [ofValue, ofInt, ltFinite (a := zero) rfl finite, ltFinite (b := zero) finite rfl, none]

theorem clearSize {x : Binary64} {n d : Nat} (finite : x.isFinite = true)
    (clear : isClear x (nearest false n d) = true) :
    ∃ units ≤ x.value.natAbs, nearest false n d = .finite false units := by
  have parts : nearest false n d = .infinite false ∨ ∃ units, nearest false n d = .finite false units := by
    unfold nearest
    dsimp only
    split
    · exact .inr ⟨_, rfl⟩
    · exact .inl rfl
  obtain ⟨negative, size, rfl, _⟩ := finiteIs finite
  rcases parts with above | ⟨units, found⟩
  · rw [above] at clear
    cases negative <;> cases clear
  · refine ⟨units, ?_, found⟩
    have is_units : (Binary64.finite false units).value = units := rfl
    rw [found, isClear, Bool.or_eq_true, leFinite rfl finite, leFinite rfl (negFinite finite), negValue,
      is_units] at clear
    omega

section Products
variable {m n : Int} {x y : Binary64} (first : Product m x) (second : Product n y)
include first second

theorem sumsSmall : x.value.natAbs + y.value.natAbs < 2 ^ (unitBits + 1011) := by
  have low := first.small
  have also_low := second.small
  have twice : 2 * 2 ^ (unitBits + 2 * stepBits + 5) ≤ 2 ^ (unitBits + 1011) := by
    rw [Nat.mul_comm, ← Nat.pow_succ]
    exact Nat.pow_le_pow_right (by decide) (by decide)
  omega

theorem sumsNear : Near (x.value - y.value) (x.sub y) ∧ Near (x.value + y.value) (x.add y) := by
  have small := sumsSmall first second
  have room : 2 ^ (unitBits + 1011) ≤ 2 ^ (1023 + unitBits) :=
    Nat.pow_le_pow_right (by decide) (by decide)
  exact ⟨subNear first.finite second.finite (by omega), addNear first.finite second.finite (by omega)⟩

/-- Both products count the same steps, so rounding leaves none of them or one at least. -/
theorem sumsApart : ((x.sub y).value ≠ 0 → 2 ^ 74 ≤ (x.sub y).value.natAbs) ∧
    ((x.add y).value ≠ 0 → 2 ^ 74 ≤ (x.add y).value.natAbs) := by
  obtain ⟨difference, sum⟩ := sumsNear first second
  have steps : unitBits - 2 * stepBits = 74 := by decide
  have whole := Int.natCast_dvd.mpr first.whole
  have also_whole := Int.natCast_dvd.mpr second.whole
  have difference_whole := difference.whole (Int.natCast_dvd.mp (Int.dvd_sub whole also_whole))
  have sum_whole := sum.whole (Int.natCast_dvd.mp (Int.dvd_add whole also_whole))
  rw [steps] at difference_whole sum_whole
  exact ⟨fun some_steps => Nat.le_of_dvd (Int.natAbs_pos.mpr some_steps) difference_whole,
    fun some_steps => Nat.le_of_dvd (Int.natAbs_pos.mpr some_steps) sum_whole⟩

theorem differenceClear (clear : isClear (x.sub y) (plainError.mul (x.add y).abs) = true) :
    ofValue (x.sub y) = ofInt (m - n) := by
  obtain ⟨difference, sum⟩ := sumsNear first second
  obtain ⟨apart, sum_apart⟩ := sumsApart first second
  have sum_small : (x.add y).value.natAbs < 2 ^ (unitBits + 1012) := by
    have small := sumsSmall first second
    have above := sum.above
    rw [Nat.pow_succ]
    omega
  rw [absIs sum.finite, errorIs] at clear
  obtain ⟨error, least, is_error⟩ := clearSize difference.finite clear
  rw [← errorIs] at is_error
  have outweighs := clearOutweighs difference.closeBack sum.closeBack (or_iff_not_imp_left.mpr apart)
    (fun some_sum => errorSome (sum_apart some_sum) is_error)
    (fun large => errorClose large sum_small is_error) least
  rw [ofValueFinite difference.finite]
  exact (signKept (Nat.two_pow_pos unitBits) first.close second.close difference.closeBack outweighs).symm

end Products

theorem roundedClear {a b p : Point} (first : a.isModerate = true) (second : b.isModerate = true)
    (third : p.isModerate = true)
    (clear : isClear (plain a b p).1 (plainError.mul (plain a b p).2) = true) :
    rounded a b p = exact a b p := by
  simp only [Point.isModerate, Bool.and_eq_true] at first second third
  have product := (factor first.1 third.1).product (factor second.2 third.2)
  have also_product := (factor first.2 third.2).product (factor second.1 third.1)
  have turn : rounded a b p = ofValue (plain a b p).1 := by
    rw [rounded]
    exact congrArg ofValue (if_pos clear)
  rw [turn]
  exact differenceClear product also_product clear

theorem ofClear {a b p : Point} (first : a.isModerate = true) (second : b.isModerate = true)
    (third : p.isModerate = true)
    (clear : isClear (plain a b p).1 (plainError.mul (plain a b p).2) = true) :
    Turn.of a b p = rounded a b p :=
  (ofModerate first second third).trans (roundedClear first second third clear).symm

example : isClear (plain ⟨zero, zero⟩ ⟨.ofNat 3, zero⟩ ⟨zero, .ofRatio 1 10⟩).1
    (plainError.mul (plain ⟨zero, zero⟩ ⟨.ofNat 3, zero⟩ ⟨zero, .ofRatio 1 10⟩).2) = true := by
  decide +kernel

end Turn
end Cutout
