/-! The one bits of a 64-bit word by their positions, from the lowest up. -/
namespace Cutout

def setBits (word : UInt64) : List Nat := go 64 word
where
  go : Nat → UInt64 → List Nat
    | 0, _ => []
    | n + 1, w =>
      if w = 0 then [] else
        let rest := w &&& (w - 1)
        (w ^^^ rest).toNat.log2 :: go n rest

theorem oddShifted (n : Nat) (positive : 0 < n) : ∃ b q, n = (2 * q + 1) <<< b := by
  induction n using Nat.strongRecOn with
  | ind n ih =>
    rcases Nat.mod_two_eq_zero_or_one n with even | odd
    · obtain ⟨b, q, half⟩ := ih (n / 2) (by omega) (by omega)
      refine ⟨b + 1, q, ?_⟩
      have twice : n = 2 * (n / 2) := by omega
      rw [twice, half, Nat.shiftLeft_succ]
    · exact ⟨0, n / 2, by rw [Nat.shiftLeft_zero]; omega⟩

theorem andPred (b q : Nat) :
    (2 * q + 1) <<< b &&& ((2 * q + 1) <<< b - 1) = (2 * q) <<< b := by
  have positive := Nat.two_pow_pos b
  have below : 2 ^ b - 1 < 2 ^ b := Nat.sub_lt positive Nat.one_pos
  have pred : (2 * q + 1) <<< b - 1 = 2 ^ b * (2 * q) + (2 ^ b - 1) := by
    rw [Nat.shiftLeft_eq, Nat.mul_comm, Nat.mul_add]
    omega
  refine Nat.eq_of_testBit_eq fun i => ?_
  rw [Nat.testBit_and, pred, Nat.testBit_two_pow_mul_add _ below, Nat.testBit_shiftLeft,
    Nat.testBit_shiftLeft]
  by_cases low : i < b
  · simp [Nat.not_le.mpr low]
  · simp only [low, if_false, ge_iff_le, Nat.le_of_not_lt low, decide_true, Bool.true_and]
    cases i - b with
    | zero => simp
    | succ k => simp [Nat.testBit_succ, show (2 * q + 1) / 2 = q by omega]

theorem xorCleared (b q : Nat) : (2 * q + 1) <<< b ^^^ (2 * q) <<< b = 1 <<< b := by
  refine Nat.eq_of_testBit_eq fun i => ?_
  rw [Nat.testBit_xor, Nat.testBit_shiftLeft, Nat.testBit_shiftLeft, Nat.testBit_shiftLeft]
  cases i - b with
  | zero => simp
  | succ k => simp [Nat.testBit_succ, show (2 * q + 1) / 2 = q by omega]

theorem clearLowest (w : UInt64) (some : w ≠ 0) :
    ∃ b q, w.toNat = (2 * q + 1) <<< b ∧ (w &&& (w - 1)).toNat = (2 * q) <<< b ∧
      (w ^^^ (w &&& (w - 1))).toNat.log2 = b := by
  have positive : 0 < w.toNat := Nat.pos_of_ne_zero fun h => some (UInt64.toNat_inj.mp h)
  obtain ⟨b, q, shape⟩ := oddShifted w.toNat positive
  have pred : (w - 1).toNat = w.toNat - 1 := by
    rw [UInt64.toNat_sub_of_le w 1 (UInt64.le_iff_toNat_le.mpr positive)]
    rfl
  have rest : (w &&& (w - 1)).toNat = (2 * q) <<< b := by
    rw [UInt64.toNat_and, pred, shape, andPred]
  refine ⟨b, q, shape, rest, ?_⟩
  rw [UInt64.toNat_xor, rest, shape, xorCleared, Nat.one_shiftLeft, Nat.log2_two_pow]

theorem testBitShifted (b q i : Nat) :
    ((2 * q + 1) <<< b).testBit i = true ↔ i = b ∨ ((2 * q) <<< b).testBit i = true := by
  rw [Nat.testBit_shiftLeft, Nat.testBit_shiftLeft]
  by_cases low : b ≤ i
  · obtain ⟨k, rfl⟩ := Nat.exists_eq_add_of_le low
    cases k with
    | zero => simp
    | succ k => simp [Nat.testBit_succ, show (2 * q + 1) / 2 = q by omega]
  · have other : i ≠ b := by omega
    simp [low, other]

theorem powDvdShifted {c b q : Nat} (divides : 1 <<< c ∣ (2 * q + 1) <<< b) : c ≤ b := by
  rw [Nat.one_shiftLeft, Nat.shiftLeft_eq, Nat.mul_comm] at divides
  apply Nat.le_of_not_lt
  intro less
  have double := Nat.dvd_trans (Nat.pow_dvd_pow 2 less) divides
  rw [Nat.pow_succ] at double
  have even := Nat.dvd_of_mul_dvd_mul_left (Nat.two_pow_pos b) double
  omega

theorem goZeros {n b q : Nat} {rest : UInt64} (zeros : 1 <<< (64 - (n + 1)) ∣ (2 * q + 1) <<< b)
    (cleared : rest.toNat = (2 * q) <<< b) : 1 <<< (64 - n) ∣ rest.toNat := by
  -- With `n` steps left, the lowest `64 - n` bits are zero.
  have reach := powDvdShifted zeros
  have shifted : rest.toNat = 2 ^ (b + 1) * q := by
    rw [cleared, Nat.shiftLeft_eq, Nat.mul_comm, ← Nat.mul_assoc, ← Nat.pow_succ]
  rw [shifted, Nat.one_shiftLeft]
  exact Nat.dvd_mul_right_of_dvd (Nat.pow_dvd_pow 2 (by omega)) q

theorem memGo (n : Nat) (w : UInt64) (zeros : 1 <<< (64 - n) ∣ w.toNat) (i : Nat) :
    i ∈ setBits.go n w ↔ w.toNat.testBit i = true := by
  induction n generalizing w with
  | zero =>
    have zero : w.toNat = 0 := Nat.eq_zero_of_dvd_of_lt zeros w.toNat_lt
    simp [setBits.go, zero]
  | succ n ih =>
    by_cases empty : w = 0
    · simp [setBits.go, empty]
    · obtain ⟨b, q, shape, cleared, lowest⟩ := clearLowest w empty
      rw [shape] at zeros
      simp only [setBits.go, if_neg empty, List.mem_cons, lowest, ih _ (goZeros zeros cleared)]
      rw [shape, cleared, testBitShifted]

theorem goAscending (n : Nat) (w : UInt64) (zeros : 1 <<< (64 - n) ∣ w.toNat) :
    (setBits.go n w).Pairwise (· < ·) := by
  induction n generalizing w with
  | zero => exact List.Pairwise.nil
  | succ n ih =>
    by_cases empty : w = 0
    · simp [setBits.go, empty]
    · obtain ⟨b, q, shape, cleared, lowest⟩ := clearLowest w empty
      rw [shape] at zeros
      have zeros := goZeros zeros cleared
      have doubled : (2 * q) <<< b = q <<< (b + 1) := by
        rw [Nat.shiftLeft_succ_inside]
      simp only [setBits.go, if_neg empty, lowest]
      refine List.pairwise_cons.mpr ⟨fun i later => ?_, ih _ zeros⟩
      rw [memGo n _ zeros, cleared, doubled, Nat.testBit_shiftLeft] at later
      simp only [Bool.and_eq_true, decide_eq_true_eq] at later
      exact later.1

theorem memSetBits {w : UInt64} {i : Nat} : i ∈ setBits w ↔ w.toNat.testBit i = true :=
  memGo 64 w (by simp) i

theorem setBitsAscending (w : UInt64) : (setBits w).Pairwise (· < ·) :=
  goAscending 64 w (by simp)

end Cutout
