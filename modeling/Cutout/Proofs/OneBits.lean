import Cutout.Proofs.FiniteSets
/-! A word taken apart by calls, each of which gives the lowest one bit and clears it. After as many calls
as the word has one bits nothing is left, and nothing is ever taken from zero. What comes out of the words
of a chunk is the id that its place was made from. -/
namespace Cutout

def below? (w : UInt64) : Option UInt64 := if w = 0 then none else some (w - 1)

def nextBit (w : UInt64) : Option (Option Nat × UInt64) :=
  if w = 0 then some (none, w)
  else do
    let below ← below? w
    return (some w.toBitVec.ctz.toNat, w &&& below)

def bitCalls : Nat → UInt64 → Option (List (Option Nat))
  | 0, _ => some []
  | calls + 1, w => do
    let (bit, rest) ← nextBit w
    return bit :: (← bitCalls calls rest)

theorem nextOfZero : nextBit 0 = some (none, 0) := rfl

theorem nextOfSome {w : UInt64} (some_bit : w ≠ 0) :
    nextBit w = some (some w.toBitVec.ctz.toNat, w &&& (w - 1)) := by
  have below : below? w = some (w - 1) := if_neg some_bit
  rw [nextBit, if_neg some_bit, below]
  rfl

theorem trailingZeros {w : UInt64} {b q : Nat} (shape : w.toNat = (2 * q + 1) <<< b) :
    w.toBitVec.ctz.toNat = b := by
  have bits (i : Nat) : w.toBitVec.getLsbD i = true ↔ i = b ∨ ((2 * q) <<< b).testBit i = true := by
    rw [BitVec.getLsbD, UInt64.toNat_toBitVec, shape, testBitShifted]
  have some_bit : w.toBitVec ≠ 0#64 := by
    intro zero
    have lowest := (bits b).mpr (.inl rfl)
    simp [zero] at lowest
  apply Nat.le_antisymm
  · apply Nat.le_of_not_lt
    intro less
    have low := BitVec.getLsbD_false_of_lt_ctz less
    exact Bool.false_ne_true (low.symm.trans ((bits b).mpr (.inl rfl)))
  · rcases (bits _).mp (BitVec.getLsbD_true_ctz_of_ne_zero some_bit) with same | higher
    · exact same.ge
    · rw [Nat.testBit_shiftLeft, Bool.and_eq_true, decide_eq_true_eq] at higher
      exact higher.1

theorem goOfZero (n : Nat) : setBits.go n 0 = [] := by
  cases n <;> rfl

theorem goOfSome (n : Nat) {w : UInt64} (some_bit : w ≠ 0) : setBits.go (n + 1) w =
    (w ^^^ (w &&& (w - 1))).toNat.log2 :: setBits.go n (w &&& (w - 1)) := if_neg some_bit

theorem goMore {n : Nat} {w : UInt64} (zeros : 1 <<< (64 - n) ∣ w.toNat) :
    setBits.go (n + 1) w = setBits.go n w := by
  -- More steps than a word has one bits change nothing.
  induction n generalizing w with
  | zero =>
    obtain rfl : w = 0 := UInt64.toNat_inj.mp (Nat.eq_zero_of_dvd_of_lt zeros w.toNat_lt)
    rw [goOfZero, goOfZero]
  | succ n ih =>
    by_cases empty : w = 0
    · rw [empty, goOfZero, goOfZero]
    · obtain ⟨b, q, shape, cleared, -⟩ := clearLowest w empty
      rw [shape] at zeros
      rw [goOfSome _ empty, goOfSome _ empty, ih (goZeros zeros cleared)]

theorem setBitsNext {w : UInt64} (some_bit : w ≠ 0) :
    setBits w = w.toBitVec.ctz.toNat :: setBits (w &&& (w - 1)) := by
  obtain ⟨b, q, shape, cleared, lowest⟩ := clearLowest w some_bit
  have zeros : 1 <<< (64 - (63 + 1)) ∣ (2 * q + 1) <<< b := Nat.one_dvd _
  have rest : setBits (w &&& (w - 1)) = setBits.go 63 (w &&& (w - 1)) := goMore (goZeros zeros cleared)
  rw [rest, setBits, goOfSome 63 some_bit, lowest, trailingZeros shape]

theorem callsGive (calls : Nat) (w : UInt64) :
    bitCalls calls w = some ((List.range calls).map fun i => (setBits w)[i]?) := by
  induction calls generalizing w with
  | zero => rfl
  | succ calls ih =>
    rw [List.range_succ_eq_map, List.map_cons, List.map_map]
    by_cases empty : w = 0
    · subst empty
      simp only [bitCalls, nextOfZero, Option.bind_eq_bind, Option.bind_some, ih]
      rfl
    · simp only [bitCalls, nextOfSome empty, setBitsNext empty, Option.bind_eq_bind, Option.bind_some,
        ih]
      rfl

namespace IdSet

theorem idShifted (chunk word bit : Nat) :
    chunk <<< 22 + 64 * word + bit = (chunk * wordsPerChunk + word) * 64 + bit := by
  have whole : wordsPerChunk * 64 = 2 ^ 22 := rfl
  rw [Nat.shiftLeft_eq, Nat.add_mul, Nat.mul_assoc chunk, whole]
  omega

theorem setBitsMask (p : Place) : setBits p.mask = [p.bit.val] := by
  have members (i : Nat) : i ∈ setBits p.mask ↔ i = p.bit.val := by
    rw [memSetBits, maskBit, Nat.one_shiftLeft, Nat.testBit_two_pow, decide_eq_true_eq, eq_comm]
  have distinct := (setBitsAscending p.mask).imp Nat.ne_of_lt
  exact List.perm_singleton.mp ((List.perm_ext_iff_of_nodup distinct (List.nodup_singleton _)).mpr
    fun i => by rw [members, List.mem_singleton])

def offset (id : UInt64) : UInt64 := id &&& ((1 : UInt64) <<< 22 - 1)

theorem offsetIs (id : UInt64) : (offset id).toNat = id.toNat % 2 ^ 22 := by
  rw [offset, UInt64.toNat_and]
  exact Nat.and_two_pow_sub_one_eq_mod id.toNat 22

theorem locateChunk (id : UInt64) : (locate id.toNat).chunk = (id >>> 22).toNat := by
  have shifted : (id >>> 22).toNat = id.toNat / 2 ^ 22 := by
    rw [UInt64.toNat_shiftRight]
    exact Nat.shiftRight_eq_div_pow id.toNat 22
  rw [shifted]
  exact Nat.div_div_eq_div_mul id.toNat 64 wordsPerChunk

theorem locateWord (id : UInt64) : (locate id.toNat).word = (offset id / 64).toNat := by
  have divided : (offset id / 64).toNat = (offset id).toNat / 64 := UInt64.toNat_div ..
  rw [divided, offsetIs]
  change id.toNat / 64 % 65536 = _
  omega

theorem locateMask (id : UInt64) : (locate id.toNat).mask = 1 <<< (offset id % 64) := by
  have rest : (offset id % 64).toNat = (offset id).toNat % 64 := UInt64.toNat_mod ..
  have bit : UInt64.ofNat (locate id.toNat).bit = offset id % 64 := by
    rw [← UInt64.toNat_inj, rest, offsetIs]
    change id.toNat % 64 % 2 ^ 64 = _
    omega
  rw [Place.mask, bit]

/-- Calls on a word give its one bits, each once and upwards, and then nothing any more; none of them takes
something from zero. Put together with its chunk and its word a bit is the id that is found there, and an
id is put together again from where it is found. -/
theorem bitsTakenApart (word : UInt64) :
    (∀ calls, bitCalls calls word = some ((List.range calls).map fun i => (setBits word)[i]?)) ∧
    (∀ bit, bit ∈ setBits word ↔ word.toNat.testBit bit = true) ∧
    (setBits word).Pairwise (· < ·) ∧ (setBits word).length = onesOf word ∧
    (∀ chunk words, Bitmap.chunkIds chunk words = words.toList.flatMap fun (index, bits) =>
      (setBits bits).map fun bit => chunk <<< 22 + 64 * index + bit) ∧
    (∀ (chunk : Nat) (index : Fin wordsPerChunk), ∀ bit ∈ setBits word, ∃ small : bit < 64,
      locate (chunk <<< 22 + 64 * index + bit) = ⟨chunk, index, ⟨bit, small⟩⟩) ∧
    ∀ id : UInt64,
      let place := locate id.toNat
      place.chunk = (id >>> 22).toNat ∧ place.word = (offset id / 64).toNat ∧
      place.mask = 1 <<< (offset id % 64) ∧
      ∃ bit, setBits place.mask = [bit] ∧
        (id >>> 22).toNat <<< 22 + 64 * (offset id / 64).toNat + bit = id.toNat := by
  refine ⟨fun calls => callsGive calls word, fun bit => memSetBits, setBitsAscending word,
    lengthSetBits word, fun chunk words => ?_, fun chunk index bit one => ?_, fun id => ?_⟩
  · simp only [idShifted]
    rfl
  · have small := Bitmap.bitSmall (memSetBits.mp one)
    refine ⟨small, ?_⟩
    rw [idShifted]
    exact locateId ⟨chunk, index, ⟨bit, small⟩⟩
  · intro place
    refine ⟨locateChunk id, locateWord id, locateMask id, place.bit, setBitsMask place, ?_⟩
    rw [← locateChunk, ← locateWord, idShifted]
    exact idLocate id.toNat

example : locate maxId = ⟨1 <<< 18, ⟨0, by decide⟩, 0⟩ := by decide

end IdSet
end Cutout
