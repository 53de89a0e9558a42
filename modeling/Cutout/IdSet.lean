import Std.Data.TreeMap
import Cutout.Bits
import Cutout.Element
/-! Sets of ids as bitmaps. An id is a bit of a 64-bit word of a chunk of 2^22 ids; chunks and words
appear with their first id, so that sets touching few id ranges stay small. -/
namespace Cutout

def maxId : Nat := 1 <<< 40

namespace IdSet

def wordsPerChunk : Nat := 1 <<< 16

@[ext]
structure Place where
  chunk : Nat
  word : Fin wordsPerChunk
  bit : Fin 64
  deriving DecidableEq, Repr

def Place.id (p : Place) : Nat := (p.chunk * wordsPerChunk + p.word) * 64 + p.bit

def Place.mask (p : Place) : UInt64 := 1 <<< UInt64.ofNat p.bit

def locate (id : Nat) : Place :=
  ⟨id / 64 / wordsPerChunk, ⟨id / 64 % wordsPerChunk, Nat.mod_lt _ (by decide)⟩,
    ⟨id % 64, Nat.mod_lt _ (by decide)⟩⟩

theorem idLocate (id : Nat) : (locate id).id = id := by
  simp only [locate, Place.id]
  rw [Nat.mul_comm (id / 64 / wordsPerChunk), Nat.div_add_mod, Nat.mul_comm, Nat.div_add_mod]

theorem locateId (p : Place) : locate p.id = p := by
  obtain ⟨chunk, word, bit⟩ := p
  have inWord := bit.isLt
  have words : ((chunk * wordsPerChunk + word) * 64 + bit) / 64 = chunk * wordsPerChunk + word := by
    omega
  have inChunk := word.isLt
  simp only [locate, Place.id, Place.mk.injEq, Fin.ext_iff, words]
  refine ⟨?_, ?_, by omega⟩
  · rw [Nat.mul_comm, Nat.mul_add_div (by decide), Nat.div_eq_of_lt inChunk, Nat.add_zero]
  · rw [Nat.mul_comm, Nat.mul_add_mod, Nat.mod_eq_of_lt inChunk]

theorem locateInj {a b : Nat} : locate a = locate b ↔ a = b :=
  ⟨fun same => by rw [← idLocate a, same, idLocate], congrArg locate⟩

theorem maskBit (p : Place) : p.mask.toNat = 1 <<< p.bit.val := by
  have inWord := p.bit.isLt
  have small : 1 <<< p.bit.val < 1 <<< 64 := by
    rw [Nat.one_shiftLeft, Nat.one_shiftLeft]
    exact Nat.pow_lt_pow_right (by decide) inWord
  have fits : p.bit.val < UInt64.size := Nat.lt_trans inWord (by decide)
  rw [Place.mask, UInt64.toNat_shiftLeft, UInt64.toNat_ofNat_of_lt' fits,
    Nat.mod_eq_of_lt inWord, UInt64.toNat_one]
  exact Nat.mod_eq_of_lt small

theorem meetsBit (n k : Nat) : n &&& 1 <<< k ≠ 0 ↔ n.testBit k = true := by
  constructor
  · intro meets
    obtain ⟨i, shared⟩ := Nat.exists_testBit_of_ne_zero meets
    rw [Nat.testBit_and, Nat.one_shiftLeft, Nat.testBit_two_pow, Bool.and_eq_true,
      decide_eq_true_eq] at shared
    rw [shared.2]
    exact shared.1
  · intro set none
    have bit := congrArg (·.testBit k) none
    simp [Nat.testBit_and, Nat.testBit_shiftLeft, set] at bit

theorem testMask (p : Place) (word : UInt64) :
    (word &&& p.mask != 0) = word.toNat.testBit p.bit := by
  rw [Bool.eq_iff_iff, bne_iff_ne, ne_eq, ← UInt64.toNat_inj, UInt64.toNat_and, maskBit]
  exact meetsBit word.toNat p.bit

theorem testMarked (p : Place) (word : UInt64) (bit : Nat) :
    (word ||| p.mask).toNat.testBit bit = (word.toNat.testBit bit || decide (bit = p.bit)) := by
  rw [UInt64.toNat_or, maskBit, Nat.testBit_or, Nat.one_shiftLeft, Nat.testBit_two_pow]
  simp [eq_comm]

abbrev Chunk := Std.TreeMap (Fin wordsPerChunk) UInt64

abbrev Bitmap := Std.TreeMap Nat Chunk

namespace Bitmap

def wordAt (m : Bitmap) (p : Place) : UInt64 := (m.getD p.chunk ∅).getD p.word 0

def holds (m : Bitmap) (id : Nat) : Bool :=
  let p := locate id
  m.wordAt p &&& p.mask != 0

def mark (m : Bitmap) (p : Place) : Bitmap :=
  m.insert p.chunk ((m.getD p.chunk ∅).insert p.word (m.wordAt p ||| p.mask))

def chunkIds (chunk : Nat) (words : Chunk) : List Nat :=
  words.toList.flatMap fun (word, bits) =>
    (setBits bits).map fun bit => (chunk * wordsPerChunk + word) * 64 + bit

def ids (m : Bitmap) : List Nat := m.toList.flatMap fun (chunk, words) => chunkIds chunk words

theorem holdsTest (m : Bitmap) (id : Nat) :
    m.holds id = (m.wordAt (locate id)).toNat.testBit (locate id).bit := testMask _ _

theorem wordAtMark (m : Bitmap) (p q : Place) : (m.mark p).wordAt q =
    if p.chunk = q.chunk ∧ p.word = q.word then m.wordAt p ||| p.mask else m.wordAt q := by
  simp only [wordAt, mark, Std.TreeMap.getD_insert, Std.LawfulEqOrd.compare_eq_iff_eq]
  by_cases chunks : p.chunk = q.chunk
  · simp only [chunks, if_true, true_and, Std.TreeMap.getD_insert,
      Std.LawfulEqOrd.compare_eq_iff_eq]
  · simp [chunks]

theorem holdsMark (m : Bitmap) (id other : Nat) :
    (m.mark (locate id)).holds other = (m.holds other || decide (other = id)) := by
  rw [holdsTest, holdsTest, wordAtMark]
  by_cases same : (locate id).chunk = (locate other).chunk ∧ (locate id).word = (locate other).word
  · have words : m.wordAt (locate id) = m.wordAt (locate other) := by
      rw [wordAt, same.1, same.2, wordAt]
    have bits : (locate other).bit.val = (locate id).bit.val ↔ other = id := by
      refine ⟨fun bit => locateInj.mp ?_, fun h => by rw [h]⟩
      exact Place.ext same.1.symm same.2.symm (Fin.ext bit)
    rw [if_pos same, testMarked, words]
    simp [bits]
  · have other : other ≠ id := fun h => same (by rw [h]; exact ⟨rfl, rfl⟩)
    simp [same, other]

theorem bitSmall {word : UInt64} {bit : Nat} (one : word.toNat.testBit bit = true) : bit < 64 := by
  apply Nat.lt_of_not_le
  intro high
  have zero := Nat.testBit_lt_two_pow (Nat.lt_of_lt_of_le word.toNat_lt (Nat.pow_le_pow_right
    (by decide) high))
  simp [zero] at one

theorem memChunkIds {chunk id : Nat} {words : Chunk} : id ∈ chunkIds chunk words ↔
    (locate id).chunk = chunk ∧
      (words.getD (locate id).word 0).toNat.testBit (locate id).bit = true := by
  simp only [chunkIds, List.mem_flatMap, List.mem_map, Prod.exists, memSetBits,
    Std.TreeMap.mem_toList_iff_getElem?_eq_some, Std.TreeMap.getD_eq_getD_getElem?]
  constructor
  · intro given
    obtain ⟨word, bits, stored, bit, one, rfl⟩ := given
    have place := locateId ⟨chunk, word, ⟨bit, bitSmall one⟩⟩
    simp only [Place.id] at place
    simp [place, stored, one]
  · intro given
    obtain ⟨rfl, one⟩ := given
    cases stored : words[(locate id).word]? with
    | none => simp [stored] at one
    | some bits =>
      simp only [stored, Option.getD_some] at one
      exact ⟨_, bits, stored, _, one, idLocate id⟩

theorem memIds {m : Bitmap} {id : Nat} : id ∈ m.ids ↔ m.holds id = true := by
  simp only [ids, List.mem_flatMap, Prod.exists, memChunkIds,
    Std.TreeMap.mem_toList_iff_getElem?_eq_some, holdsTest, wordAt,
    Std.TreeMap.getD_eq_getD_getElem? (t := m)]
  constructor
  · intro given
    obtain ⟨_, words, stored, rfl, one⟩ := given
    simpa [stored] using one
  · intro one
    cases stored : m[(locate id).chunk]? with
    | none => simp [stored] at one
    | some words => exact ⟨_, words, stored, rfl, by simpa [stored] using one⟩

theorem chunkIdsAscending (chunk : Nat) (words : Chunk) :
    (chunkIds chunk words).Pairwise (· < ·) := by
  refine List.pairwise_flatMap.mpr ⟨fun (word, bits) _ => ?_, ?_⟩
  · refine List.pairwise_map.mpr ((setBitsAscending bits).imp fun less => ?_)
    exact Nat.add_lt_add_left less _
  · refine words.ordered_keys_toList.imp fun {a b} less => ?_
    intro x inA y inB
    obtain ⟨i, one, rfl⟩ := List.mem_map.mp inA
    obtain ⟨k, _, rfl⟩ := List.mem_map.mp inB
    have word : a.1.val < b.1.val := Std.compare_eq_lt.mp less
    have bit := bitSmall (memSetBits.mp one)
    omega

theorem idsAscending (m : Bitmap) : m.ids.Pairwise (· < ·) := by
  refine List.pairwise_flatMap.mpr ⟨fun (chunk, words) _ => chunkIdsAscending chunk words, ?_⟩
  refine m.ordered_keys_toList.imp fun {a b} less => ?_
  intro x inA y inB
  have chunks : a.1 < b.1 := Std.compare_eq_lt.mp less
  have first := (memChunkIds.mp inA).1
  have second := (memChunkIds.mp inB).1
  simp only [locate] at first second
  apply Nat.lt_of_not_le
  intro back
  have parts := Nat.div_le_div_right (c := wordsPerChunk) (Nat.div_le_div_right (c := 64) back)
  omega

theorem idsNodup (m : Bitmap) : m.ids.Nodup :=
  m.idsAscending.imp Nat.ne_of_lt

theorem lengthMark {m : Bitmap} {id : Nat} (missing : m.holds id = false) :
    (m.mark (locate id)).ids.length = m.ids.length + 1 := by
  have fresh : id ∉ m.ids := by simp [memIds, missing]
  have same : (m.mark (locate id)).ids.Perm (id :: m.ids) := by
    refine (List.perm_ext_iff_of_nodup (idsNodup _) (List.nodup_cons.mpr ⟨fresh, m.idsNodup⟩)).mpr ?_
    intro other
    simp [memIds, holdsMark, or_comm]
  rw [same.length_eq, List.length_cons]

end Bitmap
end IdSet

structure IdSet where
  bits : IdSet.Bitmap
  size : Nat
  counted : size = bits.ids.length

namespace IdSet

def empty : IdSet := ⟨∅, 0, rfl⟩

instance : EmptyCollection IdSet := ⟨empty⟩
instance : Inhabited IdSet := ⟨empty⟩

def contains (s : IdSet) (id : Nat) : Bool := s.bits.holds id

instance : Membership Nat IdSet := ⟨fun s id => s.contains id = true⟩
instance (id : Nat) (s : IdSet) : Decidable (id ∈ s) := inferInstanceAs (Decidable (_ = true))

def set (s : IdSet) (id : Nat) : Bool × IdSet :=
  if known : s.bits.holds id then (false, s)
  else
    (true, ⟨s.bits.mark (locate id), s.size + 1, by
      rw [Bitmap.lengthMark (by simpa using known), s.counted]⟩)

def insert (s : IdSet) (id : Nat) : IdSet := (s.set id).2

def isEmpty (s : IdSet) : Bool := s.size == 0

def toList (s : IdSet) : List Nat := s.bits.ids

def insertMany (s : IdSet) (ids : List Nat) : IdSet := ids.foldl insert s

@[simp] theorem containsEmpty (id : Nat) : (∅ : IdSet).contains id = false := by
  change Bitmap.holds ∅ id = false
  simp [Bitmap.holdsTest, Bitmap.wordAt]

theorem setMissing (s : IdSet) (id : Nat) : (s.set id).1 = !s.contains id := by
  unfold set contains
  split <;> simp_all

@[simp] theorem containsInsert (s : IdSet) (id other : Nat) :
    (s.insert id).contains other = (s.contains other || decide (other = id)) := by
  unfold insert set contains
  split
  · rename_i known
    by_cases same : other = id
    · simp [same, known]
    · simp [same]
  · exact s.bits.holdsMark id other

theorem insertKnown {s : IdSet} {id : Nat} (known : s.contains id = true) : s.insert id = s := by
  unfold insert set
  exact congrArg Prod.snd (dif_pos known)

@[simp] theorem memToList {s : IdSet} {id : Nat} : id ∈ s.toList ↔ s.contains id = true :=
  Bitmap.memIds

theorem toListAscending (s : IdSet) : s.toList.Pairwise (· < ·) := s.bits.idsAscending

theorem toListNodup (s : IdSet) : s.toList.Nodup := s.bits.idsNodup

theorem lengthToList (s : IdSet) : s.toList.length = s.size := s.counted.symm

theorem isEmptyIff {s : IdSet} : s.isEmpty = true ↔ ∀ id, s.contains id = false := by
  rw [isEmpty, beq_iff_eq, ← lengthToList, List.length_eq_zero_iff, List.eq_nil_iff_forall_not_mem]
  simp

end IdSet

structure IdSets where
  nodes : IdSet
  ways : IdSet
  relations : IdSet

namespace IdSets

def empty : IdSets := ⟨∅, ∅, ∅⟩

instance : EmptyCollection IdSets := ⟨empty⟩
instance : Inhabited IdSets := ⟨empty⟩

def of (s : IdSets) : Kind → IdSet
  | .node => s.nodes
  | .way => s.ways
  | .relation => s.relations

def contains (s : IdSets) (kind : Kind) (id : Nat) : Bool := (s.of kind).contains id

def replace (s : IdSets) (ids : IdSet) : Kind → IdSets
  | .node => { s with nodes := ids }
  | .way => { s with ways := ids }
  | .relation => { s with relations := ids }

def set (s : IdSets) (kind : Kind) (id : Nat) : Bool × IdSets :=
  let (missing, ids) := (s.of kind).set id
  (missing, s.replace ids kind)

def insert (s : IdSets) (kind : Kind) (id : Nat) : IdSets := (s.set kind id).2

def isEmpty (s : IdSets) (kind : Kind) : Bool := (s.of kind).isEmpty

@[simp] theorem containsEmpty (kind : Kind) (id : Nat) :
    (∅ : IdSets).contains kind id = false := by
  cases kind <;> exact IdSet.containsEmpty id

theorem ofInsert (s : IdSets) (kind other : Kind) (id : Nat) :
    (s.insert kind id).of other = if other = kind then (s.of kind).insert id else s.of other := by
  cases kind <;> cases other <;> rfl

@[simp] theorem containsInsert (s : IdSets) (kind other : Kind) (id key : Nat) :
    (s.insert kind id).contains other key =
      (s.contains other key || decide (other = kind ∧ key = id)) := by
  rw [contains, ofInsert]
  by_cases same : other = kind
  · simp [same, contains]
  · simp [same, contains]

theorem insertKnown {s : IdSets} {kind : Kind} {id : Nat} (known : s.contains kind id = true) :
    s.insert kind id = s := by
  have replaced : s.insert kind id = s.replace ((s.of kind).insert id) kind := rfl
  rw [replaced, IdSet.insertKnown known]
  cases kind <;> rfl

end IdSets
end Cutout
