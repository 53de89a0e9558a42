import Cutout.Location
/-! Decimal texts read back: the digits of a number give the number, and an amount written in positional
notation is found again in units of its last place. Such texts have visible characters only. -/
namespace Cutout

def Graphic (s : String) : Prop := ∀ c ∈ s.toList, '!' ≤ c ∧ c ≤ '~'

instance (s : String) : Decidable (Graphic s) := List.decidableBAll _ s.toList

@[simp] theorem graphicAppend (a b : String) : Graphic (a ++ b) ↔ Graphic a ∧ Graphic b := by
  unfold Graphic
  rw [String.toList_append]
  exact List.forall_mem_append

namespace Decimal

theorem digitValueOf {c : Char} (digit : c.isDigit) : digitValue? c = some (c.toNat - '0'.toNat) := by
  simp only [Char.isDigit, Bool.and_eq_true, decide_eq_true_eq] at digit
  exact if_pos digit

theorem allDigits {cs : List Char} (digits : ∀ c ∈ cs, c.isDigit) : cs.all isDigit := by
  refine List.all_eq_true.mpr fun c c_in => ?_
  rw [isDigit, digitValueOf (digits c c_in)]
  rfl

theorem natOfIs {cs : List Char} (digits : ∀ c ∈ cs, c.isDigit) :
    natOf cs = Nat.ofDigitChars 10 cs 0 := by
  have step (n : Nat) : cs.foldl (fun n c => n * 10 + (digitValue? c).getD 0) n =
      Nat.ofDigitChars 10 cs n := by
    induction cs generalizing n with
    | nil => simp
    | cons c rest ih =>
      have digit := digitValueOf (digits c (by simp))
      have rest := ih fun d d_in => digits d (by simp [d_in])
      rw [List.foldl_cons, Nat.ofDigitChars_cons, digit, rest, Nat.mul_comm]
      rfl
  exact step 0

theorem natOfSnoc (cs : List Char) (c : Char) :
    natOf (cs ++ [c]) = natOf cs * 10 + (digitValue? c).getD 0 := List.foldl_append

theorem digitsOf (n : Nat) : ∀ c ∈ Nat.toDigits 10 n, c.isDigit :=
  fun _ c_in => Nat.isDigit_of_mem_toDigits (by decide) (by decide) c_in

theorem digitsZeros (k : Nat) : ∀ c ∈ List.replicate k '0', c.isDigit := by
  intro c c_in
  rw [List.eq_of_mem_replicate c_in]
  rfl

theorem natOfPadded (k n : Nat) : natOf (List.replicate k '0' ++ Nat.toDigits 10 n) = n := by
  rw [natOfIs (List.forall_mem_append.mpr ⟨digitsZeros k, digitsOf n⟩), Nat.ofDigitChars_append,
    Nat.ofDigitChars_replicate_zero, Nat.mul_zero, Nat.ofDigitChars_ten_toDigits]

@[simp] theorem natOfDigits (n : Nat) : natOf (Nat.toDigits 10 n) = n := natOfPadded 0 n

theorem digitsLead {n : Nat} (zero : (Nat.toDigits 10 n).head? = some '0') :
    Nat.toDigits 10 n = ['0'] := by
  induction n using Nat.strongRecOn with
  | ind n ih =>
    rw [Nat.toDigits_eq_if (by omega)] at zero ⊢
    split at zero
    · rename_i low
      rw [if_pos low]
      exact congrArg (fun c => [c]) (Option.some.inj zero)
    · rename_i high
      rw [List.head?_append, List.head?_eq_some_head Nat.toDigits_ne_nil, Option.some_or,
        ← List.head?_eq_some_head] at zero
      have tens := natOfDigits (n / 10)
      rw [ih (n / 10) (by omega) zero] at tens
      have none : n / 10 = 0 := tens.symm
      omega

theorem graphicDigits {cs : List Char} (digits : ∀ c ∈ cs, c.isDigit) : Graphic (.ofList cs) := by
  intro c c_in
  rw [String.toList_ofList] at c_in
  have digit := digits c c_in
  simp only [Char.isDigit, Bool.and_eq_true, decide_eq_true_eq] at digit
  have low : '0' ≤ c := digit.1
  have high : c ≤ '9' := digit.2
  exact ⟨Char.le_trans (by decide) low, Char.le_trans high (by decide)⟩

theorem graphicNat (n : Nat) : Graphic (toString n) := by
  rw [Nat.toString_eq_ofList_toDigits]
  exact graphicDigits (digitsOf n)

theorem signOfDigits {cs : List Char} (rest : List Char) (some_digit : cs ≠ [])
    (digits : ∀ c ∈ cs, c.isDigit) : sign (cs ++ rest) = (false, cs ++ rest) := by
  obtain ⟨c, cs, rfl⟩ := List.exists_cons_of_ne_nil some_digit
  have digit := digits c (by simp)
  rw [List.cons_append]
  unfold sign
  split
  · rename_i minus
    cases minus
    cases digit
  · rename_i plus
    cases plus
    cases digit
  · rfl

theorem intReads (n : Int) : int? (toString n).toList = some n := by
  cases n with
  | ofNat n =>
    have text : (toString (Int.ofNat n)).toList = Nat.toDigits 10 n := Nat.toList_repr
    have unsigned := signOfDigits [] Nat.toDigits_ne_nil (digitsOf n)
    rw [List.append_nil] at unsigned
    rw [int?, text, unsigned]
    simp [allDigits (digitsOf n), Nat.toDigits_ne_nil]
  | negSucc n =>
    have text : (toString (Int.negSucc n)).toList = '-' :: Nat.toDigits 10 (n + 1) := by
      rw [← Nat.toList_repr]
      exact String.toList_append
    rw [int?, text]
    simp [sign, allDigits (digitsOf (n + 1)), Nat.toDigits_ne_nil, Int.negSucc_eq]

theorem graphicInt (n : Int) : Graphic (toString n) := by
  cases n with
  | ofNat n => exact graphicNat n
  | negSucc n =>
    have text : toString (Int.negSucc n) = "-" ++ toString (n + 1) := rfl
    rw [text, graphicAppend]
    exact ⟨by decide, graphicNat (n + 1)⟩

def unsigned? (places : Nat) (cs : List Char) : Option Nat :=
  let whole := cs.takeWhile isDigit
  let amount (fraction : List Char) : Option Nat :=
    if whole.isEmpty || !fraction.all isDigit || places < fraction.length then none
    else some (natOf (whole ++ fraction) * Nat.pow 10 (places - fraction.length))
  match cs.dropWhile isDigit with
  | [] => amount []
  | '.' :: fraction => if fraction.isEmpty then none else amount fraction
  | _ => none

def amount? (places : Nat) (cs : List Char) : Option Int :=
  let (negative, cs) := sign cs
  (unsigned? places cs).map fun n : Nat => if negative then -(n : Int) else n

def pointed (whole fraction : List Char) : List Char :=
  if fraction.isEmpty then whole else whole ++ '.' :: fraction

theorem unsignedPointed {places : Nat} {whole fraction : List Char} (some_digit : whole ≠ [])
    (few : fraction.length ≤ places) (wholes : ∀ c ∈ whole, c.isDigit)
    (fractions : ∀ c ∈ fraction, c.isDigit) : unsigned? places (pointed whole fraction) =
      some (natOf (whole ++ fraction) * Nat.pow 10 (places - fraction.length)) := by
  have short : ¬ places < fraction.length := by omega
  have all := allDigits wholes
  rw [List.all_eq_true] at all
  unfold pointed
  split
  · rename_i none_behind
    rw [List.isEmpty_iff] at none_behind
    have taken : (whole ++ []).takeWhile isDigit = whole ++ [] := List.takeWhile_append_of_pos all
    have left : (whole ++ []).dropWhile isDigit = [] := List.dropWhile_append_of_pos all
    rw [List.append_nil] at taken left
    simp [unsigned?, taken, left, some_digit, none_behind]
  · rename_i some_behind
    have taken : (whole ++ '.' :: fraction).takeWhile isDigit = whole := by
      rw [List.takeWhile_append_of_pos all, List.takeWhile_cons_of_neg (by decide), List.append_nil]
    have left : (whole ++ '.' :: fraction).dropWhile isDigit = '.' :: fraction := by
      rw [List.dropWhile_append_of_pos all, List.dropWhile_cons_of_neg (by decide)]
    simp [unsigned?, taken, left, some_digit, some_behind, allDigits fractions, short]

theorem Digits.trimIs (n : Nat) (d : Digits) : ∃ k ≤ n,
    d.digits = (trim n d).digits * Nat.pow 10 k ∧ (trim n d).exponent = d.exponent + k := by
  induction n generalizing d with
  | zero => exact ⟨0, Nat.le_refl 0, by simp [trim], by simp [trim]⟩
  | succ n ih =>
    rw [trim]
    split
    · rename_i round
      obtain ⟨k, few, digits, exponent⟩ := ih ⟨d.digits / 10, d.exponent + 1⟩
      refine ⟨k + 1, by omega, ?_, ?_⟩
      · have more : Nat.pow 10 (k + 1) = Nat.pow 10 k * 10 := rfl
        rw [more, ← Nat.mul_assoc, ← digits]
        exact (Nat.div_mul_cancel (Nat.dvd_of_mod_eq_zero round.2)).symm
      · rw [exponent, Int.natCast_add, Int.add_assoc, Int.add_comm 1]
        rfl
    · exact ⟨0, Nat.zero_le _, by simp, by simp⟩

theorem Digits.trimStops (n : Nat) (d : Digits) (round : (trim n d).digits % 10 = 0) :
    (trim n d).digits = 0 ∨ (trim n d).exponent = d.exponent + n := by
  induction n generalizing d with
  | zero => exact .inr (by simp [trim])
  | succ n ih =>
    rw [trim] at round ⊢
    split at round
    · rename_i more
      rw [if_pos more]
      obtain none | all := ih _ round
      · exact .inl none
      · rw [all]
        dsimp only
        omega
    · rename_i last
      rw [if_neg last]
      omega

theorem Digits.trimmed (n places : Nat) : ∃ m, ∃ p ≤ places,
    trim places ⟨n, -places⟩ = ⟨m, -p⟩ ∧ m * Nat.pow 10 (places - p) = n := by
  obtain ⟨k, few, digits, exponent⟩ := trimIs places ⟨n, -places⟩
  refine ⟨(trim places ⟨n, -places⟩).digits, places - k, Nat.sub_le .., ?_, ?_⟩
  · rw [mk.injEq, exponent]
    dsimp only
    omega
  · rw [Nat.sub_sub_self few]
    exact digits.symm

theorem Digits.plainIs (n p : Nat) : ∃ whole fraction, whole ≠ [] ∧
    (whole.head? = some '0' → whole = ['0']) ∧ fraction.length = p ∧
    (∀ c ∈ whole ++ fraction, c.isDigit) ∧ natOf (whole ++ fraction) = n ∧
    (plain ⟨n, -p⟩).toList = pointed whole fraction := by
  have text : toString n = .ofList (Nat.toDigits 10 n) := Nat.toString_eq_ofList_toDigits
  have some_digit : 0 < (Nat.toDigits 10 n).length := Nat.length_toDigits_pos
  unfold plain
  simp only [text, Int.natAbs_neg, Int.natAbs_natCast, String.length_ofList, String.toList_ofList]
  split
  · rename_i whole
    obtain rfl : p = 0 := by simpa using whole
    refine ⟨Nat.toDigits 10 n, [], Nat.toDigits_ne_nil, digitsLead, rfl, ?_, ?_, ?_⟩
    · simpa using digitsOf n
    · simp
    · simp [zeros, pointed]
  · rename_i behind
    have behind : p ≠ 0 := by simpa using behind
    split
    · rename_i inside
      let places := (Nat.toDigits 10 n).length - p
      have parts : (Nat.toDigits 10 n).take places ++ (Nat.toDigits 10 n).drop places =
        Nat.toDigits 10 n := List.take_append_drop ..
      have count : ((Nat.toDigits 10 n).drop places).length = p := by
        rw [List.length_drop]
        omega
      have some_place : places ≠ 0 := by omega
      refine ⟨(Nat.toDigits 10 n).take places, (Nat.toDigits 10 n).drop places, ?_, ?_, count, ?_, ?_, ?_⟩
      · exact List.ne_nil_of_length_pos (by rw [List.length_take]; omega)
      · intro zero
        rw [List.head?_take, if_neg some_place] at zero
        rw [digitsLead zero, List.take_of_length_le]
        exact Nat.one_le_iff_ne_zero.mpr some_place
      · rw [parts]
        exact digitsOf n
      · rw [parts, natOfDigits]
      · have some_behind : (Nat.toDigits 10 n).drop places ≠ [] := by
          intro none
          rw [none] at count
          exact behind count.symm
        simp [pointed, some_behind, places]
    · rename_i outside
      let pad := List.replicate (p - (Nat.toDigits 10 n).length) '0'
      have count : (pad ++ Nat.toDigits 10 n).length = p := by
        rw [List.length_append, List.length_replicate]
        omega
      refine ⟨['0'], pad ++ Nat.toDigits 10 n, by simp, fun _ => rfl, count, ?_, ?_, ?_⟩
      · have digits : ∀ c ∈ pad ++ Nat.toDigits 10 n, c.isDigit :=
          List.forall_mem_append.mpr ⟨digitsZeros _, digitsOf n⟩
        exact List.forall_mem_cons.mpr ⟨rfl, digits⟩
      · exact natOfPadded (p - _ + 1) n
      · simp [pointed, zeros, pad, Nat.toDigits_ne_nil]

structure Spelled (places n : Nat) (whole fraction : List Char) : Prop where
  some_digit : whole ≠ []
  lead : whole.head? = some '0' → whole = ['0']
  few : fraction.length ≤ places
  wholes : ∀ c ∈ whole, c.isDigit
  fractions : ∀ c ∈ fraction, c.isDigit
  value : natOf (whole ++ fraction) * Nat.pow 10 (places - fraction.length) = n

def Canonical (places : Nat) (amount : Int) (text : List Char) : Prop :=
  ∃ whole fraction, Spelled places amount.natAbs whole fraction ∧ fraction.getLast? ≠ some '0' ∧
    text = (if amount < 0 then ['-'] else []) ++ pointed whole fraction

theorem spelledZero (places : Nat) : Spelled places 0 ['0'] [] :=
  ⟨by simp, fun _ => rfl, Nat.zero_le _, List.forall_mem_singleton.mpr rfl, by simp, Nat.zero_mul _⟩

theorem fixedIs (amount : Int) (places : Nat) :
    Canonical places amount (fixedPlain amount places).toList := by
  unfold fixedPlain
  split
  · rename_i zero
    cases zero
    exact ⟨['0'], [], spelledZero places, by simp, rfl⟩
  · rename_i some_amount
    obtain ⟨n, p, few, trimmed, value⟩ := Digits.trimmed amount.natAbs places
    obtain ⟨whole, fraction, some_digit, lead, count, digits, number, text⟩ := Digits.plainIs n p
    obtain ⟨wholes, fractions⟩ := List.forall_mem_append.mp digits
    have stops := Digits.trimStops places ⟨amount.natAbs, -places⟩
    rw [trimmed] at stops
    refine ⟨whole, fraction, ⟨some_digit, lead, by omega, wholes, fractions, ?_⟩, ?_, ?_⟩
    · rw [number, count, value]
    · intro zero
      obtain ⟨front, rfl⟩ := List.getLast?_eq_some_iff.mp zero
      have some_place : p ≠ 0 := by
        rw [← count, List.length_append]
        exact Nat.succ_ne_zero _
      have round : n % 10 = 0 := by
        have last : (digitValue? '0').getD 0 = 0 := rfl
        rw [← number, ← List.append_assoc, natOfSnoc, last]
        omega
      obtain none | all := stops round
      · dsimp only at none
        rw [none, Nat.zero_mul] at value
        omega
      · dsimp only at all
        omega
    · rw [String.toList_append, trimmed, text]
      split <;> rfl

theorem amountPointed {places n : Nat} {whole fraction : List Char}
    (spelled : Spelled places n whole fraction) (negative : Bool) :
    amount? places ((if negative then ['-'] else []) ++ pointed whole fraction) =
      some (if negative then -(n : Int) else n) := by
  have reads := unsignedPointed spelled.some_digit spelled.few spelled.wholes spelled.fractions
  rw [spelled.value] at reads
  have unsigned : sign (pointed whole fraction) = (false, pointed whole fraction) := by
    unfold pointed
    split
    · simpa using signOfDigits [] spelled.some_digit spelled.wholes
    · exact signOfDigits _ spelled.some_digit spelled.wholes
  cases negative with
  | true => simp [amount?, sign, reads]
  | false => simp [amount?, unsigned, reads]

theorem amountCanonical {places : Nat} {amount : Int} {text : List Char}
    (canonical : Canonical places amount text) : amount? places text = some amount := by
  obtain ⟨whole, fraction, spelled, -, rfl⟩ := canonical
  have reads := amountPointed spelled (decide (amount < 0))
  simp only [decide_eq_true_eq] at reads
  rw [reads]
  congr 1
  omega

theorem amountReads (amount : Int) (places : Nat) :
    amount? places (fixedPlain amount places).toList = some amount :=
  amountCanonical (fixedIs amount places)

theorem graphicFixed (amount : Int) (places : Nat) : Graphic (fixedPlain amount places) := by
  obtain ⟨whole, fraction, spelled, -, text⟩ := fixedIs amount places
  have visible := graphicDigits (List.forall_mem_append.mpr ⟨spelled.wholes, spelled.fractions⟩)
  simp only [Graphic, String.toList_ofList, List.forall_mem_append] at visible
  simp only [Graphic, text, List.forall_mem_append]
  refine ⟨?_, ?_⟩
  · split
    · exact List.forall_mem_singleton.mpr (by decide)
    · exact List.forall_mem_nil _
  · unfold pointed
    split
    · exact visible.1
    · exact List.forall_mem_append.mpr
        ⟨visible.1, List.forall_mem_cons.mpr ⟨by decide, visible.2⟩⟩

theorem graphicCoordinate (x : Binary64) : Graphic (coordinate x) := by
  cases x with
  | nan => decide
  | infinite negative => cases negative <;> decide
  | finite negative units => exact graphicFixed _ 7

end Decimal
end Cutout
