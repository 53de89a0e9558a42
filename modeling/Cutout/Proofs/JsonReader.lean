import Cutout.Proofs.JsonNumbers
/-! Printed values read back. A text finds its characters again behind all escapes, and arrays and
objects are read as soon as their parts are. Nothing that is printed breaks the line. -/
namespace Cutout.Json

open JsonLines (listed field)

def chars (pieces : List String) : List Char := pieces.flatMap String.toList

@[simp] theorem charsAppend (a b : List String) : chars (a ++ b) = chars a ++ chars b :=
  List.flatMap_append

@[simp] theorem charsCons (s : String) (rest : List String) :
    chars (s :: rest) = s.toList ++ chars rest :=
  List.flatMap_cons

@[simp] theorem charsNil : chars [] = [] := rfl

theorem charsJoined (pieces : List String) : (String.join pieces).toList = chars pieces :=
  String.toList_join

theorem charsListed (first next : List String) (more : List (List String)) :
    chars (listed (first :: next :: more)) = chars first ++ ',' :: chars (listed (next :: more)) := by
  simp [listed]

theorem listedStarts (first : List String) (more : List (List String)) :
    ∃ rest, chars (listed (first :: more)) = chars first ++ rest := by
  cases more with
  | nil => exact ⟨[], (List.append_nil _).symm⟩
  | cons next more => exact ⟨_, charsListed first next more⟩

theorem listedUnbroken {items : List (List String)}
    (each : ∀ item ∈ items, ∀ c ∈ chars item, 0x20 ≤ c.toNat) :
    ∀ c ∈ chars (listed items), 0x20 ≤ c.toNat := by
  induction items with
  | nil => exact List.forall_mem_nil _
  | cons first more ih =>
    obtain ⟨first_unbroken, more_unbroken⟩ := List.forall_mem_cons.mp each
    cases more with
    | nil => exact first_unbroken
    | cons next more =>
      rw [charsListed]
      refine List.forall_mem_append.mpr ⟨first_unbroken, List.forall_mem_cons.mpr ⟨by decide, ?_⟩⟩
      exact ih more_unbroken

theorem enclosedUnbroken {left right : Char} (marks : 0x20 ≤ left.toNat ∧ 0x20 ≤ right.toNat)
    {items : List (List String)} (each : ∀ item ∈ items, ∀ c ∈ chars item, 0x20 ≤ c.toNat) :
    ∀ c ∈ left :: (chars (listed items) ++ [right]), 0x20 ≤ c.toNat := by
  refine List.forall_mem_cons.mpr ⟨marks.1, List.forall_mem_append.mpr ⟨listedUnbroken each, ?_⟩⟩
  exact List.forall_mem_singleton.mpr marks.2

theorem runsPrinted (run cs : List Char) :
    chars (printRuns run cs) = run.reverse ++ cs.flatMap printChar := by
  have last (run : List Char) : chars (printRun run) = run.reverse := by
    rw [printRun]
    split
    · rename_i empty
      simp [List.isEmpty_iff.mp empty]
    · simp
  induction cs generalizing run with
  | nil => rw [printRuns, last, List.flatMap_nil, List.append_nil]
  | cons c rest ih =>
    rw [printRuns]
    split
    · rename_i plain
      simp [ih, plain]
    · simp [ih, last]

theorem textPrinted (s : String) :
    chars (printText s) = '"' :: s.toList.flatMap printChar ++ ['"'] := by
  simp [printText, runsPrinted]

theorem hexReads {n : Nat} (small : n < 16) : hexValue? (hexDigit n) = some n := by
  have all : ∀ n < 16, hexValue? (hexDigit n) = some n := by decide
  exact all n small

theorem controlReads {c : Char} (control : c.toNat < 0x20) (rest : List Char) :
    escapedUnit ('0' :: '0' :: hexDigit (c.toNat / 16) :: hexDigit (c.toNat % 16) :: rest) =
      some (c, rest) := by
  have high : hexValue? (hexDigit (c.toNat / 16)) = some (c.toNat / 16) := hexReads (by omega)
  have low : hexValue? (hexDigit (c.toNat % 16)) = some (c.toNat % 16) := hexReads (by omega)
  have zero : hexValue? '0' = some 0 := rfl
  have whole : c.toNat / 16 * 16 + c.toNat % 16 = c.toNat := by omega
  have surrogate : ¬ 0xd800 ≤ c.toNat := by omega
  have alone : ¬ 0xdc00 ≤ c.toNat := by omega
  simp [escapedUnit, unit?, hexNumber, high, low, zero, whole, surrogate, alone]

theorem charReads (c : Char) (n : Nat) (done rest : List Char) :
    readText (n + 1) done (printChar c ++ rest) = readText n (c :: done) rest := by
  unfold printChar
  iterate 7
    split
    · rename_i is
      subst is
      rfl
  split
  · rename_i control
    have escape := controlReads control rest
    simp [readText, escaped, escape]
  · simp [readText, *]

theorem textReads {n : Nat} {cs : List Char} (enough : cs.length < n) (done rest : List Char) :
    readText n done (cs.flatMap printChar ++ '"' :: rest) =
      some (.ofList (done.reverse ++ cs), rest) := by
  induction cs generalizing n done with
  | nil =>
    obtain ⟨n, rfl⟩ := Nat.exists_eq_add_one.mpr (Nat.zero_lt_of_lt enough)
    simp [readText]
  | cons c cs ih =>
    rw [List.length_cons] at enough
    obtain ⟨n, rfl⟩ := Nat.exists_eq_add_one.mpr (Nat.zero_lt_of_lt enough)
    rw [List.flatMap_cons, List.append_assoc, charReads, ih (by omega)]
    simp

theorem printedUnbroken (c : Char) : ∀ d ∈ printChar c, 0x20 ≤ d.toNat := by
  unfold printChar
  iterate 7
    split
    · simp
  split
  · rename_i control
    have digits : ∀ n < 16, 0x20 ≤ (hexDigit n).toNat := by decide
    have high := digits (c.toNat / 16) (by omega)
    have low := digits (c.toNat % 16) (by omega)
    simp [high, low]
  · simp_all

theorem printedLength (cs : List Char) : cs.length ≤ (cs.flatMap printChar).length := by
  induction cs with
  | nil => exact Nat.le_refl 0
  | cons c rest ih =>
    have some_char : 0 < (printChar c).length := by
      unfold printChar
      iterate 8
        split
        · exact Nat.succ_pos _
      exact Nat.one_pos
    rw [List.length_cons, List.flatMap_cons, List.length_append]
    omega

theorem quotedReads (s : String) (rest : List Char) :
    readText ((s.toList.flatMap printChar ++ '"' :: rest).length + 1) []
      (s.toList.flatMap printChar ++ '"' :: rest) = some (s, rest) := by
  have longer := printedLength s.toList
  rw [textReads (by rw [List.length_append]; omega), List.reverse_nil, List.nil_append,
    String.ofList_toList]

structure Spells (depth : Nat) (pieces : List String) (value : Json) : Prop where
  unbroken : ∀ c ∈ chars pieces, 0x20 ≤ c.toNat
  starts : ∃ c cs, chars pieces = c :: cs ∧ isSpace c = false ∧ c ≠ ']'
  -- A part is read with the fuel of the whole, less one for each part before it and each bracket around
  -- it, and each of these has at least one character.
  reads : ∀ fuel rest, (chars pieces).length ≤ fuel → Closes rest →
    readValue fuel depth (chars pieces ++ rest) = some (value, rest)

theorem skipMark {c : Char} (spaceless : isSpace c = false) (rest : List Char) :
    skip (c :: rest) = c :: rest := by
  simp [skip, spaceless]

theorem textSpells (depth : Nat) (s : String) : Spells depth (printText s) (.string s) := by
  have text := textPrinted s
  refine ⟨?_, ⟨'"', _, text, rfl, by decide⟩, fun fuel rest enough closes => ?_⟩
  · have inside : ∀ c ∈ s.toList.flatMap printChar, 0x20 ≤ c.toNat := by
      intro c c_in
      obtain ⟨d, -, c_in⟩ := List.mem_flatMap.mp c_in
      exact printedUnbroken d c c_in
    rw [text]
    refine List.forall_mem_append.mpr ⟨List.forall_mem_cons.mpr ⟨by decide, inside⟩, ?_⟩
    exact List.forall_mem_singleton.mpr (by decide)
  · rw [text] at enough ⊢
    obtain ⟨fuel, rfl⟩ := Nat.exists_eq_add_one.mpr (Nat.zero_lt_of_lt enough)
    have read := congrArg (Option.map fun t => (Json.string t.1, t.2)) (quotedReads s rest)
    rw [List.cons_append, List.cons_append, List.append_assoc]
    exact read

theorem digitApart {c : Char} (digit : c.isDigit) (d : Char) (none : d.isDigit = false) : c ≠ d := by
  rintro rfl
  simp [digit] at none

theorem digitSpaceless {c : Char} (digit : c.isDigit) : isSpace c = false := by
  have apart := digitApart digit
  simp [isSpace, apart ' ' rfl, apart '\n' rfl, apart '\r' rfl, apart '\t' rfl]

theorem digitStarts {c : Char} (digit : c.isDigit) (fuel depth : Nat) (rest : List Char) :
    readValue (fuel + 1) depth (c :: rest) = readNumber false (c :: rest) := by
  have known : Decimal.isDigit c = true := by
    rw [Decimal.isDigit, Decimal.digitValueOf digit]
    rfl
  have apart := digitApart digit
  rw [readValue, skipMark (digitSpaceless digit)]
  simp [apart 'n' rfl, apart 't' rfl, apart 'f' rfl, apart '"' rfl, apart '-' rfl, known]

theorem digitUnbroken {c : Char} (digit : c.isDigit) : 0x20 ≤ c.toNat := by
  simp only [Char.isDigit, Bool.and_eq_true, decide_eq_true_eq] at digit
  have low : 48 ≤ c.toNat := UInt32.le_iff_toNat_le.mp digit.1
  omega

theorem numeralUnbroken (n : Numeral) (negative : Bool) : ∀ c ∈ n.signed negative, 0x20 ≤ c.toNat := by
  have digits := n.digits
  simp only [List.forall_mem_append] at digits
  obtain ⟨⟨wholes, fractions⟩, exponents⟩ := digits
  simp only [Numeral.signed, Numeral.chars, List.forall_mem_append]
  refine ⟨?_, ⟨fun c c_in => digitUnbroken (wholes c c_in), ?_⟩, ?_⟩
  · split <;> simp
  · unfold Numeral.point
    split
    · simp
    · exact List.forall_mem_cons.mpr ⟨by decide, fun c c_in => digitUnbroken (fractions c c_in)⟩
  · unfold Numeral.power
    split
    · simp
    · refine List.forall_mem_cons.mpr ⟨by decide, List.forall_mem_cons.mpr ⟨by decide, ?_⟩⟩
      exact fun c c_in => digitUnbroken (exponents c c_in)

theorem numeralSpells {depth : Nat} {pieces : List String} {n : Numeral} {negative : Bool}
    {value : Json} (text : chars pieces = n.signed negative) (parts : n.parts negative = some value) :
    Spells depth pieces value := by
  obtain ⟨c, cs, whole⟩ := List.exists_cons_of_ne_nil n.some_digit
  have digit : c.isDigit := n.digits c (by simp [whole])
  have first : n.chars = c :: (cs ++ n.point ++ n.power) := by simp [Numeral.chars, whole]
  refine ⟨text ▸ numeralUnbroken n negative, ?_, fun fuel rest enough closes => ?_⟩
  · rw [text, Numeral.signed, first]
    split
    · exact ⟨'-', _, rfl, rfl, by decide⟩
    · exact ⟨c, _, rfl, digitSpaceless digit, digitApart digit _ rfl⟩
  · have read := n.reads closes negative
    rw [parts] at read
    have some_char : 0 < (chars pieces).length := by
      rw [text, Numeral.signed, first]
      simp
    obtain ⟨fuel, rfl⟩ := Nat.exists_eq_add_one.mpr (Nat.lt_of_lt_of_le some_char enough)
    rw [text, Numeral.signed]
    cases negative with
    | true => exact read
    | false =>
      rw [first] at read ⊢
      exact (digitStarts digit ..).trans read

theorem intSpells (depth : Nat) {n : Int} (low : -2 ^ 63 ≤ n) (high : n < 2 ^ 63) :
    Spells depth [toString n] (.integer n) := by
  refine numeralSpells ?_ (Numeral.intValue low high)
  rw [charsCons, charsNil, List.append_nil, Numeral.intIs]

theorem degreesSpells (depth : Nat) (units : Int32) :
    Spells depth [JsonLines.degreesText units] (.real (Location.degrees units)) := by
  obtain ⟨n, counts, text⟩ := Numeral.degreesIs units
  refine numeralSpells ?_ counts.value
  rw [charsCons, charsNil, List.append_nil, text]

theorem itemsStart {c : Char} (spaceless : isSpace c = false) (item : c ≠ ']') (fuel depth : Nat)
    (rest : List Char) : readValue (fuel + 1) (depth + 1) ('[' :: c :: rest) =
      (readItems fuel depth [] (c :: rest)).map fun (items, r) => (.array items, r) := by
  have digitless : Decimal.isDigit '[' = false := rfl
  rw [readValue, skipMark rfl]
  simp only [↓Char.isValue, Char.reduceEq, ↓reduceIte, digitless, Bool.false_eq_true,
    skipMark spaceless]
  split
  · rename_i closing
    cases closing
    exact absurd rfl item
  · rfl

section

variable {α : Type} {depth : Nat} {l : List α} {text : α → List String} {value : α → Json}
variable (each : ∀ a ∈ l, Spells depth (text a) (value a))

include each

theorem itemsRead (some_item : l ≠ []) {fuel : Nat}
    (enough : (chars (listed (l.map text))).length < fuel) (done : List Json) (rest : List Char) :
    readItems fuel depth done (chars (listed (l.map text)) ++ ']' :: rest) =
      some (done.reverse ++ l.map value, rest) := by
  induction l generalizing fuel done with
  | nil => exact absurd rfl some_item
  | cons a more ih =>
    obtain ⟨fuel, rfl⟩ := Nat.exists_eq_add_one.mpr (Nat.zero_lt_of_lt enough)
    have item := each a List.mem_cons_self
    cases more with
    | nil =>
      have only : listed ([a].map text) = text a := rfl
      rw [only] at enough ⊢
      have read := item.reads fuel (']' :: rest) (by omega) (closesMark (by simp) rest)
      have closing : skip (']' :: rest) = ']' :: rest := skipMark rfl rest
      simp only [readItems, read, closing]
      simp
    | cons b more =>
      rw [List.map_cons, List.map_cons, charsListed] at enough ⊢
      rw [List.length_append, List.length_cons] at enough
      have shorter : (chars (listed ((b :: more).map text))).length < fuel := by
        rw [List.map_cons]
        omega
      have others := ih (fun c c_in => each c (List.mem_cons_of_mem a c_in)) (by simp) shorter
        (value a :: done)
      have comma (cs : List Char) : skip (',' :: cs) = ',' :: cs := skipMark rfl cs
      have read := item.reads fuel (',' :: (chars (listed ((b :: more).map text)) ++ ']' :: rest))
        (by omega) (closesMark (by simp) _)
      rw [List.map_cons] at read others
      simp only [List.append_assoc, List.cons_append, readItems, read, comma, others]
      simp

theorem arraySpells : Spells (depth + 1) (JsonLines.array (l.map text)) (.array (l.map value)) := by
  have pieces : chars (JsonLines.array (l.map text)) =
      '[' :: (chars (listed (l.map text)) ++ [']']) := by
    simp [JsonLines.array]
  refine ⟨?_, ⟨'[', _, pieces, rfl, by decide⟩, fun fuel rest enough closes => ?_⟩
  · rw [pieces]
    exact enclosedUnbroken (by decide) (List.forall_mem_map.mpr fun a a_in => (each a a_in).unbroken)
  · rw [pieces, List.length_cons, List.length_append] at enough
    obtain ⟨fuel, rfl⟩ := Nat.exists_eq_add_one.mpr (Nat.zero_lt_of_lt enough)
    rw [pieces, List.cons_append, List.append_assoc]
    cases l with
    | nil => rfl
    | cons a more =>
      have read := itemsRead each (by simp) (Nat.le_of_succ_le_succ enough) [] rest
      obtain ⟨c, cs, first, spaceless, item⟩ := (each a List.mem_cons_self).starts
      obtain ⟨tail, listing⟩ := listedStarts (text a) (more.map text)
      rw [List.map_cons, listing, first] at read ⊢
      exact (itemsStart spaceless item ..).trans (congrArg _ read)

end

theorem fieldsStart (fuel depth : Nat) (rest : List Char) :
    readValue (fuel + 1) (depth + 1) ('\x7b' :: '"' :: rest) =
      (readFields fuel depth [] ('"' :: rest)).map fun (fields, r) => (.object fields, r) := rfl

theorem putNew {α : Type} {key : String} {fields : List (String × α)} (value : α)
    (new : key ∉ fields.map Prod.fst) : Keyed.put key value fields = fields ++ [(key, value)] := by
  induction fields with
  | nil => rfl
  | cons f rest ih =>
    rw [List.map_cons, List.mem_cons, not_or] at new
    rw [Keyed.put, if_neg (Ne.symm new.1), ih new.2, List.cons_append]

theorem fieldIs (name : String) (value : List String) (rest : List Char) :
    chars (field name value) ++ rest =
      '"' :: (name.toList.flatMap printChar ++ '"' :: ':' :: (chars value ++ rest)) := by
  simp [field, textPrinted]

theorem fieldUnbroken (name : String) {value : List String}
    (unbroken : ∀ c ∈ chars value, 0x20 ≤ c.toNat) :
    ∀ c ∈ chars (field name value), 0x20 ≤ c.toNat := by
  rw [field, charsAppend, charsCons]
  refine List.forall_mem_append.mpr ⟨(textSpells 0 name).unbroken, ?_⟩
  exact List.forall_mem_append.mpr ⟨by simp, unbroken⟩

theorem fieldReads {depth fuel : Nat} {name : String} {pieces : List String} {value : Json}
    (spells : Spells depth pieces value) (enough : (chars pieces).length ≤ fuel)
    (done : List (String × Json)) (rest : List Char) :
    readFields (fuel + 1) depth done (chars (field name pieces) ++ ',' :: rest) =
      readFields fuel depth (Keyed.put name value done) rest ∧
    readFields (fuel + 1) depth done (chars (field name pieces) ++ '\x7d' :: rest) =
      some (Keyed.put name value done, rest) := by
  have key := quotedReads name
  have quote (cs : List Char) : skip ('"' :: cs) = '"' :: cs := skipMark rfl cs
  have colon (cs : List Char) : skip (':' :: cs) = ':' :: cs := skipMark rfl cs
  constructor
  · have read := spells.reads fuel (',' :: rest) enough (closesMark (by simp) rest)
    have comma : skip (',' :: rest) = ',' :: rest := skipMark rfl rest
    simp only [fieldIs, readFields, quote, key, colon, read, comma]
  · have read := spells.reads fuel ('\x7d' :: rest) enough (closesMark (by simp) rest)
    have closing : skip ('\x7d' :: rest) = '\x7d' :: rest := skipMark rfl rest
    simp only [fieldIs, readFields, quote, key, colon, read, closing]

section

variable {α : Type} {depth : Nat} {l : List α} {name : α → String} {text : α → List String}
variable {value : α → Json} (each : ∀ a ∈ l, Spells depth (text a) (value a))

include each

theorem fieldsRead (some_field : l ≠ []) {fuel : Nat}
    (enough : (chars (listed (l.map fun a => field (name a) (text a)))).length < fuel)
    {done : List (String × Json)} (apart : (done.map Prod.fst ++ l.map name).Nodup) (rest : List Char) :
    readFields fuel depth done
      (chars (listed (l.map fun a => field (name a) (text a))) ++ '\x7d' :: rest) =
      some (done ++ l.map fun a => (name a, value a), rest) := by
  induction l generalizing fuel done with
  | nil => exact absurd rfl some_field
  | cons a more ih =>
    obtain ⟨fuel, rfl⟩ := Nat.exists_eq_add_one.mpr (Nat.zero_lt_of_lt enough)
    have item := each a List.mem_cons_self
    have put : Keyed.put (name a) (value a) done = done ++ [(name a, value a)] := by
      refine putNew _ fun known => ?_
      exact (List.nodup_append.mp apart).2.2 _ known _ List.mem_cons_self rfl
    have longer : (chars (text a)).length ≤ (chars (field (name a) (text a))).length := by
      rw [field, charsAppend, List.length_append, charsCons, List.length_append]
      omega
    cases more with
    | nil =>
      have only : listed ([a].map fun a => field (name a) (text a)) = field (name a) (text a) := rfl
      rw [only] at enough ⊢
      rw [(fieldReads item (by omega) done rest).2, put]
      rfl
    | cons b more =>
      rw [List.map_cons, List.map_cons, charsListed] at enough ⊢
      rw [List.length_append, List.length_cons] at enough
      have apart : ((done ++ [(name a, value a)]).map Prod.fst ++ (b :: more).map name).Nodup := by
        simpa using apart
      have shorter : (chars (listed ((b :: more).map fun a => field (name a) (text a)))).length <
          fuel := by
        rw [List.map_cons]
        omega
      have others := ih (fun c c_in => each c (List.mem_cons_of_mem a c_in)) (by simp) shorter apart
      rw [List.append_assoc, List.cons_append, (fieldReads item (by omega) done _).1, put]
      rw [List.map_cons] at others
      rw [others]
      simp

theorem objectSpells (apart : (l.map name).Nodup) :
    Spells (depth + 1) (JsonLines.object (l.map fun a => field (name a) (text a)))
      (.object (l.map fun a => (name a, value a))) := by
  have pieces : chars (JsonLines.object (l.map fun a => field (name a) (text a))) =
      '\x7b' :: (chars (listed (l.map fun a => field (name a) (text a))) ++ ['\x7d']) := by
    simp [JsonLines.object]
  refine ⟨?_, ⟨'\x7b', _, pieces, rfl, by decide⟩, fun fuel rest enough closes => ?_⟩
  · rw [pieces]
    exact enclosedUnbroken (by decide) (List.forall_mem_map.mpr fun a a_in =>
      fieldUnbroken (name a) (each a a_in).unbroken)
  · rw [pieces, List.length_cons, List.length_append] at enough
    obtain ⟨fuel, rfl⟩ := Nat.exists_eq_add_one.mpr (Nat.zero_lt_of_lt enough)
    rw [pieces, List.cons_append, List.append_assoc]
    cases l with
    | nil => rfl
    | cons a more =>
      have apart : (([] : List (String × Json)).map Prod.fst ++ (a :: more).map name).Nodup := apart
      have read := fieldsRead each (by simp) (Nat.le_of_succ_le_succ enough) apart rest
      obtain ⟨tail, listing⟩ := listedStarts (field (name a) (text a))
        (more.map fun a => field (name a) (text a))
      rw [List.map_cons, listing, List.append_assoc, fieldIs] at read ⊢
      exact (fieldsStart ..).trans (congrArg _ read)

end

theorem parseSpelled {pieces : List String} {value : Json} (spells : Spells maxDepth pieces value) :
    parse (String.join pieces) = some value := by
  have read := spells.reads (2 * (chars pieces).length + 2) [] (by omega) (by simp [Closes])
  rw [List.append_nil] at read
  simp only [parse, charsJoined, read]
  rfl

end Cutout.Json
