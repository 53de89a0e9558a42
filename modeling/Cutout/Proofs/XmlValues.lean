import Cutout.Json
import Cutout.Proofs.Decimals
import Cutout.Proofs.XmlReader
import Mathlib.Tactic.SplitIfs
/-! What readers take the values of attributes to be. A simple one replaces the five predefined
entities. A reader that conforms to XML 1.0 also normalises line ends and white space, so that a tab,
a line feed or a carriage return that stands in a value as it is becomes a space. -/
namespace Cutout.Xml

def expand (reference : List Char → Option Char) : Option (List Char) → List Char →
    Option (List Char)
  | none, [] => some []
  | some _, [] => none
  | none, c :: rest =>
    if c = '&' then expand reference (some []) rest
    else (expand reference none rest).map (c :: ·)
  | some name, c :: rest =>
    if c = ';' then
      (reference name).bind fun d => (expand reference none rest).map (d :: ·)
    else expand reference (some (name ++ [c])) rest

def predefined : List Char → Option Char
  | ['l', 't'] => some '<'
  | ['g', 't'] => some '>'
  | ['a', 'm', 'p'] => some '&'
  | ['a', 'p', 'o', 's'] => some '\''
  | ['q', 'u', 'o', 't'] => some '"'
  | _ => none

theorem expandChar {reference : List Char → Option Char}
    (known : ∀ name c, predefined name = some c → reference name = some c) (c : Char)
    (rest : List Char) : expand reference none (escapeChar c ++ rest) =
      (expand reference none rest).map (c :: ·) := by
  have lt := known ['l', 't'] '<' rfl
  have gt := known ['g', 't'] '>' rfl
  have amp := known ['a', 'm', 'p'] '&' rfl
  have apos := known ['a', 'p', 'o', 's'] '\'' rfl
  have quot := known ['q', 'u', 'o', 't'] '"' rfl
  unfold escapeChar
  split_ifs with less greater and apostrophe quote
  · simp [expand, lt, less]
  · simp [expand, gt, greater]
  · simp [expand, amp, and]
  · simp [expand, apos, apostrophe]
  · simp [expand, quot, quote]
  · simp [expand, and]

theorem expandEscaped {reference : List Char → Option Char}
    (known : ∀ name c, predefined name = some c → reference name = some c) (cs : List Char) :
    expand reference none (cs.flatMap escapeChar) = some cs := by
  induction cs with
  | nil => rfl
  | cons c rest ih => rw [List.flatMap_cons, expandChar known, ih, Option.map_some]

theorem escapeCharCases (c : Char) :
    escapeChar c = [c] ∨ c = '<' ∨ c = '>' ∨ c = '&' ∨ c = '\'' ∨ c = '"' := by
  unfold escapeChar
  split_ifs <;> simp_all

theorem notEscaped {c : Char} (special : c = '"' ∨ c = '<') (cs : List Char) :
    c ∉ cs.flatMap escapeChar := by
  intro c_in
  obtain ⟨d, -, c_in⟩ := List.mem_flatMap.mp c_in
  rcases escapeCharCases d with same | rfl | rfl | rfl | rfl | rfl
  · rw [same, List.mem_singleton] at c_in
    subst c_in
    rcases special with rfl | rfl <;> exact absurd same (by decide)
  all_goals rcases special with rfl | rfl <;> exact absurd c_in (by decide)

namespace Reader

def simple : Reader := ⟨id, expand predefined none⟩

theorem simpleReads (s : String) : Readable simple.value escaped id s :=
  ⟨notEscaped (.inl rfl) _, notEscaped (.inr rfl) _, expandEscaped (fun _ _ known => known) _⟩

end Reader

def lineEnds (afterReturn : Bool) : List Char → List Char
  | [] => []
  | c :: rest =>
    if c = '\r' then '\n' :: lineEnds true rest
    else if c = '\n' ∧ afterReturn then lineEnds false rest
    else c :: lineEnds false rest

def blanked (c : Char) : Char := if c = '\t' ∨ c = '\n' ∨ c = '\r' then ' ' else c

def normalised (s : String) : String := .ofList ((lineEnds false s.toList).map blanked)

def isBreak (c : Char) : Bool := c = '\n' || c = '\r'

theorem lineEndsOther {c : Char} (other : isBreak c = false) (b : Bool) (rest : List Char) :
    lineEnds b (c :: rest) = c :: lineEnds false rest := by
  simp only [isBreak, Bool.or_eq_false_iff, decide_eq_false_iff_not] at other
  simp [lineEnds, other]

theorem lineEndsUpTo {c : Char} (other : isBreak c = false) (b : Bool) (cs rest : List Char) :
    lineEnds b (cs ++ c :: rest) = lineEnds b cs ++ c :: lineEnds false rest := by
  induction cs generalizing b with
  | nil => exact lineEndsOther other b rest
  | cons d more ih =>
    simp only [List.cons_append, lineEnds, ih]
    split_ifs <;> rfl

theorem lineEndsPlain {cs : List Char} (plain : ∀ c ∈ cs, isBreak c = false) (rest : List Char) :
    lineEnds false (cs ++ rest) = cs ++ lineEnds false rest := by
  induction cs with
  | nil => rfl
  | cons c more ih =>
    have first := lineEndsOther (plain c List.mem_cons_self) false (more ++ rest)
    rw [List.cons_append, first, ih fun d d_in => plain d (List.mem_cons_of_mem c d_in)]
    rfl

theorem lineEndsMem {c : Char} {b : Bool} {cs : List Char} (c_in : c ∈ lineEnds b cs) :
    c = '\n' ∨ c ∈ cs := by
  induction cs generalizing b with
  | nil => cases c_in
  | cons d rest ih =>
    unfold lineEnds at c_in
    split at c_in
    · rcases List.mem_cons.mp c_in with here | later
      · exact .inl here
      · exact (ih later).imp_right (List.mem_cons_of_mem d)
    · split at c_in
      · exact (ih c_in).imp_right (List.mem_cons_of_mem d)
      · rcases List.mem_cons.mp c_in with rfl | later
        · exact .inr List.mem_cons_self
        · exact (ih later).imp_right (List.mem_cons_of_mem d)

theorem lineEndsUnchanged {cs : List Char} (plain : '\r' ∉ cs) : lineEnds false cs = cs := by
  induction cs with
  | nil => rfl
  | cons c rest ih =>
    simp only [List.mem_cons, not_or] at plain
    simp [lineEnds, Ne.symm plain.1, ih plain.2]

theorem normalisedIff (s : String) : normalised s = s ↔
    ∀ c ∈ s.toList, c ≠ '\t' ∧ c ≠ '\n' ∧ c ≠ '\r' := by
  constructor
  · intro same c c_in
    rw [← same, normalised, String.toList_ofList] at c_in
    obtain ⟨d, -, rfl⟩ := List.mem_map.mp c_in
    unfold blanked
    split_ifs with space
    · decide
    · simpa only [not_or] using space
  · intro plain
    have same : (lineEnds false s.toList).map blanked = s.toList := by
      rw [lineEndsUnchanged fun return_in => (plain '\r' return_in).2.2 rfl]
      refine List.map_congr_left (fun c c_in => ?_) |>.trans (List.map_id _)
      simp [blanked, plain c c_in]
    rw [normalised, same, String.ofList_toList]

theorem lineEndsChar {c : Char} (other : isBreak c = false) (b : Bool) (rest : List Char) :
    lineEnds b (escapeChar c ++ rest) = escapeChar c ++ lineEnds false rest := by
  rcases escapeCharCases c with same | rfl | rfl | rfl | rfl | rfl
  · rw [same]
    exact lineEndsOther other b rest
  all_goals rfl

theorem lineEndsEscaped (b : Bool) (cs : List Char) :
    lineEnds b (cs.flatMap escapeChar) = (lineEnds b cs).flatMap escapeChar := by
  induction cs generalizing b with
  | nil => rfl
  | cons c rest ih =>
    cases other : isBreak c with
    | true =>
      simp only [isBreak, Bool.or_eq_true, decide_eq_true_eq] at other
      have same : escapeChar c = [c] := by rcases other with rfl | rfl <;> rfl
      have feed : escapeChar '\n' = ['\n'] := rfl
      rw [List.flatMap_cons, same, List.singleton_append]
      simp only [lineEnds, ih]
      split_ifs <;> simp [same, feed]
    | false => rw [List.flatMap_cons, lineEndsChar other, ih, lineEndsOther other, List.flatMap_cons]

theorem blankedChar (c : Char) : (escapeChar c).map blanked = escapeChar (blanked c) := by
  rcases escapeCharCases c with same | rfl | rfl | rfl | rfl | rfl
  · rw [same, List.map_singleton]
    by_cases space : c = '\t' ∨ c = '\n' ∨ c = '\r'
    · rw [blanked, if_pos space]
      rfl
    · rw [blanked, if_neg space, same]
  all_goals rfl

theorem blankedEscaped (cs : List Char) :
    (cs.flatMap escapeChar).map blanked = (cs.map blanked).flatMap escapeChar := by
  simp only [List.map_flatMap, List.flatMap_map, blankedChar]

def isAllowed (c : Char) : Bool :=
  let n := c.toNat
  n = 0x9 || n = 0xa || n = 0xd || (0x20 ≤ n && n ≤ 0xd7ff) || (0xe000 ≤ n && n ≤ 0xfffd) ||
  0x10000 ≤ n

def Allowed (s : String) : Prop := ∀ c ∈ s.toList, isAllowed c

instance (s : String) : Decidable (Allowed s) := List.decidableBAll _ s.toList

theorem allowedChar {c : Char} (allowed : isAllowed c) : (escapeChar c).all isAllowed := by
  rcases escapeCharCases c with same | rfl | rfl | rfl | rfl | rfl
  · rw [same, List.all_cons, allowed]
    rfl
  all_goals rfl

def numbered (base : Nat) (digits : List Char) : Option Char := do
  let values ← digits.mapM Json.hexValue?
  if values.isEmpty || values.any (base ≤ ·) then none
  else
    let n := values.foldl (fun n d => base * n + d) 0
    if n.isValidChar && isAllowed (.ofNat n) then some (.ofNat n) else none

def byNumber : List Char → Option Char
  | '#' :: 'x' :: digits => numbered 16 digits
  | '#' :: digits => numbered 10 digits
  | _ => none

def reference (name : List Char) : Option Char := (predefined name).or (byNumber name)

namespace Reader

def conforming : Reader where
  ends := lineEnds false
  value raw := if raw.all isAllowed then expand reference none (raw.map blanked) else none

theorem conformingReads {s : String} (allowed : Allowed s) :
    Readable conforming.value (fun s => lineEnds false (escaped s)) normalised s := by
  have kept {c : Char} (c_in : c ∈ lineEnds false (escaped s)) : c = '\n' ∨ c ∈ escaped s :=
    lineEndsMem c_in
  refine ⟨fun quote => ?_, fun less => ?_, ?_⟩
  · exact notEscaped (.inl rfl) _ ((kept quote).resolve_left (by decide))
  · exact notEscaped (.inr rfl) _ ((kept less).resolve_left (by decide))
  · have all : (lineEnds false (escaped s)).all isAllowed := by
      refine List.all_eq_true.mpr fun c c_in => ?_
      rcases kept c_in with rfl | c_in
      · rfl
      · obtain ⟨d, d_in, c_in⟩ := List.mem_flatMap.mp c_in
        exact List.all_eq_true.mp (allowedChar (allowed d d_in)) c c_in
    have known (name : List Char) (c : Char) (standard : predefined name = some c) :
        reference name = some c := by
      rw [reference, standard, Option.some_or]
    simp only [conforming, all, if_true]
    rw [escaped, lineEndsEscaped, blankedEscaped, expandEscaped known, normalised,
      String.toList_ofList]

example : conforming.value "a\tb&#9;c".toList = some "a b\tc".toList := by decide

def Becomes (cs ds : List Char) : Prop :=
  ∀ rest, lineEnds false (cs ++ rest) = ds ++ lineEnds false rest

namespace Becomes

theorem append {as bs cs ds : List Char} (first : Becomes as bs) (second : Becomes cs ds) :
    Becomes (as ++ cs) (bs ++ ds) := by
  intro rest
  rw [List.append_assoc, first, second, List.append_assoc]

theorem plain {cs : List Char} (plain : ∀ c ∈ cs, isBreak c = false) : Becomes cs cs :=
  lineEndsPlain plain

theorem one {c : Char} (other : isBreak c = false) : Becomes [c] [c] := lineEndsOther other false

theorem ofName {s : String} (name : isName s) : Becomes s.toList s.toList := by
  have letter (c : Char) (letter : isNameChar c) : isBreak c = false := by
    rw [Bool.eq_false_iff]
    intro line_end
    simp only [isBreak, Bool.or_eq_true, decide_eq_true_eq] at line_end
    rcases line_end with rfl | rfl <;> exact absurd letter (by decide)
  obtain ⟨c, rest, text, first, more⟩ := nameParts name
  rw [List.all_eq_true] at more
  rw [text]
  exact plain (List.forall_mem_cons.mpr
    ⟨letter c (by simp [isNameChar, first]), fun d d_in => letter d (more d d_in)⟩)

variable (f : String → List Char)

theorem ofAttribute {a : String × String} (name : isName a.1) :
    Becomes (rawAttribute f a) (rawAttribute (fun s => lineEnds false (f s)) a) := by
  have space : Becomes [' '] [' '] := one rfl
  have equals : Becomes ['='] ['='] := one rfl
  have quoted : Becomes ('"' :: f a.2 ++ ['"']) ('"' :: lineEnds false (f a.2) ++ ['"']) := by
    intro rest
    have open_quote := lineEndsOther (c := '"') rfl false (f a.2 ++ '"' :: rest)
    have close_quote := lineEndsUpTo (c := '"') rfl false (f a.2) rest
    simpa [close_quote] using open_quote
  simpa [rawAttribute] using space.append ((ofName name).append (equals.append quoted))

theorem ofTag {t : Tag} (name : isName t.name) (names : ∀ a ∈ t.attributes, isName a.1) :
    Becomes (rawTag f t) (rawTag (fun s => lineEnds false (f s)) t) := by
  have attributes {as : List (String × String)} (names : ∀ a ∈ as, isName a.1) :
      Becomes (as.flatMap (rawAttribute f))
        (as.flatMap (rawAttribute fun s => lineEnds false (f s))) := by
    induction as with
    | nil => exact plain (by simp)
    | cons a rest ih =>
      exact (ofAttribute f (names a (by simp))).append (ih fun b b_in => names b (by simp [b_in]))
  exact (ofName name).append (attributes names)

variable {value : List Char → Option (List Char)} {g : String → String} {h : String → List Char}

theorem ofMarkup {m : Markup} (readable : m.Readable value h g) :
    Becomes (rawMarkup f m) (rawMarkup (fun s => lineEnds false (f s)) m) := by
  have less : Becomes ['<'] ['<'] := one rfl
  have slash : Becomes ['/'] ['/'] := one rfl
  have greater : Becomes ['>'] ['>'] := one rfl
  cases m with
  | opening t => exact (less.append (ofTag f readable.name readable.names)).append greater
  | closing name =>
    exact (less.append (slash.append (ofName readable))).append greater
  | single t =>
    exact (less.append (ofTag f readable.name readable.names)).append (slash.append greater)

theorem ofLines {ms : List Markup} (readable : ∀ m ∈ ms, m.Readable value h g) (depth : Nat) :
    Becomes (rawLines f depth ms) (rawLines (fun s => lineEnds false (f s)) depth ms) := by
  induction ms generalizing depth with
  | nil => exact plain (by simp [rawLines])
  | cons m rest ih =>
    have feed : Becomes ['\n'] ['\n'] := fun _ => rfl
    have spaces (n : Nat) : Becomes (List.replicate n ' ') (List.replicate n ' ') := by
      refine plain fun c c_in => ?_
      rw [List.eq_of_mem_replicate c_in]
      rfl
    have markup := ofMarkup f (readable m (by simp))
    have more := ih (fun n n_in => readable n (by simp [n_in])) (m.depthAfter depth)
    exact ((feed.append (spaces _)).append markup).append more

end Becomes
end Reader
end Cutout.Xml
