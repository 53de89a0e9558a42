import Cutout.Xml
/-! A reader of documents that have elements with double-quoted attributes and nothing between them
but white space. It goes through the text once, a character at a time, and then nests the tags. What
is laid out by `lay` comes back as it was, whatever the values of the attributes are. -/
namespace Cutout.Xml

def isSpace (c : Char) : Bool := c = ' ' || c = '\n' || c = '\r' || c = '\t'

def isNameStart (c : Char) : Bool := c.isAlpha || c = '_' || c = ':'

def isNameChar (c : Char) : Bool := isNameStart c || c.isDigit || c = '-' || c = '.'

inductive Mode where
  | between
  | opened
  | closing (name : List Char)
  | name (name : List Char)
  | gap (tag : Tag)
  | attribute (tag : Tag) (name : List Char)
  | equals (tag : Tag) (name : String)
  | value (tag : Tag) (name : String) (raw : List Char)
  | quoted (tag : Tag)
  | slash (tag : Tag)
  deriving DecidableEq, Repr

structure Scan where
  mode : Mode
  found : List Markup
  deriving DecidableEq, Repr

namespace Scan

def go (s : Scan) (mode : Mode) : Option Scan := some { s with mode }

def find (s : Scan) (m : Markup) : Option Scan := some ⟨.between, s.found ++ [m]⟩

def follow (s : Scan) (tag : Tag) (c : Char) : Option Scan :=
  if isSpace c then s.go (.gap tag)
  else if c = '/' then s.go (.slash tag)
  else if c = '>' then s.find (.opening tag)
  else none

def step (value : List Char → Option (List Char)) (s : Scan) (c : Char) : Option Scan :=
  match s.mode with
  | .between => if isSpace c then some s else if c = '<' then s.go .opened else none
  | .opened =>
    if c = '/' then s.go (.closing []) else if isNameStart c then s.go (.name [c]) else none
  | .closing name =>
    if isNameChar c then s.go (.closing (name ++ [c]))
    else if c = '>' then s.find (.closing (.ofList name)) else none
  | .name name =>
    if isNameChar c then s.go (.name (name ++ [c])) else s.follow ⟨.ofList name, []⟩ c
  | .gap tag => if isNameStart c then s.go (.attribute tag [c]) else s.follow tag c
  | .attribute tag name =>
    if isNameChar c then s.go (.attribute tag (name ++ [c]))
    else if c = '=' ∧ .ofList name ∉ tag.attributes.map Prod.fst then
      s.go (.equals tag (.ofList name))
    else none
  | .equals tag name => if c = '"' then s.go (.value tag name []) else none
  | .value tag name raw =>
    if c = '"' then
      (value raw).bind fun v =>
        s.go (.quoted { tag with attributes := tag.attributes ++ [(name, .ofList v)] })
    else if c = '<' then none
    else s.go (.value tag name (raw ++ [c]))
  | .quoted tag => s.follow tag c
  | .slash tag => if c = '>' then s.find (.single tag) else none

end Scan

inductive Tree where
  | node (tag : Tag) (children : List Tree)
  deriving Repr

structure Nest where
  around : List (Tag × List Tree)
  root : Option Tree

namespace Nest

def add (n : Nest) (t : Tree) : Option Nest :=
  match n.around, n.root with
  | (tag, children) :: rest, root => some ⟨(tag, children ++ [t]) :: rest, root⟩
  | [], none => some ⟨[], some t⟩
  | [], some _ => none

def step (n : Nest) : Markup → Option Nest
  | .opening tag => if n.root.isSome then none else some { n with around := (tag, []) :: n.around }
  | .single tag => n.add (.node tag [])
  | .closing name =>
    match n.around with
    | (tag, children) :: rest =>
      if tag.name = name then { n with around := rest }.add (.node tag children) else none
    | [] => none

def root? (n : Nest) : Option Tree := if n.around.isEmpty then n.root else none

end Nest

structure Reader where
  ends : List Char → List Char
  value : List Char → Option (List Char)

namespace Reader

def declared : List Char := (String.join declaration).toList

def tree? (r : Reader) (text : String) : Option Tree := do
  let cs := r.ends text.toList
  if declared.isPrefixOf cs then
    let s ← (cs.drop declared.length).foldlM (Scan.step r.value) ⟨.between, []⟩
    if s.mode = .between then (← s.found.foldlM Nest.step ⟨[], none⟩).root? else none
  else none

end Reader

def Reads (value : List Char → Option (List Char)) (cs : List Char) (s t : Scan) : Prop :=
  cs.foldlM (Scan.step value) s = some t

namespace Reads

variable {value : List Char → Option (List Char)}

theorem nil (s : Scan) : Reads value [] s s := rfl

theorem cons {c : Char} {cs : List Char} {s t u : Scan} (first : s.step value c = some t)
    (rest : Reads value cs t u) : Reads value (c :: cs) s u := by
  rw [Reads, List.foldlM_cons, first]
  exact rest

theorem append {as bs : List Char} {s t u : Scan} (first : Reads value as s t)
    (rest : Reads value bs t u) : Reads value (as ++ bs) s u := by
  rw [Reads, List.foldlM_append, first]
  exact rest

theorem gather {p : Char → Bool} (s : List Char → Scan)
    (one : ∀ cs c, p c → (s cs).step value c = some (s (cs ++ [c]))) {cs : List Char}
    (all : cs.all p) (front : List Char) : Reads value cs (s front) (s (front ++ cs)) := by
  induction cs generalizing front with
  | nil => simpa using nil (s front)
  | cons c rest ih =>
    rw [List.all_cons, Bool.and_eq_true] at all
    have step := one front c all.1
    have more := ih all.2 (front ++ [c])
    rw [List.append_assoc] at more
    exact cons step more

end Reads

def isName (s : String) : Bool :=
  match s.toList with
  | [] => false
  | c :: rest => isNameStart c && rest.all isNameChar

def rawAttribute (f : String → List Char) (a : String × String) : List Char :=
  ' ' :: a.1.toList ++ '=' :: '"' :: (f a.2 ++ ['"'])

def rawTag (f : String → List Char) (t : Tag) : List Char :=
  t.name.toList ++ t.attributes.flatMap (rawAttribute f)

def rawMarkup (f : String → List Char) : Markup → List Char
  | .opening t => '<' :: rawTag f t ++ ['>']
  | .closing name => '<' :: '/' :: name.toList ++ ['>']
  | .single t => '<' :: rawTag f t ++ ['/', '>']

def rawLines (f : String → List Char) : Nat → List Markup → List Char
  | _, [] => []
  | depth, m :: rest =>
    '\n' :: List.replicate (2 * m.depth depth) ' ' ++ rawMarkup f m ++
      rawLines f (m.depthAfter depth) rest

def Tag.mapValues (g : String → String) (t : Tag) : Tag :=
  { t with attributes := t.attributes.map fun a => (a.1, g a.2) }

def Markup.mapValues (g : String → String) : Markup → Markup
  | .opening t => .opening (t.mapValues g)
  | .closing name => .closing name
  | .single t => .single (t.mapValues g)

structure Readable (value : List Char → Option (List Char)) (f : String → List Char)
    (g : String → String) (s : String) : Prop where
  quote : '"' ∉ f s
  less : '<' ∉ f s
  read : value (f s) = some (g s).toList

structure Tag.Readable (value : List Char → Option (List Char)) (f : String → List Char)
    (g : String → String) (t : Tag) : Prop where
  name : isName t.name
  names : ∀ a ∈ t.attributes, isName a.1
  apart : (t.attributes.map Prod.fst).Nodup
  values : ∀ a ∈ t.attributes, Xml.Readable value f g a.2

theorem Tag.Readable.ofKeys {value : List Char → Option (List Char)} {f : String → List Char}
    {g : String → String} {t : Tag} (keys : List String) (name : isName t.name)
    (known : (t.attributes.map Prod.fst).Sublist keys) (proper : keys.all isName ∧ keys.Nodup)
    (values : ∀ a ∈ t.attributes, Xml.Readable value f g a.2) : t.Readable value f g := by
  refine ⟨name, fun a a_in => ?_, known.nodup proper.2, values⟩
  exact List.all_eq_true.mp proper.1 a.1 (known.subset (List.mem_map_of_mem a_in))

def Markup.Readable (value : List Char → Option (List Char)) (f : String → List Char)
    (g : String → String) : Markup → Prop
  | .opening t => t.Readable value f g
  | .closing name => isName name
  | .single t => t.Readable value f g

theorem nameParts {s : String} (name : isName s) : ∃ c rest, s.toList = c :: rest ∧
    isNameStart c ∧ rest.all isNameChar := by
  unfold isName at name
  split at name
  · cases name
  · rename_i c rest text
    rw [Bool.and_eq_true] at name
    exact ⟨c, rest, text, name⟩

section

variable {value : List Char → Option (List Char)} {f : String → List Char} {g : String → String}

def Scan.Ends (value : List Char → Option (List Char)) (s : Scan) (t : Tag) : Prop :=
  ∀ c, isNameChar c = false → s.step value c = s.follow t c

theorem attributeReads {s : Scan} {t : Tag} (ends : s.Ends value t) {a : String × String}
    (name : isName a.1) (fresh : a.1 ∉ t.attributes.map Prod.fst) (readable : Readable value f g a.2) :
    Reads value (rawAttribute f a) s
      ⟨.quoted { t with attributes := t.attributes ++ [(a.1, g a.2)] }, s.found⟩ := by
  obtain ⟨c, rest, text, first, more⟩ := nameParts name
  have whole : String.ofList (c :: rest) = a.1 := by rw [← text, String.ofList_toList]
  have gap : s.step value ' ' = some ⟨.gap t, s.found⟩ := ends ' ' (by decide)
  have start : Scan.step value ⟨.gap t, s.found⟩ c = some ⟨.attribute t [c], s.found⟩ := by
    simp [Scan.step, first, Scan.go]
  have gathered : Reads value rest ⟨.attribute t [c], s.found⟩ ⟨.attribute t (c :: rest), s.found⟩ := by
    refine Reads.gather (fun cs => ⟨.attribute t cs, s.found⟩) ?_ more [c]
    intro cs d letter
    simp [Scan.step, letter, Scan.go]
  have equals : Scan.step value ⟨.attribute t (c :: rest), s.found⟩ '=' =
      some ⟨.equals t a.1, s.found⟩ := by
    have other : isNameChar '=' = false := by decide
    simp only [Scan.step, other, whole, fresh]
    rfl
  have quote : Scan.step value ⟨.equals t a.1, s.found⟩ '"' = some ⟨.value t a.1 [], s.found⟩ := rfl
  have raw : Reads value (f a.2) ⟨.value t a.1 [], s.found⟩ ⟨.value t a.1 (f a.2), s.found⟩ := by
    refine Reads.gather (p := fun d => d ≠ '"' ∧ d ≠ '<') (fun cs => ⟨.value t a.1 cs, s.found⟩) ?_ ?_ []
    · intro cs d plain
      simp only [decide_eq_true_eq] at plain
      simp [Scan.step, plain, Scan.go]
    · simp only [List.all_eq_true, decide_eq_true_eq]
      intro d d_in
      exact ⟨fun same => readable.quote (same ▸ d_in), fun same => readable.less (same ▸ d_in)⟩
  have closed : Scan.step value ⟨.value t a.1 (f a.2), s.found⟩ '"' = some
      ⟨.quoted { t with attributes := t.attributes ++ [(a.1, g a.2)] }, s.found⟩ := by
    simp [Scan.step, readable.read, Scan.go]
  rw [rawAttribute, text]
  exact .cons gap <| .cons start <| gathered.append <| .cons equals <| .cons quote <|
    raw.append <| .cons closed <| .nil _

theorem attributesRead {attributes : List (String × String)} {s : Scan} {t : Tag}
    (ends : s.Ends value t) (names : ∀ a ∈ attributes, isName a.1)
    (apart : ((t.attributes ++ attributes).map Prod.fst).Nodup)
    (values : ∀ a ∈ attributes, Readable value f g a.2) :
    ∃ mode, Reads value (attributes.flatMap (rawAttribute f)) s ⟨mode, s.found⟩ ∧
      Scan.Ends value ⟨mode, s.found⟩
        { t with attributes := t.attributes ++ attributes.map fun a => (a.1, g a.2) } := by
  induction attributes generalizing s t with
  | nil => exact ⟨s.mode, .nil s, by simpa using ends⟩
  | cons a rest ih =>
    have fresh : a.1 ∉ t.attributes.map Prod.fst := by
      rw [List.map_append, List.nodup_append] at apart
      intro known
      exact apart.2.2 a.1 known a.1 (by simp) rfl
    have first := attributeReads ends (names a (by simp)) fresh (values a (by simp))
    obtain ⟨mode, more, ended⟩ := ih
      (s := ⟨.quoted { t with attributes := t.attributes ++ [(a.1, g a.2)] }, s.found⟩)
      (fun _ _ => rfl) (fun b b_in => names b (by simp [b_in])) (by simpa using apart)
      (fun b b_in => values b (by simp [b_in]))
    exact ⟨mode, first.append more, by simpa using ended⟩

theorem tagReads {t : Tag} (readable : t.Readable value f g) (found : List Markup) :
    ∃ mode, Reads value (rawTag f t) ⟨.opened, found⟩ ⟨mode, found⟩ ∧
      Scan.Ends value ⟨mode, found⟩ (t.mapValues g) := by
  obtain ⟨c, rest, text, first, more⟩ := nameParts readable.name
  have whole : String.ofList (c :: rest) = t.name := by rw [← text, String.ofList_toList]
  have start : Scan.step value ⟨.opened, found⟩ c = some ⟨.name [c], found⟩ := by
    have other : c ≠ '/' := by
      rintro rfl
      exact absurd first (by decide)
    simp [Scan.step, other, first, Scan.go]
  have gathered : Reads value rest ⟨.name [c], found⟩ ⟨.name (c :: rest), found⟩ := by
    refine Reads.gather (fun cs => ⟨.name cs, found⟩) ?_ more [c]
    intro cs d letter
    simp [Scan.step, letter, Scan.go]
  have ends : Scan.Ends value ⟨.name (c :: rest), found⟩ ⟨t.name, []⟩ := by
    intro d other
    simp only [Scan.step, other, whole]
    rfl
  obtain ⟨mode, attributes, ended⟩ := attributesRead ends readable.names readable.apart readable.values
  rw [rawTag, text]
  exact ⟨mode, (Reads.cons start gathered).append attributes, ended⟩

theorem markupReads {m : Markup} (readable : m.Readable value f g) (found : List Markup) :
    Reads value (rawMarkup f m) ⟨.between, found⟩ ⟨.between, found ++ [m.mapValues g]⟩ := by
  have less : Scan.step value ⟨.between, found⟩ '<' = some ⟨.opened, found⟩ := rfl
  cases m with
  | opening t =>
    obtain ⟨mode, tag, ends⟩ := tagReads readable found
    have greater := ends '>' (by decide)
    exact .cons less (tag.append (.cons greater (.nil _)))
  | single t =>
    obtain ⟨mode, tag, ends⟩ := tagReads readable found
    have slash := ends '/' (by decide)
    exact .cons less (tag.append (.cons slash (.cons rfl (.nil _))))
  | closing name =>
    obtain ⟨c, rest, text, first, more⟩ := nameParts readable
    have letters : name.toList.all isNameChar := by
      simp [text, more, isNameChar, first]
    have slash : Scan.step value ⟨.opened, found⟩ '/' = some ⟨.closing [], found⟩ := rfl
    have gathered : Reads value name.toList ⟨.closing [], found⟩ ⟨.closing name.toList, found⟩ := by
      refine Reads.gather (fun cs => ⟨.closing cs, found⟩) ?_ letters []
      intro cs d letter
      simp [Scan.step, letter, Scan.go]
    have greater : Scan.step value ⟨.closing name.toList, found⟩ '>' =
        some ⟨.between, found ++ [.closing name]⟩ := by
      rw [← String.ofList_toList (s := name), String.toList_ofList]
      rfl
    exact .cons less (.cons slash (gathered.append (.cons greater (.nil _))))

theorem linesRead {ms : List Markup} (readable : ∀ m ∈ ms, m.Readable value f g) (depth : Nat)
    (found : List Markup) : Reads value (rawLines f depth ms) ⟨.between, found⟩
      ⟨.between, found ++ ms.map (.mapValues g)⟩ := by
  induction ms generalizing depth found with
  | nil => simpa [rawLines] using Reads.nil _
  | cons m rest ih =>
    have indent (n : Nat) : Reads value (List.replicate n ' ') ⟨.between, found⟩ ⟨.between, found⟩ :=
      Reads.gather (p := (· = ' ')) (fun _ => ⟨.between, found⟩)
        (by intro cs c space; simp_all [Scan.step, isSpace]) (by simp) []
    have line := markupReads (readable m (by simp)) found
    have more := ih (fun n n_in => readable n (by simp [n_in])) (m.depthAfter depth)
      (found ++ [m.mapValues g])
    rw [List.append_assoc] at more
    exact ((Reads.cons rfl (indent _)).append line).append more

end

def escaped (s : String) : List Char := s.toList.flatMap escapeChar

theorem attributeTextIs (a : String × String) : (attributeText a).toList = rawAttribute escaped a := by
  simp [attributeText, rawAttribute, escape, escaped]

theorem tagTextIs (t : Tag) : t.text.toList = rawTag escaped t := by
  simp [Tag.text, rawTag, List.flatMap_map, attributeTextIs]

theorem piecesAre (m : Markup) : m.pieces.flatMap String.toList = rawMarkup escaped m := by
  cases m <;> simp [Markup.pieces, rawMarkup, tagTextIs]

theorem layIs (depth : Nat) (ms : List Markup) :
    (lay depth ms).flatMap String.toList = rawLines escaped depth ms := by
  induction ms generalizing depth with
  | nil => rfl
  | cons m rest ih => simp [lay, rawLines, piecesAre, ih, indent]

end Cutout.Xml
