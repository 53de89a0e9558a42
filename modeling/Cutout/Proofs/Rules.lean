import Cutout.TagRules
import Mathlib.Data.List.Basic
/-! Lists of tag rules and their items. An item stands between commas and asks for a key, or for a key and
a value. Several lists have the items of all of them joined by commas, and what is printed of rules is read
back as the same rules. -/
namespace Cutout

section Splits
variable {separator : Char} {text : List Char}

theorem splitOnceNone : splitOnce separator text = none ↔ separator ∉ text := by
  induction text with
  | nil => simp [splitOnce]
  | cons c cs ih =>
    rw [splitOnce, List.mem_cons, not_or, ← ih]
    split
    · rename_i here
      simp [here]
    · rename_i other
      rw [Option.map_eq_none_iff, and_iff_right (Ne.symm other)]

theorem splitOnceSome {before after : List Char} : splitOnce separator text = some (before, after) ↔
    separator ∉ before ∧ text = before ++ separator :: after := by
  induction text generalizing before with
  | nil => simp [splitOnce]
  | cons c cs ih =>
    rw [splitOnce]
    cases before with
    | nil =>
      split
      · rename_i here
        simp [here]
      · rename_i other
        simp [other]
    | cons b before =>
      rw [List.cons_append, List.cons.injEq, List.mem_cons, not_or]
      split
      · rename_i here
        simp only [Option.some.injEq, Prod.mk.injEq, reduceCtorEq, false_and, false_iff, not_and]
        intro free same
        exact absurd (here.symm.trans same) free.1
      · rename_i other
        simp only [Option.map_eq_some_iff, Prod.exists, Prod.mk.injEq, List.cons.injEq]
        constructor
        · rintro ⟨_, _, found, ⟨rfl, rfl⟩, rfl⟩
          obtain ⟨free, split⟩ := ih.mp found
          exact ⟨⟨Ne.symm other, free⟩, rfl, split⟩
        · rintro ⟨⟨_, free⟩, rfl, split⟩
          exact ⟨before, after, ih.mpr ⟨free, split⟩, ⟨rfl, rfl⟩, rfl⟩

theorem piecesIs (separator : Char) (text : List Char) :
    pieces separator text = text.splitOn separator := by
  induction text with
  | nil => rfl
  | cons c cs ih =>
    rw [pieces, ih, List.splitOn_cons_eq_if_modifyHead]
    cases split : cs.splitOn separator with
    | nil => exact absurd split (List.splitOn_ne_nil _ _)
    | cons p ps => simp only [beq_iff_eq, List.modifyHead_cons]

theorem piecesFree : ∀ piece ∈ text.splitOn separator, separator ∉ piece := by
  induction text with
  | nil => simp
  | cons c cs ih =>
    rw [List.splitOn_cons_eq_if_modifyHead]
    cases split : cs.splitOn separator with
    | nil => exact absurd split (List.splitOn_ne_nil _ _)
    | cons p ps =>
      rw [split] at ih
      obtain ⟨first, others⟩ := List.forall_mem_cons.mp ih
      by_cases same : c = separator
      · rw [if_pos (beq_iff_eq.mpr same)]
        exact List.forall_mem_cons.mpr ⟨List.not_mem_nil, ih⟩
      · rw [if_neg (mt beq_iff_eq.mp same), List.modifyHead_cons]
        exact List.forall_mem_cons.mpr ⟨mt List.mem_cons.mp (not_or.mpr ⟨Ne.symm same, first⟩), others⟩

theorem piecesJoined {texts : List (List Char)} (some_text : texts ≠ []) :
    ([separator].intercalate texts).splitOn separator =
      texts.flatMap fun text => text.splitOn separator := by
  induction texts with
  | nil => exact absurd rfl some_text
  | cons first rest ih =>
    cases rest with
    | nil => simp
    | cons second rest =>
      rw [List.intercalate_cons_cons, List.append_assoc, List.singleton_append,
        List.splitOn_append_cons_self, ih (List.cons_ne_nil _ _), List.flatMap_cons (x := first)]

end Splits

def IsItem (list item : String) : Prop :=
  item ≠ "" ∧ ',' ∉ item.toList ∧
    ∃ earlier later : List String, list = ",".intercalate (earlier ++ item :: later)

theorem listItemsIs (list : String) : listItems list =
    ((list.toList.splitOn ',').filter fun item => !item.isEmpty).map String.ofList := by
  rw [listItems, piecesIs]

theorem itemsJoined (lists : List String) :
    listItems (",".intercalate lists) = lists.flatMap listItems := by
  cases lists with
  | nil => rfl
  | cons first rest =>
    have some_text : (first :: rest).map String.toList ≠ [] := List.cons_ne_nil _ _
    have comma : ",".toList = [','] := rfl
    rw [listItemsIs, String.toList_intercalate, comma, piecesJoined some_text, List.flatMap_map,
      List.filter_flatMap, List.map_flatMap, funext listItemsIs]

theorem itemsAlone {item : String} (some_char : item ≠ "") (free : ',' ∉ item.toList) :
    listItems item = [item] := by
  have full : (!item.toList.isEmpty) = true := by simpa using some_char
  have kept : [item.toList].filter (fun item => !item.isEmpty) = [item.toList] :=
    List.filter_cons_of_pos full
  rw [listItemsIs, List.splitOn_eq_singleton free, kept, List.map_singleton, String.ofList_toList]

theorem listRejoined (list : String) :
    list = ",".intercalate ((list.toList.splitOn ',').map String.ofList) := by
  have back : (list.toList.splitOn ',').map (String.toList ∘ String.ofList) =
      list.toList.splitOn ',' := by
    simp [Function.comp_def]
  rw [← String.toList_inj, String.toList_intercalate, List.map_map, back]
  exact (List.intercalate_splitOn ',').symm

theorem memItems {list item : String} : item ∈ listItems list ↔ IsItem list item := by
  constructor
  · intro mem
    rw [listItemsIs] at mem
    obtain ⟨piece, kept, rfl⟩ := List.mem_map.mp mem
    obtain ⟨mem, full⟩ := List.mem_filter.mp kept
    obtain ⟨earlier, later, split⟩ := List.append_of_mem mem
    refine ⟨by simpa using full, ?_, earlier.map .ofList, later.map .ofList, ?_⟩
    · rw [String.toList_ofList]
      exact piecesFree piece mem
    · have joined := listRejoined list
      rwa [split, List.map_append, List.map_cons] at joined
  · rintro ⟨some_char, free, earlier, later, rfl⟩
    rw [itemsJoined, List.flatMap_append, List.flatMap_cons, itemsAlone some_char free]
    simp

def Asks (separator : Char) (item key value : String) : Prop :=
  (separator ∉ item.toList ∧ item = key) ∨
    (separator ∉ key.toList ∧ item.toList = key.toList ++ separator :: value.toList)

namespace TagRules

theorem ruleAccepts {separator : Char} {item key value : String} :
    (TagRule.ofItem separator item).accepts key value = true ↔ Asks separator item key value := by
  rw [TagRule.ofItem, Asks]
  cases split : splitOnce separator item.toList with
  | none =>
    have plain := splitOnceNone.mp split
    have whole : ¬ (item.toList = key.toList ++ separator :: value.toList) := fun same =>
      plain (same ▸ by simp)
    simp [TagRule.accepts, plain, whole]
  | some parts =>
    obtain ⟨before, after⟩ := parts
    obtain ⟨free, whole⟩ := splitOnceSome.mp split
    have mem : separator ∈ item.toList := whole ▸ by simp
    have same : (separator ∉ key.toList ∧ item.toList = key.toList ++ separator :: value.toList) ↔
        (before, after) = (key.toList, value.toList) := by
      rw [← splitOnceSome, split, Option.some_inj]
    simp [TagRule.accepts, mem, same, ← String.toList_inj]

def addAll (f : TagRules) (separator : Char) (lists : List String) : TagRules :=
  lists.foldl (fun f list => f.add list separator) f

theorem addAllIs (f : TagRules) (separator : Char) (lists : List String) :
    f.addAll separator lists = ⟨f.rules ++ (lists.flatMap listItems).map (.ofItem separator),
      f.items ++ lists.flatMap listItems⟩ := by
  induction lists generalizing f with
  | nil => simp [addAll]
  | cons list rest ih =>
    have step : f.addAll separator (list :: rest) = (f.add list separator).addAll separator rest := rfl
    rw [step, ih, add, List.flatMap_cons, List.map_append, List.append_assoc, List.append_assoc]

theorem parseIs (list : String) (separator : Char) :
    parse list separator = ⟨(listItems list).map (.ofItem separator), listItems list⟩ := rfl

theorem matchesIff {separator : Char} {lists : List String} {tags : Tags} :
    ((∅ : TagRules).addAll separator lists).matchesAny tags = true ↔
      ∃ tag ∈ tags, ∃ list ∈ lists, ∃ item, IsItem list item ∧ Asks separator item tag.1 tag.2 := by
  rw [addAllIs, matchesAny, List.any_eq_true]
  refine exists_congr fun tag => and_congr_right fun _ => ?_
  simp only [List.any_eq_true, EmptyCollection.emptyCollection, empty, List.nil_append,
    List.mem_map, List.mem_flatMap, memItems]
  constructor
  · rintro ⟨_, ⟨item, ⟨list, listed, isItem⟩, rfl⟩, accepts⟩
    exact ⟨list, listed, item, isItem, ruleAccepts.mp accepts⟩
  · rintro ⟨list, listed, item, isItem, asks⟩
    exact ⟨_, ⟨item, ⟨list, listed, isItem⟩, rfl⟩, ruleAccepts.mpr asks⟩

theorem rulesExact (separator : Char) (lists : List String) :
    let f := (∅ : TagRules).addAll separator lists
    (∀ tags, f.matchesAny tags = true ↔
      ∃ tag ∈ tags, ∃ list ∈ lists, ∃ item, IsItem list item ∧ Asks separator item tag.1 tag.2) ∧
    f = parse (",".intercalate lists) separator ∧
    parse f.text separator = f ∧
    ((∀ list ∈ lists, ∀ item, ¬ IsItem list item) →
      f.isEmpty = true ∧ ∀ tags, f.matchesAny tags = false) := by
  intro f
  have whole : f = ⟨(lists.flatMap listItems).map (.ofItem separator), lists.flatMap listItems⟩ :=
    addAllIs ∅ separator lists
  refine ⟨fun tags => matchesIff, ?_, ?_, fun none => ?_⟩
  · rw [whole, parseIs, itemsJoined]
  · have alone : ∀ item ∈ lists.flatMap listItems, listItems item = [item] := by
      intro item mem
      obtain ⟨list, _, mem⟩ := List.mem_flatMap.mp mem
      obtain ⟨some_char, free, _⟩ := memItems.mp mem
      exact itemsAlone some_char free
    have items : listItems f.text = lists.flatMap listItems := by
      rw [text, whole, itemsJoined, List.flatMap_congr alone, List.flatMap_singleton']
    rw [parseIs, items, whole]
  · have items : lists.flatMap listItems = [] := by
      refine List.flatMap_eq_nil_iff.mpr fun list listed => ?_
      exact List.eq_nil_iff_forall_not_mem.mpr fun item mem => none list listed item (memItems.mp mem)
    refine ⟨?_, fun tags => ?_⟩
    · rw [whole, items]
      rfl
    · rw [Bool.eq_false_iff, ne_eq, matchesIff]
      rintro ⟨_, _, list, listed, item, isItem, _⟩
      exact none list listed item isItem

example : let f := (∅ : TagRules).addAll ':' [",name:de:x,,", "", "route"]
    (f.matchesAny [("name", "de:x")], f.matchesAny [("name", "de")], f.text) =
      (true, false, "name:de:x,route") ∧
    (parse "a,b" ',').rules = [⟨"a", none⟩, ⟨"b", none⟩] := by
  decide +kernel

end TagRules
end Cutout
