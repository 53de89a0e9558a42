import Cutout.Proofs.Rules
import Cutout.Strategy
import Mathlib.Data.List.Basic
import Mathlib.Data.String.Basic
/-! Options from a configuration and from assignments on top of it. Of what is set to a key the last counts,
each key is met once, and a strategy reads each of its options from the value of one key. So assignments to
different keys may change places. -/
namespace Cutout

namespace Ascending
variable {α : Type} {entries : List (String × α)} {key : String} {value : α}

def Sorted (entries : List (String × α)) : Prop := entries.Pairwise fun a b => a.1 < b.1

theorem memPut {entry : String × α} (mem : entry ∈ put key value entries) :
    entry = (key, value) ∨ entry ∈ entries := by
  induction entries with
  | nil => exact .inl (List.mem_singleton.mp mem)
  | cons first rest ih =>
    obtain ⟨k, v⟩ := first
    rw [put] at mem
    split_ifs at mem
    · exact (List.mem_cons.mp mem).imp_right (List.mem_cons_of_mem _)
    · exact List.mem_cons.mp mem
    · rcases List.mem_cons.mp mem with rfl | mem
      · exact .inr List.mem_cons_self
      · exact (ih mem).imp_right (List.mem_cons_of_mem _)

theorem putSorted (sorted : Sorted entries) : Sorted (put key value entries) := by
  induction entries with
  | nil => exact List.pairwise_singleton _ _
  | cons first rest ih =>
    obtain ⟨k, v⟩ := first
    obtain ⟨below, others⟩ := List.pairwise_cons.mp sorted
    rw [put]
    split_ifs with same before
    · exact List.pairwise_cons.mpr ⟨same ▸ below, others⟩
    · refine List.pairwise_cons.mpr ⟨fun entry mem => ?_, sorted⟩
      rcases List.mem_cons.mp mem with rfl | mem
      · exact before
      · exact before.trans (below entry mem)
    · refine List.pairwise_cons.mpr ⟨fun entry mem => ?_, ih others⟩
      rcases memPut mem with rfl | mem
      · exact lt_of_le_of_ne (not_lt.mp before) (Ne.symm same)
      · exact below entry mem

theorem getPut (entries : List (String × α)) (key : String) (value : α) (other : String) :
    Keyed.get? (put key value entries) other =
      if key = other then some value else Keyed.get? entries other := by
  induction entries with
  | nil => exact Keyed.getCons key value [] other
  | cons first rest ih =>
    obtain ⟨k, v⟩ := first
    rw [put]
    by_cases same : key = k
    · subst same
      rw [if_pos rfl, Keyed.getCons, Keyed.getCons]
      split_ifs <;> rfl
    · rw [if_neg same]
      by_cases before : key < k
      · rw [if_pos before, Keyed.getCons]
      · rw [if_neg before, Keyed.getCons, ih, Keyed.getCons]
        by_cases asked : key = other
        · rw [if_neg (asked ▸ Ne.symm same), if_pos asked, if_pos asked]
        · rw [if_neg asked, if_neg asked]

theorem memIff (sorted : Sorted entries) :
    (key, value) ∈ entries ↔ Keyed.get? entries key = some value := by
  induction entries with
  | nil => simp [Keyed.get?]
  | cons first rest ih =>
    obtain ⟨k, v⟩ := first
    obtain ⟨below, others⟩ := List.pairwise_cons.mp sorted
    rw [List.mem_cons, ih others, Keyed.getCons, Prod.mk.injEq]
    split_ifs with same
    · subst same
      have apart : Keyed.get? rest k = none :=
        Keyed.getNone.mpr fun entry mem => (below entry mem).ne'
      simp [apart, eq_comm]
    · simp [Ne.symm same]

theorem sortedExt {first second : List (String × α)} (sorted : Sorted first)
    (other : Sorted second) (same : Keyed.get? first = Keyed.get? second) : first = second := by
  have members (entry : String × α) : entry ∈ first ↔ entry ∈ second := by
    rw [memIff sorted, memIff other, same]
  have apart {entries : List (String × α)} (sorted : Sorted entries) : entries.Nodup :=
    sorted.imp fun less => ne_of_apply_ne Prod.fst less.ne
  refine List.Perm.eq_of_pairwise (fun a b _ _ less more => absurd less more.asymm) sorted other ?_
  exact (List.perm_ext_iff_of_nodup (apart sorted) (apart other)).mpr members

end Ascending

def LastIn (pairs : List (String × String)) (key value : String) : Prop :=
  ∃ earlier later, pairs = earlier ++ (key, value) :: later ∧ ∀ pair ∈ later, pair.1 ≠ key

theorem lastInIff {pairs : List (String × String)} {key value : String} :
    LastIn pairs key value ↔ Keyed.get? pairs.reverse key = some value := by
  rw [Keyed.get?, Option.map_eq_some_iff]
  constructor
  · rintro ⟨earlier, later, rfl, last⟩
    refine ⟨(key, value), List.find?_eq_some_iff_append.mpr ⟨beq_self_eq_true key, ?_⟩, rfl⟩
    refine ⟨later.reverse, earlier.reverse, by simp, fun pair mem => ?_⟩
    simpa using last pair (List.mem_reverse.mp mem)
  · rintro ⟨⟨k, v⟩, found, rfl⟩
    obtain ⟨same, later, earlier, split, last⟩ := List.find?_eq_some_iff_append.mp found
    obtain rfl : k = key := beq_iff_eq.mp same
    refine ⟨earlier.reverse, later.reverse, ?_, fun pair mem => ?_⟩
    · rw [← List.reverse_reverse pairs, split]
      simp
    · simpa using last pair (List.mem_reverse.mp mem)

namespace Options

inductive Sets (text : String) : String → String → Prop
  | pair {key value : String} (free : '=' ∉ key.toList)
    (split : text.toList = key.toList ++ '=' :: value.toList) : Sets text key value
  | alone (free : '=' ∉ text.toList) : Sets text text "true"

theorem setsIff {text key value : String} : Sets text key value ↔ assignment text = (key, value) := by
  rw [assignment]
  constructor
  · intro sets
    cases sets with
    | pair free split =>
      rw [splitOnceSome.mpr ⟨free, split⟩]
      simp
    | alone free => rw [splitOnceNone.mpr free]
  · intro same
    split at same
    · rename_i before after found
      obtain ⟨rfl, rfl⟩ := Prod.mk.inj same
      obtain ⟨free, split⟩ := splitOnceSome.mp found
      exact .pair (by simpa using free) (by simpa using split)
    · rename_i found
      obtain ⟨rfl, rfl⟩ := Prod.mk.inj same
      exact .alone (splitOnceNone.mp found)

/-- What is in effect for a key: what the last assignment to it sets, else what is configured. -/
inductive InEffect (configured : List (String × String)) (assignments : List String)
    (key value : String) : Prop
  | assigned {earlier later : List String} {text : String}
    (given : assignments = earlier ++ text :: later) (sets : Sets text key value)
    (last : ∀ other ∈ later, ∀ v, ¬ Sets other key v) : InEffect configured assignments key value
  | configured (free : ∀ text ∈ assignments, ∀ v, ¬ Sets text key v)
    (given : LastIn configured key value) : InEffect configured assignments key value

theorem setsNone {text key : String} : (∀ v, ¬ Sets text key v) ↔ (assignment text).1 ≠ key := by
  simp only [setsIff]
  exact ⟨fun none same => none _ (Prod.ext same rfl), fun other v same => other (congrArg Prod.fst same)⟩

theorem lastAssigned {assignments : List String} {key value : String} :
    LastIn (assignments.map assignment) key value ↔ ∃ earlier text later,
      assignments = earlier ++ text :: later ∧ Sets text key value ∧
        ∀ other ∈ later, ∀ v, ¬ Sets other key v := by
  simp only [LastIn, setsNone]
  constructor
  · rintro ⟨_, _, given, last⟩
    obtain ⟨earlier, _, rfl, _, given⟩ := List.map_eq_append_iff.mp given
    obtain ⟨text, later, rfl, same, rfl⟩ := List.map_eq_cons_iff.mp given
    exact ⟨earlier, text, later, rfl, setsIff.mpr same,
      fun other mem => last _ (List.mem_map_of_mem mem)⟩
  · rintro ⟨earlier, text, later, rfl, sets, last⟩
    refine ⟨earlier.map assignment, later.map assignment, ?_, List.forall_mem_map.mpr last⟩
    rw [List.map_append, List.map_cons, setsIff.mp sets]

def setAll (o : Options) (pairs : List (String × String)) : Options :=
  pairs.foldl (fun o pair => o.set pair.1 pair.2) o

theorem mergeIs (configured : List (String × String)) (assignments : List String) :
    merge configured assignments = setAll ∅ (configured ++ assignments.map assignment) := by
  rw [setAll, List.foldl_append, List.foldl_map]
  rfl

theorem setAllGet (o : Options) (pairs : List (String × String)) (key : String) :
    (o.setAll pairs).get? key = (Keyed.get? pairs.reverse key).or (o.get? key) := by
  induction pairs generalizing o with
  | nil => rfl
  | cons pair rest ih =>
    have step : o.setAll (pair :: rest) = (o.set pair.1 pair.2).setAll rest := rfl
    have put : (o.set pair.1 pair.2).get? key = (Keyed.get? [pair] key).or (o.get? key) := by
      rw [Keyed.getCons, get?, set, Ascending.getPut]
      split_ifs <;> rfl
    rw [step, ih, put, List.reverse_cons, Keyed.getAppend, Option.or_assoc]

theorem setAllSorted {o : Options} (sorted : Ascending.Sorted o.entries)
    (pairs : List (String × String)) : Ascending.Sorted (o.setAll pairs).entries := by
  induction pairs generalizing o with
  | nil => exact sorted
  | cons pair rest ih => exact ih (Ascending.putSorted sorted)

section Merge
variable (configured : List (String × String)) (assignments : List String)

theorem mergeSorted : Ascending.Sorted (merge configured assignments).entries := by
  rw [mergeIs]
  exact setAllSorted List.Pairwise.nil _

theorem mergeGet (key : String) : (merge configured assignments).get? key =
    (Keyed.get? (assignments.map assignment).reverse key).or
      (Keyed.get? configured.reverse key) := by
  have none : (∅ : Options).get? key = none := rfl
  rw [mergeIs, setAllGet, none, Option.or_none, List.reverse_append, Keyed.getAppend]

theorem inEffectIff (key value : String) : (merge configured assignments).get? key = some value ↔
    InEffect configured assignments key value := by
  rw [mergeGet, Option.or_eq_some_iff, ← lastInIff, lastAssigned, ← lastInIff, Keyed.getNone]
  simp only [List.mem_reverse, List.forall_mem_map, ← setsNone]
  constructor
  · rintro (⟨earlier, text, later, given, sets, last⟩ | ⟨free, given⟩)
    · exact .assigned given sets last
    · exact .configured free given
  · intro effect
    cases effect with
    | assigned given sets last => exact .inl ⟨_, _, _, given, sets, last⟩
    | configured free given => exact .inr ⟨free, given⟩

end Merge

def toKey (assignments : List String) (key : String) : List String :=
  assignments.filter fun text => (assignment text).1 == key

theorem getToKey (assignments : List String) (key : String) :
    Keyed.get? (assignments.map assignment).reverse key =
      Keyed.get? ((toKey assignments key).map assignment).reverse key := by
  simp only [Keyed.get?, toKey, ← List.map_reverse, List.find?_map, ← List.filter_reverse,
    List.find?_filter, Function.comp_def, and_self, Bool.decide_eq_true]

theorem mergeReordered {configured : List (String × String)} {assignments others : List String}
    (same : ∀ key, toKey others key = toKey assignments key) :
    merge configured others = merge configured assignments := by
  have values (key : String) : (merge configured others).get? key =
      (merge configured assignments).get? key := by
    rw [mergeGet, mergeGet, getToKey others, same, ← getToKey]
  have entries := Ascending.sortedExt (mergeSorted configured others)
    (mergeSorted configured assignments) (funext values)
  exact congrArg Options.mk entries

end Options

namespace Strategy

theorem foldOfKey {σ β : Type} {step : σ → String × String → σ} {key : String} (part : σ → β)
    (change : β → String → β)
    (one : ∀ s k value, part (step s (k, value)) = if k = key then change (part s) value else part s)
    {entries : List (String × String)} (sorted : Ascending.Sorted entries) (s : σ) :
    part (entries.foldl step s) = ((Keyed.get? entries key).map (change (part s))).getD (part s) := by
  induction entries generalizing s with
  | nil => rfl
  | cons entry rest ih =>
    obtain ⟨k, value⟩ := entry
    obtain ⟨below, others⟩ := List.pairwise_cons.mp sorted
    rw [List.foldl_cons, ih others, Keyed.getCons, one]
    split_ifs with same
    · subst same
      have apart : Keyed.get? rest k = none :=
        Keyed.getNone.mpr fun entry mem => (below entry mem).ne'
      rw [apart]
      rfl
    · rfl

namespace SystemOptions

def ofValues (value : String → Option String) : SystemOptions where
  relations := ((value "relations").map (.parse · separator)).getD ∅
  systems := ((value "relation-system").map (.parse · separator)).getD ∅
  byFirstNode := ((value "by-first-node").map fun text => decide (text ∈ ["", "true", "yes"])).getD false

section Take
variable (s : SystemOptions × List Note) (key value : String)

theorem takeRelations : (take s (key, value)).1.relations =
    if key = "relations" then s.1.relations.add value separator else s.1.relations := by
  simp only [take]
  split <;> simp_all

theorem takeSystems : (take s (key, value)).1.systems =
    if key = "relation-system" then s.1.systems.add value separator else s.1.systems := by
  simp only [take]
  split <;> simp_all

theorem takeByFirstNode : (take s (key, value)).1.byFirstNode =
    if key = "by-first-node" then decide (value ∈ ["", "true", "yes"]) else s.1.byFirstNode := by
  simp only [take]
  split <;> simp_all [Bool.or_assoc, Bool.beq_eq_decide_eq]

end Take

theorem parseReads {o : Options} (sorted : Ascending.Sorted o.entries) :
    (parse o).1 = ofValues o.get? := by
  have relations := foldOfKey (fun s => s.1.relations) (·.add · separator) takeRelations sorted
    (defaults, [])
  have systems := foldOfKey (fun s => s.1.systems) (·.add · separator) takeSystems sorted
    (defaults, [])
  have byFirstNode := foldOfKey (fun s => s.1.byFirstNode)
    (fun _ value => decide (value ∈ ["", "true", "yes"])) takeByFirstNode sorted (defaults, [])
  exact congr (congr (congrArg mk relations) systems) byFirstNode

end SystemOptions

namespace FirstNodeOptions

def ofValues (value : String → Option String) : FirstNodeOptions where
  types := ((value "types").map parseTypes).getD ["multipolygon"]
  percent := ((value "complete-partial-relations").map fun text =>
    if text = "" then 100 else parsePercent text).getD 100
  tags := ((value "tags").map (.parse · separator)).getD ∅

section Take
variable (s : FirstNodeOptions × List Note) (key value : String)

theorem takeTypes : (take s (key, value)).1.types =
    if key = "types" then parseTypes value else s.1.types := by
  simp only [take]
  split <;> simp_all
  split <;> rfl

theorem takePercent : (take s (key, value)).1.percent =
    if key = "complete-partial-relations" then (if value = "" then s.1.percent else parsePercent value)
    else s.1.percent := by
  simp only [take]
  split <;> simp_all
  split <;> rfl

theorem takeTags : (take s (key, value)).1.tags =
    if key = "tags" then .parse value separator else s.1.tags := by
  simp only [take]
  split <;> simp_all
  split <;> rfl

end Take

theorem parseReads {o : Options} (sorted : Ascending.Sorted o.entries) :
    (parse o).1 = ofValues o.get? := by
  have types := foldOfKey (fun s => s.1.types) (fun _ value => parseTypes value) takeTypes sorted
    (defaults, [])
  have percent := foldOfKey (fun s => s.1.percent)
    (fun old value => if value = "" then old else parsePercent value) takePercent sorted (defaults, [])
  have tags := foldOfKey (fun s => s.1.tags) (fun _ value => .parse value separator) takeTags sorted
    (defaults, [])
  exact congr (congr (congrArg mk types) percent) tags

end FirstNodeOptions
end Strategy

theorem Options.overridesExact (configured : List (String × String)) (assignments : List String) :
    let o : Options := merge configured assignments
    (∀ key value, o.get? key = some value ↔ InEffect configured assignments key value) ∧
    o.entries.Pairwise (fun a b => a.1 < b.1) ∧
    (∀ key value, (key, value) ∈ o.entries ↔ InEffect configured assignments key value) ∧
    (Strategy.SystemOptions.parse o).1 = .ofValues o.get? ∧
    (Strategy.FirstNodeOptions.parse o).1 = .ofValues o.get? ∧
    ∀ others : List String, (∀ key, toKey others key = toKey assignments key) →
      merge configured others = o ∧
        ∀ name, Strategy.create name (merge configured others) = Strategy.create name o := by
  intro o
  have sorted : Ascending.Sorted o.entries := mergeSorted configured assignments
  have effects := inEffectIff configured assignments
  refine ⟨effects, sorted, fun key value => (Ascending.memIff sorted).trans (effects key value),
    Strategy.SystemOptions.parseReads sorted, Strategy.FirstNodeOptions.parseReads sorted,
    fun others same => ?_⟩
  have options : merge configured others = o := mergeReordered same
  exact ⟨options, fun name => congrArg (Strategy.create name) options⟩

example :
    let configured := [("by-first-node", "yes"), ("relations", "type:multipolygon")]
    let o := Options.merge configured ["relations=type=a", "relation-system", "relations=network"]
    o.entries = [("by-first-node", "yes"), ("relation-system", "true"), ("relations", "network")] := by
  decide +kernel

end Cutout
