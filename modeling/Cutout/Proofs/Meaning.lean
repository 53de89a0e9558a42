import Mathlib.Data.Set.Basic
import Cutout.Proofs.Memberships
import Cutout.Strategy
/-! What the extracts of a finished run hold, said of the input as a whole: which ids are primary,
which are extra, and which elements are written. Nothing here goes through the input step by step. -/
namespace Cutout

def nodesOf (elements : List Element) : List Node :=
  elements.filterMap fun | .node n => some n | _ => none

def waysOf (elements : List Element) : List Way :=
  elements.filterMap fun | .way w => some w | _ => none

def relationsOf (elements : List Element) : List Relation :=
  elements.filterMap fun | .relation r => some r | _ => none

theorem memRead {α : Type} {read : Element → Option α} {make : α → Element}
    (reads : ∀ e a, read e = some a ↔ e = make a) {elements : List Element} {a : α} :
    a ∈ elements.filterMap read ↔ make a ∈ elements := by
  simp only [List.mem_filterMap, reads, exists_eq_right]

@[simp] theorem memNodesOf {elements : List Element} {n : Node} :
    n ∈ nodesOf elements ↔ .node n ∈ elements :=
  memRead fun e a => by cases e <;> simp

@[simp] theorem memWaysOf {elements : List Element} {w : Way} :
    w ∈ waysOf elements ↔ .way w ∈ elements :=
  memRead fun e a => by cases e <;> simp

@[simp] theorem memRelationsOf {elements : List Element} {r : Relation} :
    r ∈ relationsOf elements ↔ .relation r ∈ elements :=
  memRead fun e a => by cases e <;> simp

def IdSet.ids (s : IdSet) : Set Nat := {key | s.contains key = true}

def Region.nodes (region : Region) (elements : List Element) : Set Nat :=
  {key | ∃ n, .node n ∈ elements ∧ region.contains n.location = true ∧ n.key = key}

def Region.StartsWay (region : Region) (nodes : Set Nat) (w : Way) : Prop :=
  ((∃ ref, w.refs.head? = some ref ∧ ref.natAbs ∈ nodes) ∧ region.conflicting w.tags = false) ∨
    region.matching w.tags = true

def Member.IsOf (m : Member) (nodes ways : Set Nat) : Prop :=
  (m.kind = .node ∧ m.key ∈ nodes) ∨ (m.kind = .way ∧ m.key ∈ ways)

def Relation.Touches (r : Relation) (nodes ways : Set Nat) : Prop :=
  ∃ m ∈ r.members, m.IsOf nodes ways

def Relation.HasMember (r : Relation) (kind : Kind) (key : Nat) : Prop :=
  ∃ m ∈ r.members, m.kind = kind ∧ m.key = key

namespace Strategy.SystemOptions
variable (o : SystemOptions) (region : Region) (elements : List Element)

def TakesWay (nodes : Set Nat) (w : Way) : Prop :=
  if o.byFirstNode then region.StartsWay nodes w else ∃ ref ∈ w.refs, ref.natAbs ∈ nodes

def primaryWays : Set Nat :=
  {key | ∃ w, .way w ∈ elements ∧ o.TakesWay region (region.nodes elements) w ∧ w.key = key}

def Finds (r : Relation) : Prop :=
  r.Touches (region.nodes elements) (o.primaryWays region elements)

def primaryRelations : Set Nat :=
  {key | ∃ r, .relation r ∈ elements ∧ o.Finds region elements r ∧ r.key = key}

def systemRelations : List Relation := (relationsOf elements).filter o.isPartOfSystem

def extraRelations : Set Nat :=
  {key | key ∉ o.primaryRelations region elements ∧ ∃ p ∈ o.primaryRelations region elements,
    Relation.ReflTransGen (Related (o.systemRelations elements)) p key}

def Completes (r : Relation) : Prop :=
  (o.Finds region elements r ∧ (o.isRelevant r = true ∨ o.isPartOfSystem r = true)) ∨
    (r.key ∈ o.extraRelations region elements ∧ o.isPartOfSystem r = true)

def extraWays : Set Nat :=
  {key | key ∉ o.primaryWays region elements ∧
    ∃ r, .relation r ∈ elements ∧ o.Completes region elements r ∧ r.HasMember .way key}

def extraNodes : Set Nat :=
  {key | key ∉ region.nodes elements ∧
    ((∃ r, .relation r ∈ elements ∧ o.Completes region elements r ∧ r.HasMember .node key) ∨
      ∃ w, .way w ∈ elements ∧ (o.TakesWay region (region.nodes elements) w ∨
        w.key ∈ o.extraWays region elements) ∧ key ∈ w.nodeKeys)}

structure Meaning (x : Extract) : Prop where
  ofRegion : x.region = region
  primaryNodes : x.primary.nodes.ids = region.nodes elements
  primaryWays : x.primary.ways.ids = o.primaryWays region elements
  primaryRelations : x.primary.relations.ids = o.primaryRelations region elements
  extraNodes : x.extra.nodes.ids = o.extraNodes region elements
  extraWays : x.extra.ways.ids = o.extraWays region elements
  extraRelations : x.extra.relations.ids = o.extraRelations region elements
  written : x.written.toList = elements.filter fun e => x.includes e.kind e.key

end Strategy.SystemOptions

namespace Strategy.FirstNodeOptions
variable (o : FirstNodeOptions) (region : Region) (elements : List Element)

def primaryWays : Set Nat :=
  {key | ∃ w, .way w ∈ elements ∧ region.StartsWay (region.nodes elements) w ∧ w.key = key}

def Finds (r : Relation) : Prop :=
  r.Touches (region.nodes elements) (primaryWays region elements)

def foundRelations : Set Nat :=
  {key | ∃ r, .relation r ∈ elements ∧ Finds region elements r ∧ r.key = key}

def primaryRelations : Set Nat :=
  {key | ∃ found ∈ foundRelations region elements, Relation.ReflTransGen
    (fun member parent => RelationEdge (relationsOf elements) parent member) found key}

open Classical in
noncomputable def insideCount (r : Relation) : Nat :=
  r.members.countP fun m => m.IsOf (region.nodes elements) (primaryWays region elements)

def Completes (r : Relation) : Prop :=
  Finds region elements r ∧ o.tags.matchesAny r.tags = true ∧
    ((o.types = [] ∨ ∃ value ∈ o.types, Tags.get? r.tags "type" = some value) ∨
      o.percent * r.members.length ≤ 100 * insideCount region elements r)

def extraWays : Set Nat :=
  {key | key ∉ primaryWays region elements ∧
    ∃ r, .relation r ∈ elements ∧ o.Completes region elements r ∧ r.HasMember .way key}

def extraNodes : Set Nat :=
  {key | key ∉ region.nodes elements ∧
    ((∃ r, .relation r ∈ elements ∧ o.Completes region elements r ∧ r.HasMember .node key) ∨
      ∃ w, .way w ∈ elements ∧ (w.key ∈ primaryWays region elements ∨
        w.key ∈ o.extraWays region elements) ∧ key ∈ w.nodeKeys)}

structure Meaning (x : Extract) : Prop where
  ofRegion : x.region = region
  primaryNodes : x.primary.nodes.ids = region.nodes elements
  primaryWays : x.primary.ways.ids = primaryWays region elements
  primaryRelations : x.primary.relations.ids = primaryRelations region elements
  extraNodes : x.extra.nodes.ids = o.extraNodes region elements
  extraWays : x.extra.ways.ids = o.extraWays region elements
  extraRelations : x.extra.relations.ids = ∅
  written : x.written.toList = elements.filter fun e => x.includes e.kind e.key

end Strategy.FirstNodeOptions
end Cutout
