import Cutout.Proofs.Completeness
/-! How what is included follows the area. Relation systems include for two areas together just what
they include for either. By first nodes a wider area loses nothing, though it may gain a relation that
has enough members in the two parts only together. -/
namespace Cutout

structure Region.Alike (a b : Region) : Prop where
  conflicting : a.conflicting = b.conflicting
  matching : a.matching = b.matching

structure Region.Within (a b : Region) : Prop extends a.Alike b where
  contains : ∀ place, a.contains place = true → b.contains place = true

structure Region.Unites (c a b : Region) : Prop where
  left : a.Alike c
  right : b.Alike c
  contains : ∀ place, c.contains place = true ↔ a.contains place = true ∨ b.contains place = true

theorem Region.Within.unites {a c : Region} (within : a.Within c) : c.Unites a c :=
  ⟨within.toAlike, ⟨rfl, rfl⟩, fun place => (or_iff_right_of_imp (within.contains place)).symm⟩

theorem Region.Unites.nodes {a b c : Region} (unites : c.Unites a b) (elements : List Element) :
    c.nodes elements = a.nodes elements ∪ b.nodes elements := by
  ext key
  simp only [Region.nodes, Set.mem_union, Set.mem_ofPred_eq, unites.contains, or_and_right,
    and_or_left, exists_or]

theorem memUnionExtra {primary : Set Nat} {p : Nat → Prop} {key : Nat} :
    key ∈ primary ∪ {key | key ∉ primary ∧ p key} ↔ key ∈ primary ∨ p key :=
  or_and_left.trans (and_iff_right (em _))

section Unions
variable {nodes ways nodes' ways' : Set Nat}

theorem Region.Unites.startsWay {a b c : Region} (unites : c.Unites a b) {w : Way} :
    c.StartsWay (nodes ∪ nodes') w ↔ a.StartsWay nodes w ∨ b.StartsWay nodes' w := by
  simp only [Region.StartsWay, unites.left.conflicting, unites.left.matching,
    unites.right.conflicting, unites.right.matching, Set.mem_union, and_or_left, exists_or,
    or_and_right]
  exact or_or_distrib_right

theorem isOfUnion {m : Member} :
    m.IsOf (nodes ∪ nodes') (ways ∪ ways') ↔ m.IsOf nodes ways ∨ m.IsOf nodes' ways' := by
  simp only [Member.IsOf, Set.mem_union, and_or_left]
  exact or_or_or_comm

theorem touchesUnion {r : Relation} :
    r.Touches (nodes ∪ nodes') (ways ∪ ways') ↔ r.Touches nodes ways ∨ r.Touches nodes' ways' := by
  simp only [Relation.Touches, isOfUnion, and_or_left, exists_or]

end Unions

namespace Strategy.SystemOptions
variable {o : SystemOptions} {region : Region} {elements : List Element} {x : Extract}

section Meaning
variable (means : o.Meaning region elements x)
include means

theorem memRelations {key : Nat} : key ∈ x.included .relation ↔
    ∃ p ∈ o.primaryRelations region elements,
      Relation.ReflTransGen (Related (o.systemRelations elements)) p key := by
  rw [includedRelations means]
  refine memUnionExtra.trans (or_iff_right_of_imp fun primary => ?_)
  exact ⟨key, primary, .refl⟩

theorem completesIff (apart : RelationsApart elements) {r : Relation}
    (mem : .relation r ∈ elements) : o.Completes region elements r ↔
      (o.Finds region elements r ∧ o.isRelevant r = true) ∨
        (r.key ∈ x.included .relation ∧ o.isPartOfSystem r = true) := by
  rw [includedRelations means, Completes]
  constructor
  · intro completes
    rcases completes with ⟨finds, relevant | system⟩ | ⟨extra, system⟩
    · exact .inl ⟨finds, relevant⟩
    · exact .inr ⟨.inl ⟨r, mem, finds, rfl⟩, system⟩
    · exact .inr ⟨.inr extra, system⟩
  · intro given
    rcases given with ⟨finds, relevant⟩ | ⟨primary | extra, system⟩
    · exact .inl ⟨finds, .inl relevant⟩
    · exact .inl ⟨findsOfPrimary apart mem primary, .inr system⟩
    · exact .inr ⟨extra, system⟩

theorem memWays {key : Nat} : key ∈ x.included .way ↔ key ∈ o.primaryWays region elements ∨
    ∃ r, .relation r ∈ elements ∧ o.Completes region elements r ∧ r.HasMember .way key := by
  rw [includedWays means]
  exact memUnionExtra

theorem memNodes (apart : WaysApart elements) {key : Nat} : key ∈ x.included .node ↔
    key ∈ region.nodes elements ∨
      (∃ r, .relation r ∈ elements ∧ o.Completes region elements r ∧ r.HasMember .node key) ∨
      ∃ w, .way w ∈ elements ∧ w.key ∈ x.included .way ∧ key ∈ w.nodeKeys := by
  rw [includedNodes means, includedWays means]
  refine memUnionExtra.trans (or_congr_right (or_congr_right (exists_congr fun w => ?_)))
  exact and_congr_right fun mem => and_congr_left fun _ => or_congr_left (takesIff apart mem)

end Meaning

section Union
variable {a b c : Region} (unites : c.Unites a b)
include unites

theorem takesWayUnion {w : Way} : o.TakesWay c (c.nodes elements) w ↔
    o.TakesWay a (a.nodes elements) w ∨ o.TakesWay b (b.nodes elements) w := by
  rw [unites.nodes]
  unfold TakesWay
  split
  · exact unites.startsWay
  · simp only [Set.mem_union, and_or_left, exists_or]

theorem primaryWaysUnion :
    o.primaryWays c elements = o.primaryWays a elements ∪ o.primaryWays b elements := by
  ext key
  simp only [primaryWays, Set.mem_union, Set.mem_ofPred_eq, takesWayUnion unites, or_and_right,
    and_or_left, exists_or]

theorem findsUnion {r : Relation} :
    o.Finds c elements r ↔ o.Finds a elements r ∨ o.Finds b elements r := by
  rw [Finds, unites.nodes, primaryWaysUnion unites]
  exact touchesUnion

theorem primaryRelationsUnion : o.primaryRelations c elements =
    o.primaryRelations a elements ∪ o.primaryRelations b elements := by
  ext key
  simp only [primaryRelations, Set.mem_union, Set.mem_ofPred_eq, findsUnion unites, or_and_right,
    and_or_left, exists_or]

variable {x y z : Extract} (left : o.Meaning a elements x) (right : o.Meaning b elements y)
  (both : o.Meaning c elements z)
include left right both

theorem relationsUnion : z.included .relation = x.included .relation ∪ y.included .relation := by
  ext key
  simp only [Set.mem_union, memRelations left, memRelations right, memRelations both,
    primaryRelationsUnion unites, or_and_right, exists_or]

variable (relations : RelationsApart elements)
include relations

theorem completesUnion {r : Relation} (mem : .relation r ∈ elements) : o.Completes c elements r ↔
    o.Completes a elements r ∨ o.Completes b elements r := by
  rw [completesIff left relations mem, completesIff right relations mem,
    completesIff both relations mem, findsUnion unites, relationsUnion unites left right both,
    Set.mem_union, or_and_right, or_and_right]
  exact or_or_or_comm

theorem membersUnion {kind : Kind} {key : Nat} :
    (∃ r, .relation r ∈ elements ∧ o.Completes c elements r ∧ r.HasMember kind key) ↔
      (∃ r, .relation r ∈ elements ∧ o.Completes a elements r ∧ r.HasMember kind key) ∨
        ∃ r, .relation r ∈ elements ∧ o.Completes b elements r ∧ r.HasMember kind key := by
  rw [← exists_or]
  refine exists_congr fun r => ?_
  rw [← and_or_left, ← or_and_right]
  refine and_congr_right fun mem => and_congr_left fun _ => ?_
  exact completesUnion unites left right both relations mem

theorem waysUnion : z.included .way = x.included .way ∪ y.included .way := by
  ext key
  rw [Set.mem_union, memWays left, memWays right, memWays both, primaryWaysUnion unites,
    membersUnion unites left right both relations]
  exact or_or_or_comm

theorem nodesUnion (ways : WaysApart elements) :
    z.included .node = x.included .node ∪ y.included .node := by
  ext key
  rw [Set.mem_union, memNodes left ways, memNodes right ways, memNodes both ways, unites.nodes,
    membersUnion unites left right both relations, waysUnion unites left right both relations]
  simp only [Set.mem_union, or_and_right, and_or_left, exists_or]
  exact (or_congr_right or_or_or_comm).trans or_or_or_comm

theorem includedUnion (ways : WaysApart elements) (kind : Kind) :
    z.included kind = x.included kind ∪ y.included kind := by
  cases kind with
  | node => exact nodesUnion unites left right both relations ways
  | way => exact waysUnion unites left right both relations
  | relation => exact relationsUnion unites left right both

end Union
end Strategy.SystemOptions

section Wider
variable {nodes ways nodes' ways' : Set Nat} (wider : nodes ⊆ nodes')
include wider

theorem Region.Within.startsWay {a b : Region} (within : a.Within b) {w : Way}
    (starts : a.StartsWay nodes w) : b.StartsWay nodes' w := by
  unfold Region.StartsWay at starts ⊢
  rw [← within.conflicting, ← within.matching]
  rcases starts with ⟨⟨ref, first, inside⟩, free⟩ | matching
  · exact .inl ⟨⟨ref, first, wider inside⟩, free⟩
  · exact .inr matching

theorem isOfWider (more : ways ⊆ ways') {m : Member} (inside : m.IsOf nodes ways) :
    m.IsOf nodes' ways' := by
  rcases inside with ⟨kind, inside⟩ | ⟨kind, inside⟩
  · exact .inl ⟨kind, wider inside⟩
  · exact .inr ⟨kind, more inside⟩

end Wider

theorem Region.Within.nodes {a b : Region} (within : a.Within b) (elements : List Element) :
    a.nodes elements ⊆ b.nodes elements := by
  intro key given
  obtain ⟨n, mem, inside, same⟩ := given
  exact ⟨n, mem, within.contains _ inside, same⟩

namespace Strategy.FirstNodeOptions
variable {o : FirstNodeOptions} {region : Region} {elements : List Element} {x : Extract}

section Meaning
variable (means : o.Meaning region elements x)
include means

theorem memWays {key : Nat} : key ∈ x.included .way ↔ key ∈ primaryWays region elements ∨
    ∃ r, .relation r ∈ elements ∧ o.Completes region elements r ∧ r.HasMember .way key := by
  rw [includedWays means]
  exact memUnionExtra

theorem memNodes {key : Nat} : key ∈ x.included .node ↔ key ∈ region.nodes elements ∨
    (∃ r, .relation r ∈ elements ∧ o.Completes region elements r ∧ r.HasMember .node key) ∨
      ∃ w, .way w ∈ elements ∧ w.key ∈ x.included .way ∧ key ∈ w.nodeKeys := by
  rw [includedNodes means, includedWays means]
  exact memUnionExtra

end Meaning

section Wider
variable {a b : Region} (within : a.Within b)
include within

theorem primaryWaysWider : primaryWays a elements ⊆ primaryWays b elements := by
  intro key given
  obtain ⟨w, mem, starts, same⟩ := given
  exact ⟨w, mem, within.startsWay (within.nodes elements) starts, same⟩

theorem findsWider {r : Relation} (finds : Finds a elements r) : Finds b elements r := by
  obtain ⟨m, listed, inside⟩ := finds
  exact ⟨m, listed, isOfWider (within.nodes elements) (primaryWaysWider within) inside⟩

theorem primaryRelationsWider : primaryRelations a elements ⊆ primaryRelations b elements := by
  intro key given
  obtain ⟨found, ⟨r, mem, finds, same⟩, path⟩ := given
  exact ⟨found, ⟨r, mem, findsWider within finds, same⟩, path⟩

theorem insideCountWider (r : Relation) : insideCount a elements r ≤ insideCount b elements r := by
  refine List.countP_mono_left fun m _ inside => ?_
  simp only [decide_eq_true_eq] at inside ⊢
  exact isOfWider (within.nodes elements) (primaryWaysWider within) inside

theorem completesWider {r : Relation} (completes : o.Completes a elements r) :
    o.Completes b elements r := by
  obtain ⟨finds, tags, settled⟩ := completes
  refine ⟨findsWider within finds, tags, settled.imp_right fun enough => ?_⟩
  exact enough.trans (Nat.mul_le_mul_left 100 (insideCountWider within r))

theorem membersWider {kind : Kind} {key : Nat}
    (member : ∃ r, .relation r ∈ elements ∧ o.Completes a elements r ∧ r.HasMember kind key) :
    ∃ r, .relation r ∈ elements ∧ o.Completes b elements r ∧ r.HasMember kind key := by
  obtain ⟨r, mem, completes, listed⟩ := member
  exact ⟨r, mem, completesWider within completes, listed⟩

variable {x y : Extract} (narrow : o.Meaning a elements x) (wide : o.Meaning b elements y)
include narrow wide

theorem waysWider : x.included .way ⊆ y.included .way := by
  intro key included
  rw [memWays narrow] at included
  rw [memWays wide]
  rcases included with primary | member
  · exact .inl (primaryWaysWider within primary)
  · exact .inr (membersWider within member)

theorem nodesWider : x.included .node ⊆ y.included .node := by
  intro key included
  rw [memNodes narrow] at included
  rw [memNodes wide]
  rcases included with inside | member | ⟨w, mem, taken, listed⟩
  · exact .inl (within.nodes elements inside)
  · exact .inr (.inl (membersWider within member))
  · exact .inr (.inr ⟨w, mem, waysWider within narrow wide taken, listed⟩)

theorem includedWider (kind : Kind) : x.included kind ⊆ y.included kind := by
  cases kind with
  | node => exact nodesWider within narrow wide
  | way => exact waysWider within narrow wide
  | relation =>
    rw [includedRelations narrow, includedRelations wide]
    exact primaryRelationsWider within

end Wider
end Strategy.FirstNodeOptions

namespace Strategy
variable {source : Source} {elements : List Element}

theorem unitedAreaIncludes (o : SystemOptions) (held : source.Delivers elements)
    (accepted : InputOrder.Accepts elements) (ways : WaysApart elements)
    (relations : RelationsApart elements) :
    (∀ a b c : Region, c.Unites a b → (systems o).Gives source a fun x =>
      (systems o).Gives source b fun y => (systems o).Gives source c fun z =>
        ∀ kind, z.included kind = x.included kind ∪ y.included kind) ∧
    ∀ a c : Region, a.Within c → (systems o).Gives source a fun x =>
      (systems o).Gives source c fun z => ∀ kind, x.included kind ⊆ z.included kind := by
  have united {a b c : Region} (unites : c.Unites a b) (kind : Kind) :
      (o.finished elements (.start c)).included kind =
        (o.finished elements (.start a)).included kind ∪
          (o.finished elements (.start b)).included kind :=
    SystemOptions.includedUnion unites SystemOptions.finishedMeaning
      SystemOptions.finishedMeaning SystemOptions.finishedMeaning relations ways kind
  refine ⟨fun a b c unites => ?_, fun a c within => ?_⟩
  · refine givesFinished _ held accepted (givesFinished _ held accepted ?_)
    exact givesFinished _ held accepted (united unites)
  · refine givesFinished _ held accepted (givesFinished _ held accepted fun kind => ?_)
    have whole := united within.unites kind
    exact Set.subset_union_left.trans whole.symm.subset

def east : Region := .ofRules (fun place => place.lon == 1) ∅ ∅

def meridianAndEast : Region := .ofRules (fun place => place.lon == 0 || place.lon == 1) ∅ ∅

theorem meridianAndEastUnites : meridianAndEast.Unites meridian east :=
  ⟨⟨rfl, rfl⟩, ⟨rfl, rfl⟩, fun _ => Bool.or_eq_true_iff⟩

theorem crossingUnited :
    let found (region : Region) :=
      ((systems networks).run (.inMemory crossing) [.start region]).session.extracts.map idsOf
    ((systems networks).Gives (.inMemory crossing) meridian fun x =>
      (systems networks).Gives (.inMemory crossing) east fun y =>
        (systems networks).Gives (.inMemory crossing) meridianAndEast fun z =>
          ∀ kind, z.included kind = x.included kind ∪ y.included kind) ∧
    found meridian = [[[1], [1], [1], [2, 3], [2], [2]]] ∧
      found east = [[[2, 3], [1, 2], [1, 2], [1], [], []]] ∧
        found meridianAndEast = [[[1, 2, 3], [1, 2], [1, 2], [], [], []]] := by
  have united := unitedAreaIncludes networks (deliversInMemory crossing) (by decide)
    (waysApartOfNodup (by decide)) (relationsApartOfNodup (by decide))
  exact ⟨united.1 meridian east meridianAndEast meridianAndEastUnites, by decide +kernel,
    by decide +kernel, by decide +kernel⟩

theorem widerAreaIncludes (options : Options) (held : source.Delivers elements)
    (accepted : InputOrder.Accepts elements) {a b : Region} (within : a.Within b) :
    let s := firstNode (FirstNodeOptions.parse options).1
    s.Gives source a fun x => s.Gives source b fun y =>
      ∀ kind, x.included kind ⊆ y.included kind := by
  intro s
  have percent : 0 < (FirstNodeOptions.parse options).1.percent :=
    (FirstNodeOptions.parseRange options).1
  refine givesFinished _ held accepted (givesFinished _ held accepted ?_)
  exact FirstNodeOptions.includedWider within (FirstNodeOptions.finishedMeaning percent)
    (FirstNodeOptions.finishedMeaning percent)

theorem crossingWider :
    let s := firstNode (FirstNodeOptions.parse halfRoutes).1
    let found (region : Region) :=
      (s.run (.inMemory crossing) [.start region]).session.extracts.map idsOf
    (s.Gives (.inMemory crossing) meridian fun x =>
      s.Gives (.inMemory crossing) meridianAndEast fun y =>
        ∀ kind, x.included kind ⊆ y.included kind) ∧
    found meridian = [[[1], [1], [1, 2], [2, 3], [2], []]] ∧
      found meridianAndEast = [[[1, 2, 3], [1, 2], [1, 2], [], [], []]] := by
  have within : meridian.Within meridianAndEast :=
    ⟨⟨rfl, rfl⟩, fun place inside => (meridianAndEastUnites.contains place).mpr (.inl inside)⟩
  exact ⟨widerAreaIncludes halfRoutes (deliversInMemory crossing) (by decide) within,
    by decide +kernel, by decide +kernel⟩

end Strategy
end Cutout
