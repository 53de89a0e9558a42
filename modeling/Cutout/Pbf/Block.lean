import Cutout.MetaAttribute
import Cutout.Pbf.Wire
import Cutout.Timestamp
/-! Blocks of map elements: a table of texts and groups of nodes, ways and relations that refer to
it. Positions and ids are stored as differences. -/
namespace Cutout.Pbf

structure RawInfo where
  version : Option Int
  timestamp : Option Int
  changeset : Option Int
  uid : Option Int
  user : Option Nat
  visible : Bool

structure RawNode where
  id : Int
  tags : List (Nat × Nat)
  info : RawInfo
  lat : Int
  lon : Int

structure RawWay where
  id : Int
  tags : List (Nat × Nat)
  info : RawInfo
  refs : List Int

structure RawMember where
  role : Int
  id : Int
  kind : Int

structure RawRelation where
  id : Int
  tags : List (Nat × Nat)
  info : RawInfo
  members : List RawMember

structure DenseInfo where
  version : Int
  timestamp : Int
  changeset : Int
  uid : Int
  user : Int
  visible : Bool

structure DenseNode where
  id : Int
  tags : List (Int × Int)
  info : Option DenseInfo
  lat : Int
  lon : Int

inductive Item where
  | dense (n : DenseNode)
  | node (n : RawNode)
  | way (w : RawWay)
  | relation (r : RawRelation)

structure Block where
  texts : Array ByteArray
  granularity : Int
  latOffset : Int
  lonOffset : Int
  dateGranularity : Int
  items : List Item

/-- Numbers of so many bits go round at the ends of their range. -/
def wrap (bits : Nat) (n : Int) : Int := n.bmod (1 <<< bits)

def runningSums (bits : Nat) : Int → List Int → List Int
  | _, [] => []
  | sum, d :: ds => wrap bits (sum + d) :: runningSums bits (wrap bits (sum + d)) ds

def ofDifferences (bits : Nat) (ds : List Int) : List Int := runningSums bits 0 ds

def infoShapes : Shapes :=
  [(1, .number .int32), (2, .number .int64), (3, .number .int64), (4, .number .int32),
    (5, .number .uint32), (6, .number .boolean)]

def readInfo (r : Region) : Option RawInfo := do
  let m ← fields infoShapes r
  return {
    version := m.number? 1
    timestamp := m.number? 2
    changeset := m.number? 3
    uid := m.number? 4
    user := (m.number? 5).map Int.toNat
    visible := (m.number? 6).getD 1 ≠ 0 }

def infoOf (m : Message) : Option RawInfo := do
  return ((← m.embedded 4 readInfo).getLast?).getD ⟨none, none, none, none, none, true⟩

def elementShapes (id : NumberType) : Shapes :=
  [(1, .number id), (2, .numbers .uint32), (3, .numbers .uint32), (4, .message)]

def tagsOf (m : Message) : List (Nat × Nat) :=
  ((m.numbers 2).map Int.toNat).zip ((m.numbers 3).map Int.toNat)

def nodeShapes : Shapes := elementShapes .sint64 ++ [(8, .number .sint64), (9, .number .sint64)]

def readNode (r : Region) : Option RawNode := do
  let m ← fields nodeShapes r
  return {
    id := ← m.number? 1
    tags := tagsOf m
    info := ← infoOf m
    lat := ← m.number? 8
    lon := ← m.number? 9 }

def wayShapes : Shapes :=
  elementShapes .int64 ++ [(8, .numbers .sint64), (9, .numbers .sint64), (10, .numbers .sint64)]

def readWay (r : Region) : Option RawWay := do
  let m ← fields wayShapes r
  return {
    id := ← m.number? 1
    tags := tagsOf m
    info := ← infoOf m
    refs := ofDifferences 64 (m.numbers 8) }

def zipMembers : List Int → List Int → List Int → List RawMember
  | role :: roles, id :: ids, kind :: kinds => ⟨role, id, kind⟩ :: zipMembers roles ids kinds
  | _, _, _ => []

def relationShapes : Shapes :=
  elementShapes .int64 ++ [(8, .numbers .int32), (9, .numbers .sint64), (10, .numbers .int32)]

def readRelation (r : Region) : Option RawRelation := do
  let m ← fields relationShapes r
  return {
    id := ← m.number? 1
    tags := tagsOf m
    info := ← infoOf m
    members := zipMembers (m.numbers 8) (ofDifferences 64 (m.numbers 9)) (m.numbers 10) }

def zipInfos : List Int → List Int → List Int → List Int → List Int → List Bool → List DenseInfo
  | version :: vs, timestamp :: ts, changeset :: cs, uid :: us, user :: ns, visible =>
    ⟨version, timestamp, changeset, uid, user, visible.head?.getD true⟩ ::
      zipInfos vs ts cs us ns visible.tail
  | _, _, _, _, _, _ => []

def denseInfoShapes : Shapes :=
  [(1, .numbers .int32), (2, .numbers .sint64), (3, .numbers .sint64), (4, .numbers .sint32),
    (5, .numbers .sint32), (6, .numbers .boolean)]

def readDenseInfos (r : Region) : Option (List DenseInfo) := do
  let m ← fields denseInfoShapes r
  return zipInfos (m.numbers 1) (ofDifferences 64 (m.numbers 2)) (ofDifferences 64 (m.numbers 3))
    (ofDifferences 32 (m.numbers 4)) (ofDifferences 32 (m.numbers 5)) ((m.numbers 6).map (· ≠ 0))

def takeTags : List Int → List (Int × Int) × List Int
  | [] => ([], [])
  | [_] => ([], [])
  | key :: value :: rest =>
    if key = 0 then ([], value :: rest)
    else
      let (tags, rest) := takeTags rest
      ((key, value) :: tags, rest)

def zipDense : List Int → List Int → List Int → List Int → List DenseInfo → List DenseNode
  | id :: ids, lat :: lats, lon :: lons, texts, infos =>
    let (tags, texts) := takeTags texts
    ⟨id, tags, infos.head?, lat, lon⟩ :: zipDense ids lats lons texts infos.tail
  | _, _, _, _, _ => []

def denseShapes : Shapes :=
  [(1, .numbers .sint64), (5, .message), (8, .numbers .sint64), (9, .numbers .sint64),
    (10, .numbers .int32)]

def readDense (r : Region) : Option (List DenseNode) := do
  let m ← fields denseShapes r
  let infos := ((← m.embedded 5 readDenseInfos).getLast?).getD []
  return zipDense (ofDifferences 64 (m.numbers 1)) (ofDifferences 64 (m.numbers 8))
    (ofDifferences 64 (m.numbers 9)) (m.numbers 10) infos

def readChangeset (r : Region) : Option Int := do (← fields [(1, .number .int64)] r).number? 1

def groupShapes : Shapes :=
  [(1, .message), (2, .message), (3, .message), (4, .message), (5, .message)]

def readGroup (r : Region) : Option (List Item) := do
  let m ← fields groupShapes r
  let nodes ← m.embedded 1 readNode
  let dense ← m.embedded 2 readDense
  let ways ← m.embedded 3 readWay
  let relations ← m.embedded 4 readRelation
  let _ ← m.embedded 5 readChangeset
  return (dense.getLast?.getD []).map .dense ++ nodes.map .node ++ ways.map .way ++
    relations.map .relation

def readTexts (r : Region) : Option (List ByteArray) := do
  return (← fields [(1, .bytes)] r).chunks 1

def blockShapes : Shapes :=
  [(1, .message), (2, .message), (17, .number .int32), (18, .number .int32), (19, .number .int64),
    (20, .number .int64)]

def readBlock (b : ByteArray) : Option Block := do
  let m ← fields blockShapes (.outermost b)
  return {
    texts := (← (← m.embedded 1 readTexts).getLast?).toArray
    granularity := (m.number? 17).getD 100
    latOffset := (m.number? 19).getD 0
    lonOffset := (m.number? 20).getD 0
    dateGranularity := (m.number? 18).getD 1000
    items := (← m.embedded 2 readGroup).flatten }

namespace Block

def text? (b : Block) (index : Int) : Option String := do
  if index < 0 then none
  else String.fromUTF8? (← b.texts[index.toNat]?)

def tags (b : Block) : List (Int × Int) → Tags
  | [] => []
  | (key, value) :: rest =>
    match b.text? key, b.text? value with
    | some k, some v => (k, v) :: b.tags rest
    | _, _ => []

def degrees (nano : Int) : Binary64 := (Binary64.ofRatio 1 1000000000).mul (.ofInt nano)

def location (b : Block) (lat lon : Int) : Location :=
  .ofDegrees (degrees (wrap 64 (b.lonOffset + b.granularity * lon)))
    (degrees (wrap 64 (b.latOffset + b.granularity * lat)))

def instant (b : Block) (timestamp : Int) : Option String :=
  Timestamp.ofMillis (wrap 64 (timestamp * b.dateGranularity))

def metadata (b : Block) (i : RawInfo) : Metadata where
  version := i.version
  changeset := i.changeset
  timestamp := i.timestamp.bind b.instant
  uid := i.uid
  user := i.user.bind fun index => b.text? index
  visible := i.visible

def denseMetadata (b : Block) (i : DenseInfo) : Metadata where
  version := some i.version
  changeset := some i.changeset
  timestamp := b.instant i.timestamp
  uid := some i.uid
  user := b.text? i.user
  visible := i.visible

def pairs (tags : List (Nat × Nat)) : List (Int × Int) :=
  tags.map fun (k, v) => ((k : Int), (v : Int))

def memberKind : Int → Option Kind
  | 0 => some .node
  | 1 => some .way
  | 2 => some .relation
  | _ => none

def member (b : Block) (m : RawMember) : Option Member := do
  return ⟨← memberKind m.kind, m.id, (b.text? m.role).getD ""⟩

end Block

def Item.kind : Item → Kind
  | dense _ => .node
  | node _ => .node
  | way _ => .way
  | relation _ => .relation

def Item.element? (b : Block) (metadata : Bool) : Item → Option Element
  | dense n => some <| .node ⟨n.id, b.location n.lat n.lon, b.tags n.tags,
      if metadata then n.info.map b.denseMetadata else none⟩
  | node n => some <| .node ⟨n.id, b.location n.lat n.lon, b.tags (Block.pairs n.tags),
      if metadata then some (b.metadata n.info) else none⟩
  | way w => some <| .way ⟨w.id, w.refs, b.tags (Block.pairs w.tags),
      if metadata then some (b.metadata w.info) else none⟩
  | relation r => do
    let members ← r.members.mapM b.member
    return .relation ⟨r.id, members, b.tags (Block.pairs r.tags),
      if metadata then some (b.metadata r.info) else none⟩

def Block.elements? (b : Block) (kinds : Kinds) (metadata : Bool) : Option (List Element) :=
  (b.items.filter fun item => kinds.contains item.kind).mapM fun item => item.element? b metadata

def boxShapes : Shapes :=
  [(1, .number .sint64), (2, .number .sint64), (3, .number .sint64), (4, .number .sint64)]

def featuresShapes : Shapes :=
  [(1, .message), (4, .text), (5, .text), (16, .text), (17, .text), (32, .number .int64),
    (33, .number .int64), (34, .text)]

def readFeatures (b : ByteArray) : Option (List String) := do
  let m ← fields featuresShapes (.outermost b)
  let boxes ← m.embedded 1 (fields boxShapes)
  if boxes.getLast?.any fun box => boxShapes.any fun (n, _) => (box.number? n).isNone then none
  return m.texts 4 ++ m.texts 5

def declaresOrder (features : List String) : Bool :=
  features.any fun f => lowered (trimmed f) == "sort.type_then_id"

end Cutout.Pbf
