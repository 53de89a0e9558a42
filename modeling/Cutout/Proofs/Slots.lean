import Cutout.Extract
/-! Extracts by what they hold. A slot is a place that an id can take in an extract; an operation is
known by the slots that it gains. Where what an element gains does not depend on the elements before
it, a run over a list gains what its elements gain, in any order. -/
namespace Cutout

inductive Part where
  | primary
  | extra
  deriving DecidableEq, Repr

structure Slot where
  part : Part
  kind : Kind
  key : Nat
  deriving DecidableEq, Repr

namespace Extract

def of (x : Extract) : Part → IdSets
  | .primary => x.primary
  | .extra => x.extra

instance : Membership Slot Extract :=
  ⟨fun x slot => (x.of slot.part).contains slot.kind slot.key = true⟩

theorem memPrimary {x : Extract} {kind : Kind} {key : Nat} :
    ⟨.primary, kind, key⟩ ∈ x ↔ x.primary.contains kind key = true := Iff.rfl

theorem memExtra {x : Extract} {kind : Kind} {key : Nat} :
    ⟨.extra, kind, key⟩ ∈ x ↔ x.extra.contains kind key = true := Iff.rfl

theorem notMemStart (region : Region) (slot : Slot) : slot ∉ start region := by
  obtain ⟨part, kind, key⟩ := slot
  cases part <;> simp [start, memPrimary, memExtra]

theorem includesIff {x : Extract} {kind : Kind} {key : Nat} : x.includes kind key = true ↔
    ⟨.primary, kind, key⟩ ∈ x ∨ ⟨.extra, kind, key⟩ ∈ x := by
  simp [includes, memPrimary, memExtra]

theorem noExtraIff {x : Extract} {kind : Kind} :
    x.hasExtra kind = false ↔ ∀ key, x.extra.contains kind key = false := by
  rw [hasExtra, Bool.not_eq_false', IdSets.isEmpty, IdSet.isEmptyIff]
  exact Iff.rfl

def Pulled (x : Extract) (kind : Kind) (key : Nat) (slot : Slot) : Prop :=
  slot = ⟨.extra, kind, key⟩ ∧ ⟨.primary, kind, key⟩ ∉ x

theorem memAddPrimary {x : Extract} {kind : Kind} {key : Nat} {slot : Slot} :
    slot ∈ x.addPrimary kind key ↔ slot ∈ x ∨ slot = ⟨.primary, kind, key⟩ := by
  obtain ⟨part, kind', key'⟩ := slot
  cases part <;> simp [addPrimary, memPrimary, memExtra]

theorem memPullIn {x : Extract} {kind : Kind} {key : Nat} {slot : Slot} :
    slot ∈ x.pullIn kind key ↔ slot ∈ x ∨ x.Pulled kind key slot := by
  rw [pullIn, Pulled, memPrimary]
  obtain ⟨part, kind', key'⟩ := slot
  split
  · simp_all
  · cases part <;> simp_all [memPrimary, memExtra]

theorem memIf {p : Prop} [Decidable p] {x y : Extract} {gain : Prop} {slot : Slot}
    (gained : slot ∈ y ↔ slot ∈ x ∨ gain) :
    slot ∈ (if p then y else x) ↔ slot ∈ x ∨ (p ∧ gain) := by
  split
  · rename_i holds
    rw [gained, and_iff_right holds]
  · rename_i fails
    exact (or_iff_left fun gain => fails gain.1).symm

theorem viewIf {β : Type} (view : Extract → β) {p : Prop} [Decidable p] {x y : Extract}
    (same : view y = view x) : view (if p then y else x) = view x := by
  split
  · exact same
  · rfl

section Fold
variable {α : Type} {f : Extract → α → Extract}

theorem memFold (gain : Extract → α → Slot → Prop)
    (step : ∀ x a slot, slot ∈ f x a ↔ slot ∈ x ∨ gain x a slot)
    (stable : ∀ x a b slot, gain (f x a) b slot ↔ gain x b slot) (items : List α) (x : Extract)
    (slot : Slot) : slot ∈ items.foldl f x ↔ slot ∈ x ∨ ∃ a ∈ items, gain x a slot := by
  -- The induction is over the list; `stable` carries the gains past its head.
  induction items generalizing x with
  | nil => simp
  | cons a items ih =>
    rw [List.foldl_cons, ih, step, or_assoc]
    simp [stable]

theorem foldKeeps {β : Type} {view : Extract → β} (step : ∀ x a, view (f x a) = view x)
    (items : List α) (x : Extract) : view (items.foldl f x) = view x := by
  induction items generalizing x with
  | nil => rfl
  | cons a items ih => rw [List.foldl_cons, ih, step]

theorem foldIdle {x : Extract} {items : List α} (idle : ∀ a ∈ items, f x a = x) :
    items.foldl f x = x := by
  induction items with
  | nil => rfl
  | cons a items ih =>
    obtain ⟨first, others⟩ := List.forall_mem_cons.mp idle
    rw [List.foldl_cons, first, ih others]

end Fold

def base (x : Extract) : Region × IdSets × Array Element := (x.region, x.primary, x.written)

def frame (x : Extract) : Region × Array Element := (x.region, x.written)

theorem frameOfBase {x y : Extract} (same : y.base = x.base) : y.frame = x.frame :=
  congrArg (fun base => (base.1, base.2.2)) same

theorem primaryOfBase {x y : Extract} (same : y.base = x.base) : y.primary = x.primary :=
  congrArg (·.2.1) same

theorem regionOfFrame {x y : Extract} (same : y.frame = x.frame) : y.region = x.region :=
  congrArg Prod.fst same

theorem writtenOfFrame {x y : Extract} (same : y.frame = x.frame) : y.written = x.written :=
  congrArg Prod.snd same

theorem basePullIn (x : Extract) (kind : Kind) (key : Nat) : (x.pullIn kind key).base = x.base := by
  rw [pullIn]
  split <;> rfl

theorem baseAddWayNodes (x : Extract) (w : Way) : (x.addWayNodes w).base = x.base :=
  foldKeeps (fun x key => x.basePullIn .node key) _ x

theorem baseAddMembers (x : Extract) (r : Relation) : (x.addMembers r).base = x.base := by
  refine foldKeeps (fun x m => ?_) _ x
  split
  · rfl
  · exact x.basePullIn m.kind m.key

theorem pulledCongr {x y : Extract} (same : y.base = x.base) {kind : Kind} {key : Nat}
    {slot : Slot} : y.Pulled kind key slot ↔ x.Pulled kind key slot := by
  rw [Pulled, Pulled, memPrimary, memPrimary, primaryOfBase same]

def PulledNodes (x : Extract) (w : Way) (slot : Slot) : Prop :=
  ∃ key ∈ w.nodeKeys, x.Pulled .node key slot

theorem memAddWayNodes {x : Extract} {w : Way} {slot : Slot} :
    slot ∈ x.addWayNodes w ↔ slot ∈ x ∨ x.PulledNodes w slot :=
  memFold (fun x key slot => x.Pulled .node key slot) (fun _ _ _ => memPullIn)
    (fun x key _ _ => pulledCongr (x.basePullIn .node key)) _ x slot

def PulledMembers (x : Extract) (r : Relation) (slot : Slot) : Prop :=
  ∃ m ∈ r.members, m.kind ≠ .relation ∧ x.Pulled m.kind m.key slot

theorem memAddMembers {x : Extract} {r : Relation} {slot : Slot} :
    slot ∈ x.addMembers r ↔ slot ∈ x ∨ x.PulledMembers r slot := by
  refine memFold (fun x (m : Member) slot => m.kind ≠ .relation ∧ x.Pulled m.kind m.key slot)
    (fun x m slot => ?_) (fun x m n slot => ?_) r.members x slot
  · split
    · simp_all
    · simp_all [memPullIn]
  · split
    · rfl
    · rw [pulledCongr (x.basePullIn m.kind m.key)]

theorem foldWrite (elements : List Element) (x : Extract) : elements.foldl writeIncluded x =
    { x with written := x.written ++ elements.filter fun e => x.includes e.kind e.key } := by
  induction elements generalizing x with
  | nil => simp
  | cons e elements ih =>
    rw [List.foldl_cons, ih, writeIncluded, List.filter_cons]
    split
    · simp [includes]
    · rfl

def selected (x : Extract) (elements : List Element) : List Element :=
  elements.filter fun e => x.includes e.kind e.key

theorem selectedFoldWrite (elements batch : List Element) (x : Extract) :
    (elements.foldl writeIncluded x).selected batch = x.selected batch := by
  rw [foldWrite]
  rfl

theorem sinceFoldWrite (batch : List Element) (x : Extract) :
    (batch.foldl writeIncluded x).since x = x.selected batch := by
  rw [foldWrite, since]
  simp [selected]

@[simp] theorem notPulledNodes {x : Extract} {w : Way} {kind : Kind} {key : Nat} :
    ¬ x.PulledNodes w ⟨.primary, kind, key⟩ := by
  simp [PulledNodes, Pulled]

@[simp] theorem notPulledMembers {x : Extract} {r : Relation} {kind : Kind} {key : Nat} :
    ¬ x.PulledMembers r ⟨.primary, kind, key⟩ := by
  simp [PulledMembers, Pulled]

theorem pulledNodesIff {x : Extract} {w : Way} {kind : Kind} {key : Nat} :
    x.PulledNodes w ⟨.extra, kind, key⟩ ↔
      kind = .node ∧ key ∈ w.nodeKeys ∧ ⟨.primary, .node, key⟩ ∉ x := by
  simp only [PulledNodes, Pulled, Slot.mk.injEq, true_and]
  constructor
  · intro given
    obtain ⟨_, mem, ⟨rfl, rfl⟩, free⟩ := given
    exact ⟨rfl, mem, free⟩
  · intro given
    obtain ⟨rfl, mem, free⟩ := given
    exact ⟨key, mem, ⟨rfl, rfl⟩, free⟩

theorem pulledMembersIff {x : Extract} {r : Relation} {kind : Kind} {key : Nat} :
    x.PulledMembers r ⟨.extra, kind, key⟩ ↔ kind ≠ .relation ∧
      (∃ m ∈ r.members, m.kind = kind ∧ m.key = key) ∧ ⟨.primary, kind, key⟩ ∉ x := by
  simp only [PulledMembers, Pulled, Slot.mk.injEq, true_and]
  constructor
  · intro given
    obtain ⟨m, mem, other, ⟨rfl, rfl⟩, free⟩ := given
    exact ⟨other, ⟨m, mem, rfl, rfl⟩, free⟩
  · intro given
    obtain ⟨other, ⟨m, mem, rfl, rfl⟩, free⟩ := given
    exact ⟨m, mem, other, ⟨rfl, rfl⟩, free⟩

end Extract
end Cutout
