import Cutout.Proofs.Cleaning
import Cutout.Proofs.Exactness
import Cutout.Proofs.Outputs
/-! Metadata that is left out cannot be told from the outputs. No step of a run looks at it: a run over
cleaned elements is the run over the elements as they are, with all that it holds cleaned. -/
namespace Cutout

namespace Extract

def rewritten (x : Extract) (f : Array Element → Array Element) : Extract :=
  { x with written := f x.written }

variable {x : Extract} {f : Array Element → Array Element}

theorem pullInRewritten (kind : Kind) (key : Nat) :
    (x.rewritten f).pullIn kind key = (x.pullIn kind key).rewritten f := by
  unfold pullIn rewritten
  split <;> rfl

theorem wayNodesRewritten (w : Way) :
    (x.rewritten f).addWayNodes w = (x.addWayNodes w).rewritten f :=
  List.foldl_hom (rewritten · f) fun _ _ => pullInRewritten _ _

theorem membersRewritten (r : Relation) :
    (x.rewritten f).addMembers r = (x.addMembers r).rewritten f := by
  refine List.foldl_hom (rewritten · f) fun y m => ?_
  split
  · rfl
  · exact pullInRewritten _ _

theorem iteRewritten {p : Prop} [Decidable p] {y z : Extract} :
    (if p then y.rewritten f else z.rewritten f) = (if p then y else z).rewritten f := by
  split <;> rfl

end Extract

namespace Strategy
open Extract
variable {x : Extract} {f : Array Element → Array Element}

theorem findNodeRewritten (n : Node) : findNode (x.rewritten f) n = (findNode x n).rewritten f := by
  refine Eq.trans ?_ iteRewritten
  rfl

theorem SystemOptions.findRewritten (o : SystemOptions) (e : Element) :
    o.find (x.rewritten f) e = (o.find x e).rewritten f := by
  cases e with
  | node n => exact findNodeRewritten n
  | way w =>
    refine Eq.trans ?_ iteRewritten
    rw [← wayNodesRewritten]
    rfl
  | relation r =>
    refine Eq.trans ?_ iteRewritten
    rw [← iteRewritten, ← membersRewritten]
    rfl

theorem FirstNodeOptions.settleRewritten (o : FirstNodeOptions) (r : Relation) (inside : Nat) :
    o.settle r inside (x.rewritten f) = (o.settle r inside x).rewritten f := by
  have primary : (x.rewritten f).addPrimary .relation r.key =
      (x.addPrimary .relation r.key).rewritten f := rfl
  rw [settle, settle, primary]
  simp only [iteRewritten, membersRewritten]

theorem FirstNodeOptions.findRewritten (o : FirstNodeOptions) (e : Element) :
    o.find (x.rewritten f) e = (o.find x e).rewritten f := by
  cases e with
  | node n => exact findNodeRewritten n
  | way w =>
    refine Eq.trans ?_ iteRewritten
    rfl
  | relation r =>
    have same : isInside (x.rewritten f) = isInside x := rfl
    rw [find, find, findRelationIs, findRelationIs, same, settleRewritten]

theorem SystemOptions.systemRewritten (o : SystemOptions) (e : Element) :
    o.completeSystem (x.rewritten f) e = (o.completeSystem x e).rewritten f := by
  cases e with
  | relation r =>
    refine Eq.trans ?_ iteRewritten
    rw [← membersRewritten]
    rfl
  | _ => rfl

theorem SystemOptions.extraWayRewritten (e : Element) :
    completeExtraWay (x.rewritten f) e = (completeExtraWay x e).rewritten f := by
  cases e with
  | way w =>
    refine Eq.trans ?_ iteRewritten
    rw [← wayNodesRewritten]
    rfl
  | _ => rfl

theorem FirstNodeOptions.wayRewritten (e : Element) :
    completeWay (x.rewritten f) e = (completeWay x e).rewritten f := by
  cases e with
  | way w =>
    refine Eq.trans ?_ iteRewritten
    rw [← wayNodesRewritten]
    rfl
  | _ => rfl

end Strategy

variable {clean : List MetaAttribute}

def Extract.cleaned (clean : List MetaAttribute) (x : Extract) : Extract :=
  x.rewritten (·.map (.cleaned clean))

theorem Extract.includesCleaned (x : Extract) (e : Element) :
    (x.cleaned clean).includes (e.cleaned clean).kind (e.cleaned clean).key =
      x.includes e.kind e.key := by
  rw [Element.kindCleaned, Element.keyCleaned]
  rfl

theorem Extract.selectedCleaned (x : Extract) (elements : List Element) :
    (x.cleaned clean).selected (elements.map (.cleaned clean)) =
      (x.selected elements).map (.cleaned clean) := by
  simp only [Extract.selected, List.filter_map, Function.comp_def, Extract.includesCleaned]

def Scan.cleaned (clean : List MetaAttribute) (scan : Scan) : Scan :=
  { scan with batches := scan.batches.map (·.map (.cleaned clean)) }

namespace Pass
variable {σ : Type} {p : Pass σ}

structure Cleans (clean : List MetaAttribute) (p : Pass σ) : Prop where
  observe : ∀ s e, p.observe s (e.cleaned clean) = p.observe s e
  visit : ∀ x e, p.visit (x.cleaned clean) (e.cleaned clean) = (p.visit x e).cleaned clean

theorem Blind.cleans (blind : p.Blind)
    (rewritten : ∀ {x f} e, p.visit (x.rewritten f) e = (p.visit x e).rewritten f) :
    p.Cleans clean where
  observe s e := by rw [← blind.observe, Element.bareCleaned, blind.observe]
  visit x e := by
    rw [← blind.visit, Element.bareCleaned, blind.visit]
    exact rewritten e

theorem writeCleans : write.Cleans clean where
  observe _ _ := rfl
  visit x e := by
    refine Eq.trans ?_ Extract.iteRewritten
    simp only [write, stateless, Extract.writeIncluded, Extract.includesCleaned]
    simp only [Extract.rewritten, Extract.cleaned, Array.map_push]

namespace Cleans
variable (cleans : p.Cleans clean)
include cleans

theorem observeAll (batch : List Element) (s : σ) :
    (batch.map (.cleaned clean)).foldlM p.observe s = batch.foldlM p.observe s := by
  rw [List.foldlM_map]
  simp only [cleans.observe]

theorem overBatch (turns others : List Nat) (batch : List Element) (xs : List Extract) :
    p.overBatch others (batch.map (.cleaned clean)) (xs.map (.cleaned clean)) =
      (p.overBatch turns batch xs).map (.cleaned clean) := by
  rw [overBatchEach, overBatchEach, List.map_map, List.map_map]
  refine List.map_congr_left fun x _ => ?_
  rw [Function.comp_apply, Function.comp_apply, List.foldl_map]
  exact List.foldl_hom (Extract.cleaned clean) fun y e => (cleans.visit y e)

theorem overBatches (turns others : Nat → List Nat) (batches : List (List Element)) (s : σ)
    (xs : List Extract) :
    p.overBatches others (batches.map (·.map (.cleaned clean))) s (xs.map (.cleaned clean)) =
      let taken := p.overBatches turns batches s xs
      (taken.1.map (.cleaned clean), taken.2) := by
  induction batches generalizing turns others s xs with
  | nil => rfl
  | cons batch rest ih =>
    rw [List.map_cons, Pass.overBatches, Pass.overBatches, cleans.observeAll]
    cases batch.foldlM p.observe s with
    | error fault => rfl
    | ok next =>
      dsimp only
      rw [cleans.overBatch (turns 0), ih]

theorem overScan (turns others : Nat → List Nat) (scan : Scan) (s : σ) (xs : List Extract) :
    p.overScan others (scan.cleaned clean) s (xs.map (.cleaned clean)) =
      let taken := p.overScan turns scan s xs
      (taken.1.map (.cleaned clean), taken.2) := by
  have taken := cleans.overBatches turns others scan.batches s xs
  rw [Pass.overScan, Pass.overScan, Scan.cleaned, taken]
  cases p.overBatches turns scan.batches s xs with
  | mk ys result => cases result <;> rfl

end Cleans
end Pass

def Stand.cleaned (clean : List MetaAttribute) (s : Stand) : Stand where
  extracts := s.extracts.map (.cleaned clean)
  scans := s.scans
  rounds := s.rounds.map (·.map (·.map (.cleaned clean)))

structure Source.CleansTo (clean : List MetaAttribute) (source other : Source) : Prop where
  rereadable : other.rereadable = source.rereadable
  batches : ∀ kinds metadata,
    (other.read kinds metadata).batches = ((source.read kinds metadata).cleaned clean).batches
  ending : ∀ kinds metadata, (other.read kinds metadata).ending = (source.read kinds metadata).ending

theorem Source.CleansTo.scan {source other : Source} (stripped : source.CleansTo clean other)
    (earlier : Nat) (kinds : Kinds) (metadata : Bool) :
    (other.scan earlier kinds metadata).batches =
        ((source.scan earlier kinds metadata).cleaned clean).batches ∧
      (other.scan earlier kinds metadata).ending = (source.scan earlier kinds metadata).ending := by
  unfold Source.scan
  rw [stripped.rereadable]
  split
  · exact ⟨rfl, rfl⟩
  · exact ⟨stripped.batches kinds metadata, stripped.ending kinds metadata⟩

namespace Step
variable {α β γ δ σ : Type}

def Cleans (clean : List MetaAttribute) (view : α → β) (step : Step α) (other : Step β) : Prop :=
  ∀ s t : Session, t.stand = s.stand.cleaned clean →
    (other.run.run t).1 = (step.run.run s).1.map view ∧
      (other.run.run t).2.stand = (step.run.run s).2.stand.cleaned clean

theorem Cleans.bind {view : α → β} {step : Step α} {other : Step β} {seen : γ → δ}
    {next : α → Step γ} {following : β → Step δ} (first : step.Cleans clean view other)
    (rest : ∀ a, (next a).Cleans clean seen (following (view a))) :
    (step >>= next).Cleans clean seen (other >>= following) := by
  intro s t stands
  obtain ⟨result, stands⟩ := first s t stands
  rw [ExceptT.run_bind, StateT.run_bind, ExceptT.run_bind, StateT.run_bind]
  cases one : step.run.run s with
  | mk given s =>
    cases two : other.run.run t with
    | mk taken t =>
      rw [one, two] at result stands
      dsimp only at result stands
      subst result
      cases given with
      | error fault => exact ⟨rfl, stands⟩
      | ok a => exact rest a s t stands

theorem cleansPure (a : α) : (pure a : Step α).Cleans clean id (pure a) :=
  fun _ _ stands => ⟨rfl, stands⟩

theorem cleansNote (n : Note) : (note n).Cleans clean id (note n) := fun _ _ stands => ⟨rfl, stands⟩

theorem cleansExtracts : extracts.Cleans clean (List.map (.cleaned clean)) extracts :=
  fun _ _ stands => ⟨congrArg (fun s : Stand => Except.ok s.extracts) stands, stands⟩

theorem cleansUpdate {f : Extract → Extract}
    (cleans : ∀ x, f (x.cleaned clean) = (f x).cleaned clean) :
    (updateExtracts f).Cleans clean id (updateExtracts f) := by
  intro s t stands
  obtain ⟨extracts, scans, rounds⟩ := Stand.mk.inj stands
  refine ⟨rfl, congr (congr (congrArg Stand.mk ?_) scans) rounds⟩
  change t.extracts.map f = (s.extracts.map f).map (.cleaned clean)
  rw [extracts]
  simp only [List.map_map, Session.stand, Function.comp_def, cleans]

section Sources
variable {source other : Source} (stripped : source.CleansTo clean other) (schedule turns : Schedule)
include stripped

theorem cleansPass {p : Pass σ} (cleans : p.Cleans clean) (start : σ) :
    (pass schedule p start source).Cleans clean id (pass turns p start other) := by
  intro s t stands
  obtain ⟨extracts, scans, rounds⟩ := Stand.mk.inj stands
  obtain ⟨batches, ending⟩ := stripped.scan s.scans.length p.kinds p.metadata
  have scanned : p.overScan (turns t.scans.length)
      (other.scan t.scans.length p.kinds p.metadata) start t.extracts =
        let taken := p.overScan (schedule s.scans.length)
          (source.scan s.scans.length p.kinds p.metadata) start s.extracts
        (taken.1.map (.cleaned clean), taken.2) := by
    refine Eq.trans ?_ (cleans.overScan _ (turns t.scans.length) _ start s.extracts)
    rw [scans, extracts]
    simp only [Pass.overScan, Session.stand, batches, ending]
    rfl
  rw [runPass, runPass]
  dsimp only
  rw [scanned]
  refine ⟨(congrFun Except.map_id _).symm, ?_⟩
  exact congr (congrArg (Stand.mk _) (congrArg (· ++ [p.kinds]) scans)) rounds

theorem cleansWrite : (write schedule source).Cleans clean id (write turns other) := by
  intro s t stands
  obtain ⟨extracts, scans, _⟩ := Stand.mk.inj stands
  have known : t.scans = s.scans := scans
  have grown : t.extracts = s.extracts.map (.cleaned clean) := extracts
  obtain ⟨batches, _⟩ := stripped.scan s.scans.length .all true
  rw [runWrite, runWrite]
  refine cleansPass stripped schedule turns Pass.writeCleans () _ _ ?_
  refine congr (congr (congrArg Stand.mk extracts) scans) ?_
  dsimp only [Session.stand]
  rw [known, grown, batches, Scan.cleaned]
  simp only [List.map_map, Function.comp_def, Extract.selectedCleaned]

end Sources
end Step

namespace Strategy
open Step
variable {source other : Source} (stripped : source.CleansTo clean other) (schedule turns : Schedule)

theorem firstPassCleans (s : Strategy) : s.firstPass.Cleans clean := by
  refine s.firstPassBlind.cleans fun e => ?_
  cases s with
  | systems o => exact o.findRewritten e
  | firstNode o => exact o.findRewritten e

theorem SystemOptions.cleansIfAny {kind : Kind} (number : Nat) {p : Pass Unit} (cleans : p.Cleans clean)
    (stripped : source.CleansTo clean other) :
    (passIfAny kind number p source schedule).Cleans clean id (passIfAny kind number p other turns) := by
  refine cleansExtracts.bind fun xs => ?_
  have same : anyExtra (xs.map (.cleaned clean)) kind = anyExtra xs kind := by
    rw [anyExtra, List.any_map]
    rfl
  rw [same]
  split
  · exact (cleansNote _).bind fun _ => (cleansPass stripped schedule turns cleans ()).bind fun _ => cleansNote _
  · exact cleansPure ()

include stripped

theorem SystemOptions.cleans (o : SystemOptions) :
    (o.run source schedule).Cleans clean id (o.run other turns) := by
  have systems : o.completeSystems.Cleans clean :=
    Pass.Blind.cleans ⟨fun _ _ => rfl, o.blindSystem⟩ o.systemRewritten
  have ways : completeExtraWays.Cleans clean :=
    Pass.Blind.cleans ⟨fun _ _ => rfl, blindExtraWay⟩ extraWayRewritten
  have first := cleansPass stripped schedule turns (firstPassCleans (.systems o)) Survey.start
  refine (cleansNote _).bind fun _ => (cleansNote _).bind fun _ => first.bind fun survey => ?_
  have networked : (updateExtracts (·.addNetwork survey.memberships.graph)).Cleans clean id _ :=
    cleansUpdate fun _ => rfl
  refine (cleansNote _).bind fun _ => networked.bind fun _ => ?_
  refine (cleansIfAny schedule turns 2 systems stripped).bind fun _ => ?_
  refine (cleansIfAny schedule turns 3 ways stripped).bind fun _ => ?_
  exact (cleansNote _).bind fun _ => (cleansWrite stripped schedule turns).bind fun _ => cleansNote _

theorem FirstNodeOptions.cleans (o : FirstNodeOptions) :
    (o.run source schedule).Cleans clean id (o.run other turns) := by
  have ways : completeWays.Cleans clean :=
    Pass.Blind.cleans ⟨fun _ _ => rfl, fun _ e => by cases e <;> rfl⟩ wayRewritten
  have first := cleansPass stripped schedule turns (firstPassCleans (.firstNode o)) Survey.start
  refine (cleansNote _).bind fun _ => (cleansNote _).bind fun _ => first.bind fun survey => ?_
  have raised : (updateExtracts (·.addParents survey.memberships.upward)).Cleans clean id _ :=
    cleansUpdate fun _ => rfl
  refine raised.bind fun _ => (cleansNote _).bind fun _ => ?_
  refine (cleansPass stripped schedule turns ways ()).bind fun _ => ?_
  exact (cleansNote _).bind fun _ => cleansWrite stripped schedule turns

theorem runCleans (s : Strategy) (regions : List Region) :
    let one := s.run source (regions.map .start) schedule
    let cleaned := s.run other (regions.map .start) turns
    cleaned.result = one.result ∧ cleaned.session.stand = one.session.stand.cleaned clean := by
  have started : (Session.start (regions.map .start)).stand =
      (Session.start (regions.map .start)).stand.cleaned clean := by
    simp [Session.start, Session.stand, Stand.cleaned, Extract.start, Extract.cleaned,
      Extract.rewritten]
  have checked : s.checkSource other = s.checkSource source := by
    rw [checkSource, checkSource, stripped.rereadable]
  unfold run
  rw [checked]
  cases s.checkSource source with
  | error fault => exact ⟨rfl, started⟩
  | ok =>
    have cleans : (s.steps source schedule).Cleans clean id (s.steps other turns) := by
      cases s with
      | systems o => exact o.cleans stripped schedule turns
      | firstNode o => exact o.cleans stripped schedule turns
    obtain ⟨result, stands⟩ := cleans _ _ started
    exact ⟨result.trans (congrFun Except.map_id _), stands⟩

end Strategy

namespace Output
variable {o : Output} (leavesOut : o.target.clean = clean) (m : Medium)
include leavesOut

theorem writeCleaned (e : Element) (d : Delivery) :
    o.write m (e.cleaned clean) d = o.write m e d := by
  have pieces : o.target.pieces (e.cleaned clean) = o.target.pieces e := by
    rw [Target.pieces, Target.pieces, leavesOut, OutputFormat.elementCleaned]
  have counts : o.counts.count (e.cleaned clean) = o.counts.count e := by
    rw [Tally.count, Tally.count, Element.kindCleaned]
  simp only [write, pieces, counts]

theorem writeAllCleaned (elements : List Element) (d : Delivery) :
    o.writeAll m (elements.map (.cleaned clean)) d = o.writeAll m elements d := by
  refine Sent.allCongr (fun o => o.target.clean = clean) (fun o e d leaves => ?_)
    (fun o e d leaves => writeCleaned leaves m e d) elements leavesOut d
  have kept : (o.write m e d).sender.target = o.target := congrArg Prod.fst (o.aimWrite m e d)
  rw [kept]
  exact leaves

end Output

namespace Run

theorem fillCleaned (m : Medium) {outputs : List Output}
    (leaveOut : ∀ t ∈ outputs.map Output.target, t.clean = clean)
    (rounds : List (List (List Element))) (d : Delivery) :
    fill m outputs (rounds.map (·.map (·.map (.cleaned clean)))) d = fill m outputs rounds d := by
  refine Sent.allCongr (fun outputs => ∀ t ∈ outputs.map Output.target, t.clean = clean)
    (fun outputs round d leave => ?_) (fun outputs round d leave => ?_) rounds leaveOut d
  · have aimed (o : Output) (es : List Element) (d : Delivery) :
        (o.writeAll m es d).sender.target = o.target := congrArg Prod.fst (o.aimWriteAll m es d)
    exact (Sent.sameEach Output.target aimed outputs round d).symm ▸ leave
  · exact Sent.eachCongr (fun o => o.target.clean = clean)
      (fun o es d leaves => Output.writeAllCleaned leaves m es d) (List.forall_mem_map.mp leave) round d

theorem concludeCleaned {one other : Outcome} (result : one.result = other.result)
    (same : one.session.stand.cleaned clean = other.session.stand.cleaned clean) (m : Medium)
    (notes : List Note) {targets : List Target} (leaveOut : ∀ t ∈ targets, t.clean = clean)
    (files : Files) :
    let report := conclude m one notes targets files
    let like := conclude m other notes targets files
    report.result = like.result ∧ report.output = like.output ∧ report.files = like.files := by
  have leave : ∀ t ∈ (targets.map Output.start).map Output.target, t.clean = clean := by
    rw [List.map_map]
    exact List.forall_mem_map.mpr leaveOut
  have filled : fill m (targets.map .start) one.session.rounds (.start files) =
      fill m (targets.map .start) other.session.rounds (.start files) := by
    have rounds := (Stand.mk.inj same).2.2
    rw [← fillCleaned m leave one.session.rounds, ← fillCleaned m leave other.session.rounds]
    exact congrArg (fill m _ · _) rounds
  intro report like
  simp only [report, like]
  unfold conclude
  rw [filled, result]
  dsimp only
  split
  · exact ⟨rfl, rfl, rfl⟩
  · split
    · exact ⟨rfl, rfl, rfl⟩
    · split <;> exact ⟨rfl, rfl, rfl⟩

end Run

theorem mapSameIff {α β : Type} {f : α → β} {xs ys : List α} :
    xs.map f = ys.map f ↔ List.Forall₂ (fun x y => f x = f y) xs ys := by
  rw [← List.forall₂_eq_eq_eq, List.forall₂_map_left_iff, List.forall₂_map_right_iff]

structure Source.AgreeBut (clean : List MetaAttribute) (one other : Source) : Prop where
  rereadable : one.rereadable = other.rereadable
  batches : ∀ kinds metadata, List.Forall₂ (List.Forall₂ (Element.AgreeBut clean))
    (one.read kinds metadata).batches (other.read kinds metadata).batches
  ending : ∀ kinds metadata, (one.read kinds metadata).ending = (other.read kinds metadata).ending

theorem Source.AgreeBut.cleansTo {one other : Source} (agree : one.AgreeBut clean other) :
    ∃ mid, one.CleansTo clean mid ∧ other.CleansTo clean mid := by
  refine ⟨{ one with read := fun kinds metadata => (one.read kinds metadata).cleaned clean },
    ⟨rfl, fun _ _ => rfl, fun _ _ => rfl⟩, agree.rereadable, fun kinds metadata => ?_, agree.ending⟩
  refine mapSameIff.mpr ((agree.batches kinds metadata).imp fun _ _ batch => ?_)
  exact mapSameIff.mpr (batch.imp fun _ _ elements => Element.cleanedIff.mpr elements)

theorem agreeInMemory {elements others : List Element}
    (same : elements.map (Element.cleaned clean) = others.map (Element.cleaned clean)) :
    (Source.inMemory elements).AgreeBut clean (.inMemory others) := by
  refine ⟨rfl, fun kinds _ => .cons ?_ .nil, fun _ _ => rfl⟩
  have wanted (elements : List Element) :
      (elements.filter fun e : Element => kinds.contains e.kind).map (Element.cleaned clean) =
        (elements.map (Element.cleaned clean)).filter fun e : Element => kinds.contains e.kind := by
    simp only [List.filter_map, Function.comp_def, Element.kindCleaned]
  have filtered := congrArg (List.filter fun e : Element => kinds.contains e.kind) same
  rw [← wanted, ← wanted, mapSameIff] at filtered
  exact filtered.imp fun _ _ agree => Element.cleanedIff.mp agree

/-- What can be told of two runs without their logs: their results, which kinds they have scanned, the sets
of their extracts, the document of each extract in either format, and all that targets get delivered over
any medium, whether the outputs are finished or left. -/
structure Outcome.LooksLike (clean : List MetaAttribute) (one other : Outcome) : Prop where
  result : one.result = other.result
  scans : one.session.scans = other.session.scans
  sets : one.session.extracts.map (fun x => (x.region, x.primary, x.extra)) =
    other.session.extracts.map fun x => (x.region, x.primary, x.extra)
  documents : ∀ format bounds,
    one.session.extracts.map (fun x => Sink.document format bounds clean x.written.toList) =
      other.session.extracts.map fun x => Sink.document format bounds clean x.written.toList
  delivered : ∀ (m : Medium) (notes : List Note) (targets : List Target),
    (∀ t ∈ targets, t.clean = clean) → ∀ files : Files,
      let report := Run.conclude m one notes targets files
      let like := Run.conclude m other notes targets files
      report.result = like.result ∧ report.output = like.output ∧ report.files = like.files

theorem Outcome.looksLike {one other : Outcome} (result : one.result = other.result)
    (same : one.session.stand.cleaned clean = other.session.stand.cleaned clean) :
    one.LooksLike clean other := by
  obtain ⟨extracts, scans, _⟩ := Stand.mk.inj same
  have viewed {α : Type} (view : Extract → α) (blind : ∀ x, view (x.cleaned clean) = view x) :
      one.session.extracts.map view = other.session.extracts.map view := by
    have seen := congrArg (List.map view) extracts
    rw [List.map_map, List.map_map] at seen
    simp only [Function.comp_def, blind] at seen
    exact seen
  refine ⟨result, scans, viewed _ fun _ => rfl, fun format bounds => viewed _ fun x => ?_,
    fun m notes _ leaveOut => Run.concludeCleaned result same m notes leaveOut⟩
  simp only [Extract.cleaned, Extract.rewritten, Array.toList_map, Sink.documentCleaned]

theorem Strategy.strippedUnseen (s : Strategy) {clean : List MetaAttribute} {one other : Source}
    (agree : one.AgreeBut clean other) (regions : List Region) (schedule turns : Schedule) :
    (s.run one (regions.map .start) schedule).LooksLike clean
      (s.run other (regions.map .start) turns) := by
  obtain ⟨mid, first, second⟩ := agree.cleansTo
  obtain ⟨result, stands⟩ := s.runCleans first schedule .oneByOne regions
  obtain ⟨sameResult, sameStands⟩ := s.runCleans second turns .oneByOne regions
  exact Outcome.looksLike (result.symm.trans sameResult) (stands.symm.trans sameStands)

/-! The crossing with nodes and ways that tell who made them, and with others. -/

namespace Strategy

def signedCrossing (node way : Option Metadata) : List Element :=
  crossing.map fun e => match e with
    | .node n => .node { n with metadata := node }
    | .way w => .way { w with metadata := way }
    | .relation r => .relation r

theorem crossingStripped :
    let one := signedCrossing (some ⟨some 2, none, none, some 7, some "ada", true⟩)
      (some ⟨none, none, none, none, some "ada", true⟩)
    let other := signedCrossing (some ⟨some 2, none, none, none, some "bob", true⟩) none
    one ≠ other ∧ (Source.inMemory one).AgreeBut [.user, .uid] (.inMemory other) ∧
      ((systems networks).run (.inMemory one) ([meridian].map .start)).LooksLike [.user, .uid]
        ((systems networks).run (.inMemory other) ([meridian].map .start)) := by
  intro one other
  have agree : (Source.inMemory one).AgreeBut [.user, .uid] (.inMemory other) :=
    agreeInMemory (by decide +kernel)
  refine ⟨by decide +kernel, agree, ?_⟩
  exact strippedUnseen (systems networks) agree [meridian] .oneByOne .oneByOne

end Strategy
end Cutout
