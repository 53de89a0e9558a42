import Cutout.Output
import Cutout.Proofs.Places
/-! What outlets bring to their files. An outlet that has been given a text holds back its end and has
handed on the rest; nothing that it does reaches another place. The second holds after a failure too. -/
namespace Cutout

namespace Sent
variable {ε α β γ : Type} {owns : α → Place → Prop} {a : α} {d : Delivery}

structure Stays (owns : α → Place → Prop) (a : α) (d : Delivery) (s : Sent ε α) : Prop where
  owned : owns s.sender = owns a
  elsewhere : ∀ place, ¬ owns a place → s.delivery.files.get? place = d.files.get? place

theorem Stays.refl (result : Except ε Unit) : Stays owns a d ⟨a, d, result⟩ := ⟨rfl, fun _ _ => rfl⟩

theorem Stays.trans {first second : Sent ε α} (stays : Stays owns a d first)
    (next : Stays owns first.sender first.delivery second) : Stays owns a d second := by
  refine ⟨next.owned.trans stays.owned, fun place other => ?_⟩
  have still : ¬ owns first.sender place := by rwa [stays.owned]
  exact (next.elsewhere place still).trans (stays.elsewhere place other)

theorem Stays.andThen {s : Sent ε α} (stays : Stays owns a d s)
    {next : α → Delivery → Sent ε α} (others : ∀ a d, Stays owns a d (next a d)) :
    Stays owns a d (s.andThen next) := by
  unfold Sent.andThen
  split
  · exact stays.trans (others _ _)
  · exact stays

theorem andThenPassed {s : Sent ε α} {next : α → Delivery → Sent ε α}
    (passed : (s.andThen next).result = .ok ()) :
    s.result = .ok () ∧ s.andThen next = next s.sender s.delivery := by
  unfold andThen at passed ⊢
  split at passed
  · rename_i first
    exact ⟨first, rfl⟩
  · rename_i first
    cases first.symm.trans passed

section Sending
variable {send : α → β → Delivery → Sent ε α}

theorem staysAll (stays : ∀ a b d, Stays owns a d (send a b d)) (bs : List β) (a : α)
    (d : Delivery) : Stays owns a d (all send a bs d) := by
  induction bs generalizing a d with
  | nil => exact .refl _
  | cons b rest ih => exact (stays a b d).andThen ih

theorem passedFrom (holds : α → List β → Delivery → Prop)
    (step : ∀ a done b d, (send a b d).result = .ok () → holds a done d →
      holds (send a b d).sender (done ++ [b]) (send a b d).delivery)
    {bs done : List β} (passed : (all send a bs d).result = .ok ()) (before : holds a done d) :
    holds (all send a bs d).sender (done ++ bs) (all send a bs d).delivery := by
  induction bs generalizing a d done with
  | nil => rwa [List.append_nil]
  | cons b rest ih =>
    obtain ⟨first, goesOn⟩ := andThenPassed passed
    rw [all] at passed ⊢
    rw [goesOn] at passed ⊢
    rw [List.append_cons]
    exact ih passed (step a done b d first before)

theorem passedAll (holds : α → List β → Delivery → Prop)
    (step : ∀ a done b d, (send a b d).result = .ok () → holds a done d →
      holds (send a b d).sender (done ++ [b]) (send a b d).delivery)
    {bs : List β} (passed : (all send a bs d).result = .ok ()) (before : holds a [] d) :
    holds (all send a bs d).sender bs (all send a bs d).delivery :=
  passedFrom holds step passed before

theorem allMap (send : α → γ → Delivery → Sent ε α) (f : β → γ) (bs : List β) (a : α)
    (d : Delivery) : all send a (bs.map f) d = all (fun a b d => send a (f b) d) a bs d := by
  induction bs generalizing a d with
  | nil => rfl
  | cons b rest ih => simp only [List.map_cons, all, ih]

theorem allCongr (inv : α → Prop) (kept : ∀ a b d, inv a → inv (send a b d).sender) {f : β → β}
    (same : ∀ a b d, inv a → send a (f b) d = send a b d) (bs : List β) (begun : inv a)
    (d : Delivery) : all send a (bs.map f) d = all send a bs d := by
  induction bs generalizing a d with
  | nil => rfl
  | cons b rest ih =>
    rw [List.map_cons, all, all, same a b d begun]
    unfold andThen
    split
    · exact ih (kept a b d begun) _
    · rfl

theorem sameAll (view : α → γ) (same : ∀ a b d, view (send a b d).sender = view a) (bs : List β)
    (a : α) (d : Delivery) : view (all send a bs d).sender = view a := by
  induction bs generalizing a d with
  | nil => rfl
  | cons b rest ih =>
    rw [all, andThen]
    split
    · exact (ih _ _).trans (same a b d)
    · exact same a b d

theorem sameEach (view : α → γ) (same : ∀ a b d, view (send a b d).sender = view a) (as : List α)
    (bs : List β) (d : Delivery) : (each send as bs d).sender.map view = as.map view := by
  induction as generalizing bs d with
  | nil => rfl
  | cons a as ih =>
    cases bs with
    | nil => rfl
    | cons b bs =>
      rw [each]
      dsimp only
      split
      · rw [List.map_cons, List.map_cons, same, ih]
      · rw [List.map_cons, List.map_cons, same]

theorem eachCongr (inv : α → Prop) {f : β → β}
    (same : ∀ a b d, inv a → send a (f b) d = send a b d) {as : List α} (begun : ∀ a ∈ as, inv a)
    (bs : List β) (d : Delivery) : each send as (bs.map f) d = each send as bs d := by
  induction as generalizing bs d with
  | nil => cases bs <;> rfl
  | cons a as ih =>
    cases bs with
    | nil => rfl
    | cons b bs =>
      obtain ⟨first, others⟩ := List.forall_mem_cons.mp begun
      rw [List.map_cons, each, each, same a b d first, ih others]

theorem goesThroughAll (passes : ∀ a b d, (send a b d).result = .ok ()) (bs : List β) (a : α)
    (d : Delivery) : (all send a bs d).result = .ok () := by
  induction bs generalizing a d with
  | nil => rfl
  | cons b rest ih =>
    rw [all, andThen, passes]
    exact ih _ _

theorem goesThroughEach (passes : ∀ a b d, (send a b d).result = .ok ()) (as : List α)
    (bs : List β) (d : Delivery) : (each send as bs d).result = .ok () := by
  induction as generalizing bs d with
  | nil => rfl
  | cons a as ih =>
    cases bs with
    | nil => rfl
    | cons b bs =>
      rw [each]
      dsimp only
      rw [passes]
      exact ih bs _

def ownsAny (owns : α → Place → Prop) (as : List α) (place : Place) : Prop := ∃ a ∈ as, owns a place

theorem ownsAnyCons {as : List α} {place : Place} :
    ownsAny owns (a :: as) place ↔ owns a place ∨ ownsAny owns as place := by
  simp [ownsAny]

theorem staysEach (stays : ∀ a b d, Stays owns a d (send a b d)) (as : List α) (bs : List β)
    (d : Delivery) : Stays (ownsAny owns) as d (each send as bs d) := by
  induction as generalizing bs d with
  | nil => exact .refl _
  | cons a as ih =>
    cases bs with
    | nil => exact .refl _
    | cons b bs =>
      have first := stays a b d
      have others := ih bs (send a b d).delivery
      have all (more : List α) (same : ownsAny owns more = ownsAny owns as) :
          ownsAny owns ((send a b d).sender :: more) = ownsAny owns (a :: as) := by
        funext place
        rw [eq_iff_iff, ownsAnyCons, ownsAnyCons, first.owned, same]
      rw [each]
      dsimp only
      split
      · refine ⟨all _ others.owned, fun place other => ?_⟩
        rw [ownsAnyCons, not_or] at other
        exact (others.elsewhere place other.2).trans (first.elsewhere place other.1)
      · refine ⟨all as rfl, fun place other => ?_⟩
        rw [ownsAnyCons, not_or] at other
        exact first.elsewhere place other.1

theorem eachAt (stays : ∀ a b d, Stays owns a d (send a b d)) {as : List α} {bs : List β}
    (apart : as.Pairwise fun a c => ∀ place, owns a place → ¬ owns c place)
    (passed : (each send as bs d).result = .ok ()) {i : Nat} {b : β} (here : as[i]? = some a)
    (given : bs[i]? = some b) :
    ∃ e, (∀ place, owns a place → e.files.get? place = d.files.get? place) ∧
      (send a b e).result = .ok () ∧ (each send as bs d).sender[i]? = some (send a b e).sender ∧
      ∀ place, owns a place →
        (each send as bs d).delivery.files.get? place = (send a b e).delivery.files.get? place := by
  induction as generalizing bs d i with
  | nil => cases here
  | cons c as ih =>
    cases bs with
    | nil => cases given
    | cons f bs =>
      obtain ⟨alone, apart⟩ := List.pairwise_cons.mp apart
      rw [each] at passed ⊢
      dsimp only at passed ⊢
      split at passed
      · rename_i first
        cases i with
        | zero =>
          cases here
          cases given
          refine ⟨d, fun _ _ => rfl, first, rfl, fun place mine => ?_⟩
          refine (staysEach stays as bs _).elsewhere place fun ⟨other, mem, its⟩ => ?_
          exact alone other mem place mine its
        | succ i =>
          obtain ⟨e, before, passes, found, after⟩ := ih apart passed here given
          refine ⟨e, fun place mine => (before place mine).trans ?_, passes, found, after⟩
          refine (stays c f d).elsewhere place fun its => ?_
          exact alone a (List.mem_of_getElem? here) place its mine
      · cases passed

end Sending
end Sent

namespace Outlet
variable {m : Medium} {o : Outlet} {d e : Delivery} {text done : String}

def Owns (o : Outlet) (place : Place) : Prop := o.place = some place

def Placed (o : Outlet) (done : String) (d : Delivery) : Prop :=
  ∀ place, o.place = some place →
    d.files.get? place = some (.text done) ∧ o.handed = done.utf8ByteSize

def Holds (o : Outlet) (text : String) (d : Delivery) : Prop :=
  ∃ done, o.Placed done d ∧ done ++ o.held = text

theorem Holds.elsewhere (holds : o.Holds text d)
    (same : ∀ place, o.Owns place → e.files.get? place = d.files.get? place) : o.Holds text e := by
  obtain ⟨done, placed, whole⟩ := holds
  refine ⟨done, fun place here => ?_, whole⟩
  rw [same place here]
  exact placed place here

theorem staysHandOn (m : Medium) (o : Outlet) (text : String) (d : Delivery) :
    Sent.Stays Owns o d (o.handOn m text d) := by
  refine ⟨rfl, fun place other => ?_⟩
  unfold handOn bring
  cases here : o.place with
  | none => rfl
  | some there =>
    have apart : ¬ place = there := fun same => other (same ▸ here)
    simp only [Files.getOverlay, if_neg apart]

theorem staysFlush (m : Medium) (o : Outlet) (d : Delivery) :
    Sent.Stays Owns o d (o.flush m d) := by
  unfold flush
  split
  · exact .refl _
  · exact ⟨rfl, (staysHandOn m { o with held := m.leaves d.transfers o.held } o.held d).elsewhere⟩

theorem staysPut (m : Medium) (o : Outlet) (piece : String) (d : Delivery) :
    Sent.Stays Owns o d (o.put m piece d) := by
  unfold put
  have emptied : Sent.Stays Owns o d (if capacity - o.held.utf8ByteSize < piece.utf8ByteSize then
      o.flush m d else ⟨o, d, .ok ()⟩) := by
    split
    · exact staysFlush m o d
    · exact .refl _
  refine emptied.andThen fun o d => ?_
  split
  · exact staysHandOn m o piece d
  · exact ⟨rfl, fun _ _ => rfl⟩

theorem staysPutAll (m : Medium) (o : Outlet) (pieces : List String) (d : Delivery) :
    Sent.Stays Owns o d (o.putAll m pieces d) := Sent.staysAll (staysPut m) pieces o d

theorem staysEnd (m : Medium) (o : Outlet) (pieces : List String) (d : Delivery) :
    Sent.Stays Owns o d ((o.putAll m pieces d).andThen (flush m)) :=
  (staysPutAll m o pieces d).andThen (staysFlush m)

theorem soundFlush (o : Outlet) (d : Delivery) : (o.flush .sound d).result = .ok () := by
  unfold flush
  split <;> rfl

theorem soundPut (o : Outlet) (piece : String) (d : Delivery) :
    (o.put .sound piece d).result = .ok () := by
  have emptied : (if capacity - o.held.utf8ByteSize < piece.utf8ByteSize then o.flush .sound d
      else ⟨o, d, .ok ()⟩).result = .ok () := by
    split
    · exact soundFlush o d
    · rfl
  unfold put Sent.andThen
  dsimp only
  rw [emptied]
  dsimp only
  split <;> rfl

theorem soundPutAll (o : Outlet) (pieces : List String) (d : Delivery) :
    (o.putAll .sound pieces d).result = .ok () := Sent.goesThroughAll soundPut pieces o d

theorem handOnPassed (passed : (o.handOn m text d).result = .ok ()) :
    m d.transfers = none ∧ m.brings d.transfers text = text := by
  unfold handOn at passed
  have sound : m d.transfers = none := by
    dsimp only at passed
    split at passed
    · rename_i none
      simpa using none
    · cases passed
  exact ⟨sound, by rw [Medium.brings, sound]⟩

theorem placedHandOn (passed : (o.handOn m text d).result = .ok ()) (placed : o.Placed done d) :
    (o.handOn m text d).sender.Placed (done ++ text) (o.handOn m text d).delivery := by
  intro place here
  have here : o.place = some place := here
  obtain ⟨has, handed⟩ := placed place here
  simp only [handOn, bring, (handOnPassed passed).2, here, Files.getOverlay, has, handed]
  simp [Content.overlay]

theorem holdsHandOn (empty : o.held = "") {piece : String}
    (passed : (o.handOn m piece d).result = .ok ()) (holds : o.Holds text d) :
    (o.handOn m piece d).sender.Holds (text ++ piece) (o.handOn m piece d).delivery := by
  obtain ⟨done, placed, whole⟩ := holds
  refine ⟨done ++ piece, placedHandOn passed placed, ?_⟩
  have still : (o.handOn m piece d).sender.held = "" := empty
  rw [empty, String.append_empty] at whole
  rw [still, String.append_empty, whole]

theorem holdsFlush (passed : (o.flush m d).result = .ok ()) (holds : o.Holds text d) :
    (o.flush m d).sender.Holds text (o.flush m d).delivery ∧ (o.flush m d).sender.held = "" := by
  unfold flush at passed ⊢
  split at passed
  · rename_i empty
    rw [if_pos empty]
    exact ⟨holds, by simpa using empty⟩
  · rename_i full
    rw [if_neg full]
    obtain ⟨done, placed, whole⟩ := holds
    have empty : m.leaves d.transfers o.held = "" := by
      rw [Medium.leaves, (handOnPassed passed).1]
    have emptied : ({ o with held := m.leaves d.transfers o.held } : Outlet).Placed done d := placed
    refine ⟨⟨done ++ o.held, placedHandOn passed emptied, ?_⟩, empty⟩
    rw [whole]
    exact (congrArg (text ++ ·) empty).trans String.append_empty

theorem holdsPut {piece : String} (passed : (o.put m piece d).result = .ok ())
    (holds : o.Holds text d) :
    (o.put m piece d).sender.Holds (text ++ piece) (o.put m piece d).delivery := by
  unfold put at passed ⊢
  -- A piece that goes past the buffer finds it empty: either it has just been emptied, or all of it
  -- was free.
  have emptied {s : Sent Unit Outlet} (taken : s.result = .ok () → s.sender.Holds text s.delivery ∧
      (capacity ≤ piece.utf8ByteSize → s.sender.held = ""))
      {next : Outlet → Delivery → Sent Unit Outlet}
      (here : next = fun o d => if capacity ≤ piece.utf8ByteSize then o.handOn m piece d
        else ⟨{ o with held := o.held ++ piece }, d, .ok ()⟩)
      (passed : (s.andThen next).result = .ok ()) :
      (s.andThen next).sender.Holds (text ++ piece) (s.andThen next).delivery := by
    obtain ⟨first, goesOn⟩ := Sent.andThenPassed passed
    obtain ⟨held, free⟩ := taken first
    rw [goesOn, here] at passed ⊢
    by_cases large : capacity ≤ piece.utf8ByteSize
    · simp only [if_pos large] at passed ⊢
      exact holdsHandOn (free large) passed held
    · simp only [if_neg large]
      obtain ⟨done, placed, whole⟩ := held
      exact ⟨done, placed, by rw [← whole, String.append_assoc]⟩
  refine emptied (fun first => ?_) rfl passed
  split at first
  · rename_i full
    rw [if_pos full]
    obtain ⟨held, empty⟩ := holdsFlush first holds
    exact ⟨held, fun _ => empty⟩
  · rename_i full
    rw [if_neg full]
    refine ⟨holds, fun large => ?_⟩
    have none : o.held.utf8ByteSize = 0 := by
      have some : 0 < capacity := by decide
      omega
    simpa using none

theorem holdsPutAll {pieces : List String} (passed : (o.putAll m pieces d).result = .ok ())
    (holds : o.Holds text d) : (o.putAll m pieces d).sender.Holds (text ++ String.join pieces)
      (o.putAll m pieces d).delivery := by
  refine Sent.passedAll (fun o done d => o.Holds (text ++ String.join done) d)
    (fun o done piece d passed held => ?_) passed ?_
  · rw [String.join_append, String.join_cons, String.join_nil, String.append_empty,
      ← String.append_assoc]
    exact holdsPut passed held
  · rwa [String.join_nil, String.append_empty]

end Outlet
end Cutout
