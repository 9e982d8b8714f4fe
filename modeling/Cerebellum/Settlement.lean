import Cerebellum.ControllerSpec
import Cerebellum.Lib.Transition

/-! Settlement of Offerings over whole runs of the controller. Publishing, peer envelopes
and the aging pass come in any order; every offer registered on the way is settled by at
most one reply or timeout, in the step that drops it from the pending map. -/
namespace Cerebellum
open CycleController Transition

inductive RitualStep where
  /-- The Prolog engine leaves an `evaluator/` event in its mailbox. -/
  | engineEmits (kind : String) (payload : Json)
  | publish (publishOk : ClaraEvent → Bool)
  | ingest (t : TephraEnvelope)
  | age

namespace CycleController
variable (ord : RowOrder) (iter : HashOrder)

def ritualStep (c : CycleController) : RitualStep → CycleController
  | .engineEmits kind payload =>
    { c with world := c.world.emit c.prologId ("evaluator/" ++ kind) payload }
  | .publish publishOk =>
    match c.ritualHandle with
    | some h => (c.publishEvaluatorEvents ord h publishOk).1
    | none => c
  | .ingest t => c.ingestTephra iter t
  | .age => c.ageOffers iter

/-- The offers one step registers as pending. -/
def registeredBy (c : CycleController) : RitualStep → List Uuid
  | .publish publishOk =>
    match c.ritualHandle with
    | some h => c.evaluatorRegisters h publishOk ord
    | none => []
  | _ => []

/-- An event the controller writes, with the offer it settles by being written. -/
structure Write where
  settles : Option Uuid
  origin : String
  payload : Json

/-- The controller's own writes in one step, oldest first. -/
def writes (c : CycleController) : RitualStep → List Write
  | .ingest t =>
    match c.ingested iter t with
    | some body => [⟨c.settled iter t, "ritual/" ++ t.label, body⟩]
    | none => []
  | .age => (c.timedOut iter).map fun cid => ⟨some cid, "ritual/tabu-timeout",
      timeoutBody (timeoutCorrelation (bump c.pendingOffers) cid)⟩
  | _ => []

/-- The correlation id an event's `_routing` block names. -/
def routingCid (payload : Json) : Option String :=
  (payload.get "_routing").bind fun r => r.strField "correlation_id"

/-- A settlement of `cid`: the reply that resolves it, or a timeout Tabu that names it. -/
def Write.isSettlement (cid : Uuid) (w : Write) : Bool :=
  w.settles == some cid ||
    (w.origin == "ritual/tabu-timeout" && routingCid w.payload == some cid.toText)

/-- The offer `cid` is dropped from the pending map by this step. -/
def drops (cid : Uuid) (c : CycleController) (s : RitualStep) : Bool :=
  decide (cid ∈ c.pendingOffers) && !decide (cid ∈ (c.ritualStep ord iter s).pendingOffers)

/-- A peer envelope that is ingested under the label of the local timeout Tabu and
names `cid`. -/
def forgesTimeout (cid : Uuid) (c : CycleController) : RitualStep → Bool
  | .ingest t =>
    match t.payload with
    | .plaintext body => t.label == "tabu-timeout" && !c.ownEcho t && !c.addressedElsewhere t &&
        routingCid (stampRouting t body) == some cid.toText
    | .encrypted _ _ _ _ => false
  | _ => false

theorem publish_spec (c : CycleController) (publishOk : ClaraEvent → Bool) :
    (∀ s, (c.ritualStep ord iter (.publish publishOk)).world.log s = c.world.log s) ∧
    ∀ k, k ∈ (c.ritualStep ord iter (.publish publishOk)).pendingOffers ↔
      k ∈ c.pendingOffers ∨ k ∈ c.registeredBy ord (.publish publishOk) := by
  unfold ritualStep registeredBy
  cases c.ritualHandle with
  | none => simp
  | some h => exact (c.publishEvaluatorEvents_spec h publishOk ord).2.2

/-- What the controller writes goes into both mailboxes alike, and nothing else does. -/
theorem ritualStep_log (c : CycleController) {s : RitualStep} {sid : Uuid} (h : c.Mailbox sid)
    (hs : ∀ kind payload, s ≠ .engineEmits kind payload) :
    (c.ritualStep ord iter s).world.log sid =
      c.world.log sid ++ (c.writes iter s).map fun w => (w.origin, w.payload) := by
  cases s with
  | engineEmits kind payload => exact absurd rfl (hs kind payload)
  | publish publishOk => simpa [writes] using (c.publish_spec ord iter publishOk).1 sid
  | age => simpa [ritualStep, writes, Function.comp_def] using c.ageOffers_log iter h
  | ingest t =>
    simp only [ritualStep, writes, ingestTephra_eq]
    cases c.ingested iter t with
    | none => simp
    | some body =>
      have hm : { c with pendingOffers := eraseOffer c.pendingOffers (c.settled iter t) }.Mailbox
        sid := h
      simpa using writeBoth_log hm _ _

theorem routingCid_timeoutBody (cid : Option Uuid) :
    routingCid (timeoutBody cid) = cid.map Uuid.toText := by
  cases cid with
  | none => decide
  | some cid => rfl

theorem timeout_isSettlement (m : PendingOffers) (k cid : Uuid) :
    Write.isSettlement cid ⟨some k, "ritual/tabu-timeout", timeoutBody (timeoutCorrelation m k)⟩ =
      (k == cid) := by
  by_cases hk : k = cid
  · simp [Write.isSettlement, hk]
  · have hr : routingCid (timeoutBody (timeoutCorrelation m k)) ≠ some cid.toText := by
      rw [routingCid_timeoutBody, timeoutCorrelation]
      cases m.lookup k with
      | none => simp
      | some o =>
        by_cases ho : o.expectsCorrelation = true
        · simp [ho, hk]
        · simp [ho]
    simp [Write.isSettlement, hk, hr]

theorem settled_of_timeout_label {c : CycleController} {t : TephraEnvelope}
    (h : t.label = "tabu-timeout") : c.settled iter t = none := by
  unfold settled
  cases t.payload with
  | encrypted => rfl
  | plaintext body => simp [TephraEnvelope.isReply, Label.hohi, Label.tabu, h]

theorem ingested_of_timeout_label {c : CycleController} {t : TephraEnvelope}
    (h : t.label = "tabu-timeout") : c.ingested iter t = match t.payload with
      | .plaintext body =>
        if c.ownEcho t || c.addressedElsewhere t then none else some (stampRouting t body)
      | .encrypted _ _ _ _ => none := by
  unfold ingested
  cases t.payload with
  | encrypted => rfl
  | plaintext body => simp [TephraEnvelope.isReply, Label.hohi, Label.tabu, h]

/-- In an ingest step a settlement is written by resolving an offer or by forging one. -/
theorem ingest_isSettlement (c : CycleController) (t : TephraEnvelope) (cid : Uuid) :
    (c.writes iter (.ingest t)).countP (Write.isSettlement cid) =
      (c.settled iter t == some cid).toNat + (c.forgesTimeout cid (.ingest t)).toNat := by
  by_cases hl : t.label = "tabu-timeout"
  · rw [writes, settled_of_timeout_label iter hl, ingested_of_timeout_label iter hl]
    cases hp : t.payload with
    | encrypted => simp [forgesTimeout, hp]
    | plaintext body =>
      by_cases hd : (c.ownEcho t || c.addressedElsewhere t) = true
      · rcases Bool.or_eq_true_iff.mp hd with h | h <;> simp [forgesTimeout, hp, h]
      · have h := hd
        simp only [Bool.or_eq_true, not_or, Bool.not_eq_true] at h
        cases hr : routingCid (stampRouting t body) == some cid.toText <;>
          simp [forgesTimeout, hp, hl, h.1, h.2, hr, Write.isSettlement]
  · have hne : "ritual/" ++ t.label ≠ "ritual/tabu-timeout" := by
      intro he
      exact hl ((String.append_right_inj "ritual/").mp (he.trans (by decide)))
    have hforge : c.forgesTimeout cid (.ingest t) = false := by
      cases hp : t.payload <;> simp [forgesTimeout, hp, hl]
    rw [hforge, writes]
    cases hi : c.ingested iter t with
    | none =>
      have hsettled : (c.settled iter t == some cid) = false := by
        refine beq_eq_false_iff_ne.mpr fun h => ?_
        obtain ⟨body, -, -, -, hb⟩ := ingested_of_settled h
        rw [hi] at hb
        cases hb
      simp [hsettled]
    | some body =>
      cases hk : c.settled iter t == some cid <;> simp [Write.isSettlement, hne, hk]

theorem ingest_drops (c : CycleController) (t : TephraEnvelope) (cid : Uuid) :
    c.drops ord iter cid (.ingest t) = (c.settled iter t == some cid) := by
  unfold drops
  simp only [ritualStep, ingestTephra_eq]
  cases hk : c.settled iter t with
  | none =>
    cases c.ingested iter t <;> by_cases hm : cid ∈ c.pendingOffers <;> simp [eraseOffer, hm]
  | some k =>
    obtain ⟨body, -, -, hr, hb⟩ := ingested_of_settled hk
    have hmem := (resolvedKey_some hr).2.1
    rw [hb]
    by_cases he : k = cid
    · subst he
      simp [eraseOffer, hmem, AList.mem_erase]
    · by_cases hm : cid ∈ c.pendingOffers <;>
        simp [eraseOffer, hm, AList.mem_erase, he, Ne.symm he]

theorem age_drops (c : CycleController) (cid : Uuid) :
    c.drops ord iter cid .age = decide (cid ∈ c.timedOut iter) := by
  have h := c.ageOffers_pending iter cid
  by_cases ht : cid ∈ c.timedOut iter
  · have hm := mem_of_mem_timedOut ht
    simp [drops, ritualStep, h, ht, hm]
  · by_cases hm : cid ∈ c.pendingOffers <;> simp [drops, ritualStep, h, ht, hm]

theorem age_isSettlement (c : CycleController) (cid : Uuid) :
    (c.writes iter .age).countP (Write.isSettlement cid) =
      (decide (cid ∈ c.timedOut iter)).toNat := by
  have hcount : (c.writes iter .age).countP (Write.isSettlement cid) =
      (c.timedOut iter).count cid := by
    simp [writes, List.countP_map, Function.comp_def, timeout_isSettlement, List.count]
  rw [hcount]
  by_cases ht : cid ∈ c.timedOut iter
  · simp [ht, List.count_eq_one_of_mem (c.timedOut_nodup iter) ht]
  · simp [ht, List.count_eq_zero_of_not_mem ht]

/-- One step: a settlement of `cid` is written for every drop of `cid` and for every
forged timeout, and for nothing else. -/
theorem settlements_eq (c : CycleController) (s : RitualStep) (cid : Uuid) :
    (c.writes iter s).countP (Write.isSettlement cid) =
      (c.drops ord iter cid s).toNat + (c.forgesTimeout cid s).toNat := by
  cases s with
  | engineEmits kind payload =>
    by_cases hm : cid ∈ c.pendingOffers <;> simp [writes, drops, ritualStep, forgesTimeout, hm]
  | publish publishOk =>
    have h := (c.publish_spec ord iter publishOk).2 cid
    by_cases hm : cid ∈ c.pendingOffers <;> simp [writes, drops, forgesTimeout, h, hm]
  | ingest t => rw [ingest_isSettlement, ingest_drops]
  | age => rw [age_isSettlement, age_drops]; rfl

/-- Only publishing adds to the pending map, and only what it registers. -/
theorem mem_registeredBy {c : CycleController} {s : RitualStep} {cid : Uuid}
    (h : cid ∉ c.pendingOffers) (h' : cid ∈ (c.ritualStep ord iter s).pendingOffers) :
    cid ∈ c.registeredBy ord s := by
  cases s with
  | engineEmits kind payload => exact absurd h' h
  | publish publishOk => exact (((c.publish_spec ord iter publishOk).2 cid).mp h').resolve_left h
  | age => exact absurd ((c.ageOffers_pending iter cid).mp h').1 h
  | ingest t =>
    simp only [ritualStep, ingestTephra_eq] at h'
    cases hi : c.ingested iter t with
    | none => exact absurd (by simpa [hi] using h') h
    | some body =>
      cases hk : c.settled iter t with
      | none => exact absurd (by simpa [hi, hk, eraseOffer] using h') h
      | some k => exact absurd (AList.mem_erase.mp (by simpa [hi, hk, eraseOffer] using h')).2 h

theorem drops_of_forgesTimeout {c : CycleController} {s : RitualStep} {cid : Uuid}
    (h : c.forgesTimeout cid s = true) : c.drops ord iter cid s = false := by
  cases s with
  | ingest t =>
    have hl : t.label = "tabu-timeout" := by
      cases hp : t.payload with
      | encrypted => simp [forgesTimeout, hp] at h
      | plaintext body =>
        simp only [forgesTimeout, hp, Bool.and_eq_true, beq_iff_eq] at h
        exact h.1.1.1
    rw [ingest_drops, settled_of_timeout_label iter hl]
    rfl
  | _ => simp [forgesTimeout] at h

/-- A late reply: our own performance, but the offer it names is no longer pending. -/
theorem ingest_late {c : CycleController} {t : TephraEnvelope} {cid : Uuid}
    (hr : t.isReply = true) (ho : c.ownPerformance t = true) (hc : t.correlationId = some cid)
    (hp : cid ∉ c.pendingOffers) : c.ingestTephra iter t = c := by
  have hk : c.resolvedKey iter t = none := by simp [resolvedKey, ho, hc, hp]
  have hi : c.ingested iter t = none := by
    cases hb : t.payload <;> simp [ingested, hb, hr, hk, ho]
  rw [ingestTephra_eq, hi]

theorem ingest_pending_of_foreign {c : CycleController} {t : TephraEnvelope}
    (ho : c.ownPerformance t = false) :
    (c.ingestTephra iter t).pendingOffers = c.pendingOffers := by
  have hk : c.resolvedKey iter t = none := by simp [resolvedKey, ho]
  have hs : c.settled iter t = none := by
    cases hb : t.payload <;> simp [settled, hb, hk]
  rw [ingestTephra_eq, hs]
  cases c.ingested iter t <;> rfl

/-- Everything registered over the run, the offers pending at its start included. -/
def registered (c : CycleController) (steps : List RitualStep) : List Uuid :=
  c.pendingOffers.keys ++
    (visits (ritualStep ord iter) c steps).flatMap fun v => v.1.registeredBy ord v.2

def allWrites (c : CycleController) (steps : List RitualStep) : List Write :=
  (visits (ritualStep ord iter) c steps).flatMap fun v => v.1.writes iter v.2

/-- Exactly-once settlement along one run. -/
structure SettlesOnce (c : CycleController) (steps : List RitualStep) : Prop where
  atMostOnce : ∀ cid ∈ c.registered ord iter steps,
    (c.allWrites ord iter steps).countP (Write.isSettlement cid) ≤ 1
  bothAlike : ∀ v ∈ visits (ritualStep ord iter) c steps, ∀ sid, v.1.Mailbox sid →
    (∀ kind payload, v.2 ≠ .engineEmits kind payload) →
    (v.1.ritualStep ord iter v.2).world.log sid =
      v.1.world.log sid ++ (v.1.writes iter v.2).map fun w => (w.origin, w.payload)
  withItsDrop : ∀ v ∈ visits (ritualStep ord iter) c steps, ∀ cid ∈ c.registered ord iter steps,
    v.1.drops ord iter cid v.2 = true ↔ ∃ w ∈ v.1.writes iter v.2, w.isSettlement cid = true
  lateReply : ∀ v ∈ visits (ritualStep ord iter) c steps, ∀ t cid, v.2 = .ingest t →
    t.isReply = true → v.1.ownPerformance t = true → t.correlationId = some cid →
    cid ∉ v.1.pendingOffers → v.1.ritualStep ord iter v.2 = v.1
  foreignReply : ∀ v ∈ visits (ritualStep ord iter) c steps, ∀ t, v.2 = .ingest t →
    v.1.ownPerformance t = false →
    (v.1.ritualStep ord iter v.2).pendingOffers = v.1.pendingOffers
  uncorrelatedReply : ∀ v ∈ visits (ritualStep ord iter) c steps, ∀ t cid, v.2 = .ingest t →
    t.correlationId = none → v.1.drops ord iter cid v.2 = true →
    ∃ o ∈ v.1.pendingOffers.lookup cid, o.expectsCorrelation = false

theorem drops_of_uncorrelated {c : CycleController} {t : TephraEnvelope} {cid : Uuid}
    (hc : t.correlationId = none) (hd : c.drops ord iter cid (.ingest t) = true) :
    ∃ o ∈ c.pendingOffers.lookup cid, o.expectsCorrelation = false := by
  rw [ingest_drops, beq_iff_eq] at hd
  obtain ⟨body, -, -, hk, -⟩ := ingested_of_settled hd
  rcases (resolvedKey_some hk).2.2 with h | ⟨-, h⟩
  · rw [hc] at h
    cases h
  · exact h

/-- With every id registered at most once, an offer is dropped at most once. -/
theorem falls_le_one {c : CycleController} {steps : List RitualStep}
    (hn : (c.registered ord iter steps).Nodup) (cid : Uuid) :
    falls (ritualStep ord iter) (fun c => decide (cid ∈ c.pendingOffers)) c steps ≤ 1 := by
  have hf := falls_le (ritualStep ord iter) (fun c => decide (cid ∈ c.pendingOffers)) c steps
  have hrise : rises (ritualStep ord iter) (fun c => decide (cid ∈ c.pendingOffers)) c steps ≤
      ((visits (ritualStep ord iter) c steps).flatMap fun v => v.1.registeredBy ord v.2).count cid := by
    refine countP_le_count_flatMap fun v _ h => ?_
    simp only [Bool.and_eq_true, Bool.not_eq_true', decide_eq_false_iff_not, decide_eq_true_eq] at h
    exact mem_registeredBy ord iter h.1 h.2
  have hstart : (decide (cid ∈ c.pendingOffers)).toNat ≤ c.pendingOffers.keys.count cid := by
    by_cases hm : cid ∈ c.pendingOffers
    · simpa [hm] using List.count_pos_iff.mpr (AList.mem_keys.mp hm)
    · simp [hm]
  have hone := List.nodup_iff_count_le_one.mp hn cid
  rw [registered, List.count_append] at hone
  omega

/-- Exactly-once settlement holds in precisely the runs in which no peer envelope is
ingested under the local `tabu-timeout` label with the id of a registered offer. -/
theorem settles_once_iff (c : CycleController) (steps : List RitualStep)
    (hn : (c.registered ord iter steps).Nodup) :
    c.SettlesOnce ord iter steps ↔
      ∀ v ∈ visits (ritualStep ord iter) c steps, ∀ cid ∈ c.registered ord iter steps,
        v.1.forgesTimeout cid v.2 = false := by
  constructor
  · intro h v hv cid hcid
    by_contra hf
    rw [Bool.not_eq_false] at hf
    have hcount := v.1.settlements_eq ord iter v.2 cid
    rw [hf, Bool.toNat_true] at hcount
    have hex : ∃ w ∈ v.1.writes iter v.2, w.isSettlement cid = true :=
      List.countP_pos_iff.mp (by omega)
    have hdrop := (h.withItsDrop v hv cid hcid).mpr hex
    rw [drops_of_forgesTimeout ord iter hf] at hdrop
    cases hdrop
  · intro hno
    have hcount : ∀ v ∈ visits (ritualStep ord iter) c steps, ∀ cid ∈ c.registered ord iter steps,
        (v.1.writes iter v.2).countP (Write.isSettlement cid) =
          (v.1.drops ord iter cid v.2).toNat := by
      intro v hv cid hcid
      rw [settlements_eq ord iter, hno v hv cid hcid, Bool.toNat_false, Nat.add_zero]
    refine ⟨?_, ?_, ?_, ?_, ?_, ?_⟩
    · intro cid hcid
      rw [allWrites, countP_flatMap_eq fun v hv => hcount v hv cid hcid]
      exact falls_le_one ord iter hn cid
    · intro v _ sid hm hs
      exact v.1.ritualStep_log ord iter hm hs
    · intro v hv cid hcid
      rw [← List.countP_pos_iff, hcount v hv cid hcid]
      cases v.1.drops ord iter cid v.2 <;> simp
    · intro v _ t cid hv hr ho hc hp
      rw [hv]
      exact ingest_late iter hr ho hc hp
    · intro v _ t hv ho
      rw [hv]
      exact ingest_pending_of_foreign iter ho
    · intro v _ t cid hv hc hd
      rw [hv] at hd
      exact drops_of_uncorrelated ord iter hc hd

def offerSteps : List RitualStep :=
  [.engineEmits "offering" (.obj [("_caws", .obj [("correlation_id", .str (Uuid.toText ⟨7⟩))])]),
    .publish fun _ => true]

/-- One reply and one late duplicate: the duplicate does nothing. -/
theorem settles_once_of_duplicate :
    joined.SettlesOnce .stable .listed (offerSteps ++
      [.ingest (peerTephra ⟨11⟩ "hohi" ⟨7⟩), .age, .ingest (peerTephra ⟨11⟩ "tabu" ⟨7⟩)]) :=
  (settles_once_iff .stable .listed joined _ (by decide +kernel)).mpr (by decide +kernel)

/-- An Offering is published, a foreign envelope arrives under the timeout label, and then
the real reply. -/
def forgedRun : List RitualStep :=
  offerSteps ++ [.ingest (peerTephra ⟨99⟩ "tabu-timeout" ⟨7⟩),
    .ingest (peerTephra ⟨11⟩ "hohi" ⟨7⟩)]

/-- The forged timeout and the reply both settle the one offer. -/
theorem forged_timeout_settles_twice :
    (joined.registered .stable .listed forgedRun).Nodup ∧
      ¬ joined.SettlesOnce .stable .listed forgedRun := by
  have hreg : joined.registered .stable .listed forgedRun = [⟨7⟩] := by decide +kernel
  refine ⟨by simp [hreg], fun h => ?_⟩
  have h2 : (joined.allWrites .stable .listed forgedRun).countP (Write.isSettlement ⟨7⟩) = 2 := by
    decide +kernel
  have h1 := h.atMostOnce ⟨7⟩ (by simp [hreg])
  omega

end CycleController

end Cerebellum
