import Cerebellum.Routing

/-! A reply on its way from the envelope to the awaiter: the controller drops the pending
offer and writes the body, the next drain of the engine has to find the correlation id in
it. Between the two halves the id travels only inside the body. -/
namespace Cerebellum
open CycleController

/-- The cache an awaiter of the label looks into. -/
def replySlot (t : TephraEnvelope) : Slot := if t.label = Label.hohi then .result else .failed

namespace Engine

/-- After a drain nothing is left for another. -/
theorem drain_batch (ord : RowOrder) (s : Engine) : (s.drain ord).batch ord = [] := by
  refine List.eq_nil_iff_forall_not_mem.mpr fun e he => ?_
  obtain ⟨r, hr, hsel, -⟩ := (World.mem_poll ord).mp he
  have hst : r.status = .pending := by
    simp only [OriginFilter.selects, Bool.and_eq_true, beq_iff_eq] at hsel
    exact hsel.1.2
  rw [drain_rows] at hr
  have hno := (Coire.mem_flip_pending.mp ⟨hr, hst⟩).2.2
  rw [drain_session] at hsel
  rw [hno] at hsel
  cases hsel

theorem await_of_drained (ord : RowOrder) (s : Engine) (cid : Term) :
    (∃ r, ((s.drain ord).cawsAwait ord cid).1 = .succeeds r) ↔
      ((s.drain ord).caws.lookup .result cid).isSome = true := by
  have hb := s.drain_batch ord
  have hagain : ((s.drain ord).drain ord).caws = (s.drain ord).caws := by
    rw [drain_caws, hb]
    rfl
  rw [cawsAwait_eq]
  cases hr : (s.drain ord).caws.lookup .result cid with
  | some r => simp
  | none =>
    cases (s.drain ord).caws.lookup .failed cid with
    | some p => simp
    | none =>
      simp only [hagain, hr]
      split <;> simp

end Engine

section Awaiter
variable (ord : RowOrder)

/-- The awaiter of `cid` is decided by the engine's next drain, the way the envelope says. -/
def Decided (s : Engine) (t : TephraEnvelope) (cid : Uuid) : Prop :=
  (t.label = Label.hohi → ∃ r, ((s.drain ord).cawsAwait ord (.atom cid.toText)).1 = .succeeds r) ∧
  (t.label = Label.tabu → ((s.drain ord).caws.lookup .failed (.atom cid.toText)).isSome = true)

/-- The body is an object whose event (written under the id `own`) the drain reaches before
one that raises an error, or the awaiter has another message of that kind to go by. -/
def Observable (s : Engine) (t : TephraEnvelope) (body : Json) (own cid : Uuid) : Prop :=
  (s.caws.lookup (replySlot t) (.atom cid.toText)).isSome = true ∨
  body.asObject.isSome = true ∧ (∃ e ∈ Caws.readable (s.batch ord), e.eventId = own) ∨
  ∃ e ∈ Caws.readable (s.batch ord), e.eventId ≠ own ∧
    (carries (replySlot t) (.atom cid.toText) e.origin e.payload).isSome = true

variable {ord} {iter : HashOrder} {c : CycleController} {s : Engine} {t : TephraEnvelope}
  {body : Json} {cid : Uuid}

theorem decided_iff_lookup (hr : t.isReply = true) : Decided ord s t cid ↔
    ((s.drain ord).caws.lookup (replySlot t) (.atom cid.toText)).isSome = true := by
  simp only [TephraEnvelope.isReply, Bool.or_eq_true, beq_iff_eq] at hr
  have hne : Label.hohi ≠ Label.tabu := by decide
  unfold Decided replySlot
  rcases hr with h | h
  · have h' : t.label ≠ Label.tabu := h ▸ hne
    simp [h, h ▸ h', Engine.await_of_drained]
  · have h' : t.label ≠ Label.hohi := h ▸ hne.symm
    simp [h, h ▸ h']

/-- The reply's own event carries the id exactly when the body is an object. -/
theorem carries_stamped (hr : t.isReply = true) (hc : t.correlationId = some cid) :
    (carries (replySlot t) (.atom cid.toText) ("ritual/" ++ t.label)
      (stampRouting t body)).isSome = body.asObject.isSome := by
  have horigin : "ritual/" ++ t.label ∈ (replySlot t).origins := by
    simp only [TephraEnvelope.isReply, Bool.or_eq_true, beq_iff_eq] at hr
    rcases hr with h | h <;> rw [replySlot, h] <;> decide
  rw [Bool.eq_iff_iff, carries_isSome_iff]
  simp only [horigin, true_and]
  cases body with
  | obj m =>
    have hne : (routingFields t.correlationId t.sourceNodeId t.topicPath).isEmpty = false := by
      rw [Bool.eq_false_iff]
      intro he
      have := ((routingFields_isEmpty _ _ _).mp he).1
      rw [hc] at this
      cases this
    have hst : stampRouting t (.obj m) = .obj (Fields.insert "_routing"
        (.obj (routingFields t.correlationId t.sourceNodeId t.topicPath)) m) := by
      simp only [stampRouting, hne]
      rfl
    simp [hst, correlate, Term.ofJson, Term.get_ofFields, get_routingFields, hc, Term.normalize,
      Json.asObject]
  | bool b => cases b <;> simp [stampRouting, correlate, Term.ofJson, Json.asObject]
  | _ => simp [stampRouting, correlate, Term.ofJson, Json.asObject]

/-- The event written for the reply, wherever it shows up later. -/
theorem own_row (hi : c.ingested iter t = some (stampRouting t body))
    (hl : (c.ingestTephra iter t).world.Later s.world) {e : ClaraEvent} (he : e ∈ s.batch ord)
    (hid : e.eventId = c.world.uuid c.world.tick) :
    e.origin = "ritual/" ++ t.label ∧ e.payload = stampRouting t body := by
  have hw : (c.ingestTephra iter t).world =
      (c.world.emit c.prologId ("ritual/" ++ t.label) (stampRouting t body)).emit c.clipsId
        ("ritual/" ++ t.label) (stampRouting t body) := by
    rw [ingestTephra_eq, hi]
    rfl
  obtain ⟨r, hr, -, rfl⟩ := (World.mem_poll ord).mp he
  rcases hl.rows r hr with ⟨n, hn, hn'⟩ | ⟨r₀, hr₀, h1, h2, h3⟩
  · -- ids minted after the ingestion are different ones
    rw [ClaraEvent.withStatus_eventId, hn', hw, World.emit_uuid, World.emit_uuid] at hid
    have := c.world.uuidNew hid
    simp only [hw, World.emit_tick] at hn
    omega
  · rw [ClaraEvent.withStatus_eventId, h1] at hid
    simp only [hw, World.emit_rows, List.mem_append, List.mem_singleton] at hr₀
    simp only [ClaraEvent.withStatus_origin, ClaraEvent.withStatus_payload, h2, h3]
    rcases hr₀ with (hr₀ | rfl) | rfl
    · exact absurd hid (c.world.rowsOld r₀ hr₀ _ (le_refl _))
    · exact ⟨rfl, rfl⟩
    · exact ⟨rfl, rfl⟩

/-- The awaiter of a resolved offer is decided by the engine's next drain exactly when the
reply is observable then: a body that is no object is skipped by the drain although its
offer is gone. -/
theorem awaiter_decided_iff (hp : t.payload = .plaintext body) (hs : c.settled iter t = some cid)
    (ho : ∃ o ∈ c.pendingOffers.lookup cid, o.expectsCorrelation = true)
    (hl : (c.ingestTephra iter t).world.Later s.world) :
    Decided ord s t cid ↔ Observable ord s t body (c.world.uuid c.world.tick) cid := by
  obtain ⟨body', hp', hr, hk, hi⟩ := ingested_of_settled hs
  rw [hp, TephraPayload.plaintext.injEq] at hp'
  subst hp'
  have hc : t.correlationId = some cid := by
    rcases (resolvedKey_some hk).2.2 with h | ⟨-, o, hl, he⟩
    · exact h
    · obtain ⟨o', hl', he'⟩ := ho
      rw [Option.mem_def] at hl hl'
      rw [hl, Option.some.injEq] at hl'
      rw [hl', he'] at he
      cases he
  rw [decided_iff_lookup hr, Engine.drain_lookup, Option.isSome_or, Bool.or_eq_true,
    List.findSome?_isSome_iff]
  refine or_congr Iff.rfl ⟨?_, ?_⟩
  · rintro ⟨e, he, hcarry⟩
    by_cases hid : e.eventId = c.world.uuid c.world.tick
    · obtain ⟨h1, h2⟩ := own_row hi hl ((List.takeWhile_sublist _).subset he) hid
      rw [h1, h2, carries_stamped hr hc] at hcarry
      exact .inl ⟨hcarry, e, he, hid⟩
    · exact .inr ⟨e, he, hid, hcarry⟩
  · rintro (⟨hobj, e, he, hid⟩ | ⟨e, he, -, hcarry⟩)
    · obtain ⟨h1, h2⟩ := own_row hi hl ((List.takeWhile_sublist _).subset he) hid
      exact ⟨e, he, by rw [h1, h2, carries_stamped hr hc]; exact hobj⟩
    · exact ⟨e, he, hcarry⟩

end Awaiter

/-- A node that has made one offer and published it. -/
def offering : Engine := ((Engine.mk ⟨1⟩ World.start {}).offerDict ⟨"n2", "run/e1", []⟩).2

def published : CycleController :=
  ({ joined with world := offering.world }.publishEvaluatorEvents .stable
    ⟨⟨10⟩, ⟨11⟩, "dis"⟩ fun _ => true).1

/-- The reply the offer waits for, with the given body. -/
def replyWith (body : Json) : TephraEnvelope :=
  { peerTephra ⟨11⟩ "hohi" ⟨1000⟩ with payload := .plaintext body }

/-- The engine once the reply is ingested and one more event has come in. -/
def replied (body : Json) : Engine :=
  ⟨⟨1⟩, (published.ingestTephra .listed (replyWith body)).world.emit ⟨1⟩ "ritual/event" (.obj []),
    offering.caws⟩

theorem awaiter_decided_by_object :
    Decided .stable (replied (.obj [])) (replyWith (.obj [])) ⟨1000⟩ := by
  have hs : published.settled .listed (replyWith (.obj [])) = some ⟨1000⟩ := by decide +kernel
  have ho : ∃ o ∈ published.pendingOffers.lookup ⟨1000⟩, o.expectsCorrelation = true :=
    ⟨.fresh true (some "run/e1"), by decide +kernel, rfl⟩
  refine (awaiter_decided_iff rfl hs ho (.emit ..)).mpr (.inr (.inl ⟨rfl, ?_⟩))
  decide +kernel

/-- A text body: the offer is dropped, and the awaiter never learns of it. -/
theorem text_reply_undecided :
    published.settled .listed (replyWith (.str "ok")) = some ⟨1000⟩ ∧
      ¬ Decided .stable (replied (.str "ok")) (replyWith (.str "ok")) ⟨1000⟩ := by
  refine ⟨by decide +kernel, fun h => ?_⟩
  obtain ⟨r, hr⟩ := h.1 rfl
  have hfail : (((replied (.str "ok")).drain .stable).cawsAwait .stable
      (.atom (Uuid.toText ⟨1000⟩))).1 = .fails := by
    decide +kernel
  rw [hfail] at hr
  cases hr

end Cerebellum
