import Cerebellum.Node
import Cerebellum.Lib.Transition

/-! Stability of an await. A result once returned is returned again; a failure once
reported stays, as long as no message of another performance names the offer at the wrong
time. The controller's part in this is that a settled offer is never settled again. -/
namespace Cerebellum
open CycleController Transition

/-- The correlation id as the engine holds it. -/
def cidAtom (cid : Uuid) : Term := .atom cid.toText

namespace Engine
variable {ord : RowOrder} {s t : Engine}

theorem offerEvent_cid (e : OfferKey × Term) :
    ((offerEvent e).2.get "_caws").bind (·.get "correlation_id") = some e.2.toJson := by
  simp [offerEvent, cawsJson, offerBlock, Term.toFields, Fields.get]

theorem rowOffers_inj {r : ClaraEvent} {a b : Uuid} (ha : rowOffers a r) (hb : rowOffers b r) :
    a = b := by
  obtain ⟨ka, ha⟩ := ha
  obtain ⟨kb, hb⟩ := hb
  have h := offerEvent_cid (ka, .atom a.toText)
  rw [← ha, hb, offerEvent_cid, Option.some.injEq, toJson_uuid, toJson_uuid, Json.str.injEq] at h
  exact Uuid.toText_injective h.symm

theorem rowSilent_not_offers {r : ClaraEvent} {cid : Uuid} (h : rowSilent r) : ¬ rowOffers cid r := by
  rintro ⟨key, hk⟩
  obtain ⟨p, b, hp, hb⟩ := h
  have he : cawsJson p b = cawsJson key.payload
      (offerBlock (.atom cid.toText) key.target key.topic) := hp.symm.trans (congrArg Prod.snd hk)
  have hg := congrArg (fun j : Json => (j.get "_caws").bind (·.get "expects_reply")) he
  simp [cawsJson, Term.get_toFields, hb, offerBlock, Fields.get] at hg

theorem rowOffers_origin {r : ClaraEvent} {cid : Uuid} (h : rowOffers cid r) :
    r.origin = "evaluator/offering" := by
  obtain ⟨key, hk⟩ := h
  exact congrArg Prod.fst hk

/-- A pending row after an action was there before, or it is a message of the engine's own,
and then an Offering only under an id minted by this very action. -/
theorem Act.pending_row (h : Act ord s t) {r : ClaraEvent} (hr : r ∈ t.world.rows)
    (hst : r.status = .pending) : r ∈ s.world.rows ∨
      originLike "evaluator/" r.origin = true ∧ ∀ cid, rowOffers cid r →
        ∃ k, s.world.tick ≤ k ∧ k < t.world.tick ∧ s.world.uuid k = cid := by
  cases h with
  | drain =>
    rw [drain_rows] at hr
    exact .inl (Coire.mem_flip_pending.mp ⟨hr, hst⟩).1
  | mint => exact .inl hr
  | offer key hk =>
    have hw : (s.offerDict key).2.world = (s.cawsUuid.2.emitCaws "evaluator/offering" key.payload
      (offerBlock (.atom s.cawsUuid.1.toText) key.target key.topic)).world := by
      simp [offerDict, hk]
    rw [hw, emitCaws, World.emit_rows, List.mem_append, List.mem_singleton] at hr
    rcases hr with hr | rfl
    · exact .inl hr
    · refine .inr ⟨originLike_append "evaluator/" "offering" (by decide),
        fun cid hcid => ⟨s.world.tick, le_refl _, ?_, ?_⟩⟩
      · have := (offerDict_fresh hk).2.2.2.2.1
        omega
      · exact rowOffers_inj ⟨key, rfl⟩ hcid
  | emitCid key cid hn _ =>
    have hw : (s.emitCid key cid).world = (s.emitCaws "evaluator/emit" key.payload
      (emitBlock cid key.target key.topic key.kind)).world := by
      simp [Engine.emitCid, hn]
    rw [hw, emitCaws, World.emit_rows, List.mem_append, List.mem_singleton] at hr
    rcases hr with hr | rfl
    · exact .inl hr
    · exact .inr ⟨originLike_append "evaluator/" "emit" (by decide),
        fun cid hcid => by simpa [World.newEvent] using rowOffers_origin hcid⟩
  | squawk payload tags topic =>
    rw [emitCaws, World.emit_rows, List.mem_append, List.mem_singleton] at hr
    rcases hr with hr | rfl
    · exact .inl hr
    · exact .inr ⟨originLike_append "evaluator/" "squawk" (by decide),
        fun cid hcid => by simpa [World.newEvent] using rowOffers_origin hcid⟩
  | memo c hc => exact .inl hr

/-- Every message on its way out is an Offering the engine remembers or expects no reply. -/
def Announced (s : Engine) : Prop := ∀ m ∈ s.log, originLike "evaluator/" m.1 = true →
  (∃ e ∈ s.caws.offerSent, m = offerEvent e) ∨
    ∃ p b, m.2 = cawsJson p b ∧ Fields.get "expects_reply" b = some (.atom "false")

theorem Act.announced (h : Act ord s t) (hs : s.Announced) : t.Announced := by
  intro m hm ho
  have hold : m ∈ s.log → (∃ e ∈ t.caws.offerSent, m = offerEvent e) ∨
      ∃ p b, m.2 = cawsJson p b ∧ Fields.get "expects_reply" b = some (.atom "false") := by
    intro hm
    rcases hs m hm ho with ⟨e, he, hme⟩ | hsilent
    · exact .inl ⟨e, h.offerSent_mono he, hme⟩
    · exact .inr hsilent
  cases h with
  | drain => exact hold (by simpa [log] using hm)
  | mint => exact hold hm
  | offer key hk =>
    obtain ⟨-, -, hcaws, hlog, -⟩ := offerDict_fresh hk
    rw [hlog, List.mem_append, List.mem_singleton] at hm
    rcases hm with hm | rfl
    · exact hold hm
    · refine .inl ⟨_, ?_, rfl⟩
      rw [hcaws]
      exact List.mem_append_right _ (by simp)
  | emitCid key cid hn _ =>
    rw [(emitCid_fresh key hn).2.2, List.mem_append, List.mem_singleton] at hm
    rcases hm with hm | rfl
    · exact hold hm
    · exact .inr ⟨_, _, rfl, rfl⟩
  | squawk payload tags topic =>
    rw [emitCaws_log, List.mem_append, List.mem_singleton] at hm
    rcases hm with hm | rfl
    · exact hold hm
    · exact .inr ⟨_, _, rfl, rfl⟩
  | memo c hc => exact hold hm

/-- The engine knows of a failure of `cid` and of no result. -/
def Failed (cid : Uuid) (s : Engine) : Prop :=
  (s.caws.lookup .failed (cidAtom cid)).isSome = true ∧ s.caws.lookup .result (cidAtom cid) = none

/-- The offer `cid` is over: made, published and no longer pending. -/
structure Closed (cid : Uuid) (p : PendingOffers) (s : Engine) : Prop where
  minted : ∀ k, s.world.tick ≤ k → s.world.uuid k ≠ cid
  unsent : ∀ r ∈ s.world.rows, r.sessionId = s.session → r.status = .pending → ¬ rowOffers cid r
  unpending : cid ∉ p

/-- What ties the two halves together for one offer. -/
structure AwaitInv (cid : Uuid) (p : PendingOffers) (s : Engine) : Prop where
  sound : s.Sound
  offers : s.OffersLogged
  announced : s.Announced
  /-- A pending offer is not made or published again. -/
  outstanding : cid ∈ p → (∀ k, s.world.tick ≤ k → s.world.uuid k ≠ cid) ∧
    ∀ r ∈ s.world.rows, r.sessionId = s.session → r.status = .pending → ¬ rowOffers cid r
  /-- A failure in the mailbox means that the offer is over, or a result came first. -/
  failure : (∃ m ∈ s.log, (carries .failed (cidAtom cid) m.1 m.2).isSome = true) →
    (s.caws.lookup .result (cidAtom cid)).isSome = true ∨ Closed cid p s
  /-- No Hohi waits behind a failure. -/
  noHohi : Failed cid s → ∀ r ∈ s.world.rows, r.sessionId = s.session → r.status = .pending →
    (carries .result (cidAtom cid) r.origin r.payload).isSome = false

variable {cid : Uuid} {p : PendingOffers}

theorem Act.closed (h : Act ord s t) (hc : Closed cid p s) : Closed cid p t := by
  obtain ⟨huuid, htick⟩ := h.supply
  refine ⟨fun k hk => ?_, fun r hr hsid hst ho => ?_, hc.unpending⟩
  · rw [huuid]
    exact hc.minted k (htick.trans hk)
  · rw [h.session_eq] at hsid
    rcases h.pending_row hr hst with hold | ⟨-, hnew⟩
    · exact hc.unsent r hold hsid hst ho
    · obtain ⟨k, hk, -, he⟩ := hnew cid ho
      exact hc.minted k hk he

theorem carries_evaluator {slot : Slot} {c : Term} {origin : String} {payload : Json}
    (h : originLike "evaluator/" origin = true) : (carries slot c origin payload).isSome = false := by
  rw [Bool.eq_false_iff]
  intro hc
  have hr := carries_ritual hc
  rw [evaluator_not_ritual h] at hr
  cases hr

theorem drain_pending {r : ClaraEvent} (hr : r ∈ (s.drain ord).world.rows)
    (hsid : r.sessionId = s.session) (hst : r.status = .pending) :
    r ∈ s.world.rows ∧ originLike "ritual/" r.origin = false := by
  rw [drain_rows] at hr
  obtain ⟨hold, -, hsel⟩ := Coire.mem_flip_pending.mp ⟨hr, hst⟩
  refine ⟨hold, ?_⟩
  simpa [OriginFilter.selects, OriginFilter.cond, hsid, hst] using hsel

/-- A failed await stays failed: nothing that could turn it around waits in the mailbox. -/
theorem Act.failed (h : Act ord s t) (hi : AwaitInv cid p s) (hf : Failed cid s) :
    Failed cid t := by
  refine ⟨?_, ?_⟩
  · obtain ⟨q, hq⟩ := Option.isSome_iff_exists.mp hf.1
    exact Option.isSome_of_mem (h.lookup_mono hq)
  · rcases h.rows_cases with rfl | ⟨-, hlook⟩
    · rw [drain_lookup, hf.2]
      refine List.findSome?_eq_none_iff.mpr fun e he => ?_
      obtain ⟨r, hr, hsel, rfl⟩ := (World.mem_poll ord).mp ((List.takeWhile_sublist _).subset he)
      simp only [OriginFilter.selects, Bool.and_eq_true, beq_iff_eq] at hsel
      have hno := hi.noHohi hf r hr hsel.1.1 hsel.1.2
      simpa using hno
    · rw [hlook]
      exact hf.2

theorem Act.awaitInv (h : Act ord s t) (hi : AwaitInv cid p s) : AwaitInv cid p t := by
  obtain ⟨huuid, htick⟩ := h.supply
  refine ⟨h.sound hi.sound, h.offersLogged hi.offers, h.announced hi.announced, ?_, ?_, ?_⟩
  · intro hp
    obtain ⟨h1, h2⟩ := hi.outstanding hp
    refine ⟨fun k hk => by rw [huuid]; exact h1 k (htick.trans hk), fun r hr hsid hst ho => ?_⟩
    rw [h.session_eq] at hsid
    rcases h.pending_row hr hst with hold | ⟨-, hnew⟩
    · exact h2 r hold hsid hst ho
    · obtain ⟨k, hk, -, he⟩ := hnew cid ho
      exact h1 k hk he
  · rintro ⟨m, hm, hc⟩
    obtain ⟨ms, hms, hev⟩ := h.log_append
    rw [hms, List.mem_append] at hm
    rcases hm with hm | hm
    · rcases hi.failure ⟨m, hm, hc⟩ with hr | hclosed
      · obtain ⟨q, hq⟩ := Option.isSome_iff_exists.mp hr
        exact .inl (Option.isSome_of_mem (h.lookup_mono hq))
      · exact .inr (h.closed hclosed)
    · rw [carries_evaluator (hev m hm)] at hc
      cases hc
  · intro hf r hr hsid hst
    rw [h.session_eq] at hsid
    rcases h.rows_cases with rfl | ⟨-, hlook⟩
    · have hnot := (drain_pending hr hsid hst).2
      rw [Bool.eq_false_iff]
      intro hc
      rw [carries_ritual hc] at hnot
      cases hnot
    · rcases h.pending_row hr hst with hold | ⟨hev, -⟩
      · have hf' : Failed cid s := by
          unfold Failed at hf ⊢
          rwa [hlook, hlook] at hf
        exact hi.noHohi hf' r hold hsid hst
      · exact carries_evaluator hev

theorem rowOffers_not_ritual {r : ClaraEvent} (h : originLike "ritual/" r.origin = true) :
    ¬ rowOffers cid r := by
  intro ho
  rw [rowOffers_origin ho] at h
  revert h
  decide

/-- A write of the controller: events are appended to the mailbox, the tables stay. -/
structure Delivery (s t : Engine) (es : List ClaraEvent) : Prop where
  session : t.session = s.session
  caws : t.caws = s.caws
  supply : t.world.uuid = s.world.uuid ∧ s.world.tick ≤ t.world.tick
  rows : t.world.rows = s.world.rows ++ es
  ritual : ∀ e ∈ es, originLike "ritual/" e.origin = true

namespace Delivery
variable {es : List ClaraEvent} {p' : PendingOffers} (hd : Delivery s t es)
include hd

theorem log_eq : t.log = s.log ++ (es.filter (·.sessionId == s.session)).map
    fun r => (r.origin, r.payload) := by
  simp [Engine.log, World.log, hd.rows, hd.session, List.filter_append]

theorem closed (hp : ∀ k, k ∈ p' → k ∈ p) (hc : Closed cid p s) : Closed cid p' t := by
  refine ⟨fun k hk => ?_, fun r hr hsid hst => ?_, fun h => hc.unpending (hp _ h)⟩
  · rw [hd.supply.1]
    exact hc.minted k (hd.supply.2.trans hk)
  · rw [hd.rows, List.mem_append] at hr
    rcases hr with hr | hr
    · exact hc.unsent r hr (hsid.trans hd.session) hst
    · exact rowOffers_not_ritual (hd.ritual r hr)

/-- What is outstanding before a delivery that drops the offer is over after it. -/
theorem closes (hi : AwaitInv cid p s) (hmem : cid ∈ p) (hdrop : cid ∉ p') : Closed cid p' t := by
  obtain ⟨h1, h2⟩ := hi.outstanding hmem
  refine ⟨fun k hk => ?_, fun r hr hsid hst => ?_, hdrop⟩
  · rw [hd.supply.1]
    exact h1 k (hd.supply.2.trans hk)
  · rw [hd.rows, List.mem_append] at hr
    rcases hr with hr | hr
    · exact h2 r hr (hsid.trans hd.session) hst
    · exact rowOffers_not_ritual (hd.ritual r hr)

theorem awaitInv (hp : ∀ k, k ∈ p' → k ∈ p) (hi : AwaitInv cid p s)
    (hresult : Failed cid s → ∀ e ∈ es, (carries .result (cidAtom cid) e.origin e.payload).isSome = false)
    (hfailed : ∀ e ∈ es, (carries .failed (cidAtom cid) e.origin e.payload).isSome = true →
      (s.caws.lookup .result (cidAtom cid)).isSome = true ∨ Closed cid p' t) :
    AwaitInv cid p' t := by
  have hlog := hd.log_eq
  have hnew : ∀ m ∈ (es.filter (·.sessionId == s.session)).map (fun r => (r.origin, r.payload)),
      ∃ e ∈ es, m = (e.origin, e.payload) := by
    intro m hm
    obtain ⟨e, he, rfl⟩ := List.mem_map.mp hm
    exact ⟨e, List.mem_of_mem_filter he, rfl⟩
  have hnoteval : ∀ e ∈ es, originLike "evaluator/" e.origin = false := by
    intro e he
    rw [Bool.eq_false_iff]
    intro h
    have hr := hd.ritual e he
    rw [evaluator_not_ritual h] at hr
    cases hr
  refine ⟨?_, ?_, ?_, ?_, ?_, ?_⟩
  · intro slot c q hq
    rw [hd.caws] at hq
    obtain ⟨m, hm, hc⟩ := hi.sound slot c q hq
    exact ⟨m, by rw [hlog]; exact List.mem_append_left _ hm, hc⟩
  · refine hi.offers.congr (by rw [hd.caws]) hd.supply hlog fun m hm he => ?_
    obtain ⟨e, hes, rfl⟩ := hnew m hm
    have h := hnoteval e hes
    rw [show e.origin = "evaluator/offering" from he] at h
    revert h
    decide
  · intro m hm ho
    rw [hd.caws]
    rw [hlog, List.mem_append] at hm
    rcases hm with hm | hm
    · exact hi.announced m hm ho
    · obtain ⟨e, hes, rfl⟩ := hnew m hm
      rw [hnoteval e hes] at ho
      cases ho
  · intro hmem
    obtain ⟨h1, h2⟩ := hi.outstanding (hp _ hmem)
    refine ⟨fun k hk => ?_, fun r hr hsid hst => ?_⟩
    · rw [hd.supply.1]
      exact h1 k (hd.supply.2.trans hk)
    · rw [hd.rows, List.mem_append] at hr
      rcases hr with hr | hr
      · exact h2 r hr (hsid.trans hd.session) hst
      · exact rowOffers_not_ritual (hd.ritual r hr)
  · rintro ⟨m, hm, hc⟩
    rw [hd.caws]
    rw [hlog, List.mem_append] at hm
    rcases hm with hm | hm
    · exact (hi.failure ⟨m, hm, hc⟩).imp_right (hd.closed hp)
    · obtain ⟨e, hes, rfl⟩ := hnew m hm
      exact hfailed e hes hc
  · intro hf r hr hsid hst
    have hf' : Failed cid s := by
      unfold Failed at hf ⊢
      rwa [hd.caws] at hf
    rw [hd.rows, List.mem_append] at hr
    rcases hr with hr | hr
    · exact hi.noHohi hf' r hr (hsid.trans hd.session) hst
    · exact hresult hf' r hr

end Delivery

end Engine

namespace CycleController
variable {caws : Caws} {cid : Uuid}

theorem writeBoth_delivery (c : CycleController) (caws : Caws) (label : String) (body : Json) :
    Engine.Delivery ⟨c.prologId, c.world, caws⟩
      ⟨c.prologId, (c.writeBoth ("ritual/" ++ label) body).world, caws⟩
      [c.world.newEvent c.prologId ("ritual/" ++ label) body,
        (c.world.emit c.prologId ("ritual/" ++ label) body).newEvent c.clipsId
          ("ritual/" ++ label) body] := by
  refine ⟨rfl, rfl, ⟨?_, ?_⟩, ?_, ?_⟩
  · simp [writeBoth]
  · simp only [writeBoth, World.emit_tick]
    omega
  · simp [writeBoth, World.emit_rows]
  · simp [World.newEvent, originLike_append _ _ (show SqlText.Literal "ritual/".toList by decide)]

/-- A timeout Tabu names the offer it drops and no other. -/
theorem carries_timeout {m : PendingOffers} {k : Uuid}
    (h : (carries .failed (cidAtom cid) "ritual/tabu-timeout"
      (timeoutBody (timeoutCorrelation m k))).isSome = true) : k = cid ∧ cid ∈ m := by
  obtain ⟨-, p, hp⟩ := carries_isSome_iff.mp h
  unfold timeoutCorrelation at hp
  cases hl : m.lookup k with
  | none => simp [hl, timeoutBody, correlate, Term.ofJson, Term.get_ofFields, Fields.get] at hp
  | some o =>
    by_cases ho : o.expectsCorrelation = true
    · have hk : k = cid := by
        simp [hl, ho, timeoutBody, correlate, Term.ofJson, Term.get_ofFields, Fields.get, cidAtom,
          Term.normalize] at hp
        exact hp.1
      refine ⟨hk, ?_⟩
      rw [← hk]
      exact AList.lookup_isSome.mp (by rw [hl]; rfl)
    · simp [hl, ho, timeoutBody, correlate, Term.ofJson, Term.get_ofFields, Fields.get] at hp

theorem expireOffer_awaitInv {c : CycleController} (k : Uuid)
    (hi : Engine.AwaitInv cid c.pendingOffers ⟨c.prologId, c.world, caws⟩) :
    Engine.AwaitInv cid (c.expireOffer k).pendingOffers
      ⟨(c.expireOffer k).prologId, (c.expireOffer k).world, caws⟩ := by
  rw [expireOffer_eq]
  have hd := writeBoth_delivery c caws "tabu-timeout"
    (timeoutBody (timeoutCorrelation c.pendingOffers k))
  refine hd.awaitInv (fun j hj => (AList.mem_erase.mp hj).2) hi (fun _ e he => ?_) fun e he hc => ?_
  · have ho : e.origin = "ritual/tabu-timeout" := by
      simp only [List.mem_cons, List.not_mem_nil, or_false] at he
      rcases he with rfl | rfl <;> rfl
    rw [Bool.eq_false_iff]
    intro h
    have := (carries_isSome_iff.mp h).1
    rw [ho] at this
    revert this
    decide
  · have he' : e.origin = "ritual/tabu-timeout" ∧
        e.payload = timeoutBody (timeoutCorrelation c.pendingOffers k) := by
      simp only [List.mem_cons, List.not_mem_nil, or_false] at he
      rcases he with rfl | rfl <;> exact ⟨rfl, rfl⟩
    rw [he'.1, he'.2] at hc
    obtain ⟨rfl, hmem⟩ := carries_timeout hc
    exact .inr (hd.closes hi hmem (by simp [AList.mem_erase]))

theorem expireOffers_awaitInv {c : CycleController} (l : List Uuid)
    (hi : Engine.AwaitInv cid c.pendingOffers ⟨c.prologId, c.world, caws⟩) :
    Engine.AwaitInv cid (l.foldl expireOffer c).pendingOffers
      ⟨(l.foldl expireOffer c).prologId, (l.foldl expireOffer c).world, caws⟩ := by
  induction l generalizing c with
  | nil => exact hi
  | cons k l ih => exact ih (expireOffer_awaitInv k hi)

end CycleController

namespace Node
variable (ord : RowOrder) (iter : HashOrder)

/-- An ingested envelope that names `cid` without being the reply that resolves it does no
harm: a result does not come behind a failure, and a failure does not come ahead of the
end of the offer. -/
def AwaitSafe (cid : Uuid) (n : Node) : NodeStep → Prop
  | .ingest t => n.ctrl.settled iter t ≠ some cid → ∀ body, n.ctrl.ingested iter t = some body →
      ((carries .result (cidAtom cid) ("ritual/" ++ t.label) body).isSome = true →
        ¬ Engine.Failed cid n.engine) ∧
      ((carries .failed (cidAtom cid) ("ritual/" ++ t.label) body).isSome = true →
        (n.caws.lookup .result (cidAtom cid)).isSome = true ∨
          Engine.Closed cid n.ctrl.pendingOffers n.engine)
  | _ => True

/-- The await a step runs, if it does: its id and the engine it starts from. -/
def awaits (n : Node) : NodeStep → Option (Term × Engine)
  | .call (.await cid) => some (cid, n.engine)
  | .call (.consult target topic payload) =>
    match n.engine.cawsOffer target topic payload with
    | (.succeeds cid, s) => some (cid, s)
    | _ => none
  | _ => none

abbrev AwaitOk (cid : Uuid) (n : Node) : Prop :=
  Engine.AwaitInv cid n.ctrl.pendingOffers n.engine

variable {ord iter} {cid : Uuid} {n : Node}

theorem call_engine (n : Node) (c : Call) :
    (n.step ord iter (.call c)).engine = n.engine.call ord c := by
  have hs : (n.engine.call ord c).session = n.engine.session :=
    Engine.call_invariant (P := fun s => s.session = n.engine.session)
      (fun _ _ h hs => h.session_eq.trans hs) c rfl
  have he : (n.step ord iter (.call c)).engine =
      ⟨n.engine.session, (n.engine.call ord c).world, (n.engine.call ord c).caws⟩ := rfl
  rw [he, ← hs]

theorem ingest_awaitOk {t : TephraEnvelope} (hsafe : n.AwaitSafe iter cid (.ingest t))
    (hi : n.AwaitOk cid) : (n.step ord iter (.ingest t)).AwaitOk cid := by
  simp only [AwaitOk, engine, step, ingestTephra_eq]
  cases hb : n.ctrl.ingested iter t with
  | none => exact hi
  | some body =>
    have hd := writeBoth_delivery n.ctrl n.caws t.label body
    have hsub : ∀ k, k ∈ eraseOffer n.ctrl.pendingOffers (n.ctrl.settled iter t) →
        k ∈ n.ctrl.pendingOffers := by
      cases n.ctrl.settled iter t with
      | none => exact fun k hk => hk
      | some j => exact fun k hk => (AList.mem_erase.mp hk).2
    have hrow : ∀ slot, ∀ e ∈ [n.ctrl.world.newEvent n.ctrl.prologId ("ritual/" ++ t.label) body,
        (n.ctrl.world.emit n.ctrl.prologId ("ritual/" ++ t.label) body).newEvent n.ctrl.clipsId
          ("ritual/" ++ t.label) body], carries slot (cidAtom cid) e.origin e.payload =
        carries slot (cidAtom cid) ("ritual/" ++ t.label) body := by
      intro slot e he
      simp only [List.mem_cons, List.not_mem_nil, or_false] at he
      rcases he with rfl | rfl <;> rfl
    by_cases hset : n.ctrl.settled iter t = some cid
    · -- the offer's own reply: it is over with this step, and no failure was known before
      obtain ⟨-, -, -, hk, -⟩ := ingested_of_settled hset
      have hmem := (resolvedKey_some hk).2.1
      refine hd.awaitInv hsub hi (fun hf => ?_) fun _ _ _ => .inr (hd.closes hi hmem ?_)
      · obtain ⟨q, hq⟩ := Option.isSome_iff_exists.mp hf.1
        obtain ⟨m, hm, hc⟩ := hi.sound _ _ _ hq
        rcases hi.failure ⟨m, hm, Option.isSome_of_mem hc⟩ with h | h
        · have hnone : n.engine.caws.lookup .result (cidAtom cid) = none := hf.2
          rw [hnone] at h
          cases h
        · exact absurd hmem h.unpending
      · simp [hset, eraseOffer, AList.mem_erase]
    · obtain ⟨hres, hfail⟩ := hsafe hset body hb
      refine hd.awaitInv hsub hi (fun hf e he => ?_) fun e he hc => ?_
      · rw [hrow _ e he, Bool.eq_false_iff]
        exact fun h => hres h hf
      · rw [hrow _ e he] at hc
        exact (hfail hc).imp_right (hd.closed hsub)

theorem age_awaitOk (hi : n.AwaitOk cid) : (n.step ord iter .age).AwaitOk cid := by
  refine expireOffers_awaitInv (c := { n.ctrl with pendingOffers := bump n.ctrl.pendingOffers }) _ ?_
  have hd : Engine.Delivery n.engine n.engine [] :=
    ⟨rfl, rfl, ⟨rfl, le_refl _⟩, by simp, by simp⟩
  exact hd.awaitInv (fun k hk => mem_bump.mp hk) hi (by simp) (by simp)

/-- An outbound row is an Offering under an id minted before, or it expects no reply. -/
theorem row_announced (hi : n.AwaitOk cid) {r : ClaraEvent} (hr : r ∈ n.ctrl.world.rows)
    (hsid : r.sessionId = n.ctrl.prologId) (ho : originLike "evaluator/" r.origin = true) :
    (∃ k < n.ctrl.world.tick, rowOffers (n.ctrl.world.uuid k) r) ∨ rowSilent r := by
  rcases hi.announced (r.origin, r.payload) (World.mem_log.mpr ⟨r, hr, hsid, rfl⟩) ho with
    ⟨e, he, hm⟩ | ⟨p, b, hp, hb⟩
  · obtain ⟨k, hk, hcid⟩ := hi.offers.minted e he
    refine .inl ⟨k, hk, e.1, ?_⟩
    rw [hm]
    exact congrArg (fun c => Engine.offerEvent (e.1, c)) hcid
  · exact .inr ⟨p, b, hp, hb⟩

/-- What publishing registers was minted before and still waited in the mailbox. -/
theorem registers_minted (ord : RowOrder) (h : RitualHandle) (publishOk : ClaraEvent → Bool) (hi : n.AwaitOk cid)
    (hk : cid ∈ n.ctrl.evaluatorRegisters h publishOk ord) :
    (∃ k < n.ctrl.world.tick, n.ctrl.world.uuid k = cid) ∧
      ∃ r ∈ n.ctrl.world.rows, r.sessionId = n.ctrl.prologId ∧ r.status = .pending ∧
        rowOffers cid r := by
  have hpolled : ∀ e ∈ (n.ctrl.world.poll ord n.ctrl.prologId (.startsWith "evaluator/")).1,
      ∃ r ∈ n.ctrl.world.rows, r.sessionId = n.ctrl.prologId ∧ r.status = .pending ∧
        originLike "evaluator/" r.origin = true ∧ e = r.withStatus .processed := by
    intro e he
    obtain ⟨r, hr, hsel, rfl⟩ := (World.mem_poll ord).mp he
    simp only [OriginFilter.selects, OriginFilter.cond, Bool.and_eq_true, beq_iff_eq] at hsel
    exact ⟨r, hr, hsel.1.1, hsel.1.2, hsel.2, rfl⟩
  have hes : ∀ e ∈ (n.ctrl.world.poll ord n.ctrl.prologId (.startsWith "evaluator/")).1,
      (∃ cid, rowOffers cid e) ∨ rowSilent e := by
    intro e he
    obtain ⟨r, hr, hsid, -, ho, rfl⟩ := hpolled e he
    rcases row_announced hi hr hsid ho with ⟨k, -, hkr⟩ | hs
    · exact .inl ⟨_, hkr⟩
    · exact .inr hs
  obtain ⟨e, he, ho⟩ := mem_registersAll h publishOk _ hes hk
  obtain ⟨r, hr, hsid, hst, hev, rfl⟩ := hpolled e he
  have ho' : rowOffers cid r := ho
  refine ⟨?_, r, hr, hsid, hst, ho'⟩
  rcases row_announced hi hr hsid hev with ⟨k, hk, hkr⟩ | hs
  · exact ⟨k, hk, Engine.rowOffers_inj hkr ho'⟩
  · exact absurd ho' (Engine.rowSilent_not_offers hs)

theorem publish_awaitOk (publishOk : ClaraEvent → Bool) (hi : n.AwaitOk cid) :
    (n.step ord iter (.publish publishOk)).AwaitOk cid := by
  cases hh : n.ctrl.ritualHandle with
  | none =>
    have he : n.step ord iter (.publish publishOk) = n := by simp [step, hh]
    rwa [he]
  | some h =>
    have he : n.step ord iter (.publish publishOk) =
        ⟨(n.ctrl.publishEvaluatorEvents ord h publishOk).1, n.caws⟩ := by simp [step, hh]
    obtain ⟨hpid, -, hlog, hpend⟩ := n.ctrl.publishEvaluatorEvents_spec h publishOk ord
    have hlater := n.ctrl.publishEvaluatorEvents_later ord h publishOk
    have hstill := fun r => n.ctrl.publishEvaluatorEvents_pending h publishOk ord (r := r)
    have hnew := registers_minted ord h publishOk hi
    rw [he]
    generalize (n.ctrl.publishEvaluatorEvents ord h publishOk).1 = c' at *
    have hlog' : (Node.mk c' n.caws).engine.log = n.engine.log := by
      simp only [Engine.log, engine, hpid, hlog]
    have hunsent : ∀ r ∈ c'.world.rows, r.sessionId = c'.prologId → r.status = .pending →
        ¬ rowOffers cid r := by
      intro r hr hsid hst ho
      have hno := (hstill r hr (hsid.trans hpid) hst).2
      rw [Engine.rowOffers_origin ho] at hno
      revert hno
      decide
    refine ⟨?_, ?_, ?_, fun hp => ⟨fun k hk => ?_, hunsent⟩, fun hm => ?_, ?_⟩
    · intro slot c q hq
      rw [hlog']
      exact hi.sound slot c q hq
    · exact hi.offers.congr (l := []) rfl ⟨hlater.uuid, hlater.tick⟩ (by simp [hlog']) (by simp)
    · intro m hm ho
      rw [hlog'] at hm
      exact hi.announced m hm ho
    · have hk' : n.ctrl.world.tick ≤ k := hlater.tick.trans hk
      have hu : (Node.mk c' n.caws).engine.world.uuid = n.ctrl.world.uuid := hlater.uuid
      rw [hu]
      rcases (hpend cid).mp hp with hp | hp
      · exact (hi.outstanding hp).1 k hk'
      · obtain ⟨⟨j, hj, hjc⟩, -⟩ := hnew hp
        intro heq
        have := n.ctrl.world.uuidNew (heq.trans hjc.symm)
        omega
    · rw [hlog'] at hm
      refine (hi.failure hm).imp_right fun hc => ⟨fun k hk => ?_, hunsent, fun hp => ?_⟩
      · have hu : (Node.mk c' n.caws).engine.world.uuid = n.ctrl.world.uuid := hlater.uuid
        rw [hu]
        exact hc.minted k (hlater.tick.trans hk)
      · rcases (hpend cid).mp hp with hp | hp
        · exact hc.unpending hp
        · obtain ⟨-, r, hr, hsid, hst, ho⟩ := hnew hp
          exact hc.unsent r hr hsid hst ho
    · intro hf r hr hsid hst
      exact hi.noHohi hf r (hstill r hr (hsid.trans hpid) hst).1 (hsid.trans hpid) hst

theorem step_awaitOk (i : NodeStep) (hsafe : n.AwaitSafe iter cid i) (hi : n.AwaitOk cid) :
    (n.step ord iter i).AwaitOk cid := by
  cases i with
  | call c =>
    rw [AwaitOk, call_engine]
    exact Engine.call_invariant (fun _ _ h => h.awaitInv) c hi
  | publish publishOk => exact publish_awaitOk publishOk hi
  | ingest t => exact ingest_awaitOk hsafe hi
  | age => exact age_awaitOk hi

theorem step_failed (i : NodeStep) (hi : n.AwaitOk cid) (hf : Engine.Failed cid n.engine) :
    Engine.Failed cid (n.step ord iter i).engine := by
  cases i with
  | call c =>
    rw [call_engine]
    exact (Engine.call_invariant (P := fun s => Engine.AwaitInv cid n.ctrl.pendingOffers s ∧
      Engine.Failed cid s) (fun _ _ h hs => ⟨h.awaitInv hs.1, h.failed hs.1 hs.2⟩) c ⟨hi, hf⟩).2
  | publish publishOk =>
    simp only [step]
    cases n.ctrl.ritualHandle <;> exact hf
  | ingest t => exact hf
  | age => exact hf

theorem step_result (i : NodeStep) {r : Dict} (hr : n.caws.lookup .result (cidAtom cid) = some r) :
    (n.step ord iter i).caws.lookup .result (cidAtom cid) = some r := by
  cases i with
  | call c => exact Engine.call_invariant (s := n.engine) (fun _ _ h => h.lookup_mono) c hr
  | publish publishOk =>
    simp only [step]
    cases n.ctrl.ritualHandle <;> exact hr
  | ingest t => exact hr
  | age => exact hr

/-- The await of a step ends the step. -/
theorem awaits_spec (ord : RowOrder) (iter : HashOrder) {i : NodeStep} {c : Term} {s : Engine} (h : n.awaits i = some (c, s)) :
    Engine.Acts ord n.engine s ∧ (n.step ord iter i).engine = (s.cawsAwait ord c).2 := by
  cases i with
  | call call =>
    rw [call_engine]
    cases call with
    | await cid =>
      cases h
      exact ⟨.refl, rfl⟩
    | consult target topic payload =>
      have ho := Engine.Acts.cawsOffer ord n.engine target topic payload
      simp only [awaits] at h
      simp only [Engine.call, Engine.cawsConsult]
      generalize n.engine.cawsOffer target topic payload = r at ho h
      obtain ⟨o, s'⟩ := r
      cases o with
      | succeeds cid =>
        cases h
        exact ⟨ho, rfl⟩
      | fails => cases h
      | throws => cases h
    | _ => cases h
  | _ => cases h

/-- An await of `cid` at two moments of one run. -/
structure AwaitPair (ord : RowOrder) (iter : HashOrder) (cid : Uuid) (n : Node)
    (steps : List NodeStep) where
  before : List NodeStep
  first : NodeStep
  between : List NodeStep
  second : NodeStep
  after : List NodeStep
  split : steps = before ++ first :: (between ++ second :: after)
  early : Engine
  late : Engine
  atFirst : (run (step ord iter) n before).awaits first = some (cidAtom cid, early)
  atSecond : (run (step ord iter) n (before ++ first :: between)).awaits second =
    some (cidAtom cid, late)

/-- The outcome of an await is final, in both directions. -/
structure AwaitStable (ord : RowOrder) (iter : HashOrder) (cid : Uuid) (n : Node)
    (steps : List NodeStep) : Prop where
  failure : ∀ q : AwaitPair ord iter cid n steps, (q.early.cawsAwait ord (cidAtom cid)).1 = .fails →
    ((q.early.cawsAwait ord (cidAtom cid)).2.caws.lookup .failed (cidAtom cid)).isSome = true →
    ∀ r, (q.late.cawsAwait ord (cidAtom cid)).1 ≠ .succeeds r
  success : ∀ q : AwaitPair ord iter cid n steps, ∀ r,
    (q.early.cawsAwait ord (cidAtom cid)).1 = .succeeds r →
    (q.late.cawsAwait ord (cidAtom cid)).1 = .succeeds r

end Node

namespace Engine
variable {ord : RowOrder} {s : Engine} {cid : Uuid}

theorem lookup_of_await_succeeds {c : Term} {r : Dict} (h : (s.cawsAwait ord c).1 = .succeeds r) :
    (s.cawsAwait ord c).2.caws.lookup .result c = some r := by
  rw [cawsAwait_eq] at h ⊢
  cases hr : s.caws.lookup .result c with
  | some q =>
    simp only [hr, Outcome.succeeds.injEq] at h ⊢
    rw [h]
  | none =>
    cases hf : s.caws.lookup .failed c with
    | some q => simp [hr, hf] at h
    | none =>
      by_cases hok : (s.drainRitualEvents ord).1 = true
      · cases hd : (s.drain ord).caws.lookup .result c with
        | some q =>
          simp only [hr, hf, hok, hd, if_true, Outcome.succeeds.injEq] at h ⊢
          rw [h]
        | none => simp [hr, hf, hok, hd] at h
      · simp [hr, hf, hok] at h

theorem lookup_of_await_fails {c : Term} (h : (s.cawsAwait ord c).1 = .fails) :
    (s.cawsAwait ord c).2.caws.lookup .result c = none := by
  rw [cawsAwait_eq] at h ⊢
  cases hr : s.caws.lookup .result c with
  | some q => simp [hr] at h
  | none =>
    cases hf : s.caws.lookup .failed c with
    | some q => simpa using hr
    | none =>
      by_cases hok : (s.drainRitualEvents ord).1 = true
      · cases hd : (s.drain ord).caws.lookup .result c with
        | some q => simp [hr, hf, hok, hd] at h
        | none => simp [hok, hd]
      · simp [hr, hf, hok] at h

theorem await_of_result {c : Term} {r : Dict} (h : s.caws.lookup .result c = some r) :
    (s.cawsAwait ord c).1 = .succeeds r := by
  rw [cawsAwait_eq]
  simp [h]

theorem await_of_failed (h : Failed cid s) : (s.cawsAwait ord (cidAtom cid)).1 = .fails := by
  obtain ⟨q, hq⟩ := Option.isSome_iff_exists.mp h.1
  rw [cawsAwait_eq]
  simp [h.2, hq]

end Engine

/-- A node at the start of a deduction: an empty Prolog mailbox and nothing on offer. -/
structure FreshNode where
  ctrl : CycleController
  empty : ∀ r ∈ ctrl.world.rows, r.sessionId ≠ ctrl.prologId
  idle : ctrl.pendingOffers = ∅

namespace FreshNode

def start (f : FreshNode) : Node := ⟨f.ctrl, {}⟩

theorem start_awaitOk (f : FreshNode) (cid : Uuid) : f.start.AwaitOk cid := by
  let e : FreshEngine := ⟨f.ctrl.prologId, f.ctrl.world, f.empty⟩
  have hlog : f.start.engine.log = [] := e.start_log
  refine ⟨e.start_consistent.sound, e.start_consistent.offers, ?_, ?_, ?_, ?_⟩
  · intro m hm
    simp [hlog] at hm
  · intro h
    simp [start, f.idle] at h
  · rintro ⟨m, hm, -⟩
    simp [hlog] at hm
  · rintro ⟨h, -⟩
    simp [start, Node.engine, Caws.lookup] at h

section Run
variable (ord : RowOrder) (iter : HashOrder) (f : FreshNode) (cid : Uuid) (steps : List NodeStep)

theorem await_success_stable (q : Node.AwaitPair ord iter cid f.start steps) (r : Dict)
    (hr : (q.early.cawsAwait ord (cidAtom cid)).1 = .succeeds r) :
    (q.late.cawsAwait ord (cidAtom cid)).1 = .succeeds r := by
  obtain ⟨before, first, between, second, after, rfl, early, late, h1, h2⟩ := q
  obtain ⟨-, hfirst⟩ := Node.awaits_spec ord iter h1
  have hlate := (Node.awaits_spec ord iter h2).1
  have hcached : (Node.step ord iter (run (Node.step ord iter) f.start before) first).caws.lookup
      .result (cidAtom cid) = some r := by
    have := Engine.lookup_of_await_succeeds hr
    rwa [← hfirst] at this
  have hkept : (run (Node.step ord iter) (Node.step ord iter
      (run (Node.step ord iter) f.start before) first) between).caws.lookup .result (cidAtom cid) =
      some r :=
    run_invariant (P := fun m : Node => m.caws.lookup .result (cidAtom cid) = some r)
      (C := fun _ _ => True) (fun _ i _ h => Node.step_result i h) (fun _ _ => trivial) hcached
  have hstart : (run (Node.step ord iter) f.start (before ++ first :: between)).engine.caws.lookup
      .result (cidAtom cid) = some r := by
    rw [run_append]
    exact hkept
  exact Engine.await_of_result (Engine.Acts.invariant (fun _ _ h => h.lookup_mono) hlate hstart)

variable {steps}
variable (hsafe : ∀ v ∈ visits (Node.step ord iter) f.start steps, v.1.AwaitSafe iter cid v.2)
include hsafe

theorem await_failure_stable (q : Node.AwaitPair ord iter cid f.start steps)
    (hfail : (q.early.cawsAwait ord (cidAtom cid)).1 = .fails)
    (hcached : ((q.early.cawsAwait ord (cidAtom cid)).2.caws.lookup .failed
      (cidAtom cid)).isSome = true) (r : Dict) :
    (q.late.cawsAwait ord (cidAtom cid)).1 ≠ .succeeds r := by
  obtain ⟨before, first, between, second, after, rfl, early, late, h1, h2⟩ := q
  obtain ⟨-, hfirst⟩ := Node.awaits_spec ord iter h1
  have hlate := (Node.awaits_spec ord iter h2).1
  have hbefore : (run (Node.step ord iter) f.start before).AwaitOk cid := by
    refine run_invariant (fun _ i hC hi => Node.step_awaitOk i hC hi) (fun v hv => hsafe v ?_)
      (f.start_awaitOk cid)
    rw [visits_append]
    exact List.mem_append_left _ hv
  have hmid : (run (Node.step ord iter) f.start (before ++ [first])).AwaitOk cid ∧
      Engine.Failed cid (run (Node.step ord iter) f.start (before ++ [first])).engine := by
    rw [run_append]
    simp only [Transition.run]
    refine ⟨Node.step_awaitOk first (hsafe (_, first) ?_) hbefore, ?_⟩
    · rw [visits_append]
      exact List.mem_append_right _ (by simp [visits])
    · rw [hfirst]
      exact ⟨hcached, Engine.lookup_of_await_fails hfail⟩
  have hend : (run (Node.step ord iter) (run (Node.step ord iter) f.start (before ++ [first]))
      between).AwaitOk cid ∧ Engine.Failed cid (run (Node.step ord iter)
        (run (Node.step ord iter) f.start (before ++ [first])) between).engine := run_invariant
    (P := fun m => m.AwaitOk cid ∧ Engine.Failed cid m.engine)
    (fun _ i hC hi => ⟨Node.step_awaitOk i hC hi.1, Node.step_failed i hi.1 hi.2⟩)
    (fun v hv => hsafe v (by simpa using mem_visits_segment (z := second :: after) hv)) hmid
  have hlist : before ++ first :: between = (before ++ [first]) ++ between := by simp
  rw [hlist, run_append] at hlate
  have hf := (Engine.Acts.invariant (P := fun s => Engine.AwaitInv cid _ s ∧ Engine.Failed cid s)
    (fun _ _ h hs => ⟨h.awaitInv hs.1, h.failed hs.1 hs.2⟩) hlate hend).2
  rw [Engine.await_of_failed hf]
  intro h
  cases h

/-- In every run of a node whose ingested envelopes all are harmless for `cid`, an await of
`cid` that has failed for a Tabu or a timeout never succeeds, and one that has succeeded
succeeds again with the same result. -/
theorem await_stable : Node.AwaitStable ord iter cid f.start steps :=
  ⟨await_failure_stable ord iter f cid hsafe, await_success_stable ord iter f cid steps⟩

end Run

/-- A node that has just joined its performance. -/
def joined : FreshNode := ⟨CycleController.joined, nofun, rfl⟩

/-- An offer is made and published, and a Tabu comes back for it. -/
def refused : List NodeStep :=
  [.call (.offer "n2" "run/e1" (.dict [])), .publish fun _ => true,
    .ingest (peerTephra ⟨11⟩ "tabu" ⟨1000⟩)]

/-- A foreign reply that is not addressed to this node, and a late one of our own. -/
def refusedRun : List NodeStep :=
  refused ++ [.call (.await (cidAtom ⟨1000⟩)), .ingest (peerTephra ⟨99⟩ "hohi" ⟨1000⟩),
    .ingest (peerTephra ⟨11⟩ "hohi" ⟨1000⟩), .call (.await (cidAtom ⟨1000⟩))]

theorem await_stable_refused :
    Node.AwaitStable .stable .listed ⟨1000⟩ joined.start refusedRun := by
  refine await_stable .stable .listed joined ⟨1000⟩ fun v hv => ?_
  -- each envelope is the offer's own reply or is dropped
  have hclear : ∀ v ∈ visits (Node.step .stable .listed) joined.start refusedRun,
      (match v.2 with
        | .ingest t => decide (v.1.ctrl.settled .listed t = some ⟨1000⟩) ||
          (v.1.ctrl.ingested .listed t).isNone
        | _ => true) = true := by decide +kernel
  obtain ⟨n, i⟩ := v
  cases i with
  | ingest t =>
    intro hset body hb
    have h := hclear _ hv
    simp only [hset, hb] at h
    cases h
  | _ => trivial

/-- The Hohi of another performance, addressed to this node under the same id, is taken out
of the mailbox by an edge predicate. -/
def strayRun : List NodeStep :=
  refused ++ [.call (.await (cidAtom ⟨1000⟩)),
    .ingest { peerTephra ⟨99⟩ "hohi" ⟨1000⟩ with targetNodeId := some "a" },
    .call (.edgeReply "e1" .hohi (cidAtom ⟨1000⟩)), .call (.await (cidAtom ⟨1000⟩))]

def strayPair : Node.AwaitPair .stable .listed ⟨1000⟩ joined.start strayRun where
  before := refused
  first := .call (.await (cidAtom ⟨1000⟩))
  between := [.ingest { peerTephra ⟨99⟩ "hohi" ⟨1000⟩ with targetNodeId := some "a" },
    .call (.edgeReply "e1" .hohi (cidAtom ⟨1000⟩))]
  second := .call (.await (cidAtom ⟨1000⟩))
  after := []
  split := rfl
  early := _
  late := _
  atFirst := rfl
  atSecond := rfl

/-- The await has failed for the cached Tabu, and later succeeds. -/
theorem stray_hohi_revives_await :
    (run (Node.step .stable .listed) joined.start refused).caws.offerSent =
      [(⟨"n2", "run/e1", []⟩, cidAtom ⟨1000⟩)] ∧
    ¬ Node.AwaitStable .stable .listed ⟨1000⟩ joined.start strayRun := by
  refine ⟨by decide +kernel, fun h => ?_⟩
  refine h.failure strayPair (by decide +kernel) (by decide +kernel)
    [("_routing", .dict [("correlation_id", .string (Uuid.toText ⟨1000⟩))])] ?_
  decide +kernel

end FreshNode

end Cerebellum
