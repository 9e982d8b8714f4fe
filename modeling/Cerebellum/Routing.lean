import Cerebellum.ControllerSpec
import Cerebellum.EngineRun

/-! The `_routing` block: stamped by the controller from the envelope, trusted by the
Prolog caches and the CLIPS consumer. A peer's body shares the object it is put into. -/
namespace Cerebellum

/-- The payload's `_routing` says exactly this and nothing else; it is absent when there
is nothing to say. -/
def RoutingIs (payload : Json) (correlationId : Option Uuid) (sourceNodeId topicPath : Option String) :
    Prop :=
  match payload.get "_routing" with
  | none => correlationId = none ∧ sourceNodeId = none ∧ topicPath = none
  | some routing => ∃ m, routing = .obj m ∧
      Fields.get "correlation_id" m = correlationId.map (fun u => .str u.toText) ∧
      Fields.get "source_node_id" m = sourceNodeId.map .str ∧
      Fields.get "topic_path" m = topicPath.map .str ∧
      ∀ k v, Fields.get k m = some v → k ∈ ["correlation_id", "source_node_id", "topic_path"]

/-- The envelope has a routing field of its own, or the body brings none. -/
def TephraEnvelope.Trusted (t : TephraEnvelope) (body : Json) : Prop :=
  t.correlationId ≠ none ∨ t.sourceNodeId ≠ none ∨ t.topicPath ≠ none ∨
    body.get "_routing" = none

namespace CycleController

section RoutingFields
variable (cid : Option Uuid) (src tp : Option String)

theorem get_routingFields (k : String) : Fields.get k (routingFields cid src tp) =
    if k = "correlation_id" then cid.map fun u => .str u.toText
    else if k = "source_node_id" then src.map .str
    else if k = "topic_path" then tp.map .str
    else none := by
  by_cases h1 : k = "correlation_id" <;> by_cases h2 : k = "source_node_id" <;>
    by_cases h3 : k = "topic_path" <;> cases cid <;> cases src <;> cases tp <;>
    simp_all [routingFields, Fields.get_insert]

theorem routingFields_isEmpty :
    (routingFields cid src tp).isEmpty = true ↔ cid = none ∧ src = none ∧ tp = none := by
  constructor
  · intro h
    have hnil : routingFields cid src tp = [] := List.isEmpty_iff.mp h
    have hget := get_routingFields cid src tp
    simp only [hnil, Fields.get_nil] at hget
    have h1 := hget "correlation_id"
    have h2 := hget "source_node_id"
    have h3 := hget "topic_path"
    simp at h1 h2 h3
    exact ⟨h1, h2, h3⟩
  · rintro ⟨rfl, rfl, rfl⟩
    rfl

/-- An object with a stamped block says what was stamped. -/
theorem routingIs_insert (m : Fields) :
    RoutingIs (.obj (Fields.insert "_routing" (.obj (routingFields cid src tp)) m)) cid src tp := by
  simp only [RoutingIs, Json.get_obj, Fields.get_insert_self]
  refine ⟨_, rfl, ?_, ?_, ?_, fun k v hv => ?_⟩
  · simp [get_routingFields]
  · simp [get_routingFields]
  · simp [get_routingFields]
  · rw [get_routingFields] at hv
    split_ifs at hv with h1 h2 h3
    · simp [h1]
    · simp [h2]
    · simp [h3]

end RoutingFields

theorem stampRouting_routingIs {t : TephraEnvelope} {m : Fields} (h : t.Trusted (.obj m)) :
    RoutingIs (stampRouting t (.obj m)) t.correlationId t.sourceNodeId t.topicPath := by
  unfold stampRouting
  by_cases he : (routingFields t.correlationId t.sourceNodeId t.topicPath).isEmpty = true
  · obtain ⟨h1, h2, h3⟩ := (routingFields_isEmpty _ _ _).mp he
    have hnone : (Json.obj m).get "_routing" = none := by simpa [TephraEnvelope.Trusted, h1, h2, h3] using h
    simp only [he, if_true, RoutingIs, hnone]
    exact ⟨h1, h2, h3⟩
  · simp only [he]
    exact routingIs_insert _ _ _ m

/-- The payload an ingested envelope leaves is its stamped body. -/
theorem ingested_eq {iter : HashOrder} {c : CycleController} {t : TephraEnvelope} {body e : Json}
    (hp : t.payload = .plaintext body) (h : c.ingested iter t = some e) : e = stampRouting t body := by
  simp only [ingested, hp] at h
  split_ifs at h <;> exact (Option.some.inj h).symm

theorem ingest_log (iter : HashOrder) (c : CycleController) (t : TephraEnvelope) {sid : Uuid}
    (h : c.Mailbox sid) : (c.ingestTephra iter t).world.log sid = c.world.log sid ++
      ((c.ingested iter t).map fun e => ("ritual/" ++ t.label, e)).toList := by
  rw [ingestTephra_eq]
  cases c.ingested iter t with
  | none => simp
  | some body =>
    have hm : { c with pendingOffers := eraseOffer c.pendingOffers (c.settled iter t) }.Mailbox
      sid := h
    simpa using writeBoth_log hm _ _

/-- The correlation id under which the Prolog side caches a stamped body is the
envelope's own. -/
theorem correlate_stampRouting {t : TephraEnvelope} {body : Json} (h : t.Trusted body) {cid : Term}
    {p : Dict} (hc : correlate (stampRouting t body) = .caws cid p) :
    ∃ u, t.correlationId = some u ∧ cid = .atom u.toText := by
  cases body with
  | obj m =>
    have hr := stampRouting_routingIs h
    obtain ⟨m', hm'⟩ : ∃ m', stampRouting t (.obj m) = .obj m' := by
      by_cases he : (routingFields t.correlationId t.sourceNodeId t.topicPath).isEmpty = true
      · exact ⟨m, by simp [stampRouting, he]⟩
      · exact ⟨_, by simp [stampRouting, he]; rfl⟩
    rw [hm'] at hc hr
    simp only [correlate, Term.ofJson, Term.get_ofFields] at hc
    simp only [RoutingIs, Json.get_obj] at hr
    cases hg : Fields.get "_routing" m' with
    | none => simp [hg] at hc
    | some r =>
      simp only [hg] at hr hc
      obtain ⟨f, rfl, hcid, -⟩ := hr
      simp only [Option.map_some, Term.ofJson, Term.get_ofFields, hcid] at hc
      cases hu : t.correlationId with
      | none => simp [hu] at hc
      | some u =>
        simp only [hu, Option.map_some, Term.ofJson, Term.normalize, Correlated.caws.injEq] at hc
        exact ⟨u, rfl, hc.1.symm⟩
  | bool b => cases b <;> simp [stampRouting, correlate, Term.ofJson] at hc
  | _ => simp [stampRouting, correlate, Term.ofJson] at hc

/-- A fresh entry for `cid` in the reply caches is due to an envelope for `cid`. -/
theorem settles_only_own (ord : RowOrder) (iter : HashOrder) (c : CycleController) (caws : Caws)
    (hs : (Engine.mk c.prologId c.world caws).Sound) {t : TephraEnvelope} {body : Json}
    (hp : t.payload = .plaintext body) (ht : t.Trusted body) {slot : Slot} {cid : Term}
    (h : (((Engine.mk c.prologId (c.ingestTephra iter t).world caws).drain ord).caws.lookup slot
      cid).isSome = true) :
    (∃ m ∈ c.world.log c.prologId, (carries slot cid m.1 m.2).isSome = true) ∨
      ∃ u, t.correlationId = some u ∧ cid = .atom u.toText := by
  have hmine : c.Mailbox c.prologId := .inl rfl
  have hlog := c.ingest_log iter t hmine
  have hsound : (Engine.mk c.prologId (c.ingestTephra iter t).world caws).Sound := by
    intro slot cid p hl
    obtain ⟨m, hm, hc⟩ := hs slot cid p hl
    exact ⟨m, by rw [Engine.log, hlog]; exact List.mem_append_left _ hm, hc⟩
  obtain ⟨p, hl⟩ := Option.isSome_iff_exists.mp h
  obtain ⟨m, hm, hc⟩ := Engine.drain_sound _ hsound slot cid p hl
  have hm' : m ∈ (c.ingestTephra iter t).world.log c.prologId := by
    simpa [Engine.log] using hm
  rw [hlog, List.mem_append] at hm'
  rcases hm' with hm' | hm'
  · exact .inl ⟨m, hm', Option.isSome_of_mem hc⟩
  · simp only [Option.mem_toList, Option.map_eq_some_iff] at hm'
    obtain ⟨e, he, rfl⟩ := hm'
    obtain ⟨-, p', hp'⟩ := carries_isSome_iff.mp (Option.isSome_of_mem hc)
    rw [ingested_eq hp he] at hp'
    exact .inr (correlate_stampRouting ht hp')

/-- Routing metadata is the envelope's own: what `ingest_tephra` writes for a trusted
envelope, what an injected Offering gets (its own id or a minted one, its own topic or
`run`), and whose replies can settle an await. -/
theorem routing_is_the_envelopes (ord : RowOrder) (iter : HashOrder) (c : CycleController) :
    (∀ t m, t.payload = .plaintext (.obj m) → t.Trusted (.obj m) → ∀ sid, c.Mailbox sid →
      ∃ ms, (c.ingestTephra iter t).world.log sid = c.world.log sid ++ ms ∧
        ∀ e ∈ ms, RoutingIs e.2 t.correlationId t.sourceNodeId t.topicPath) ∧
    (∀ off m, c.initialOffering = some off → off.payload = .obj m → ∀ sid, c.Mailbox sid →
      ∃ e, c.injectInitialOffering.world.log sid = c.world.log sid ++ [("ritual/offering", e)] ∧
        RoutingIs e (some (off.correlationId.getD (c.world.uuid c.world.tick))) off.sourceNodeId
          (some (off.topicPath.getD "run"))) ∧
    (∀ caws, (Engine.mk c.prologId c.world caws).Sound → ∀ t body, t.payload = .plaintext body →
      t.Trusted body → ∀ slot cid,
      (((Engine.mk c.prologId (c.ingestTephra iter t).world caws).drain ord).caws.lookup slot
        cid).isSome = true →
      (∃ m ∈ c.world.log c.prologId, (carries slot cid m.1 m.2).isSome = true) ∨
        ∃ u, t.correlationId = some u ∧ cid = .atom u.toText) := by
  refine ⟨fun t m hp ht sid hsid => ?_, fun off m ho hp sid hsid => ?_, ?_⟩
  · refine ⟨_, c.ingest_log iter t hsid, fun e he => ?_⟩
    simp only [Option.mem_toList, Option.map_eq_some_iff] at he
    obtain ⟨b, hb, rfl⟩ := he
    rw [ingested_eq hp hb]
    exact stampRouting_routingIs ht
  · unfold injectInitialOffering
    simp only [ho, hp]
    cases hc : off.correlationId with
    | some cid =>
      refine ⟨_, writeBoth_log (c := { c with initialOffering := none }) hsid _ _, ?_⟩
      exact routingIs_insert _ _ _ m
    | none =>
      refine ⟨_, writeBoth_log
        (c := { c with world := c.world.newV4.2, initialOffering := none }) hsid _ _, ?_⟩
      exact routingIs_insert _ _ _ m
  · intro caws hs t body hp ht slot cid h
    exact settles_only_own ord iter c caws hs hp ht h

/-- A reply that answers the offer it names, and a body that brings a block of its own. -/
theorem routing_is_the_envelopes_reply :
    ∃ ms, (joined.ingestTephra .listed { peerTephra ⟨99⟩ "event" ⟨7⟩ with
        payload := .plaintext (.obj [("_routing", .num 5 0)]) }).world.log ⟨1⟩ =
        joined.world.log ⟨1⟩ ++ ms ∧
      ∀ e ∈ ms, RoutingIs e.2 (some ⟨7⟩) none none :=
  (routing_is_the_envelopes .stable .listed joined).1 { peerTephra ⟨99⟩ "event" ⟨7⟩ with
    payload := .plaintext (.obj [("_routing", .num 5 0)]) } _ rfl (.inl (by simp [peerTephra]))
    ⟨1⟩ (.inl rfl)

/-- An Offering without id and topic gets both, and the block in the body of an unrouted
envelope goes through as it is. -/
theorem routing_not_always_the_envelopes :
    ({ joined with initialOffering := some ⟨.obj [], none, none, none⟩ }.injectInitialOffering.world.log
        ⟨1⟩ = [("ritual/offering", .obj [("_routing", .obj
          [("correlation_id", .str (Uuid.toText ⟨1000⟩)), ("topic_path", .str "run")])])]) ∧
    (joined.ingestTephra .listed { peerTephra ⟨99⟩ "event" ⟨7⟩ with
        correlationId := none
        payload := .plaintext (.obj [("_routing", .obj [("correlation_id", .str "forged")])]) }).world.log
        ⟨1⟩ = [("ritual/event", .obj [("_routing", .obj [("correlation_id", .str "forged")])])] := by
  decide +kernel

end CycleController

end Cerebellum
