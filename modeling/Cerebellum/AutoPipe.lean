import Cerebellum.EngineRun

/-! Auto-pipe edges: a node forwards a cached incoming Offering as an Offering of its own.
The pipe memo is per edge and incoming id; the offer behind it is shared by everything
that has the same target, topic and payload. -/
namespace Cerebellum
open Transition

structure PipeEdge where
  target : String
  topic : String

/-- The offer an edge makes of an incoming payload. -/
def PipeEdge.key (pe : PipeEdge) (payload : Dict) : OfferKey :=
  ⟨pe.target, pe.topic, stripRouting payload⟩

namespace Engine
variable {ord : RowOrder}

/-- The payload of the incoming Offering `cid` is there for the call: cached, or waiting
for its drain. -/
def pipeReady (ord : RowOrder) (s : Engine) (cid : Term) (payload : Dict) : Prop :=
  (s.drain ord).caws.lookup .offering cid = some payload

/-- The edge has forwarded `cid`: its payload is out under one id, and that id is
recorded for the edge. -/
def Forwarded (s : Engine) (edge : String) (pe : PipeEdge) (cid : Term) (payload : Dict)
    (offerCid : Term) : Prop :=
  s.caws.lookup .offering cid = some payload ∧ (pe.key payload, offerCid) ∈ s.caws.offerSent ∧
    (edge, offerCid) ∈ s.caws.edgeOffer

theorem blind_pipe : Blind fun c : Caws => (c.piped, c.edgeOffer) :=
  ⟨fun _ _ _ _ _ => rfl, fun _ _ => rfl, fun _ _ => rfl, fun _ _ => rfl⟩

/-- After an offer its key is in the table, whether it was sent now or before. -/
theorem offerDict_mem (s : Engine) (key : OfferKey) :
    (key, (s.offerDict key).1) ∈ (s.offerDict key).2.caws.offerSent := by
  cases h : Table.find key s.caws.offerSent with
  | some cid =>
    have hd : s.offerDict key = (cid, s) := by simp [offerDict, h]
    rw [hd]
    exact Table.find_mem h
  | none =>
    obtain ⟨hcid, -, hcaws, -⟩ := offerDict_fresh h
    rw [hcid, hcaws]
    exact List.mem_append_right _ (by simp)

theorem offerDict_lookup (s : Engine) (key : OfferKey) (slot : Slot) (cid : Term) :
    (s.offerDict key).2.caws.lookup slot cid = s.caws.lookup slot cid := by
  cases h : Table.find key s.caws.offerSent with
  | some c => simp [offerDict, h]
  | none =>
    rw [(offerDict_fresh h).2.2.1]
    cases slot <;> rfl

/-- The four ways a pipe call ends. -/
theorem cawsPipe_cases (ord : RowOrder) (s : Engine) (edge target topic : String) (cid : Term) :
    (edge, cid) ∈ s.caws.piped ∧ (s.cawsPipe ord edge target topic cid).2 = s ∨
    (edge, cid) ∉ s.caws.piped ∧ (s.drainRitualEvents ord).1 = false ∧
      (s.cawsPipe ord edge target topic cid).2 = s.drain ord ∨
    (edge, cid) ∉ s.caws.piped ∧ (s.drain ord).caws.lookup .offering cid = none ∧
      (s.cawsPipe ord edge target topic cid).2 = s.drain ord ∨
    ∃ payload, (edge, cid) ∉ s.caws.piped ∧
      (s.drain ord).caws.lookup .offering cid = some payload ∧
      (s.cawsPipe ord edge target topic cid).2 =
        let r := (s.drain ord).offerDict ⟨target, topic, stripRouting payload⟩
        { r.2 with caws := { r.2.caws with
          piped := r.2.caws.piped ++ [(edge, cid)]
          edgeOffer := r.2.caws.edgeOffer ++ [(edge, r.1)] } } := by
  unfold cawsPipe
  rw [unlessSeen_eq]
  by_cases hm : (edge, cid) ∈ s.caws.piped
  · exact .inl ⟨hm, by simp [hm]⟩
  · by_cases hok : (s.drainRitualEvents ord).1 = true
    · cases hp : Table.find cid (s.drain ord).caws.offering with
      | none =>
        have hl : (s.drain ord).caws.lookup .offering cid = none := by rw [Caws.lookup, hp]; rfl
        exact .inr (.inr (.inl ⟨hm, hl, by simp [hm, hok]⟩))
      | some e =>
        have hl : (s.drain ord).caws.lookup .offering cid = some e.2 := by
          rw [Caws.lookup, hp]
          rfl
        exact .inr (.inr (.inr ⟨e.2, hm, hl, by simp [hm, hok]⟩))
    · exact .inr (.inl ⟨hm, by simpa using hok, by simp [hm, hok]⟩)

/-- What one step of the run is assumed to satisfy: calls follow the node's edges, and a
pipe call's drain raises no error. -/
def PipeStepOk (ord : RowOrder) (edges : String → PipeEdge) (s : Engine) (i : EngineStep) : Prop :=
  ∀ edge target topic cid, i = .call (.pipe edge target topic cid) →
    edges edge = ⟨target, topic⟩ ∧
    ((edge, cid) ∉ s.caws.piped → ∀ e ∈ s.batch ord, correlate e.payload ≠ .malformed)

/-- The pipe memo is never set without the forwarded offer. -/
structure PipeSound (edges : String → PipeEdge) (s : Engine) : Prop where
  consistent : s.Consistent
  sent : ∀ edge cid, (edge, cid) ∈ s.caws.piped →
    ∃ payload offerCid, s.Forwarded edge (edges edge) cid payload offerCid

theorem pipe_edgeOffer (s : Engine) (edge target topic : String) (cid : Term) :
    (∀ x ∈ s.caws.edgeOffer, x ∈ (s.cawsPipe ord edge target topic cid).2.caws.edgeOffer) ∧
    ∀ x ∈ (s.cawsPipe ord edge target topic cid).2.caws.piped,
      x ∈ s.caws.piped ∨ x = (edge, cid) := by
  have hd := drain_view blind_pipe ord s
  simp only [Prod.mk.injEq] at hd
  rcases cawsPipe_cases ord s edge target topic cid with
    ⟨-, he⟩ | ⟨-, -, he⟩ | ⟨-, -, he⟩ | ⟨payload, -, -, he⟩
  · rw [he]
    exact ⟨fun x hx => hx, fun x hx => .inl hx⟩
  · rw [he, hd.1, hd.2]
    exact ⟨fun x hx => hx, fun x hx => .inl hx⟩
  · rw [he, hd.1, hd.2]
    exact ⟨fun x hx => hx, fun x hx => .inl hx⟩
  · have ho := offerDict_view blind_pipe (s.drain ord) ⟨target, topic, stripRouting payload⟩
    simp only [Prod.mk.injEq] at ho
    rw [he]
    simp only [ho.1, ho.2, hd.1, hd.2, List.mem_append, List.mem_singleton]
    exact ⟨fun x hx => .inl hx, fun x hx => hx⟩

/-- A pipe call with its payload at hand forwards it. -/
theorem forwarded_of_ready {s : Engine} {edge : String} (pe : PipeEdge) {cid : Term}
    {payload : Dict} (hnew : (edge, cid) ∉ s.caws.piped)
    (hok : ∀ e ∈ s.batch ord, correlate e.payload ≠ .malformed)
    (hready : s.pipeReady ord cid payload) :
    (edge, cid) ∈ (s.cawsPipe ord edge pe.target pe.topic cid).2.caws.piped ∧
      ∃ offerCid, (s.cawsPipe ord edge pe.target pe.topic cid).2.Forwarded edge pe cid payload
        offerCid := by
  rcases cawsPipe_cases ord s edge pe.target pe.topic cid with
    ⟨hm, -⟩ | ⟨-, hf, -⟩ | ⟨-, hp, -⟩ | ⟨payload', -, hp, he⟩
  · exact absurd hm hnew
  · rw [(s.drain_ok ord).mpr hok] at hf
    cases hf
  · rw [pipeReady, hp] at hready
    cases hready
  · rw [pipeReady, hp, Option.some.injEq] at hready
    subst hready
    rw [he]
    refine ⟨List.mem_append_right _ (by simp), _, ?_, offerDict_mem _ (pe.key payload'),
      List.mem_append_right _ (by simp [PipeEdge.key])⟩
    have hl := offerDict_lookup (s.drain ord) (pe.key payload') .offering cid
    rw [hp] at hl
    exact hl

theorem step_edgeOffer_mono (ord : RowOrder) {s : Engine} (i : EngineStep) {x : String × Term}
    (hx : x ∈ s.caws.edgeOffer) : x ∈ (s.step ord i).caws.edgeOffer := by
  cases i with
  | arrive label payload => exact hx
  | call c =>
    by_cases hpipe : ∃ edge target topic cid, c = .pipe edge target topic cid
    · obtain ⟨edge, target, topic, cid, rfl⟩ := hpipe
      exact (pipe_edgeOffer s edge target topic cid).1 x hx
    · have hv := call_view blind_pipe ord s c
        (fun e t p cid hc => absurd ⟨e, t, p, cid, hc⟩ hpipe)
        (fun _ _ _ _ _ _ _ => rfl) (fun _ _ _ _ _ _ _ _ => rfl) (fun _ _ _ _ _ _ _ => rfl)
      simp only [Prod.mk.injEq] at hv
      rw [← hv.2] at hx
      exact hx

theorem forwarded_step (ord : RowOrder) {s : Engine} (i : EngineStep) {edge : String} {pe : PipeEdge} {cid : Term}
    {payload : Dict} {offerCid : Term} (h : s.Forwarded edge pe cid payload offerCid) :
    (s.step ord i).Forwarded edge pe cid payload offerCid :=
  ⟨step_lookup_mono ord i h.1, step_offerSent_mono ord i h.2.1, step_edgeOffer_mono ord i h.2.2⟩

/-- Only a pipe call that forwards its payload sets a memo. -/
theorem piped_step {s : Engine} {i : EngineStep} {edge : String} {cid : Term}
    (hnew : (edge, cid) ∉ s.caws.piped) (hmem : (edge, cid) ∈ (s.step ord i).caws.piped) :
    ∃ target topic payload, i = .call (.pipe edge target topic cid) ∧
      s.pipeReady ord cid payload := by
  cases i with
  | arrive label payload => exact absurd hmem hnew
  | call c =>
    by_cases hpipe : ∃ edge target topic cid, c = .pipe edge target topic cid
    · obtain ⟨edge', target, topic, cid', rfl⟩ := hpipe
      have hx := ((pipe_edgeOffer s edge' target topic cid').2 _ hmem).resolve_left hnew
      cases hx
      have hd := drain_view blind_pipe ord s
      simp only [Prod.mk.injEq] at hd
      simp only [step, call] at hmem
      rcases cawsPipe_cases ord s edge target topic cid with
        ⟨-, he⟩ | ⟨-, -, he⟩ | ⟨-, -, he⟩ | ⟨payload, -, hp, -⟩
      · exact absurd (he ▸ hmem) hnew
      · rw [he, hd.1] at hmem
        exact absurd hmem hnew
      · rw [he, hd.1] at hmem
        exact absurd hmem hnew
      · exact ⟨target, topic, payload, rfl, hp⟩
    · have hv := call_view blind_pipe ord s c
        (fun e t p cid hc => absurd ⟨e, t, p, cid, hc⟩ hpipe)
        (fun _ _ _ _ _ _ _ => rfl) (fun _ _ _ _ _ _ _ _ => rfl) (fun _ _ _ _ _ _ _ => rfl)
      simp only [Prod.mk.injEq] at hv
      rw [← hv.1] at hnew
      exact absurd hmem hnew

theorem pipeSound_step {edges : String → PipeEdge} {s : Engine} {i : EngineStep}
    (hok : PipeStepOk ord edges s i) (hs : PipeSound edges s) :
    PipeSound edges (s.step ord i) := by
  refine ⟨step_consistent ord i hs.consistent, fun edge cid hmem => ?_⟩
  by_cases hold : (edge, cid) ∈ s.caws.piped
  · obtain ⟨payload, offerCid, hf⟩ := hs.sent edge cid hold
    exact ⟨payload, offerCid, forwarded_step ord i hf⟩
  · obtain ⟨target, topic, payload, rfl, hready⟩ := piped_step hold hmem
    obtain ⟨hedge, hclear⟩ := hok edge target topic cid rfl
    obtain ⟨-, offerCid, hf⟩ := forwarded_of_ready (edges edge) hold (hclear hold) hready
    simp only [hedge] at hf ⊢
    exact ⟨payload, offerCid, hf⟩

/-- The payload a pipe call looks up is the one it has forwarded before, if it has. -/
theorem forwarded_of_call {edges : String → PipeEdge} {s : Engine} {edge : String} {cid : Term}
    {payload : Dict} (hs : PipeSound edges s)
    (hok : PipeStepOk ord edges s
      (.call (.pipe edge (edges edge).target (edges edge).topic cid)))
    (hready : s.pipeReady ord cid payload) :
    ∃ offerCid, (s.cawsPipe ord edge (edges edge).target (edges edge).topic cid).2.Forwarded edge
      (edges edge) cid payload offerCid := by
  by_cases hold : (edge, cid) ∈ s.caws.piped
  · obtain ⟨payload', offerCid, hf⟩ := hs.sent edge cid hold
    have hsame := (show Act ord s (s.drain ord) from .drain s).lookup_mono hf.1
    rw [hready, Option.some.injEq] at hsame
    subst hsame
    exact ⟨offerCid, forwarded_step ord
      (.call (.pipe edge (edges edge).target (edges edge).topic cid)) hf⟩
  · exact (forwarded_of_ready (edges edge) hold ((hok edge _ _ cid rfl).2 hold) hready).2

/-- A pipe call for a key that was never offered writes one Offering under a new id. -/
theorem pipe_fresh_log {s : Engine} {edge : String} {pe : PipeEdge} {cid : Term} {payload : Dict}
    (hnew : (edge, cid) ∉ s.caws.piped)
    (hok : ∀ e ∈ s.batch ord, correlate e.payload ≠ .malformed)
    (hready : s.pipeReady ord cid payload)
    (hkey : Table.find (pe.key payload) s.caws.offerSent = none) :
    (s.cawsPipe ord edge pe.target pe.topic cid).2.log = s.log ++
      [offerEvent (pe.key payload, .atom (s.world.uuid s.world.tick).toText)] := by
  have hsent : (s.drain ord).caws.offerSent = s.caws.offerSent := by
    rw [drain_caws, Caws.cacheEvents_frame]
  have hlog : (s.drain ord).log = s.log := by simp [log]
  rcases cawsPipe_cases ord s edge pe.target pe.topic cid with
    ⟨hm, -⟩ | ⟨-, hf, -⟩ | ⟨-, hp, -⟩ | ⟨payload', -, hp, he⟩
  · exact absurd hm hnew
  · rw [(s.drain_ok ord).mpr hok] at hf
    cases hf
  · rw [pipeReady, hp] at hready
    cases hready
  · rw [pipeReady, hp, Option.some.injEq] at hready
    subst hready
    have hnone : Table.find (pe.key payload') (s.drain ord).caws.offerSent = none := hsent ▸ hkey
    have hfresh := offerDict_fresh hnone
    rw [he, ← hlog]
    exact hfresh.2.2.2.1

end Engine

open Engine

/-- An incoming Offering with a fixed body. -/
def offeringOf (cid : String) : EngineStep :=
  .arrive "offering"
    (.obj [("_routing", .obj [("correlation_id", .str cid)]), ("prompt", .str "hi")])

def pipeOf (cid : String) : EngineStep := .call (.pipe "e1" "n2" "run/e1" (.atom cid))

def runPair : List EngineStep := [offeringOf "x", offeringOf "y", pipeOf "x", pipeOf "y"]

end Cerebellum
