import Cerebellum.EngineRun

/-! Edge dispatch: the four edge predicates and `caws_await/2` share one destructive drain.
Whoever drains, an event that has arrived is found by every predicate that asks for it,
and each edge reports each correlation id once, also when user hooks call back in. -/
namespace Cerebellum
open Transition

/-- A mailbox event of the shape the controller writes: an object with an object-valued
`_routing` that carries a correlation id. -/
structure RitualEvent where
  label : String
  body : Fields
  routing : Fields
  cid : Json
  routed : Fields.get "_routing" body = some (.obj routing)
  correlated : Fields.get "correlation_id" routing = some cid

theorem RitualEvent.correlate_body (e : RitualEvent) :
    correlate (.obj e.body) = .caws (Term.ofJson e.cid).normalize (Term.ofFields e.body) := by
  simp [correlate, Term.ofJson, Term.get_ofFields, e.routed, e.correlated]

inductive EdgeStep where
  | arrive (e : RitualEvent)
  | call (c : Call)

def EdgeStep.toStep : EdgeStep → EngineStep
  | .arrive e => .arrive e.label (.obj e.body)
  | .call c => .call c

namespace Engine
variable {ord : RowOrder}

def edgeStep (ord : RowOrder) (s : Engine) (i : EdgeStep) : Engine := s.step ord i.toStep

/-- No event in the mailbox makes a drain raise an error. -/
def WellRouted (s : Engine) : Prop :=
  ∀ m ∈ s.log, originLike "ritual/" m.1 = true → correlate m.2 ≠ .malformed

/-- Every event that was drained by anyone is in its caches. -/
def NoneLost (s : Engine) : Prop :=
  ∀ r ∈ s.world.rows, r.sessionId = s.session → r.status ≠ .pending →
    ∀ slot cid, (carries slot cid r.origin r.payload).isSome = true →
      (s.caws.lookup slot cid).isSome = true

theorem Act.wellRouted {s t : Engine} (h : Act ord s t) (hs : s.WellRouted) : t.WellRouted := by
  intro m hm hr
  obtain ⟨ms, hms, hev⟩ := h.log_append
  rw [hms, List.mem_append] at hm
  rcases hm with hm | hm
  · exact hs m hm hr
  · rw [evaluator_not_ritual (hev m hm)] at hr
    cases hr

theorem batch_wellRouted {s : Engine} (hs : s.WellRouted) :
    ∀ e ∈ s.batch ord, correlate e.payload ≠ .malformed := by
  intro e he
  obtain ⟨r, hr, hsel, rfl⟩ := (World.mem_poll ord).mp he
  simp only [OriginFilter.selects, OriginFilter.cond, Bool.and_eq_true, beq_iff_eq] at hsel
  exact hs (r.origin, r.payload) (World.mem_log.mpr ⟨r, hr, hsel.1.1, rfl⟩) hsel.2

theorem readable_wellRouted {s : Engine} (hs : s.WellRouted) :
    Caws.readable (s.batch ord) = s.batch ord :=
  List.takeWhile_eq_self_iff.mpr fun e he => by simpa using batch_wellRouted hs e he

/-- A row that a drain takes out of the mailbox is in the caches afterwards. -/
theorem lookup_of_drained {s : Engine} (hs : s.WellRouted) {r : ClaraEvent}
    (hr : r ∈ s.world.rows) (hsid : r.sessionId = s.session) (hst : r.status = .pending)
    {slot : Slot} {cid : Term} (hc : (carries slot cid r.origin r.payload).isSome = true) :
    ((s.drain ord).caws.lookup slot cid).isSome = true := by
  have hsel : (OriginFilter.startsWith "ritual/").selects s.session r = true := by
    simp [OriginFilter.selects, OriginFilter.cond, hsid, hst, carries_ritual hc]
  have hmem : r.withStatus .processed ∈ s.batch ord := (World.mem_poll ord).mpr ⟨r, hr, hsel, rfl⟩
  rw [drain_lookup, readable_wellRouted hs]
  have hfound : ((s.batch ord).findSome? fun e => carries slot cid e.origin e.payload).isSome =
      true := by
    rw [List.findSome?_isSome_iff]
    exact ⟨_, hmem, hc⟩
  cases hl : s.caws.lookup slot cid with
  | some p => rfl
  | none => simpa using hfound

theorem drain_noneLost {s : Engine} (hw : s.WellRouted) (hs : s.NoneLost) :
    (s.drain ord).NoneLost := by
  intro r' hr' hsid hst slot cid hc
  rw [drain_rows, List.mem_map] at hr'
  obtain ⟨r, hr, rfl⟩ := hr'
  by_cases hsel : (OriginFilter.startsWith "ritual/").selects s.session r = true
  · simp only [hsel, if_true, ClaraEvent.withStatus_origin, ClaraEvent.withStatus_payload] at hc
    simp only [OriginFilter.selects, Bool.and_eq_true, beq_iff_eq] at hsel
    exact lookup_of_drained hw hr hsel.1.1 hsel.1.2 hc
  · simp only [hsel] at hc hsid hst
    obtain ⟨p, hp⟩ := Option.isSome_iff_exists.mp (hs r hr hsid hst slot cid hc)
    exact Option.isSome_of_mem ((Act.drain s).lookup_mono hp)

theorem Act.noneLost {s t : Engine} (h : Act ord s t) (hw : s.WellRouted) (hs : s.NoneLost) :
    t.NoneLost := by
  rcases h.rows_cases with rfl | ⟨⟨es, hes, hnew⟩, hlook⟩
  · exact drain_noneLost hw hs
  · intro r hr hsid hst slot cid hc
    rw [hes, List.mem_append] at hr
    rw [h.session_eq] at hsid
    rw [hlook]
    rcases hr with hr | hr
    · exact hs r hr hsid hst slot cid hc
    · exact absurd (hnew r hr).2.1 hst

/-- What every reachable engine satisfies here. -/
structure Dispatching (s : Engine) : Prop where
  sound : s.Sound
  wellRouted : s.WellRouted
  noneLost : s.NoneLost

theorem Act.dispatching {s t : Engine} (h : Act ord s t) (hs : s.Dispatching) : t.Dispatching :=
  ⟨h.sound hs.sound, h.wellRouted hs.wellRouted, h.noneLost hs.wellRouted hs.noneLost⟩

theorem edgeStep_dispatching (ord : RowOrder) {s : Engine} (i : EdgeStep) (hs : s.Dispatching) :
    (s.edgeStep ord i).Dispatching := by
  cases i with
  | call c => exact call_invariant (fun _ _ h => h.dispatching) c hs
  | arrive e =>
    have hlog := arrive_log ord s e.label (.obj e.body)
    refine ⟨?_, ?_, ?_⟩
    · intro slot cid p hp
      obtain ⟨m, hm, hc⟩ := hs.sound slot cid p hp
      exact ⟨m, by rw [edgeStep, EdgeStep.toStep, hlog]; exact List.mem_append_left _ hm, hc⟩
    · intro m hm hr
      rw [edgeStep, EdgeStep.toStep, hlog, List.mem_append, List.mem_singleton] at hm
      rcases hm with hm | rfl
      · exact hs.wellRouted m hm hr
      · rw [e.correlate_body]
        simp
    · intro r hr hsid hst slot cid hc
      have hrows : (s.edgeStep ord (.arrive e)).world.rows = s.world.rows ++
          [s.world.newEvent s.session ("ritual/" ++ e.label) (.obj e.body)] :=
        World.emit_rows ..
      rw [hrows, List.mem_append, List.mem_singleton] at hr
      rcases hr with hr | rfl
      · exact hs.noneLost r hr hsid hst slot cid hc
      · exact absurd rfl hst

/-- An event of this origin has arrived for `cid`, drained by now or not. -/
def Arrived (s : Engine) (origin : String) (cid : Term) : Prop :=
  ∃ payload p, (origin, payload) ∈ s.log ∧ correlate payload = .caws cid p

/-- After a drain a payload is cached exactly when an event that feeds it has arrived. -/
theorem drain_lookup_iff (ord : RowOrder) {s : Engine} (hs : s.Dispatching) (slot : Slot) (cid : Term) :
    ((s.drain ord).caws.lookup slot cid).isSome = true ↔
      ∃ origin ∈ slot.origins, s.Arrived origin cid := by
  have hlog : (s.drain ord).log = s.log := by simp [log]
  constructor
  · intro h
    obtain ⟨p, hp⟩ := Option.isSome_iff_exists.mp h
    obtain ⟨m, hm, hc⟩ := drain_sound ord hs.sound slot cid p hp
    rw [hlog] at hm
    obtain ⟨ho, p', hp'⟩ := carries_isSome_iff.mp (Option.isSome_of_mem hc)
    exact ⟨m.1, ho, m.2, p', hm, hp'⟩
  · rintro ⟨origin, ho, payload, p, hm, hp⟩
    have hc : (carries slot cid origin payload).isSome = true :=
      carries_isSome_iff.mpr ⟨ho, p, hp⟩
    obtain ⟨r, hr, hsid, he⟩ := World.mem_log.mp hm
    cases he
    by_cases hst : r.status = .pending
    · exact lookup_of_drained hs.wellRouted hr hsid hst hc
    · obtain ⟨p', hp'⟩ := Option.isSome_iff_exists.mp (hs.noneLost r hr hsid hst slot cid hc)
      exact Option.isSome_of_mem ((Act.drain s).lookup_mono hp')

/-- A matching event for a reply call has arrived. -/
def ReplyMatches (s : Engine) (edge : String) (kind : ReplyKind) (cid : Term) : Prop :=
  match kind with
  | .hohi => s.Arrived "ritual/hohi" cid
  | .tabu => s.Arrived "ritual/tabu" cid ∨ s.Arrived "ritual/tabu-timeout" cid
  | .tabuTimeout => (edge, cid) ∈ s.caws.edgeOffer ∧
      (s.Arrived "ritual/tabu" cid ∨ s.Arrived "ritual/tabu-timeout" cid)

theorem drain_edgeOffer (s : Engine) : (s.drain ord).caws.edgeOffer = s.caws.edgeOffer :=
  drain_view ⟨fun _ _ _ _ _ => rfl, fun _ _ => rfl, fun _ _ => rfl, fun _ _ => rfl⟩ ord s

theorem replyPayload_isSome_iff (ord : RowOrder) {s : Engine} (hs : s.Dispatching) (edge : String)
    (kind : ReplyKind) (cid : Term) :
    ((s.drain ord).caws.replyPayload edge kind cid).isSome = true ↔
      s.ReplyMatches edge kind cid := by
  have hresult := drain_lookup_iff ord hs .result cid
  have hfailed := drain_lookup_iff ord hs .failed cid
  simp only [Slot.origins, List.mem_cons, List.not_mem_nil, or_false, exists_eq_or_imp,
    exists_eq_left] at hresult hfailed
  cases kind with
  | hohi => exact hresult
  | tabu => exact hfailed
  | tabuTimeout =>
    simp only [Caws.replyPayload, ReplyMatches, drain_edgeOffer]
    by_cases he : (edge, cid) ∈ s.caws.edgeOffer
    · simp only [he, if_true, true_and]
      exact hfailed
    · simp [he]

/-- What `caws_edge_reply/3` does in an engine whose drains raise no errors. -/
theorem cawsEdgeReply_spec (ord : RowOrder) {s : Engine} (hs : s.Dispatching) (edge : String) (kind : ReplyKind)
    (cid : Term) :
    (edge, cid) ∈ s.caws.edgeReplied ∧
      s.cawsEdgeReply ord edge kind cid = (.succeeds none, s) ∨
    (edge, cid) ∉ s.caws.edgeReplied ∧ ¬ s.ReplyMatches edge kind cid ∧
      s.cawsEdgeReply ord edge kind cid = (.succeeds none, s.drain ord) ∨
    (edge, cid) ∉ s.caws.edgeReplied ∧ s.ReplyMatches edge kind cid ∧
      ∃ p, s.cawsEdgeReply ord edge kind cid = (.succeeds (some p),
        { s.drain ord with caws := { (s.drain ord).caws with
          edgeReplied := (s.drain ord).caws.edgeReplied ++ [(edge, cid)]
          edgeResult := (s.drain ord).caws.edgeResult ++ [(edge, kind.reported, p)] } }) := by
  have hok := (s.drain_ok ord).mpr (batch_wellRouted hs.wellRouted)
  unfold cawsEdgeReply
  rw [unlessSeen_eq]
  by_cases hm : (edge, cid) ∈ s.caws.edgeReplied
  · exact .inl ⟨hm, by simp [hm]⟩
  · have hiff := replyPayload_isSome_iff ord hs edge kind cid
    cases hp : (s.drain ord).caws.replyPayload edge kind cid with
    | none =>
      have hno : ¬ s.ReplyMatches edge kind cid := by simpa [hp] using hiff
      exact .inr (.inl ⟨hm, hno, by simp [hm, hok]⟩)
    | some p =>
      have hyes : s.ReplyMatches edge kind cid := by simpa [hp] using hiff
      exact .inr (.inr ⟨hm, hyes, _, by simp [hm, hok]; rfl⟩)

def MessageMatches (s : Engine) (kind : MsgKind) (cid : Term) : Prop :=
  s.Arrived ("ritual/" ++ kind.name) cid

theorem cawsEdgeMessage_spec (ord : RowOrder) {s : Engine} (hs : s.Dispatching) (edge : String) (kind : MsgKind)
    (cid : Term) :
    (edge, cid) ∈ s.caws.edgeMsgSeen ∧
      s.cawsEdgeMessage ord edge kind cid = (.succeeds none, s) ∨
    (edge, cid) ∉ s.caws.edgeMsgSeen ∧ ¬ s.MessageMatches kind cid ∧
      s.cawsEdgeMessage ord edge kind cid = (.succeeds none, s.drain ord) ∨
    (edge, cid) ∉ s.caws.edgeMsgSeen ∧ s.MessageMatches kind cid ∧
      ∃ p, s.cawsEdgeMessage ord edge kind cid = (.succeeds (some p),
        { s.drain ord with caws := { (s.drain ord).caws with
          edgeMsgSeen := (s.drain ord).caws.edgeMsgSeen ++ [(edge, cid)]
          edgeMessage := (s.drain ord).caws.edgeMessage ++ [(edge, kind, p)] } }) := by
  have hok := (s.drain_ok ord).mpr (batch_wellRouted hs.wellRouted)
  have hiff : (Table.find (kind, cid) (s.drain ord).caws.message).isSome = true ↔
      s.MessageMatches kind cid := by
    have h := drain_lookup_iff ord hs (.message kind) cid
    cases kind <;> simpa [Slot.origins, MessageMatches, MsgKind.name, Caws.lookup] using h
  unfold cawsEdgeMessage
  rw [unlessSeen_eq]
  by_cases hm : (edge, cid) ∈ s.caws.edgeMsgSeen
  · exact .inl ⟨hm, by simp [hm]⟩
  · cases hp : Table.find (kind, cid) (s.drain ord).caws.message with
    | none =>
      have hno : ¬ s.MessageMatches kind cid := by simpa [hp] using hiff
      exact .inr (.inl ⟨hm, hno, by simp [hm, hok]⟩)
    | some p =>
      have hyes : s.MessageMatches kind cid := by simpa [hp] using hiff
      exact .inr (.inr ⟨hm, hyes, _, by simp [hm, hok]; rfl⟩)

end Engine

/-- What one dispatch call for `pair` does to a memo and to the facts asserted for the user:
nothing if the memo has the pair or no matching event has arrived, else both are set. -/
def DispatchStep (pair : String × Term) (arrived : Prop) (memo memo' : List (String × Term))
    (table table' : List (String × MsgKind × Dict))
    (fact : Option ((String × Term) × MsgKind × Dict)) : Prop :=
  (pair ∈ memo ∨ ¬ arrived) ∧ memo' = memo ∧ table' = table ∧ fact = none ∨
  pair ∉ memo ∧ arrived ∧ ∃ kind p, memo' = memo ++ [pair] ∧
    table' = table ++ [(pair.1, kind, p)] ∧ fact = some (pair, kind, p)

theorem DispatchStep.law {q : String × Term} {arrived : Prop} {memo memo' : List (String × Term)}
    {table table' : List (String × MsgKind × Dict)}
    {fact : Option ((String × Term) × MsgKind × Dict)}
    (h : DispatchStep q arrived memo memo' table table' fact) (pair : String × Term) :
    (pair ∈ memo' ↔ pair ∈ memo ∨ (pair = q ∧ arrived)) ∧
      (fact.any (fun f => f.1 = pair) = true ↔ (pair = q ∧ arrived) ∧ pair ∉ memo) := by
  rcases h with ⟨hno, rfl, -, rfl⟩ | ⟨hm, hyes, kind, p, rfl, -, rfl⟩
  · have hq : pair = q ∧ arrived → pair ∈ memo' := by
      rintro ⟨rfl, ha⟩
      exact hno.resolve_right fun h => h ha
    exact ⟨⟨.inl, fun h => h.elim id hq⟩, by simpa using fun he ha => hq ⟨he, ha⟩⟩
  · refine ⟨by simp [hyes], ?_⟩
    constructor
    · intro he
      have he' : q = pair := by simpa using he
      exact ⟨⟨he'.symm, hyes⟩, he' ▸ hm⟩
    · rintro ⟨⟨rfl, -⟩, -⟩
      simp

theorem DispatchStep.asserts {q : String × Term} {arrived : Prop}
    {memo memo' : List (String × Term)} {table table' : List (String × MsgKind × Dict)}
    {fact : Option ((String × Term) × MsgKind × Dict)}
    (h : DispatchStep q arrived memo memo' table table' fact) :
    table' = table ++ (fact.map fun f => (f.1.1, f.2)).toList := by
  rcases h with ⟨-, -, rfl, rfl⟩ | ⟨-, -, kind, p, -, rfl, rfl⟩
  · simp
  · simp

/-- One of the two dispatch predicates: its memo, the facts it asserts for the user, the
calls it answers, and the fact (with its correlation id) one step asserts. -/
structure Channel (ord : RowOrder) where
  memo : Caws → List (String × Term)
  table : Caws → List (String × MsgKind × Dict)
  asks : Engine → EdgeStep → String × Term → Prop
  fact : Engine × EdgeStep → Option ((String × Term) × MsgKind × Dict)
  /-- The memo and the fact are set together, by a call that is not yet in the memo. -/
  law : ∀ s : Engine, s.Dispatching → ∀ i, ∀ pair,
    (pair ∈ memo (s.edgeStep ord i).caws ↔ pair ∈ memo s.caws ∨ asks s i pair) ∧
    ((fact (s, i)).any (fun f => f.1 = pair) = true ↔ asks s i pair ∧ pair ∉ memo s.caws)
  asserts : ∀ s : Engine, s.Dispatching → ∀ i, table (s.edgeStep ord i).caws =
    table s.caws ++ ((fact (s, i)).map fun f => (f.1.1, f.2)).toList

section Channels
variable {ord : RowOrder}

def replyFact (ord : RowOrder) (v : Engine × EdgeStep) : Option ((String × Term) × MsgKind × Dict) :=
  match v.2 with
  | .call (.edgeReply edge kind cid) =>
    match (v.1.cawsEdgeReply ord edge kind cid).1 with
    | .succeeds (some p) => some ((edge, cid), kind.reported, p)
    | _ => none
  | _ => none

def messageFact (ord : RowOrder) (v : Engine × EdgeStep) :
    Option ((String × Term) × MsgKind × Dict) :=
  match v.2 with
  | .call (.edgeMessage edge kind cid) =>
    match (v.1.cawsEdgeMessage ord edge kind cid).1 with
    | .succeeds (some p) => some ((edge, cid), kind, p)
    | _ => none
  | _ => none

theorem blind_reply : Engine.Blind fun c : Caws => (c.edgeReplied, c.edgeResult) :=
  ⟨fun _ _ _ _ _ => rfl, fun _ _ => rfl, fun _ _ => rfl, fun _ _ => rfl⟩

theorem blind_message : Engine.Blind fun c : Caws => (c.edgeMsgSeen, c.edgeMessage) :=
  ⟨fun _ _ _ _ _ => rfl, fun _ _ => rfl, fun _ _ => rfl, fun _ _ => rfl⟩

/-- Steps other than a reply call leave the reply memo and its facts alone. -/
theorem reply_frame (ord : RowOrder) (s : Engine) {i : EdgeStep} (h : ∀ e k cid, i ≠ .call (.edgeReply e k cid)) :
    (s.edgeStep ord i).caws.edgeReplied = s.caws.edgeReplied ∧
      (s.edgeStep ord i).caws.edgeResult = s.caws.edgeResult ∧ replyFact ord (s, i) = none := by
  cases i with
  | arrive e => exact ⟨rfl, rfl, rfl⟩
  | call c =>
    have hv := Engine.call_view blind_reply ord s c (fun _ _ _ _ _ _ _ _ => rfl)
      (fun e k cid hc => absurd (congrArg EdgeStep.call hc) (h e k cid))
      (fun _ _ _ _ _ _ _ _ => rfl) (fun _ _ _ _ _ _ _ => rfl)
    simp only [Prod.mk.injEq] at hv
    refine ⟨hv.1, hv.2, ?_⟩
    cases c with
    | edgeReply e k cid => exact absurd rfl (h e k cid)
    | _ => rfl

theorem message_frame (ord : RowOrder) (s : Engine) {i : EdgeStep} (h : ∀ e k cid, i ≠ .call (.edgeMessage e k cid)) :
    (s.edgeStep ord i).caws.edgeMsgSeen = s.caws.edgeMsgSeen ∧
      (s.edgeStep ord i).caws.edgeMessage = s.caws.edgeMessage ∧ messageFact ord (s, i) = none := by
  cases i with
  | arrive e => exact ⟨rfl, rfl, rfl⟩
  | call c =>
    have hv := Engine.call_view blind_message ord s c (fun _ _ _ _ _ _ _ _ => rfl)
      (fun _ _ _ _ _ _ _ => rfl) (fun _ _ _ _ _ _ _ _ => rfl)
      (fun e k cid hc => absurd (congrArg EdgeStep.call hc) (h e k cid))
    simp only [Prod.mk.injEq] at hv
    refine ⟨hv.1, hv.2, ?_⟩
    cases c with
    | edgeMessage e k cid => exact absurd rfl (h e k cid)
    | _ => rfl

def replyAsks (s : Engine) (i : EdgeStep) (pair : String × Term) : Prop :=
  ∃ kind, i = .call (.edgeReply pair.1 kind pair.2) ∧ s.ReplyMatches pair.1 kind pair.2

def messageAsks (s : Engine) (i : EdgeStep) (pair : String × Term) : Prop :=
  ∃ kind, i = .call (.edgeMessage pair.1 kind pair.2) ∧ s.MessageMatches kind pair.2

theorem reply_dispatch {s : Engine} (hs : s.Dispatching) (e : String) (k : ReplyKind) (cid : Term) :
    DispatchStep (e, cid) (s.ReplyMatches e k cid) s.caws.edgeReplied
      (s.edgeStep ord (.call (.edgeReply e k cid))).caws.edgeReplied s.caws.edgeResult
      (s.edgeStep ord (.call (.edgeReply e k cid))).caws.edgeResult
      (replyFact ord (s, .call (.edgeReply e k cid))) := by
  have hd := Engine.drain_view blind_reply ord s
  simp only [Prod.mk.injEq] at hd
  have hstep : s.edgeStep ord (.call (.edgeReply e k cid)) = (s.cawsEdgeReply ord e k cid).2 := rfl
  rw [hstep]
  unfold replyFact
  rcases Engine.cawsEdgeReply_spec ord hs e k cid with
    ⟨hm, he⟩ | ⟨hm, hno, he⟩ | ⟨hm, hyes, p, he⟩
  · exact .inl ⟨.inl hm, by simp [he], by simp [he], by simp [he]⟩
  · exact .inl ⟨.inr hno, by simp [he, hd.1], by simp [he, hd.2], by simp [he]⟩
  · exact .inr ⟨hm, hyes, _, p, by simp [he, hd.1], by simp [he, hd.2]; rfl, by simp [he]⟩

theorem message_dispatch {s : Engine} (hs : s.Dispatching) (e : String) (k : MsgKind) (cid : Term) :
    DispatchStep (e, cid) (s.MessageMatches k cid) s.caws.edgeMsgSeen
      (s.edgeStep ord (.call (.edgeMessage e k cid))).caws.edgeMsgSeen s.caws.edgeMessage
      (s.edgeStep ord (.call (.edgeMessage e k cid))).caws.edgeMessage
      (messageFact ord (s, .call (.edgeMessage e k cid))) := by
  have hd := Engine.drain_view blind_message ord s
  simp only [Prod.mk.injEq] at hd
  have hstep : s.edgeStep ord (.call (.edgeMessage e k cid)) =
    (s.cawsEdgeMessage ord e k cid).2 := rfl
  rw [hstep]
  unfold messageFact
  rcases Engine.cawsEdgeMessage_spec ord hs e k cid with
    ⟨hm, he⟩ | ⟨hm, hno, he⟩ | ⟨hm, hyes, p, he⟩
  · exact .inl ⟨.inl hm, by simp [he], by simp [he], by simp [he]⟩
  · exact .inl ⟨.inr hno, by simp [he, hd.1], by simp [he, hd.2], by simp [he]⟩
  · exact .inr ⟨hm, hyes, _, p, by simp [he, hd.1], by simp [he, hd.2]; rfl, by simp [he]⟩

def replyChannel (ord : RowOrder) : Channel ord where
  memo := Caws.edgeReplied
  table := Caws.edgeResult
  asks := replyAsks
  fact := replyFact ord
  law s hs i pair := by
    by_cases hi : ∃ e k cid, i = .call (.edgeReply e k cid)
    · obtain ⟨e, k, cid, rfl⟩ := hi
      have hasks : replyAsks s (.call (.edgeReply e k cid)) pair ↔
          pair = (e, cid) ∧ s.ReplyMatches e k cid := by
        constructor
        · rintro ⟨k', he, hmatch⟩
          simp only [EdgeStep.call.injEq, Call.edgeReply.injEq] at he
          obtain ⟨rfl, rfl, rfl⟩ := he
          exact ⟨rfl, hmatch⟩
        · rintro ⟨rfl, hmatch⟩
          exact ⟨k, rfl, hmatch⟩
      rw [hasks]
      exact (reply_dispatch hs e k cid).law pair
    · have hne : ∀ e k cid, i ≠ .call (.edgeReply e k cid) := fun e k cid h => hi ⟨e, k, cid, h⟩
      have hasks : ¬ replyAsks s i pair := fun ⟨k, hk, _⟩ => hne _ _ _ hk
      rw [(reply_frame ord s hne).1, (reply_frame ord s hne).2.2]
      simp [hasks]
  asserts s hs i := by
    by_cases hi : ∃ e k cid, i = .call (.edgeReply e k cid)
    · obtain ⟨e, k, cid, rfl⟩ := hi
      exact (reply_dispatch hs e k cid).asserts
    · have hne : ∀ e k cid, i ≠ .call (.edgeReply e k cid) := fun e k cid h => hi ⟨e, k, cid, h⟩
      simp [reply_frame ord s hne]

def messageChannel (ord : RowOrder) : Channel ord where
  memo := Caws.edgeMsgSeen
  table := Caws.edgeMessage
  asks := messageAsks
  fact := messageFact ord
  law s hs i pair := by
    by_cases hi : ∃ e k cid, i = .call (.edgeMessage e k cid)
    · obtain ⟨e, k, cid, rfl⟩ := hi
      have hasks : messageAsks s (.call (.edgeMessage e k cid)) pair ↔
          pair = (e, cid) ∧ s.MessageMatches k cid := by
        constructor
        · rintro ⟨k', he, hmatch⟩
          simp only [EdgeStep.call.injEq, Call.edgeMessage.injEq] at he
          obtain ⟨rfl, rfl, rfl⟩ := he
          exact ⟨rfl, hmatch⟩
        · rintro ⟨rfl, hmatch⟩
          exact ⟨k, rfl, hmatch⟩
      rw [hasks]
      exact (message_dispatch hs e k cid).law pair
    · have hne : ∀ e k cid, i ≠ .call (.edgeMessage e k cid) := fun e k cid h => hi ⟨e, k, cid, h⟩
      have hasks : ¬ messageAsks s i pair := fun ⟨k, hk, _⟩ => hne _ _ _ hk
      rw [(message_frame ord s hne).1, (message_frame ord s hne).2.2]
      simp [hasks]
  asserts s hs i := by
    by_cases hi : ∃ e k cid, i = .call (.edgeMessage e k cid)
    · obtain ⟨e, k, cid, rfl⟩ := hi
      exact (message_dispatch hs e k cid).asserts
    · have hne : ∀ e k cid, i ≠ .call (.edgeMessage e k cid) := fun e k cid h => hi ⟨e, k, cid, h⟩
      simp [message_frame ord s hne]

/-- Exactly-once dispatch along one run: the facts the user sees are those asserted on the
way, at most one for each edge and id, by the first call made when a matching event had
arrived. -/
structure Channel.ExactlyOnce (ch : Channel ord) (s : Engine) (steps : List EdgeStep) : Prop where
  table : ch.table (run (Engine.edgeStep ord) s steps).caws = ch.table s.caws ++
    ((visits (Engine.edgeStep ord) s steps).filterMap ch.fact).map fun f => (f.1.1, f.2)
  once : ∀ pair, ((visits (Engine.edgeStep ord) s steps).filterMap ch.fact).countP
    (fun f => f.1 = pair) ≤ 1
  first : ∀ before i after, steps = before ++ i :: after → ∀ pair,
    (ch.fact (run (Engine.edgeStep ord) s before, i)).any (fun f => f.1 = pair) = true ↔
      ch.asks (run (Engine.edgeStep ord) s before) i pair ∧
      ∀ v ∈ visits (Engine.edgeStep ord) s before, ¬ ch.asks v.1 v.2 pair

theorem visits_dispatching (ord : RowOrder) {s : Engine} (hs : s.Dispatching) (steps : List EdgeStep) :
    ∀ v ∈ visits (Engine.edgeStep ord) s steps, v.1.Dispatching :=
  visits_invariant (C := fun _ _ => True) (fun _ i _ => Engine.edgeStep_dispatching ord i)
    (fun _ _ => trivial) hs

theorem run_dispatching {s : Engine} (hs : s.Dispatching) (steps : List EdgeStep) :
    (run (Engine.edgeStep ord) s steps).Dispatching :=
  run_invariant (C := fun _ _ => True) (fun _ i _ => Engine.edgeStep_dispatching ord i)
    (fun _ _ => trivial) hs

theorem Channel.table_run (ch : Channel ord) {s : Engine} (hs : s.Dispatching)
    (steps : List EdgeStep) : ch.table (run (Engine.edgeStep ord) s steps).caws =
      ch.table s.caws ++
        ((visits (Engine.edgeStep ord) s steps).filterMap ch.fact).map fun f => (f.1.1, f.2) := by
  induction steps generalizing s with
  | nil => simp [run, visits]
  | cons i steps ih =>
    have hrest := ih (Engine.edgeStep_dispatching ord i hs)
    rw [run, hrest, ch.asserts s hs i, visits]
    cases hf : ch.fact (s, i) <;> simp [hf]

theorem Channel.exactlyOnce (ch : Channel ord) {s : Engine} (hs : s.Dispatching)
    (hnew : ch.memo s.caws = []) (steps : List EdgeStep) : ch.ExactlyOnce s steps := by
  have hdis := visits_dispatching ord hs
  refine ⟨ch.table_run hs steps, fun pair => ?_, fun before i after hsteps pair => ?_⟩
  · -- each assertion is a rise of the memo, and the memo never falls
    have hle : ((visits (Engine.edgeStep ord) s steps).filterMap ch.fact).countP
        (fun f => f.1 = pair) ≤ rises (Engine.edgeStep ord)
          (fun t => decide (pair ∈ ch.memo t.caws)) s steps := by
      rw [List.countP_filterMap]
      refine List.countP_mono_left fun v hv hany => ?_
      obtain ⟨hmemo, hfact⟩ := ch.law v.1 (hdis steps v hv) v.2 pair
      have hany' : (ch.fact v).any (fun f => f.1 = pair) = true := by
        cases hf : ch.fact v with
        | none => simp [hf] at hany
        | some f => simpa [hf] using hany
      obtain ⟨hasks, hm⟩ := hfact.mp hany'
      simp [hm, hmemo.mpr (.inr hasks)]
    refine hle.trans (rises_le_one _ _ _ fun v hv hb => ?_)
    have hmemo := (ch.law v.1 (hdis steps v hv) v.2 pair).1
    simp only [decide_eq_true_eq] at hb ⊢
    exact hmemo.mpr (.inl hb)
  · have hseen := memo_run_iff (Engine.edgeStep ord) s before
      (b := fun t => pair ∈ ch.memo t.caws) (r := fun t i => ch.asks t i pair)
      fun v hv => (ch.law v.1 (hdis before v hv) v.2 pair).1
    rw [(ch.law _ (run_dispatching hs before) i pair).2, hseen, hnew]
    simp

end Channels

/-- Calls as they really nest: when a call dispatches, the user hook runs before it
returns. The hook is given by the calls it gets through; failing or throwing ends it early
and is swallowed. -/
inductive Script where
  | arrive (e : RitualEvent)
  | call (c : Call) (hook : List Script)

section Scripts
variable (ord : RowOrder)

def dispatches (s : Engine) (c : Call) : Bool :=
  (replyFact ord (s, .call c)).isSome || (messageFact ord (s, .call c)).isSome

mutual
def runScript (s : Engine) : Script → Engine
  | .arrive e => s.edgeStep ord (.arrive e)
  | .call c hook =>
    if dispatches ord s c then runScripts (s.edgeStep ord (.call c)) hook
    else s.edgeStep ord (.call c)
def runScripts (s : Engine) : List Script → Engine
  | [] => s
  | x :: xs => runScripts (runScript s x) xs
end

mutual
/-- The calls and arrivals in the order in which they take effect. -/
def stepsOf (s : Engine) : Script → List EdgeStep
  | .arrive e => [.arrive e]
  | .call c hook =>
    .call c :: if dispatches ord s c then allSteps (s.edgeStep ord (.call c)) hook else []
def allSteps (s : Engine) : List Script → List EdgeStep
  | [] => []
  | x :: xs => stepsOf s x ++ allSteps (runScript ord s x) xs
end

mutual
/-- Hooks run in last position, so a nested run is a plain run. -/
theorem runScript_eq (s : Engine) : (x : Script) →
    runScript ord s x = run (Engine.edgeStep ord) s (stepsOf ord s x)
  | .arrive e => rfl
  | .call c hook => by
    rw [runScript, stepsOf]
    by_cases hd : dispatches ord s c = true
    · rw [if_pos hd, if_pos hd, runScripts_eq _ hook]
      rfl
    · rw [if_neg hd, if_neg hd]
      rfl
theorem runScripts_eq (s : Engine) : (xs : List Script) →
    runScripts ord s xs = run (Engine.edgeStep ord) s (allSteps ord s xs)
  | [] => rfl
  | x :: xs => by
    rw [runScripts, allSteps, runScripts_eq _ xs, run_append, ← runScript_eq s x]
end

theorem FreshEngine.start_dispatching (f : FreshEngine) : f.start.Dispatching := by
  refine ⟨f.start_consistent.sound, ?_, ?_⟩
  · intro m hm
    rw [f.start_log] at hm
    simp at hm
  · intro r hr hsid
    exact absurd hsid (f.empty r hr)

/-- For every nested run of edge calls with well-shaped events: each edge asserts its
result and its message for a correlation id at most once, by the first call made when a
matching event had arrived, and what any drain consumed is still found by the others. -/
theorem edge_dispatch_exactly_once (f : FreshEngine) (scripts : List Script) :
    runScripts ord f.start scripts =
        run (Engine.edgeStep ord) f.start (allSteps ord f.start scripts) ∧
      (replyChannel ord).ExactlyOnce f.start (allSteps ord f.start scripts) ∧
      (messageChannel ord).ExactlyOnce f.start (allSteps ord f.start scripts) ∧
      ∀ before after, allSteps ord f.start scripts = before ++ after →
        (run (Engine.edgeStep ord) f.start before).NoneLost := by
  refine ⟨runScripts_eq ord f.start scripts, ?_, ?_, fun before after _ => ?_⟩
  · exact (replyChannel ord).exactlyOnce f.start_dispatching rfl _
  · exact (messageChannel ord).exactlyOnce f.start_dispatching rfl _
  · exact (run_dispatching f.start_dispatching before).noneLost

end Scripts

end Cerebellum
