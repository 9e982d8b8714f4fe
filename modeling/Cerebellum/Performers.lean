import Cerebellum.RitualRegistry
import Cerebellum.Lib.Cursor

/-! `RitualHandle` on an `InMemoryBroker`: what the performers of a ritual publish, and what each
of them gets from its polls. -/
namespace Cerebellum
open Transition

/-- `i64::saturating_sub`. -/
def saturatingSub (a b : Int) : Int := max (-2 ^ 63) (min (a - b) (2 ^ 63 - 1))

namespace TephraEnvelope

/-- `TephraEnvelope::new`, with the id and the time it reads. -/
def new (tephraId : Uuid) (tsMs : Int) (ritualId performanceId : Uuid) (label : String)
    (ttlMs : Nat) (producerNode : String) (payload : TephraPayload) : TephraEnvelope :=
  { tephraId, ritualId, performanceId, label, tsMs, ttlMs, producerNode, payload }

def withRouting (e : TephraEnvelope) (routing : Routing) : TephraEnvelope :=
  { e with
    sourceNodeId := routing.sourceNodeId
    targetNodeId := routing.targetNodeId
    correlationId := routing.correlationId
    topicPath := routing.topicPath
    tags := routing.tags }

def isExpired (nowMs : Int) (e : TephraEnvelope) : Bool :=
  let elapsed := saturatingSub nowMs e.tsMs
  decide (0 < elapsed) && decide (e.ttlMs < elapsed.toNat)

end TephraEnvelope

/-- `&entries[start..]`, which panics past the end. -/
def sliceFrom {α : Type} (entries : List α) (start : Nat) : Option (List α) :=
  if start ≤ entries.length then some (entries.drop start) else none

structure InMemoryBroker where
  topics : List (String × List TephraEnvelope)

namespace InMemoryBroker

def new : InMemoryBroker := ⟨[]⟩

/-- The entries of a topic; one that has none is not in the map. -/
def entries (b : InMemoryBroker) (topic : String) : List TephraEnvelope :=
  (Fields.get topic b.topics).getD []

def publish (b : InMemoryBroker) (topic : String) (e : TephraEnvelope) : InMemoryBroker :=
  ⟨Fields.insert topic (b.entries topic ++ [e]) b.topics⟩

def poll (b : InMemoryBroker) (topic : String) (sinceOffset : Int) :
    Option (List TephraEnvelope × Int) :=
  let entries := b.entries topic
  let start := min (max sinceOffset 0).toNat entries.length
  (sliceFrom entries start).map fun slice => (slice, ((start + slice.length : Nat) : Int))

def latestOffset (b : InMemoryBroker) (topic : String) : Int :=
  ((Fields.get topic b.topics).map fun v => (v.length : Int)).getD 0

theorem entries_publish (b : InMemoryBroker) (topic : String) (e : TephraEnvelope) (t : String) :
    (b.publish topic e).entries t = if t = topic then b.entries t ++ [e] else b.entries t := by
  unfold publish
  rw [entries, Fields.get_insert]
  by_cases h : t = topic
  · simp [h]
  · simp [h, entries]

theorem latestOffset_eq (b : InMemoryBroker) (topic : String) :
    b.latestOffset topic = (b.entries topic).length := by
  unfold latestOffset entries
  cases Fields.get topic b.topics <;> rfl

/-- A poll never slices past the end, and its next offset is the end. -/
theorem poll_eq (b : InMemoryBroker) (topic : String) (sinceOffset : Int) :
    b.poll topic sinceOffset =
      some ((b.entries topic).drop (min (max sinceOffset 0).toNat (b.entries topic).length),
        ((b.entries topic).length : Int)) := by
  have hstart := Nat.min_le_right (max sinceOffset 0).toNat (b.entries topic).length
  simp only [poll, sliceFrom, if_pos hstart, Option.map_some, List.length_drop]
  congr 3
  omega

end InMemoryBroker

/-- A handle with its topic and the counter it shares with its clones. -/
structure ConsumerHandle extends RitualHandle where
  topic : String
  consumerOffset : Nat

deriving instance DecidableEq for RitualHandle, ConsumerHandle

/-- The registry, the broker behind it, and the handles it gave out: `offsets` are the shared
counters. -/
structure RitualBus where
  server : RitualServer
  broker : InMemoryBroker
  offsets : List Int
  handles : List ConsumerHandle

namespace RitualBus

def new : RitualBus := ⟨RitualServer.new, InMemoryBroker.new, [], []⟩

/-- `ttl_ms.unwrap_or(60_000)`, the id and the time of the new envelope, and its content. -/
structure Publication where
  tephraId : Uuid
  tsMs : Int
  body : Json
  label : String
  ttlMs : Option Nat
  routing : Routing

def Publication.envelope (p : Publication) (h : ConsumerHandle) : TephraEnvelope :=
  (TephraEnvelope.new p.tephraId p.tsMs h.ritualId h.performanceId p.label (p.ttlMs.getD 60000)
    h.disDomain (.plaintext p.body)).withRouting p.routing

/-- Calls on the registry, on a handle (by its place among the handles given out), and on the
broker itself. The clock of a poll is read once for each envelope, at its offset. -/
inductive Op where
  | registry (op : RitualServer.Op)
  | clone (h : Nat)
  | publishBodyRouted (h : Nat) (p : Publication)
  | publish (topic : String) (e : TephraEnvelope)
  | pollIncoming (h : Nat) (clock : Nat → Int)

/-- What a handle gets from a join: the topic of its ritual, and a new counter at its end. -/
def opened (w : RitualBus) (handle : RitualHandle) (ritual : Ritual) : ConsumerHandle :=
  { handle with topic := ritual.topic, consumerOffset := w.offsets.length }

/-- The handle a call on the registry hands out, if it is a join that succeeds. -/
def joined (E : RitualEnv) (w : RitualBus) (op : RitualServer.Op) : Option ConsumerHandle :=
  match (RitualServer.exec E w.server op).1 with
  | .joined handle => (w.server.rituals.get handle.ritualId).map (w.opened handle)
  | _ => none

def registry (E : RitualEnv) (w : RitualBus) (op : RitualServer.Op) : RitualBus :=
  let w' := { w with server := RitualServer.step E w.server op }
  match w.joined E op with
  | none => w'
  | some h =>
    { w' with
      offsets := w.offsets ++ [w.broker.latestOffset h.topic]
      handles := w.handles ++ [h] }

/-- `offset.load()`, then the poll. -/
def fetch (w : RitualBus) (h : ConsumerHandle) : Option (List TephraEnvelope × Int) :=
  w.broker.poll h.topic (w.offsets.getD h.consumerOffset 0)

/-- The offset a batch starts at. -/
def startOf (w : RitualBus) (h : ConsumerHandle) : Nat :=
  min (max (w.offsets.getD h.consumerOffset 0) 0).toNat (w.broker.entries h.topic).length

/-- Is the envelope still alive when the poll looks at it? -/
def live (clock : Nat → Int) (offset : Nat) (e : TephraEnvelope) : Bool :=
  !e.isExpired (clock offset)

/-- What `poll_incoming` returns; `none` is a panic. -/
def incoming (w : RitualBus) (h : ConsumerHandle) (clock : Nat → Int) :
    Option (List TephraEnvelope) :=
  (w.fetch h).map fun r => Cursor.kept live clock (w.startOf h) r.1

def step (E : RitualEnv) (w : RitualBus) : Op → RitualBus
  | .registry op => w.registry E op
  | .clone i =>
    match w.handles[i]? with
    | none => w
    | some h => { w with handles := w.handles ++ [h] }
  | .publishBodyRouted i p =>
    match w.handles[i]? with
    | none => w
    | some h => { w with broker := w.broker.publish h.topic (p.envelope h) }
  | .publish topic e => { w with broker := w.broker.publish topic e }
  | .pollIncoming i _ =>
    match w.handles[i]? with
    | none => w
    | some h =>
      match w.fetch h with
      | none => w
      | some (_, next) => { w with offsets := w.offsets.set h.consumerOffset next }

/-- What a call is to a handle: an envelope on its topic, or a read with its counter. -/
def event (h : ConsumerHandle) (w : RitualBus) : Op → Option (Cursor.Event TephraEnvelope (Nat → Int))
  | .registry _ | .clone _ => none
  | .publishBodyRouted i p =>
    w.handles[i]?.bind fun g => if g.topic = h.topic then some (.append (p.envelope g)) else none
  | .publish topic e => if topic = h.topic then some (.append e) else none
  | .pollIncoming i clock =>
    w.handles[i]?.bind fun g =>
      if g.consumerOffset = h.consumerOffset then some (.read clock) else none

/-- What a call returns to the holders of the counter of `h`. -/
def returned (h : ConsumerHandle) (w : RitualBus) : Op → List TephraEnvelope
  | .pollIncoming i clock =>
    match w.handles[i]? with
    | none => []
    | some g => if g.consumerOffset = h.consumerOffset then (w.incoming g clock).getD [] else []
  | _ => []

/-- All the batches of a handle and its clones. -/
def received (E : RitualEnv) (h : ConsumerHandle) (w : RitualBus) (ops : List Op) :
    List TephraEnvelope :=
  (visits (step E) w ops).flatMap fun x => returned h x.1 x.2

/-- What the calls of a run are to a handle. -/
def events (E : RitualEnv) (h : ConsumerHandle) (w : RitualBus) (ops : List Op) :
    List (Cursor.Event TephraEnvelope (Nat → Int)) :=
  (visits (step E) w ops).filterMap fun x => event h x.1 x.2

/-- The topic of a handle and its counter, as a log and a cursor. -/
def cursor (h : ConsumerHandle) (w : RitualBus) : Cursor.State TephraEnvelope :=
  ⟨w.broker.entries h.topic, (w.offsets.getD h.consumerOffset 0).toNat⟩

/-- Every ritual, in memory or stored, has the topic its id gives it. -/
structure TopicsNamed (E : RitualEnv) (s : RitualServer) : Prop where
  ritual : ∀ id r, s.rituals.get id = some r → topicName E.disDomain id = .ok r.topic
  row : ∀ id r, s.table.get id = some r → topicName E.disDomain id = .ok r.topic

/-- A handle given out: its counter exists, is within its topic, and belongs to it alone. -/
structure Attached (E : RitualEnv) (w : RitualBus) (h : ConsumerHandle) : Prop where
  named : topicName E.disDomain h.ritualId = .ok h.topic
  offset : ∃ n : Nat, w.offsets[h.consumerOffset]? = some (n : Int) ∧
    n ≤ (w.broker.entries h.topic).length
  own : ∀ g ∈ w.handles, g.consumerOffset = h.consumerOffset → g = h

structure Sound (E : RitualEnv) (w : RitualBus) : Prop where
  topics : TopicsNamed E w.server
  handles : ∀ h ∈ w.handles, Attached E w h

variable {E : RitualEnv}

/-- Different rituals have different topics. -/
theorem topicName_injective {domain name : String} {a b : Uuid} (ha : topicName domain a = .ok name)
    (hb : topicName domain b = .ok name) : a = b := by
  have hval : ∀ {u : Uuid}, topicName domain u = .ok name →
      String.ofList (domain.toList.map fun ch => if ch = '/' then '.' else ch) ++ ".ritual." ++
        u.toText = name := by
    intro u hu
    unfold topicName at hu
    cases hv : validateTopicName (String.ofList (domain.toList.map fun ch =>
        if ch = '/' then '.' else ch) ++ ".ritual." ++ u.toText) with
    | error e => simp [hv, Except.map] at hu
    | ok _ => simpa [hv, Except.map] using hu
  have h := (hval ha).trans (hval hb).symm
  rw [String.append_right_inj] at h
  exact Uuid.toText_injective h

theorem topicsNamed_new (E : RitualEnv) : TopicsNamed E RitualServer.new := by
  constructor <;> intro _ _ h <;> cases h

/-- The same topics are named when a ritual and its row are written with the topic of their id. -/
theorem TopicsNamed.write {s s' : RitualServer} (h : TopicsNamed E s) {id : Uuid} {topic : String}
    (hname : topicName E.disDomain id = .ok topic)
    (hritual : ∀ x r, s'.rituals.get x = some r →
      (x = id ∧ r.topic = topic) ∨ s.rituals.get x = some r)
    (hrow : ∀ x r, s'.table.get x = some r →
      (x = id ∧ r.topic = topic) ∨ ∃ r₀, s.table.get x = some r₀ ∧ r₀.topic = r.topic) :
    TopicsNamed E s' := by
  constructor
  · intro x r hr
    rcases hritual x r hr with ⟨rfl, rfl⟩ | hold
    · exact hname
    · exact h.ritual x r hold
  · intro x r hr
    rcases hrow x r hr with ⟨rfl, rfl⟩ | ⟨r₀, hold, htopic⟩
    · exact hname
    · rw [← htopic]
      exact h.row x r₀ hold

theorem get_insert_cases {m : RitualMap} {r₀ r : Ritual} {x : Uuid}
    (h : (m.insert r₀).get x = some r) :
    (x = r₀.ritualId ∧ r.topic = r₀.topic) ∨ m.get x = some r := by
  rw [RitualMap.get_insert] at h
  by_cases hx : r₀.ritualId = x
  · rw [if_pos hx] at h
    cases h
    exact .inl ⟨hx.symm, rfl⟩
  · rw [if_neg hx] at h
    exact .inr h

theorem get_update_topic {t : RitualTable} {id x : Uuid} {set : RitualRow → RitualRow}
    (hset : ∀ row, (set row).ritualId = row.ritualId) {r : RitualRow}
    (h : (t.update id set hset).get x = some r) (htopic : ∀ row, (set row).topic = row.topic) :
    ∃ r₀, t.get x = some r₀ ∧ r₀.topic = r.topic := by
  rw [RitualTable.get_update] at h
  by_cases hx : x = id
  · rw [if_pos hx] at h
    obtain ⟨r₀, hr₀, rfl⟩ := Option.map_eq_some_iff.mp h
    exact ⟨r₀, hr₀, (htopic r₀).symm⟩
  · rw [if_neg hx] at h
    exact ⟨r, h, rfl⟩

theorem topicsNamed_create {s : RitualServer} (h : TopicsNamed E s) (config : RitualConfig)
    (ensure : Option String) (now : Int) : TopicsNamed E (s.create E config ensure now).2 := by
  rcases RitualServer.create_cases E s config ensure now with ⟨e, he⟩ | ⟨topic, hname, he⟩
  · rw [he]
    exact ⟨h.ritual, h.row⟩
  · rw [he]
    refine h.write hname (fun x r hr => get_insert_cases hr) fun x r hr => ?_
    dsimp only at hr
    rw [RitualTable.get_upsertRitual] at hr
    by_cases hx : E.uuid s.minted = x
    · cases (if_pos hx).symm.trans hr
      exact .inl ⟨hx.symm, rfl⟩
    · exact .inr ⟨r, (if_neg hx).symm.trans hr, rfl⟩

theorem topicsNamed_join {s : RitualServer} (h : TopicsNamed E s) (id : Uuid)
    (key : Option String) (now : Int) : TopicsNamed E (s.join E id key now).2 := by
  by_cases hactive : ∃ r, s.rituals.get id = some r ∧ r.state = .active
  · obtain ⟨r, hget, hr⟩ := hactive
    rcases RitualServer.join_active E hget hr key now with
      ⟨-, he⟩ | ⟨k, p, -, -, he⟩ | ⟨k, -, -, he⟩
    · rw [he]
      exact ⟨h.ritual, h.row⟩
    · rw [he]
      exact h
    · rw [he]
      have hid := RitualServer.ritualId_of_get hget
      refine h.write (h.ritual id r hget) (fun x r' hr' => ?_)
        fun x r' hr' => .inr (get_update_topic (by intro; rfl) hr' fun _ => rfl)
      rcases get_insert_cases hr' with ⟨hx, htopic⟩ | hold
      · exact .inl ⟨hx.trans hid, htopic⟩
      · exact .inr hold
  · obtain ⟨e, he⟩ := RitualServer.join_refused E s id key now
      fun r hget hr => hactive ⟨r, hget, hr⟩
    rw [he]
    exact h

theorem topicsNamed_terminate {s : RitualServer} (h : TopicsNamed E s) (id : Uuid) (now : Int) :
    TopicsNamed E (s.terminate id now).2 := by
  unfold RitualServer.terminate
  cases hget : s.rituals.get id with
  | none => exact h
  | some r =>
    have hid := RitualServer.ritualId_of_get hget
    refine h.write (h.ritual id r hget) (fun x r' hr' => ?_)
      fun x r' hr' => .inr (get_update_topic (by intro; rfl) hr' fun _ => rfl)
    rcases get_insert_cases hr' with ⟨hx, htopic⟩ | hold
    · exact .inl ⟨hx.trans hid, htopic⟩
    · exact .inr hold

/-- A row is restored under its own id and topic. -/
theorem restoreRow_topic {c : RitualCodec} {row : RitualRow} {r : Ritual}
    (h : RitualServer.restoreRow c row = some r) : r.ritualId = row.ritualId ∧ r.topic = row.topic := by
  simp only [RitualServer.restoreRow, Option.bind_eq_bind, Option.bind_eq_some_iff] at h
  obtain ⟨state, -, config, -, h⟩ := h
  cases h
  exact ⟨rfl, rfl⟩

theorem foldl_restoreOne_named {c : RitualCodec} {rows : List RitualRow}
    (hrows : ∀ row ∈ rows, topicName E.disDomain row.ritualId = .ok row.topic) {p : Nat × RitualMap}
    (hp : ∀ id r, p.2.get id = some r → topicName E.disDomain id = .ok r.topic) (id : Uuid)
    (r : Ritual) (h : (rows.foldl (RitualServer.restoreOne c) p).2.get id = some r) :
    topicName E.disDomain id = .ok r.topic := by
  induction rows generalizing p with
  | nil => exact hp id r h
  | cons row rows ih =>
    refine ih (fun x hx => hrows x (List.mem_cons_of_mem _ hx)) (fun x r' hr' => ?_) h
    unfold RitualServer.restoreOne at hr'
    cases hrow : RitualServer.restoreRow c row with
    | none =>
      simp only [hrow] at hr'
      exact hp x r' hr'
    | some r₀ =>
      simp only [hrow] at hr'
      obtain ⟨hid, htopic⟩ := restoreRow_topic hrow
      rcases get_insert_cases hr' with ⟨hx, ht⟩ | hold
      · rw [hx, hid, ht, htopic]
        exact hrows row (by simp)
      · exact hp x r' hold

theorem topicsNamed_restart {s : RitualServer} (h : TopicsNamed E s) :
    TopicsNamed E (s.restart E).2 := by
  refine ⟨fun id r hr => ?_, h.row⟩
  refine foldl_restoreOne_named (fun row hrow => ?_) (fun _ _ h => by cases h) id r hr
  exact h.row row.ritualId row ((RitualServer.mem_loadRituals _).mp hrow)

theorem topicsNamed_step {s : RitualServer} (h : TopicsNamed E s) (op : RitualServer.Op) :
    TopicsNamed E (RitualServer.step E s op) := by
  cases op with
  | create config ensure now => exact topicsNamed_create h config ensure now
  | join id key now => exact topicsNamed_join h id key now
  | terminate id now => exact topicsNamed_terminate h id now
  | restart => exact topicsNamed_restart h

/-- Everything a call can do to the handles and what they read. -/
inductive Move (E : RitualEnv) (w : RitualBus) : Op → RitualBus → Prop
  | same (op : Op) (s : RitualServer) (h : ∀ g, event g w op = none) :
    Move E w op { w with server := s }
  | join (op : RitualServer.Op) (s : RitualServer) (h : ConsumerHandle)
      (hjoin : w.joined E op = some h) :
    Move E w (.registry op)
      { w with server := s, offsets := w.offsets ++ [((w.broker.entries h.topic).length : Int)],
               handles := w.handles ++ [h] }
  | clone (i : Nat) (h : ConsumerHandle) (hi : w.handles[i]? = some h) :
    Move E w (.clone i) { w with handles := w.handles ++ [h] }
  | publish (op : Op) (topic : String) (e : TephraEnvelope)
      (h : ∀ g, event g w op = if topic = g.topic then some (.append e) else none) :
    Move E w op { w with broker := w.broker.publish topic e }
  | poll (i : Nat) (clock : Nat → Int) (h : ConsumerHandle) (hi : w.handles[i]? = some h) :
    Move E w (.pollIncoming i clock)
      { w with offsets := w.offsets.set h.consumerOffset (w.broker.entries h.topic).length }

theorem step_move (E : RitualEnv) (w : RitualBus) (op : Op) : Move E w op (step E w op) := by
  cases op with
  | registry op =>
    simp only [step, registry]
    cases hjoin : w.joined E op with
    | none => exact .same _ _ fun _ => rfl
    | some h =>
      dsimp only
      rw [InMemoryBroker.latestOffset_eq]
      exact .join op _ h hjoin
  | clone i =>
    cases hi : w.handles[i]? with
    | none =>
      simp only [step, hi]
      exact .same _ w.server fun _ => rfl
    | some h =>
      simp only [step, hi]
      exact .clone i h hi
  | publishBodyRouted i p =>
    cases hi : w.handles[i]? with
    | none =>
      simp only [step, hi]
      exact .same _ w.server fun _ => by simp only [event, hi, Option.bind_none]
    | some h =>
      simp only [step, hi]
      exact .publish _ h.topic _ fun _ => by simp only [event, hi, Option.bind_some]
  | publish topic e => exact .publish _ topic e fun _ => rfl
  | pollIncoming i clock =>
    cases hi : w.handles[i]? with
    | none =>
      simp only [step, hi]
      exact .same _ w.server fun _ => by simp only [event, hi, Option.bind_none]
    | some h =>
      simp only [step, hi, fetch, InMemoryBroker.poll_eq]
      exact .poll i clock h hi

theorem joined_spec {w : RitualBus} (h : TopicsNamed E w.server) {op : RitualServer.Op}
    {c : ConsumerHandle} (hjoin : w.joined E op = some c) :
    c.consumerOffset = w.offsets.length ∧ topicName E.disDomain c.ritualId = .ok c.topic := by
  unfold joined at hjoin
  cases hans : (RitualServer.exec E w.server op).1 with
  | joined handle =>
    simp only [hans, Option.map_eq_some_iff] at hjoin
    obtain ⟨r, hr, rfl⟩ := hjoin
    exact ⟨rfl, h.ritual _ r hr⟩
  | created _ => simp [hans] at hjoin
  | terminated => simp [hans] at hjoin
  | restored _ => simp [hans] at hjoin
  | refused _ => simp [hans] at hjoin

theorem Attached.lt {w : RitualBus} {h : ConsumerHandle} (ha : Attached E w h) :
    h.consumerOffset < w.offsets.length := by
  obtain ⟨n, hn, -⟩ := ha.offset
  exact (List.getElem?_eq_some_iff.mp hn).1

theorem Sound.topic_iff {w : RitualBus} (hw : Sound E w) {g h : ConsumerHandle}
    (hg : g ∈ w.handles) (hh : h ∈ w.handles) : g.topic = h.topic ↔ g.ritualId = h.ritualId := by
  have hgn := (hw.handles g hg).named
  have hhn := (hw.handles h hh).named
  constructor
  · intro he
    exact topicName_injective hgn (he ▸ hhn)
  · intro he
    rw [he, hhn] at hgn
    exact (Except.ok.inj hgn).symm

theorem sound_new (E : RitualEnv) : Sound E RitualBus.new :=
  ⟨topicsNamed_new E, fun _ h => absurd h List.not_mem_nil⟩

theorem server_step (E : RitualEnv) (w : RitualBus) (op : Op) :
    (step E w op).server = match op with
      | .registry op => RitualServer.step E w.server op
      | _ => w.server := by
  cases op with
  | registry op =>
    simp only [step, registry]
    cases w.joined E op <;> rfl
  | clone i => cases hi : w.handles[i]? <;> simp only [step, hi]
  | publishBodyRouted i p => cases hi : w.handles[i]? <;> simp only [step, hi]
  | publish topic e => rfl
  | pollIncoming i clock =>
    cases hi : w.handles[i]? with
    | none => simp only [step, hi]
    | some h => simp only [step, hi, fetch, InMemoryBroker.poll_eq]

theorem topicsNamed_bus {w : RitualBus} (h : TopicsNamed E w.server) (op : Op) :
    TopicsNamed E (step E w op).server := by
  rw [server_step]
  cases op with
  | registry op => exact topicsNamed_step h op
  | _ => exact h

/-- A handle keeps its counter within its topic. -/
theorem Attached.step {w w' : RitualBus} {op : Op} (hw : Sound E w) (hm : Move E w op w')
    {h : ConsumerHandle} (hh : h ∈ w.handles) : Attached E w' h := by
  have ha := hw.handles h hh
  obtain ⟨n, hn, hle⟩ := ha.offset
  cases hm with
  | same _ s _ => exact ⟨ha.named, ha.offset, ha.own⟩
  | join op s c hjoin =>
    refine ⟨ha.named, ⟨n, ?_, hle⟩, fun g hg he => ?_⟩
    · exact (List.getElem?_append_left ha.lt).trans hn
    · rcases List.mem_append.mp hg with hg | hg
      · exact ha.own g hg he
      · obtain rfl : g = c := List.mem_singleton.mp hg
        have hnew := (joined_spec hw.topics hjoin).1
        have := ha.lt
        omega
  | clone i c hi =>
    refine ⟨ha.named, ha.offset, fun g hg he => ?_⟩
    rcases List.mem_append.mp hg with hg | hg
    · exact ha.own g hg he
    · obtain rfl : g = c := List.mem_singleton.mp hg
      exact ha.own g (List.mem_of_getElem? hi) he
  | publish _ topic e _ =>
    refine ⟨ha.named, ⟨n, hn, ?_⟩, ha.own⟩
    dsimp only
    rw [InMemoryBroker.entries_publish]
    split
    · simp only [List.length_append, List.length_singleton]
      omega
    · exact hle
  | poll i clock c hi =>
    refine ⟨ha.named, ?_, ha.own⟩
    dsimp only
    by_cases he : c.consumerOffset = h.consumerOffset
    · obtain rfl := ha.own c (List.mem_of_getElem? hi) he
      exact ⟨_, List.getElem?_set_self ha.lt, Nat.le_refl _⟩
    · exact ⟨n, (List.getElem?_set_ne he).trans hn, hle⟩

/-- A handle that is new has a counter of its own, or is a clone. -/
theorem Move.attached_new {w w' : RitualBus} {op : Op} (hw : Sound E w) (hm : Move E w op w')
    {h : ConsumerHandle} (hh : h ∈ w'.handles) (hnew : h ∉ w.handles) : Attached E w' h := by
  cases hm with
  | same _ s _ => exact absurd hh hnew
  | publish _ topic e _ => exact absurd hh hnew
  | poll i clock c hi => exact absurd hh hnew
  | clone i c hi =>
    rcases List.mem_append.mp hh with hh | hh
    · exact absurd hh hnew
    · rw [List.mem_singleton.mp hh] at hnew
      exact absurd (List.mem_of_getElem? hi) hnew
  | join op s c hjoin =>
    rcases List.mem_append.mp hh with hh | hh
    · exact absurd hh hnew
    · obtain rfl : h = c := List.mem_singleton.mp hh
      obtain ⟨hcount, hname⟩ := joined_spec hw.topics hjoin
      refine ⟨hname, ⟨(w.broker.entries h.topic).length, ?_, Nat.le_refl _⟩, fun g hg he => ?_⟩
      · rw [hcount]
        exact List.getElem?_concat_length
      · rcases List.mem_append.mp hg with hg | hg
        · have := (hw.handles g hg).lt
          omega
        · exact List.mem_singleton.mp hg

theorem sound_step {w : RitualBus} (hw : Sound E w) (op : Op) : Sound E (step E w op) := by
  refine ⟨topicsNamed_bus hw.topics op, fun h hh => ?_⟩
  by_cases hold : h ∈ w.handles
  · exact Attached.step hw (step_move E w op) hold
  · exact (step_move E w op).attached_new hw hh hold

theorem Move.handles_sub {w w' : RitualBus} {op : Op} (hm : Move E w op w') :
    w.handles ⊆ w'.handles := by
  cases hm with
  | same | publish | poll => exact fun _ h => h
  | join | clone => exact List.subset_append_left _ _

theorem run_sound (E : RitualEnv) (ops : List Op) : Sound E (run (step E) new ops) :=
  run_invariant (P := Sound E) (C := fun _ _ => True) (fun _ op _ h => sound_step h op)
    (fun _ _ => trivial) (sound_new E)

theorem handles_sub_run {w : RitualBus} {h : ConsumerHandle} (hh : h ∈ w.handles) (ops : List Op) :
    h ∈ (run (step E) w ops).handles :=
  run_invariant (P := fun w => h ∈ w.handles) (C := fun _ _ => True)
    (fun w op _ hw => (step_move E w op).handles_sub hw) (fun _ _ => trivial) hh

theorem getD_of_getElem? {l : List Int} {i n : Nat} (h : l[i]? = some (n : Int)) :
    l.getD i 0 = n := by
  rw [List.getD_eq_getElem?_getD, h]
  rfl

/-- A call moves the log and the cursor of a handle as its event says. -/
theorem Move.cursor_eq {w w' : RitualBus} {op : Op} (hm : Move E w op w') (hw : Sound E w)
    {h : ConsumerHandle} (hh : h ∈ w.handles) :
    cursor h w' = (event h w op).elim (cursor h w) (Cursor.step (cursor h w)) := by
  have ha := hw.handles h hh
  cases hm with
  | same _ s hnone =>
    rw [hnone]
    rfl
  | join op s c hjoin =>
    have hget : (w.offsets ++ [((w.broker.entries c.topic).length : Int)]).getD h.consumerOffset 0 =
        w.offsets.getD h.consumerOffset 0 := by
      rw [List.getD_eq_getElem?_getD, List.getElem?_append_left ha.lt, List.getD_eq_getElem?_getD]
    simp only [event, Option.elim_none, cursor, hget]
  | clone i c hi => rfl
  | publish _ topic e hevent =>
    simp only [hevent, cursor, InMemoryBroker.entries_publish]
    by_cases ht : topic = h.topic
    · rw [if_pos ht, if_pos ht.symm]
      rfl
    · rw [if_neg ht, if_neg (Ne.symm ht)]
      rfl
  | poll i clock c hi =>
    simp only [event, hi, Option.bind_some]
    by_cases he : c.consumerOffset = h.consumerOffset
    · obtain rfl := ha.own c (List.mem_of_getElem? hi) he
      have hset := getD_of_getElem? (List.getElem?_set_self ha.lt
        (a := ((w.broker.entries c.topic).length : Int)))
      simp only [if_true, Option.elim_some, Cursor.step, cursor, hset, Int.toNat_natCast]
    · have hset : (w.offsets.set c.consumerOffset
          ((w.broker.entries c.topic).length : Int)).getD h.consumerOffset 0 =
          w.offsets.getD h.consumerOffset 0 := by
        rw [List.getD_eq_getElem?_getD, List.getElem?_set_ne he, List.getD_eq_getElem?_getD]
      simp only [if_neg he, Option.elim_none, cursor, hset]

/-- A poll returns what the cursor has before it. -/
theorem returned_eq {w : RitualBus} (hw : Sound E w) {h : ConsumerHandle} (hh : h ∈ w.handles)
    (op : Op) : returned h w op =
      (event h w op).elim [] (Cursor.batch live (cursor h w)) := by
  have ha := hw.handles h hh
  cases op with
  | registry op => rfl
  | clone i => rfl
  | publish topic e =>
    simp only [returned, event]
    split <;> rfl
  | publishBodyRouted i p =>
    simp only [returned, event]
    cases hi : w.handles[i]? with
    | none => rfl
    | some c =>
      simp only [Option.bind_some]
      split <;> rfl
  | pollIncoming i clock =>
    simp only [returned, event]
    cases hi : w.handles[i]? with
    | none => rfl
    | some c =>
      simp only [Option.bind_some]
      by_cases he : c.consumerOffset = h.consumerOffset
      · obtain rfl := ha.own c (List.mem_of_getElem? hi) he
        obtain ⟨n, hn, hle⟩ := ha.offset
        have hstart : min (max (n : Int) 0).toNat (w.broker.entries c.topic).length = n := by omega
        simp only [if_true, Option.elim_some, incoming, fetch, startOf, InMemoryBroker.poll_eq,
          getD_of_getElem? hn, hstart, Option.map_some, Option.getD_some, Cursor.batch, cursor,
          Int.toNat_natCast]
      · simp only [if_neg he, Option.elim_none]

/-- What a handle gets along a run is what its cursor reads. -/
theorem received_eq {w : RitualBus} (hw : Sound E w) {h : ConsumerHandle} (hh : h ∈ w.handles)
    (ops : List Op) : received E h w ops = Cursor.batches live (cursor h w) (events E h w ops) :=
  Cursor.flatMap_visits (P := fun w => Sound E w ∧ h ∈ w.handles)
    (fun w op hw => ⟨sound_step hw.1 op, (step_move E w op).handles_sub hw.2⟩)
    (fun w op hw => (step_move E w op).cursor_eq hw.1 hw.2)
    (fun _ op hw => returned_eq hw.1 hw.2 op) ⟨hw, hh⟩ ops

/-- Before a handle is given out nobody polls with its counter. -/
theorem received_before {ops : List Op} {h : ConsumerHandle}
    (hnew : h.consumerOffset = (run (step E) new ops).offsets.length) :
    received E h new ops = [] := by
  refine List.flatMap_eq_nil_iff.mpr fun x hx => ?_
  obtain ⟨u, v, rfl, hstate⟩ := mem_visits hx
  rw [run_append, ← hstate] at hnew
  cases hop : x.2 with
  | registry | clone | publish | publishBodyRouted => rfl
  | pollIncoming i clock =>
    simp only [returned]
    cases hi : x.1.handles[i]? with
    | none => rfl
    | some g =>
      have hmem := handles_sub_run (E := E) (List.mem_of_getElem? hi) (x.2 :: v)
      have hsound : Sound E (run (step E) x.1 (x.2 :: v)) := by
        rw [hstate, ← run_append]
        exact run_sound E _
      have hlt := (hsound.handles g hmem).lt
      rw [← hnew] at hlt
      exact if_neg (by omega)

/-- A handle and its clones get every envelope that is published on the topic of their ritual
after the join, once and in order, at the first poll that follows, unless it has expired then;
no poll of any broker at any offset goes out of range. -/
theorem pollIncoming_each_once (E : RitualEnv) (u v : List Op) (op : RitualServer.Op)
    (h : ConsumerHandle) (hjoin : (run (step E) new u).joined E op = some h) :
    let w := run (step E) new (u ++ [.registry op])
    received E h new (u ++ .registry op :: v) =
        Cursor.due live (w.broker.entries h.topic).length (events E h w v) ∧
      topicName E.disDomain h.ritualId = .ok h.topic ∧
      (∀ g ∈ (run (step E) w v).handles, (g.topic = h.topic ↔ g.ritualId = h.ritualId) ∧
        (g.consumerOffset = h.consumerOffset → g = h)) ∧
      ∀ (b : InMemoryBroker) (topic : String) (offset : Int), (b.poll topic offset).isSome := by
  intro w
  have hw : Sound E w := run_sound E _
  obtain ⟨hcount, hname⟩ := joined_spec (run_sound E u).topics hjoin
  have hstep : w = { run (step E) new u with
      server := RitualServer.step E (run (step E) new u).server op
      offsets := (run (step E) new u).offsets ++
        [((run (step E) new u).broker.latestOffset h.topic)]
      handles := (run (step E) new u).handles ++ [h] } := by
    have : w = (run (step E) new u).registry E op := run_append new u [.registry op]
    rw [this, registry, hjoin]
  have hmem : h ∈ w.handles := by
    rw [hstep]
    exact List.mem_append_right _ (List.mem_singleton_self h)
  have hcaught : (cursor h w).pos = (cursor h w).log.length := by
    simp only [cursor, hstep, hcount, List.getD_eq_getElem?_getD, List.getElem?_concat_length,
      Option.getD_some, InMemoryBroker.latestOffset_eq, Int.toNat_natCast]
  have hlater := handles_sub_run (E := E) hmem v
  have hend : Sound E (run (step E) w v) := by
    rw [← run_append]
    exact run_sound E _
  refine ⟨?_, hname, fun g hg => ⟨hend.topic_iff hg hlater, (hend.handles h hlater).own g hg⟩,
    fun b topic offset => by rw [InMemoryBroker.poll_eq]; rfl⟩
  have hsplit : received E h new (u ++ .registry op :: v) =
      received E h new u ++ received E h w v := by
    have hrun : step E (run (step E) new u) (.registry op) = w := by
      show _ = run (step E) new (u ++ [.registry op])
      rw [run_append]
      rfl
    simp only [received, visits_append, visits, hrun, List.flatMap_append, List.flatMap_cons,
      returned, List.nil_append]
  rw [hsplit, received_before hcount, List.nil_append, received_eq hw hmem,
    Cursor.batches_of_caught_up hcaught]
  rfl

/-- One ritual, in a registry whose ids count up. -/
def testEnv : RitualEnv where
  disDomain := "dis.test"
  codec := .json
  uuid n := ⟨n⟩
  uuidNew _ _ h := Uuid.mk.inj h
  loadOrder := OrderBy.stable _

/-- A sender has joined and published before the receiver joins. -/
def testBefore : List Op :=
  [.registry (.create ⟨"handle-test", []⟩ none 0), .registry (.join ⟨0⟩ none 0),
    .publishBodyRouted 0 ⟨⟨10⟩, 0, .null, Label.offering, none, {}⟩]

/-- Two envelopes of which the second expires, read by a clone of the receiver. -/
def testAfter : List Op :=
  [.clone 1, .publishBodyRouted 0 ⟨⟨11⟩, 0, .null, Label.hohi, none, {}⟩,
    .publishBodyRouted 0 ⟨⟨12⟩, 0, .null, Label.offering, some 5, {}⟩,
    .pollIncoming 2 fun _ => 100, .pollIncoming 1 fun _ => 100]

def testReceiver : ConsumerHandle :=
  ⟨⟨⟨0⟩, ⟨2⟩, "dis.test"⟩, "dis.test.ritual.00000000-0000-0000-0000-000000000000", 1⟩

theorem testReceiver_each_once :
    (run (step testEnv) new testBefore).joined testEnv (.join ⟨0⟩ none 0) = some testReceiver ∧
    received testEnv testReceiver new (testBefore ++ .registry (.join ⟨0⟩ none 0) :: testAfter) =
      Cursor.due live ((run (step testEnv) new (testBefore ++ [.registry (.join ⟨0⟩ none 0)])
        ).broker.entries testReceiver.topic).length (events testEnv testReceiver
          (run (step testEnv) new (testBefore ++ [.registry (.join ⟨0⟩ none 0)])) testAfter) ∧
    (received testEnv testReceiver new (testBefore ++ .registry (.join ⟨0⟩ none 0) :: testAfter)).map
      TephraEnvelope.tephraId = [⟨11⟩] := by
  have hjoin : (run (step testEnv) new testBefore).joined testEnv (.join ⟨0⟩ none 0) =
      some testReceiver := by decide +kernel
  exact ⟨hjoin, (pollIncoming_each_once testEnv testBefore testAfter (.join ⟨0⟩ none 0)
    testReceiver hjoin).1, by decide +kernel⟩

end RitualBus
end Cerebellum
