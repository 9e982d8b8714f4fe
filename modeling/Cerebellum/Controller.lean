import Cerebellum.World
import Cerebellum.Envelope
import Mathlib.Data.List.AList

/-! The ritual half of `CycleController`: ingesting peer Tephras, publishing Offerings,
the map of offers that still wait for a reply, and their patience. -/
namespace Cerebellum

structure PendingOffer where
  cyclesWaiting : Nat
  expectsCorrelation : Bool
  topicPath : Option String
  deriving DecidableEq

/-- An offer as it is registered, right after its publish. -/
def PendingOffer.fresh (expectsCorrelation : Bool) (topicPath : Option String) : PendingOffer :=
  ⟨0, expectsCorrelation, topicPath⟩

/-- `HashMap<Uuid, PendingOffer>`. -/
abbrev PendingOffers := AList fun _ : Uuid => PendingOffer

/-- A hash map is walked in an order of its own. -/
structure HashOrder where
  order : List (Sigma fun _ : Uuid => PendingOffer) → List (Sigma fun _ : Uuid => PendingOffer)
  perm : ∀ l, (order l).Perm l

def HashOrder.listed : HashOrder := ⟨id, fun _ => List.Perm.refl _⟩

structure InitialOffering where
  payload : Json
  topicPath : Option String
  sourceNodeId : Option String
  correlationId : Option Uuid

/-- The parts of the controller the ritual code reads and writes; `world` holds the
global Coire, `prologId` and `clipsId` name the two mailboxes of the session. -/
structure CycleController where
  world : World
  prologId : Uuid
  clipsId : Uuid
  idsDistinct : prologId ≠ clipsId
  ritualHandle : Option RitualHandle
  pendingOffers : PendingOffers
  evaluatorPatienceCycles : Nat
  selfNodeId : Option String
  initialOffering : Option InitialOffering

/-- `Iterator::max_by_key`: the last of the largest. -/
def maxByKey {α : Type*} (key : α → Nat) (l : List α) : Option α :=
  l.foldl (fun best x => match best with
    | none => some x
    | some y => if key y ≤ key x then some x else some y) none

namespace CycleController

def ownPerformance (c : CycleController) (t : TephraEnvelope) : Bool :=
  match c.ritualHandle with
  | some h => h.performanceId == t.performanceId
  | none => true

def addressedToMe (c : CycleController) (t : TephraEnvelope) : Bool :=
  match c.selfNodeId, t.targetNodeId with
  | some me, some target => me == target
  | _, _ => false

def addressedElsewhere (c : CycleController) (t : TephraEnvelope) : Bool :=
  match c.selfNodeId, t.targetNodeId with
  | some me, some target => me != target
  | _, _ => false

/-- Our own published message coming back on the shared topic. -/
def ownEcho (c : CycleController) (t : TephraEnvelope) : Bool :=
  match c.ritualHandle with
  | some h => t.performanceId == h.performanceId
  | none => false

/-- The pending entry a reply removes: the one it names, or for a peer that echoes no
correlation id the longest-waiting offer published without one. -/
def resolvedKey (iter : HashOrder) (c : CycleController) (t : TephraEnvelope) : Option Uuid :=
  if c.ownPerformance t then
    match t.correlationId with
    | some cid => if cid ∈ c.pendingOffers then some cid else none
    | none =>
      (maxByKey (fun e => e.2.cyclesWaiting)
        ((iter.order c.pendingOffers.entries).filter fun e => !e.2.expectsCorrelation)).map
          Sigma.fst
  else none

def resolvePendingOffer (iter : HashOrder) (c : CycleController) (t : TephraEnvelope) :
    Bool × CycleController :=
  match c.resolvedKey iter t with
  | some cid => (true, { c with pendingOffers := c.pendingOffers.erase cid })
  | none => (false, c)

/-- The `_routing` block: the fields the envelope has, and no others. -/
def routingFields (correlationId : Option Uuid) (sourceNodeId topicPath : Option String) : Fields :=
  let m : Fields := []
  let m := match correlationId with
    | some cid => Fields.insert "correlation_id" (.str cid.toText) m
    | none => m
  let m := match sourceNodeId with
    | some src => Fields.insert "source_node_id" (.str src) m
    | none => m
  match topicPath with
  | some tp => Fields.insert "topic_path" (.str tp) m
  | none => m

/-- Merge the envelope's routing into an object body; other bodies go through as they are. -/
def stampRouting (t : TephraEnvelope) (body : Json) : Json :=
  match body with
  | .obj m =>
    let routing := routingFields t.correlationId t.sourceNodeId t.topicPath
    if routing.isEmpty then body else .obj (Fields.insert "_routing" (.obj routing) m)
  | _ => body

/-- The same event into the Prolog and then into the CLIPS mailbox. -/
def writeBoth (c : CycleController) (origin : String) (body : Json) : CycleController :=
  { c with world := (c.world.emit c.prologId origin body).emit c.clipsId origin body }

def ingestTephra (iter : HashOrder) (c : CycleController) (t : TephraEnvelope) : CycleController :=
  match t.payload with
  | .encrypted _ _ _ _ => c
  | .plaintext body =>
    if t.isReply then
      let (resolved, c') := c.resolvePendingOffer iter t
      if !resolved && (c.ownPerformance t || !c.addressedToMe t) then c'
      else c'.writeBoth ("ritual/" ++ t.label) (stampRouting t body)
    else if c.ownEcho t then c
    else if c.addressedElsewhere t then c
    else c.writeBoth ("ritual/" ++ t.label) (stampRouting t body)

def timeoutBody (correlationId : Option Uuid) : Json :=
  match correlationId with
  | some cid => .obj [("_routing", .obj [("correlation_id", .str cid.toText)]),
      ("error", .str "evaluator_timeout")]
  | none => .obj [("error", .str "evaluator_timeout")]

def assertEvaluatorTimeoutTabu (c : CycleController) (correlationId : Option Uuid) :
    CycleController :=
  c.writeBoth "ritual/tabu-timeout" (timeoutBody correlationId)

/-- Every waiting offer gets one cycle older. -/
def bump (m : PendingOffers) : PendingOffers :=
  ⟨m.entries.map fun e => ⟨e.1, { e.2 with cyclesWaiting := e.2.cyclesWaiting + 1 }⟩, by
    have h := m.nodupKeys
    unfold List.NodupKeys List.keys at h ⊢
    simpa [Function.comp_def] using h⟩

/-- Drop one offer whose patience is exhausted and report the timeout for it. -/
def expireOffer (c : CycleController) (cid : Uuid) : CycleController :=
  let expectsCorrelation := match c.pendingOffers.lookup cid with
    | some o => o.expectsCorrelation
    | none => false
  assertEvaluatorTimeoutTabu { c with pendingOffers := c.pendingOffers.erase cid }
    (if expectsCorrelation then some cid else none)

def timedOut (iter : HashOrder) (c : CycleController) : List Uuid :=
  ((iter.order (bump c.pendingOffers).entries).filter fun e =>
    decide (c.evaluatorPatienceCycles ≤ e.2.cyclesWaiting)).map Sigma.fst

/-- The aging pass of `has_converged`. -/
def ageOffers (iter : HashOrder) (c : CycleController) : CycleController :=
  (c.timedOut iter).foldl expireOffer { c with pendingOffers := bump c.pendingOffers }

/-- The caller's Offering, shaped like one a peer would have sent. -/
def injectInitialOffering (c : CycleController) : CycleController :=
  match c.initialOffering with
  | none => c
  | some off =>
    let (cid, world) := match off.correlationId with
      | some cid => (cid, c.world)
      | none => c.world.newV4
    let body := match off.payload with
      | .obj m => .obj (Fields.insert "_routing" (.obj
          (routingFields (some cid) off.sourceNodeId (some (off.topicPath.getD "run")))) m)
      | other => other
    { c with world := world, initialOffering := none }.writeBoth "ritual/offering" body

structure CawsDirective where
  routing : Routing
  correlationId : Uuid
  expectsReply : Bool
  label : String

/-- The routing directive in an outbound event's reserved `_caws` object, if it has one. -/
def cawsDirective (world : World) (event : ClaraEvent) (handle : RitualHandle) :
    Option CawsDirective × World :=
  match (event.payload.get "_caws").bind Json.asObject with
  | none => (none, world)
  | some caws =>
    let strField := fun key => (Fields.get key caws).bind Json.asStr
    let (correlationId, world) := match (strField "correlation_id").bind Uuid.parseStr with
      | some cid => (cid, world)
      | none => world.newV4
    let topicPath := (strField "topic_path").getD
      (handle.disDomain ++ "/ritual/" ++ handle.performanceId.toText)
    let tags := ((Fields.get "tags" caws).bind Json.asArray).map (List.filterMap Json.asStr)
    let expectsReply := ((Fields.get "expects_reply" caws).bind Json.asBool).getD true
    let label := match strField "kind" with
      | some "event" => Label.event
      | some "hohi" => Label.hohi
      | some "tabu" => Label.tabu
      | _ => Label.offering
    (some
      { routing :=
          { sourceNodeId := strField "source_node_id"
            targetNodeId := strField "target_node_id"
            correlationId := some correlationId
            topicPath := some topicPath
            tags := tags }
        correlationId := correlationId
        expectsReply := expectsReply
        label := label },
      world)

/-- A message handed to the broker. -/
structure Outgoing where
  body : Json
  label : String
  routing : Routing

def statusName : EventStatus → String
  | .pending => "Pending"
  | .processed => "Processed"
  | .drained => "Drained"

/-- `serde_json::to_value` of an event. -/
def eventValue (e : ClaraEvent) : Json :=
  .obj [("created_at_ms", .num e.createdAtMs 0), ("event_id", .str e.eventId.toText),
    ("origin", .str e.origin), ("payload", e.payload), ("session_id", .str e.sessionId.toText),
    ("status", .str (statusName e.status))]

def cleanBody (payload : Json) : Json :=
  match payload with
  | .obj m => .obj (Fields.remove "_caws" m)
  | other => other

/-- Publish one outbound event; on success register the offer that waits for a reply. -/
def publishEvent (handle : RitualHandle) (publishOk : ClaraEvent → Bool) (c : CycleController)
    (event : ClaraEvent) : CycleController × List Outgoing :=
  let (caws, world) := cawsDirective c.world event handle
  let c := { c with world := world }
  match caws with
  | some d =>
    if publishOk event then
      let pending := if d.expectsReply then
        c.pendingOffers.insert d.correlationId (.fresh true d.routing.topicPath)
        else c.pendingOffers
      ({ c with pendingOffers := pending }, [⟨cleanBody event.payload, d.label, d.routing⟩])
    else (c, [])
  | none =>
    if publishOk event then
      let (cid, world) := c.world.newV4
      ({ c with
          world := world
          pendingOffers := c.pendingOffers.insert cid (.fresh false none) },
        [⟨eventValue event, Label.offering, {}⟩])
    else (c, [])

def publishEvents (handle : RitualHandle) (publishOk : ClaraEvent → Bool) :
    CycleController → List ClaraEvent → CycleController × List Outgoing
  | c, [] => (c, [])
  | c, e :: es =>
    let (c', out) := c.publishEvent handle publishOk e
    let (c'', rest) := publishEvents handle publishOk c' es
    (c'', out ++ rest)

/-- Drain the `evaluator/` events of the Prolog mailbox and publish each. -/
def publishEvaluatorEvents (ord : RowOrder) (handle : RitualHandle)
    (publishOk : ClaraEvent → Bool) (c : CycleController) : CycleController × List Outgoing :=
  let (events, world) := c.world.poll ord c.prologId (.startsWith "evaluator/")
  publishEvents handle publishOk { c with world := world } events

/-- A controller that has just joined a performance as node `a`. -/
def joined : CycleController where
  world := World.start
  prologId := ⟨1⟩
  clipsId := ⟨2⟩
  idsDistinct := by decide
  ritualHandle := some ⟨⟨10⟩, ⟨11⟩, "dis"⟩
  pendingOffers := ∅
  evaluatorPatienceCycles := 3
  selfNodeId := some "a"
  initialOffering := none

/-- A peer envelope for `cid` under the given performance and label. -/
def peerTephra (performance : Uuid) (label : String) (cid : Uuid) : TephraEnvelope where
  tephraId := ⟨50⟩
  ritualId := ⟨10⟩
  performanceId := performance
  label := label
  tsMs := 0
  ttlMs := 30000
  producerNode := "peer"
  payload := .plaintext (.obj [])
  correlationId := some cid

end CycleController

end Cerebellum
