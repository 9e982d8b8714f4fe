import Cerebellum.World
import Cerebellum.Term
import Cerebellum.Lib.Table

/-! The caws library of `the_coire.pl`: the per-engine tables, the destructive drain of
the `ritual/` events that fills the caches, and the predicates that offer, await, pipe,
tee and dispatch. -/
namespace Cerebellum

/-- Kinds of application messages. -/
inductive MsgKind where
  | event
  | hohi
  | tabu
  deriving DecidableEq

def MsgKind.name : MsgKind → String
  | .event => "event"
  | .hohi => "hohi"
  | .tabu => "tabu"

inductive ReplyKind where
  | hohi
  | tabu
  | tabuTimeout
  deriving DecidableEq

/-- The dispatched kind: a timeout is reported as a Tabu. -/
def ReplyKind.reported : ReplyKind → MsgKind
  | .hohi => .hohi
  | .tabu | .tabuTimeout => .tabu

/-- The origins `caws_cache_by_origin/3` has a clause for. -/
inductive RitualKind where
  | hohi
  | tabu
  | tabuTimeout
  | event
  | offering
  deriving DecidableEq

def RitualKind.ofOrigin (origin : String) : Option RitualKind :=
  if origin = "ritual/hohi" then some .hohi
  else if origin = "ritual/tabu" then some .tabu
  else if origin = "ritual/tabu-timeout" then some .tabuTimeout
  else if origin = "ritual/event" then some .event
  else if origin = "ritual/offering" then some .offering
  else none

structure OfferKey where
  target : String
  topic : String
  payload : Dict
  deriving DecidableEq

structure EmitKey where
  target : String
  topic : String
  kind : MsgKind
  payload : Dict
  deriving DecidableEq

/-- The thread-local predicates of one engine, oldest clause first. -/
structure Caws where
  offerSent : List (OfferKey × Term) := []
  result : List (Term × Dict) := []
  failed : List (Term × Dict) := []
  offering : List (Term × Term × Dict) := []
  piped : List (String × Term) := []
  edgeOffer : List (String × Term) := []
  edgeReplied : List (String × Term) := []
  emitSent : List (EmitKey × Term) := []
  emitted : List Term := []
  message : List ((MsgKind × Term) × Dict) := []
  teed : List (String × Term) := []
  edgeMsgSeen : List (String × Term) := []
  edgeResult : List (String × MsgKind × Dict) := []
  edgeMessage : List (String × MsgKind × Dict) := []

/-- How a goal ends. -/
inductive Outcome (α : Type*) where
  | succeeds (a : α)
  | fails
  | throws
  deriving DecidableEq

/-- What `caws_cache_event/1` makes of an event's payload. -/
inductive Correlated where
  | foreign
  | malformed
  | caws (cid : Term) (payload : Dict)
  deriving DecidableEq

/-- The condition of `caws_cache_event/1`. `get_dict/3` on a `_routing` that is no dict
raises a type error. -/
def correlate (payload : Json) : Correlated :=
  match Term.ofJson payload with
  | .dict m =>
    match Fields.get "_routing" m with
    | none => .foreign
    | some (.dict routing) =>
      match Fields.get "correlation_id" routing with
      | some cid => .caws cid.normalize m
      | none => .foreign
    | some _ => .malformed
  | _ => .foreign

namespace Caws

/-- `_routing.topic_path` of an incoming Offering, or the empty atom. -/
def offeringTopic (payload : Dict) : Term :=
  match Fields.get "_routing" payload with
  | some (.dict routing) =>
    match Fields.get "topic_path" routing with
    | some topic => topic.normalize
    | none => .atom ""
  | _ => .atom ""

def cacheByOrigin (c : Caws) (origin : String) (cid : Term) (payload : Dict) : Caws :=
  match RitualKind.ofOrigin origin with
  | some .hohi =>
    { c with
      result := Table.insertNew cid payload c.result
      message := Table.insertNew (.hohi, cid) payload c.message }
  | some .tabu =>
    { c with
      failed := Table.insertNew cid payload c.failed
      message := Table.insertNew (.tabu, cid) payload c.message }
  | some .tabuTimeout => { c with failed := Table.insertNew cid payload c.failed }
  | some .event => { c with message := Table.insertNew (.event, cid) payload c.message }
  | some .offering =>
    { c with offering := Table.insertNew cid (offeringTopic payload, payload) c.offering }
  | none => c

/-- `none` when the event raises an error. -/
def cacheEvent (c : Caws) (e : ClaraEvent) : Option Caws :=
  match correlate e.payload with
  | .caws cid payload => some (c.cacheByOrigin e.origin cid payload)
  | .foreign => some c
  | .malformed => none

/-- `maplist(caws_cache_event, Events)`; an error keeps what was asserted before it. -/
def cacheEvents : Caws → List ClaraEvent → Caws × Bool
  | c, [] => (c, true)
  | c, e :: es =>
    match c.cacheEvent e with
    | some c' => cacheEvents c' es
    | none => (c, false)

/-- `caws_tee_payload/3`. -/
def teePayload (c : Caws) (kind : MsgKind) (cid : Term) : Option Dict :=
  match kind with
  | .hohi => Table.find cid c.result
  | .tabu => Table.find cid c.failed
  | .event => Table.find (.event, cid) c.message

/-- The payload `caws_edge_reply/3` dispatches. -/
def replyPayload (c : Caws) (edge : String) (kind : ReplyKind) (cid : Term) : Option Dict :=
  match kind with
  | .hohi => Table.find cid c.result
  | .tabu => Table.find cid c.failed
  | .tabuTimeout => if (edge, cid) ∈ c.edgeOffer then Table.find cid c.failed else none

end Caws

/-- `caws_strip_routing/2`. -/
def stripRouting (payload : Dict) : Dict := Fields.remove "_routing" payload

/-- A payload argument: a dict, `json([K=V, ...])`, or something else. -/
inductive CawsPayload where
  | dict (m : Dict)
  | json (pairs : List (String × Term))
  | other

/-- `dict_pairs/3`, which raises an error on a duplicate key. -/
def dictPairs : List (String × Term) → Option Dict
  | [] => some []
  | (k, v) :: m => (dictPairs m).bind fun d =>
    if (Fields.get k d).isSome then none else some (Fields.insert k v d)

/-- `caws_payload_dict/2`. -/
def CawsPayload.payloadDict : CawsPayload → Outcome Dict
  | .dict m => .succeeds m
  | .json pairs =>
    match dictPairs pairs with
    | some m => .succeeds m
    | none => .throws
  | .other => .fails

/-- One engine: its session's mailbox lives in the shared world. -/
structure Engine where
  session : Uuid
  world : World
  caws : Caws

namespace Engine
variable (ord : RowOrder)

/-- `put_dict('_caws', Payload, Block, Dict)` written as JSON. -/
def cawsJson (payload block : Dict) : Json :=
  .obj (Fields.insert "_caws" (.obj (Term.toFields block)) (Term.toFields payload))

/-- `coire_emit(Session, Origin, Json)` with a dict that carries a `_caws` block. -/
def emitCaws (s : Engine) (origin : String) (payload block : Dict) : Engine :=
  { s with world := s.world.emit s.session origin (cawsJson payload block) }

def cawsUuid (s : Engine) : Uuid × Engine :=
  (s.world.newV4.1, { s with world := s.world.newV4.2 })

def offerBlock (cid : Term) (target topic : String) : Dict :=
  [("correlation_id", cid), ("target_node_id", .atom target), ("topic_path", .atom topic)]

def emitBlock (cid : Term) (target topic : String) (kind : MsgKind) : Dict :=
  [("correlation_id", cid), ("expects_reply", .atom "false"), ("kind", .atom kind.name),
    ("target_node_id", .atom target), ("topic_path", .atom topic)]

/-- `caws_offer/4` on a payload dict. -/
def offerDict (s : Engine) (key : OfferKey) : Term × Engine :=
  match Table.find key s.caws.offerSent with
  | some cid => (cid, s)
  | none =>
    let cid := Term.atom s.cawsUuid.1.toText
    let s := s.cawsUuid.2.emitCaws "evaluator/offering" key.payload
      (offerBlock cid key.target key.topic)
    (cid, { s with caws := { s.caws with offerSent := s.caws.offerSent ++ [(key, cid)] } })

def cawsOffer (s : Engine) (target topic : String) (payload : CawsPayload) :
    Outcome Term × Engine :=
  match payload.payloadDict with
  | .succeeds dict =>
    let (cid, s) := s.offerDict ⟨target, topic, dict⟩
    (.succeeds cid, s)
  | .fails => (.fails, s)
  | .throws => (.throws, s)

/-- `caws_drain_ritual_events/0`; `false` when an event raised an error. The whole batch
is marked processed either way. -/
def drainRitualEvents (s : Engine) : Bool × Engine :=
  let (events, world) := s.world.poll ord s.session (.startsWith "ritual/")
  let (caws, ok) := s.caws.cacheEvents events
  (ok, { s with world := world, caws := caws })

def cawsAwait (s : Engine) (cid : Term) : Outcome Dict × Engine :=
  match Table.find cid s.caws.result with
  | some r => (.succeeds r, s)
  | none =>
    if (Table.find cid s.caws.failed).isSome then (.fails, s)
    else
      match s.drainRitualEvents ord with
      | (true, s) =>
        match Table.find cid s.caws.result with
        | some r => (.succeeds r, s)
        | none => (.fails, s)
      | (false, s) => (.throws, s)

def cawsConsult (s : Engine) (target topic : String) (payload : CawsPayload) :
    Outcome Dict × Engine :=
  match s.cawsOffer target topic payload with
  | (.succeeds cid, s) => s.cawsAwait ord cid
  | (.fails, s) => (.fails, s)
  | (.throws, s) => (.throws, s)

/-- The common shape of the four edge predicates: a first clause that cuts on the memo,
then a drain, then the lookup. -/
def unlessSeen {α : Type*} (s : Engine) (seen : Bool) (skip : α)
    (body : Engine → Outcome α × Engine) : Outcome α × Engine :=
  if seen then (.succeeds skip, s)
  else
    match s.drainRitualEvents ord with
    | (true, s) => body s
    | (false, s) => (.throws, s)

def cawsPipe (s : Engine) (edge target topic : String) (cid : Term) : Outcome Unit × Engine :=
  s.unlessSeen ord (decide ((edge, cid) ∈ s.caws.piped)) () fun s =>
    match Table.find cid s.caws.offering with
    | some (_, payload) =>
      let (offerCid, s) := s.offerDict ⟨target, topic, stripRouting payload⟩
      (.succeeds (), { s with caws := { s.caws with
        piped := s.caws.piped ++ [(edge, cid)]
        edgeOffer := s.caws.edgeOffer ++ [(edge, offerCid)] } })
    | none => (.succeeds (), s)

/-- `caws_edge_reply/3` up to the user hook, which it then calls with the returned payload. -/
def cawsEdgeReply (s : Engine) (edge : String) (kind : ReplyKind) (cid : Term) :
    Outcome (Option Dict) × Engine :=
  s.unlessSeen ord (decide ((edge, cid) ∈ s.caws.edgeReplied)) none fun s =>
    match s.caws.replyPayload edge kind cid with
    | some payload =>
      (.succeeds (some (stripRouting payload)), { s with caws := { s.caws with
        edgeReplied := s.caws.edgeReplied ++ [(edge, cid)]
        edgeResult := s.caws.edgeResult ++ [(edge, kind.reported, stripRouting payload)] } })
    | none => (.succeeds none, s)

/-- `caws_emit_cid/5`. -/
def emitCid (s : Engine) (key : EmitKey) (cid : Term) : Engine :=
  if cid ∈ s.caws.emitted then s
  else
    let s := s.emitCaws "evaluator/emit" key.payload (emitBlock cid key.target key.topic key.kind)
    { s with caws := { s.caws with emitted := s.caws.emitted ++ [cid] } }

def cawsEmit (s : Engine) (target topic : String) (kind : MsgKind) (payload : CawsPayload) :
    Outcome Unit × Engine :=
  match payload.payloadDict with
  | .succeeds dict =>
    let key : EmitKey := ⟨target, topic, kind, dict⟩
    if (Table.find key s.caws.emitSent).isSome then (.succeeds (), s)
    else
      let cid := Term.atom s.cawsUuid.1.toText
      let s := s.cawsUuid.2.emitCid key cid
      (.succeeds (), { s with caws := { s.caws with
        emitSent := s.caws.emitSent ++ [(key, cid)] } })
  | .fails => (.fails, s)
  | .throws => (.throws, s)

def cawsSquawk (s : Engine) (topic : String) (tags : List String) (payload : CawsPayload) :
    Outcome Unit × Engine :=
  match payload.payloadDict with
  | .succeeds dict => (.succeeds (), s.emitCaws "evaluator/squawk" dict
      [("expects_reply", .atom "false"), ("tags", .list (tags.map Term.atom)),
        ("topic_path", .atom topic)])
  | .fails => (.fails, s)
  | .throws => (.throws, s)

def cawsTee (s : Engine) (edge target topic : String) (kind : MsgKind) (cid : Term) :
    Outcome Unit × Engine :=
  s.unlessSeen ord (decide ((edge, cid) ∈ s.caws.teed)) () fun s =>
    match s.caws.teePayload kind cid with
    | some payload =>
      let s := { s with caws := { s.caws with teed := s.caws.teed ++ [(edge, cid)] } }
      (.succeeds (), s.emitCid ⟨target, topic, kind, stripRouting payload⟩ cid)
    | none => (.succeeds (), s)

/-- `caws_edge_message/3` up to the user hook. -/
def cawsEdgeMessage (s : Engine) (edge : String) (kind : MsgKind) (cid : Term) :
    Outcome (Option Dict) × Engine :=
  s.unlessSeen ord (decide ((edge, cid) ∈ s.caws.edgeMsgSeen)) none fun s =>
    match Table.find (kind, cid) s.caws.message with
    | some payload =>
      (.succeeds (some (stripRouting payload)), { s with caws := { s.caws with
        edgeMsgSeen := s.caws.edgeMsgSeen ++ [(edge, cid)]
        edgeMessage := s.caws.edgeMessage ++ [(edge, kind, stripRouting payload)] } })
    | none => (.succeeds none, s)

end Engine

/-- A call of one caws predicate. -/
inductive Call where
  | offer (target topic : String) (payload : CawsPayload)
  | await (cid : Term)
  | consult (target topic : String) (payload : CawsPayload)
  | pipe (edge target topic : String) (cid : Term)
  | edgeReply (edge : String) (kind : ReplyKind) (cid : Term)
  | emit (target topic : String) (kind : MsgKind) (payload : CawsPayload)
  | squawk (topic : String) (tags : List String) (payload : CawsPayload)
  | tee (edge target topic : String) (kind : MsgKind) (cid : Term)
  | edgeMessage (edge : String) (kind : MsgKind) (cid : Term)

def Engine.call (ord : RowOrder) (s : Engine) : Call → Engine
  | .offer target topic payload => (s.cawsOffer target topic payload).2
  | .await cid => (s.cawsAwait ord cid).2
  | .consult target topic payload => (s.cawsConsult ord target topic payload).2
  | .pipe edge target topic cid => (s.cawsPipe ord edge target topic cid).2
  | .edgeReply edge kind cid => (s.cawsEdgeReply ord edge kind cid).2
  | .emit target topic kind payload => (s.cawsEmit target topic kind payload).2
  | .squawk topic tags payload => (s.cawsSquawk topic tags payload).2
  | .tee edge target topic kind cid => (s.cawsTee ord edge target topic kind cid).2
  | .edgeMessage edge kind cid => (s.cawsEdgeMessage ord edge kind cid).2

end Cerebellum
