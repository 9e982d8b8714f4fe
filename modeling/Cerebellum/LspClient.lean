import Cerebellum.JsonCodec
import Cerebellum.LspFraming
import Cerebellum.Lib.Pool
import Mathlib.Data.List.AList

/-! The requests of an `LspClient`. Any number of calls of `request` run beside the writer task
and the reader task; they share the map of pending requests, and each waits on a oneshot channel
of its own. A step is what one of the tasks does between two points where it may be suspended. -/
namespace Cerebellum.Lsp
open Transition

/-- The errors a request can return. -/
inductive PitsnakeError where
  | timeout (method : String) (timeoutSecs : Nat)
  | lspError (code : Int32) (message : String)
  | processDied
  | channelError (message : String)
  deriving DecidableEq, Repr

abbrev LspResult := Except PitsnakeError Json

/-- `PendingRequest`. The sender is named by the call that holds the receiver. -/
structure PendingRequest where
  method : String
  tx : Nat
  deriving DecidableEq, Repr

/-- The receiver of a call. With a result it keeps which message brought it, none when the
reader sent it while draining. -/
inductive Oneshot where
  | empty
  | sent (message : Option Nat) (r : LspResult)
  | closed
  deriving DecidableEq

/-- Where a call of `request` stands. -/
inductive Phase where
  | started
  | registered
  | waiting
  | returned (message : Option Nat) (r : LspResult)
  deriving DecidableEq

structure Call where
  id : Int64
  method : String
  params : Json
  rx : Oneshot
  phase : Phase
  deriving DecidableEq

/-- A result the reader is about to send; it holds the lock of the map until it has. -/
structure Delivery where
  req : PendingRequest
  message : Option Nat
  result : LspResult

/-! ### Messages of the server -/

/-- `Value::as_i64`. -/
def asI64 : Json → Option Int64
  | .num m 0 => if -2 ^ 63 ≤ m ∧ m < 2 ^ 63 then some (Int64.ofInt m) else none
  | _ => none

def hasId (value : Json) : Bool := (value.get "id").elim false (· != Json.null)

def methodOf (value : Json) : Option String := value.strField "method"

/-- The request a message responds to, if it is a response with an integer for its id. -/
def responseId (value : Json) : Option Int64 :=
  if hasId value ∧ methodOf value = none then ((value.get "id").getD .null |> asI64) else none

/-- What a response says: its error if it has one, else its result. -/
def responseResult (value : Json) : LspResult :=
  match value.get "error" with
  | some err =>
    let code := (((err.get "code").bind asI64).getD (-1)).toInt32
    let message := (err.strField "message").getD "unknown LSP error"
    .error (.lspError code message)
  | none => .ok ((value.get "result").getD .null)

/-- The diagnostics a notification publishes, with their document. -/
def publishedDiagnostics (value : Json) : Option (String × List Json) :=
  if methodOf value = some "textDocument/publishDiagnostics" then
    (value.get "params").map fun params =>
      ((params.strField "uri").getD "", ((params.get "diagnostics").bind Json.asArray).getD [])
  else none

/-! ### The requests -/

/-- What the calls and the reader share. The messages received are kept to speak about. -/
structure Requests where
  nextId : Int64
  pending : AList fun _ : Int64 => PendingRequest
  calls : List Call
  inHand : List Delivery
  received : List Json

namespace Requests

def init : Requests where
  nextId := 1
  pending := ∅
  calls := []
  inHand := []
  received := []

/-- A call takes its id. -/
def begin (s : Requests) (method : String) (params : Json) : Requests :=
  { s with
    nextId := s.nextId + 1
    calls := s.calls ++ [⟨s.nextId, method, params, .empty, .started⟩] }

def setCall (s : Requests) (k : Nat) (c : Call) : Requests := { s with calls := s.calls.set k c }

@[simp] theorem setCall_calls (s : Requests) (k : Nat) (c : Call) :
    (s.setCall k c).calls = s.calls.set k c := rfl
@[simp] theorem setCall_pending (s : Requests) (k : Nat) (c : Call) :
    (s.setCall k c).pending = s.pending := rfl
@[simp] theorem setCall_inHand (s : Requests) (k : Nat) (c : Call) :
    (s.setCall k c).inHand = s.inHand := rfl
@[simp] theorem setCall_received (s : Requests) (k : Nat) (c : Call) :
    (s.setCall k c).received = s.received := rfl

/-- The sender of a request that is pushed out of the map is dropped. -/
def dropSender (s : Requests) : Option PendingRequest → Requests
  | none => s
  | some req =>
    match s.calls[req.tx]? with
    | none => s
    | some c => s.setCall req.tx { c with rx := .closed }

/-- `pending.lock().await.insert(id, …)`. -/
def register (s : Requests) (k : Nat) (c : Call) : Requests :=
  let s' := s.setCall k { c with phase := .registered }
  { s'.dropSender (s.pending.lookup c.id) with pending := s.pending.insert c.id ⟨c.method, k⟩ }

/-- The call returns, and its receiver is dropped. -/
def complete (s : Requests) (k : Nat) (c : Call) (message : Option Nat) (r : LspResult) :
    Requests :=
  s.setCall k { c with phase := .returned message r }

/-- A response: its request is taken out of the map. -/
def respond (s : Requests) (value : Json) : Requests :=
  let s' := { s with received := s.received ++ [value] }
  match responseId value with
  | none => s'
  | some id =>
    match s.pending.lookup id with
    | none => s'
    | some req =>
      { s' with
        pending := s.pending.erase id
        inHand := [⟨req, some s.received.length, responseResult value⟩] }

/-- `tx.send`: nobody listens once the call has returned. -/
def send (s : Requests) (d : Delivery) : Requests :=
  match s.calls[d.req.tx]? with
  | none => s
  | some c =>
    match c.phase with
    | .returned _ _ => s
    | _ => s.setCall d.req.tx { c with rx := .sent d.message d.result }

/-- One of the results in hand is sent. -/
def deliver (s : Requests) (i : Nat) : Requests :=
  match s.inHand[i]? with
  | none => s
  | some d => { s.send d with inHand := s.inHand.eraseIdx i }

/-- The reader ends: it takes what is pending, to send each an error. -/
def drain (s : Requests) : Requests :=
  { s with
    pending := ∅
    inHand := s.pending.entries.map fun e => ⟨e.2, none, .error .processDied⟩ }

end Requests

/-! ### The client -/

/-- The channel to the writer task, the pipes of the server, and the diagnostics. -/
structure Wire where
  queue : List Body := []
  closed : Bool := false
  written : List Body := []
  readerDone : Bool := false
  diagnostics : AList fun _ : String => List Json := ∅

structure Client where
  requests : Requests := Requests.init
  wire : Wire := {}

def channelCapacity : Nat := 64

inductive Event where
  | begin (method : String) (params : Json)
  | register (k : Nat)
  | send (k : Nat)
  | poll (k : Nat)
  | timeout (k : Nat)
  | notify (method : String) (params : Json)
  | forgetDiagnostics (uri : String)
  | write
  | writeFails
  | receive (body : Bytes)
  | deliver (i : Nat)
  | endOfOutput

section
variable (toVec : Json → Body) (fromSlice : Bytes → Option Json) (timeoutSecs : Nat)

def requestJson (c : Call) : Json :=
  .obj [("id", .num c.id.toInt 0), ("jsonrpc", .str "2.0"), ("method", .str c.method),
    ("params", c.params)]

def notificationJson (method : String) (params : Json) : Json :=
  .obj [("jsonrpc", .str "2.0"), ("method", .str method), ("params", params)]

namespace Client

def registerStep (s : Client) (k : Nat) : Client :=
  match s.requests.calls[k]? with
  | none => s
  | some c =>
    match c.phase, s.requests.inHand with
    | .started, [] => { s with requests := s.requests.register k c }
    | _, _ => s

/-- `outgoing_tx.send(body)`: it waits while the channel is full, and fails once it is closed. -/
def sendStep (s : Client) (k : Nat) : Client :=
  match s.requests.calls[k]? with
  | none => s
  | some c =>
    match c.phase with
    | .registered =>
      if s.wire.closed then
        { s with requests :=
          s.requests.complete k c none (.error (.channelError "channel closed")) }
      else if s.wire.queue.length < channelCapacity then
        { requests := s.requests.setCall k { c with phase := .waiting }
          wire := { s.wire with queue := s.wire.queue ++ [toVec (requestJson c)] } }
      else s
    | _ => s

/-- The receiver is ready, with a result or because its sender is gone. -/
def pollStep (s : Client) (k : Nat) : Client :=
  match s.requests.calls[k]? with
  | none => s
  | some c =>
    match c.phase, c.rx with
    | .waiting, .sent message r => { s with requests := s.requests.complete k c message r }
    | .waiting, .closed =>
      { s with requests := s.requests.complete k c none (.error .processDied) }
    | _, _ => s

/-- The time is over and the receiver is not ready. -/
def timeoutStep (s : Client) (k : Nat) : Client :=
  match s.requests.calls[k]? with
  | none => s
  | some c =>
    match c.phase, c.rx with
    | .waiting, .empty =>
      { s with requests := s.requests.complete k c none (.error (.timeout c.method timeoutSecs)) }
    | _, _ => s

/-- A closed channel takes nothing; its error goes to the caller of `notify`. -/
def notifyStep (s : Client) (method : String) (params : Json) : Client :=
  if ¬ s.wire.closed ∧ s.wire.queue.length < channelCapacity then
    { s with wire :=
      { s.wire with queue := s.wire.queue ++ [toVec (notificationJson method params)] } }
  else s

def writeStep (s : Client) : Client :=
  match s.wire.closed, s.wire.queue with
  | false, body :: rest =>
    { s with wire := { s.wire with queue := rest, written := s.wire.written ++ [body] } }
  | _, _ => s

/-- The writer task ends at a failed write, and its end of the channel goes with it. -/
def writeFailsStep (s : Client) : Client :=
  match s.wire.closed, s.wire.queue with
  | false, _ :: _ => { s with wire := { s.wire with queue := [], closed := true } }
  | _, _ => s

/-- `dispatch_message`, as far as the map and the diagnostics. -/
def dispatchMessage (s : Client) (value : Json) : Client where
  requests := s.requests.respond value
  wire :=
    match publishedDiagnostics value with
    | some (uri, diags) => { s.wire with diagnostics := s.wire.diagnostics.insert uri diags }
    | none => s.wire

/-- One body read by the reader task. What is not JSON is skipped. -/
def receiveStep (s : Client) (body : Bytes) : Client :=
  match s.wire.readerDone, s.requests.inHand with
  | false, [] => (fromSlice body).elim s s.dispatchMessage
  | _, _ => s

def endOfOutputStep (s : Client) : Client :=
  match s.wire.readerDone, s.requests.inHand with
  | false, [] => { requests := s.requests.drain, wire := { s.wire with readerDone := true } }
  | _, _ => s

def step (s : Client) : Event → Client
  | .begin method params => { s with requests := s.requests.begin method params }
  | .register k => s.registerStep k
  | .send k => s.sendStep toVec k
  | .poll k => s.pollStep k
  | .timeout k => s.timeoutStep timeoutSecs k
  | .notify method params => s.notifyStep toVec method params
  | .forgetDiagnostics uri =>
    { s with wire := { s.wire with diagnostics := s.wire.diagnostics.erase uri } }
  | .write => s.writeStep
  | .writeFails => s.writeFailsStep
  | .receive body => s.receiveStep fromSlice body
  | .deliver i => { s with requests := s.requests.deliver i }
  | .endOfOutput => s.endOfOutputStep

/-- The requests after a step, and what has to be the case before it. -/
inductive Change (s : Client) : Event → Requests → Prop
  | keep (e : Event) : Change s e s.requests
  | begin (method : String) (params : Json) :
    Change s (.begin method params) (s.requests.begin method params)
  | register {k : Nat} {c : Call} (hc : s.requests.calls[k]? = some c)
    (hphase : c.phase = .started) (hfree : s.requests.inHand = []) :
    Change s (.register k) (s.requests.register k c)
  | queued {k : Nat} {c : Call} (hc : s.requests.calls[k]? = some c)
    (hphase : c.phase = .registered) :
    Change s (.send k) (s.requests.setCall k { c with phase := .waiting })
  | refused {k : Nat} {c : Call} (hc : s.requests.calls[k]? = some c)
    (hphase : c.phase = .registered) (hclosed : s.wire.closed = true) :
    Change s (.send k)
      (s.requests.complete k c none (.error (.channelError "channel closed")))
  | answered {k : Nat} {c : Call} {message : Option Nat} {r : LspResult}
    (hc : s.requests.calls[k]? = some c) (hphase : c.phase = .waiting)
    (hrx : c.rx = .sent message r) : Change s (.poll k) (s.requests.complete k c message r)
  | orphaned {k : Nat} {c : Call} (hc : s.requests.calls[k]? = some c)
    (hphase : c.phase = .waiting) (hrx : c.rx = .closed) :
    Change s (.poll k) (s.requests.complete k c none (.error .processDied))
  | timedOut {k : Nat} {c : Call} (hc : s.requests.calls[k]? = some c)
    (hphase : c.phase = .waiting) (hrx : c.rx = .empty) :
    Change s (.timeout k)
      (s.requests.complete k c none (.error (.timeout c.method timeoutSecs)))
  | respond {body : Bytes} {value : Json} (hfree : s.requests.inHand = []) :
    Change s (.receive body) (s.requests.respond value)
  | deliver (i : Nat) : Change s (.deliver i) (s.requests.deliver i)
  | drain (hfree : s.requests.inHand = []) : Change s .endOfOutput s.requests.drain

theorem step_change (s : Client) (e : Event) :
    Change timeoutSecs s e (s.step toVec fromSlice timeoutSecs e).requests := by
  cases e with
  | begin method params => exact .begin method params
  | register k =>
    simp only [step, registerStep]
    split
    next => exact .keep _
    next c hc =>
      split
      next hphase hfree => exact .register hc hphase hfree
      next => exact .keep _
  | send k =>
    simp only [step, sendStep]
    split
    next => exact .keep _
    next c hc =>
      split
      next hphase =>
        split
        next hclosed => exact .refused hc hphase hclosed
        next =>
          split
          next => exact .queued hc hphase
          next => exact .keep _
      next => exact .keep _
  | poll k =>
    simp only [step, pollStep]
    split
    next => exact .keep _
    next c hc =>
      split
      next message r hphase hrx => exact .answered hc hphase hrx
      next hphase hrx => exact .orphaned hc hphase hrx
      next => exact .keep _
  | timeout k =>
    simp only [step, timeoutStep]
    split
    next => exact .keep _
    next c hc =>
      split
      next hphase hrx => exact .timedOut hc hphase hrx
      next => exact .keep _
  | notify method params =>
    simp only [step, notifyStep]
    split <;> exact .keep _
  | forgetDiagnostics uri => exact .keep _
  | write =>
    simp only [step, writeStep]
    split <;> exact .keep _
  | writeFails =>
    simp only [step, writeFailsStep]
    split <;> exact .keep _
  | receive body =>
    simp only [step, receiveStep]
    split
    next hdone hfree =>
      cases fromSlice body with
      | none => exact .keep _
      | some value => exact .respond hfree
    next => exact .keep _
  | deliver i => exact .deliver i
  | endOfOutput =>
    simp only [step, endOfOutputStep]
    split
    next hdone hfree => exact .drain hfree
    next => exact .keep _

end Client
end

/-! ### What a change of one call leaves -/

namespace Requests

/-- The id of the `k`th call. -/
def idOf (s : Requests) (k : Nat) : Option Int64 := s.calls[k]?.map Call.id

theorem getElem?_setCall {s : Requests} {k : Nat} {c : Call} (hc : s.calls[k]? = some c)
    (c' : Call) (j : Nat) :
    (s.setCall k c').calls[j]? = if k = j then some c' else s.calls[j]? := by
  obtain ⟨hk, -⟩ := List.getElem?_eq_some_iff.mp hc
  rw [setCall, List.getElem?_set]
  simp only [hk, if_true]

theorem idOf_setCall {s : Requests} {k : Nat} {c c' : Call} (hc : s.calls[k]? = some c)
    (hid : c'.id = c.id) : (s.setCall k c').idOf = s.idOf := by
  funext j
  rw [idOf, getElem?_setCall hc]
  split
  next h => simp [idOf, ← h, hc, hid]
  next h => rfl

theorem mem_setCall {s : Requests} {k : Nat} {c c' : Call} (h : c ∈ (s.setCall k c').calls) :
    c ∈ s.calls ∨ c = c' := List.mem_or_eq_of_mem_set h

/-- The sender that goes, if there is one, is that of a call. -/
theorem dropSender_cases (s : Requests) (req : Option PendingRequest) :
    s.dropSender req = s ∨ ∃ k c, s.calls[k]? = some c ∧
      s.dropSender req = s.setCall k { c with rx := .closed } := by
  cases req with
  | none => exact .inl rfl
  | some req =>
    cases hc : s.calls[req.tx]? with
    | none => exact .inl (by simp only [dropSender, hc])
    | some c => exact .inr ⟨req.tx, c, hc, by simp only [dropSender, hc]⟩

/-- A result reaches the call it is for, unless that call has returned. -/
theorem send_cases (s : Requests) (d : Delivery) :
    s.send d = s ∨ ∃ c, s.calls[d.req.tx]? = some c ∧ (∀ m r, c.phase ≠ .returned m r) ∧
      s.send d = s.setCall d.req.tx { c with rx := .sent d.message d.result } := by
  cases hc : s.calls[d.req.tx]? with
  | none => exact .inl (by simp only [send, hc])
  | some c =>
    cases hphase : c.phase with
    | returned m r => exact .inl (by simp only [send, hc, hphase])
    | started | registered | waiting =>
      exact .inr ⟨c, rfl, by simp [hphase], by simp only [send, hc, hphase]⟩

theorem idOf_dropSender (s : Requests) (req : Option PendingRequest) :
    (s.dropSender req).idOf = s.idOf := by
  rcases s.dropSender_cases req with he | ⟨k, c, hc, he⟩
  · rw [he]
  · rw [he]
    exact idOf_setCall hc rfl

theorem idOf_eq_some {s : Requests} {k : Nat} {id : Int64} :
    s.idOf k = some id ↔ ∃ c, s.calls[k]? = some c ∧ c.id = id := Option.map_eq_some_iff

theorem lookup_erase_eq_some {pending : AList fun _ : Int64 => PendingRequest} {id id' : Int64}
    {req : PendingRequest} :
    (pending.erase id).lookup id' = some req ↔ id' ≠ id ∧ pending.lookup id' = some req := by
  by_cases h : id' = id
  · subst h
    simp
  · simp [h, AList.lookup_erase_ne]

theorem lookup_insert_eq_some {pending : AList fun _ : Int64 => PendingRequest} {id id' : Int64}
    {req req' : PendingRequest} (h : (pending.insert id req).lookup id' = some req') :
    (id' = id ∧ req' = req) ∨ (id' ≠ id ∧ pending.lookup id' = some req') := by
  by_cases hid : id' = id
  · subst hid
    rw [AList.lookup_insert] at h
    exact .inl ⟨rfl, (Option.some.inj h).symm⟩
  · rw [AList.lookup_insert_ne hid] at h
    exact .inr ⟨hid, h⟩

@[simp] theorem dropSender_inHand (s : Requests) (req : Option PendingRequest) :
    (s.dropSender req).inHand = s.inHand := by
  rcases s.dropSender_cases req with he | ⟨k, c, -, he⟩ <;> simp [he]

@[simp] theorem dropSender_received (s : Requests) (req : Option PendingRequest) :
    (s.dropSender req).received = s.received := by
  rcases s.dropSender_cases req with he | ⟨k, c, -, he⟩ <;> simp [he]

@[simp] theorem send_pending (s : Requests) (d : Delivery) : (s.send d).pending = s.pending := by
  rcases s.send_cases d with he | ⟨c, -, -, he⟩ <;> simp [he]

@[simp] theorem send_inHand (s : Requests) (d : Delivery) : (s.send d).inHand = s.inHand := by
  rcases s.send_cases d with he | ⟨c, -, -, he⟩ <;> simp [he]

@[simp] theorem send_received (s : Requests) (d : Delivery) :
    (s.send d).received = s.received := by
  rcases s.send_cases d with he | ⟨c, -, -, he⟩ <;> simp [he]

end Requests

/-! ### Every result is that of a response with the call's id -/

/-- What the reader may send to the call with this id. -/
def Brought (received : List Json) (id : Int64) : Option Nat → LspResult → Prop
  | some n, r => ∃ value, received[n]? = some value ∧ responseId value = some id ∧
    r = responseResult value
  | none, r => r = .error .processDied

/-- What a call may return: the word of a response with its own id, or that none came. -/
def Answers (received : List Json) (timeoutSecs : Nat) (c : Call) :
    Option Nat → LspResult → Prop
  | some n, r => ∃ value, received[n]? = some value ∧ responseId value = some c.id ∧
    r = responseResult value
  | none, r => r = .error (.timeout c.method timeoutSecs) ∨
    r = .error (.channelError "channel closed") ∨ r = .error .processDied

theorem Brought.grow {received : List Json} {id : Int64} {m : Option Nat} {r : LspResult}
    (h : Brought received id m r) (value : Json) : Brought (received ++ [value]) id m r := by
  cases m with
  | none => exact h
  | some n =>
    obtain ⟨v, hv, hid, hr⟩ := h
    exact ⟨v, Pool.getElem?_grow hv _, hid, hr⟩

theorem Answers.grow {received : List Json} {secs : Nat} {c : Call} {m : Option Nat}
    {r : LspResult} (h : Answers received secs c m r) (value : Json) :
    Answers (received ++ [value]) secs c m r := by
  cases m with
  | none => exact h
  | some n =>
    obtain ⟨v, hv, hid, hr⟩ := h
    exact ⟨v, Pool.getElem?_grow hv _, hid, hr⟩

theorem Brought.answers {received : List Json} {c : Call} {m : Option Nat} {r : LspResult}
    (h : Brought received c.id m r) (secs : Nat) : Answers received secs c m r := by
  cases m with
  | none => exact .inr (.inr h)
  | some n => exact h

/-- Everything on its way to a call was brought for the call's id. -/
structure Traced (secs : Nat) (s : Requests) : Prop where
  entries : ∀ id req, s.pending.lookup id = some req → s.idOf req.tx = some id
  hands : ∀ d ∈ s.inHand, ∃ id, s.idOf d.req.tx = some id ∧
    Brought s.received id d.message d.result
  slots : ∀ c ∈ s.calls, ∀ m r, c.rx = .sent m r → Brought s.received c.id m r
  answers : ∀ c ∈ s.calls, ∀ m r, c.phase = .returned m r → Answers s.received secs c m r

namespace Traced
variable {secs : Nat} {s : Requests}

theorem init (secs : Nat) : Traced secs Requests.init where
  entries := by simp [Requests.init]
  hands := by simp [Requests.init]
  slots := by simp [Requests.init]
  answers := by simp [Requests.init]

theorem begin (h : Traced secs s) (method : String) (params : Json) :
    Traced secs (s.begin method params) := by
  have hid : ∀ {k id}, s.idOf k = some id → (s.begin method params).idOf k = some id := by
    intro k id hk
    obtain ⟨c, hc, rfl⟩ := Option.map_eq_some_iff.mp hk
    rw [Requests.idOf, Requests.begin, Pool.getElem?_grow hc]
    rfl
  refine ⟨fun id req hreq => hid (h.entries id req hreq), ?_, ?_, ?_⟩
  · intro d hd
    obtain ⟨id, hk, hbrought⟩ := h.hands d hd
    exact ⟨id, hid hk, hbrought⟩
  · intro c hc
    rcases List.mem_append.mp hc with hc | hc
    · exact h.slots c hc
    · simp [List.mem_singleton.mp hc]
  · intro c hc
    rcases List.mem_append.mp hc with hc | hc
    · exact h.answers c hc
    · simp [List.mem_singleton.mp hc]

/-- A call may move on, as long as what it then holds or returns was brought for it. -/
theorem setCall (h : Traced secs s) {k : Nat} {c c' : Call} (hc : s.calls[k]? = some c)
    (hid : c'.id = c.id) (hslot : ∀ m r, c'.rx = .sent m r → Brought s.received c'.id m r)
    (hanswer : ∀ m r, c'.phase = .returned m r → Answers s.received secs c' m r) :
    Traced secs (s.setCall k c') := by
  refine ⟨?_, ?_, ?_, ?_⟩
  · rw [Requests.idOf_setCall hc hid]
    exact h.entries
  · rw [Requests.idOf_setCall hc hid]
    exact h.hands
  · intro b hb
    rcases Requests.mem_setCall hb with hb | rfl
    · exact h.slots b hb
    · exact hslot
  · intro b hb
    rcases Requests.mem_setCall hb with hb | rfl
    · exact h.answers b hb
    · exact hanswer

theorem complete (h : Traced secs s) {k : Nat} {c : Call} (hc : s.calls[k]? = some c)
    {m : Option Nat} {r : LspResult} (hr : Answers s.received secs c m r) :
    Traced secs (s.complete k c m r) := by
  refine h.setCall hc rfl (h.slots c (List.mem_of_getElem? hc)) ?_
  intro m' r' hphase
  obtain ⟨rfl, rfl⟩ := Phase.returned.inj hphase
  cases m <;> exact hr

theorem dropSender (h : Traced secs s) (req : Option PendingRequest) :
    Traced secs (s.dropSender req) := by
  rcases s.dropSender_cases req with he | ⟨k, c, hc, he⟩
  · rw [he]
    exact h
  · rw [he]
    exact h.setCall hc rfl (by simp) (h.answers c (List.mem_of_getElem? hc))

theorem send (h : Traced secs s) {d : Delivery} (hd : d ∈ s.inHand) : Traced secs (s.send d) := by
  rcases s.send_cases d with he | ⟨c, hc, hphase, he⟩
  · rw [he]
    exact h
  · rw [he]
    refine h.setCall hc rfl ?_ fun m r hm => absurd hm (hphase m r)
    intro m r hm
    obtain ⟨rfl, rfl⟩ := Oneshot.sent.inj hm
    obtain ⟨id, hid, hbrought⟩ := h.hands d hd
    rw [Requests.idOf, hc] at hid
    obtain rfl := Option.some.inj hid
    exact hbrought

theorem register (h : Traced secs s) {k : Nat} {c : Call} (hc : s.calls[k]? = some c) :
    Traced secs (s.register k c) := by
  have hset : Traced secs (s.setCall k { c with phase := .registered }) :=
    h.setCall hc rfl (h.slots c (List.mem_of_getElem? hc)) (by simp)
  have hdrop := hset.dropSender (s.pending.lookup c.id)
  refine ⟨?_, hdrop.hands, hdrop.slots, hdrop.answers⟩
  intro id req hreq
  have hids : (s.register k c).idOf = s.idOf :=
    (Requests.idOf_dropSender _ _).trans (Requests.idOf_setCall hc rfl)
  rw [hids]
  rcases Requests.lookup_insert_eq_some hreq with ⟨rfl, rfl⟩ | ⟨-, hreq⟩
  · exact Requests.idOf_eq_some.mpr ⟨c, hc, rfl⟩
  · exact h.entries id req hreq

theorem respond (h : Traced secs s) (hfree : s.inHand = []) (value : Json) :
    Traced secs (s.respond value) := by
  have hgrown : Traced secs { s with received := s.received ++ [value] } := by
    refine ⟨h.entries, ?_, ?_, ?_⟩
    · simp [hfree]
    · intro c hc m r hrx
      exact (h.slots c hc m r hrx).grow value
    · intro c hc m r hphase
      exact (h.answers c hc m r hphase).grow value
  unfold Requests.respond
  split
  next => exact hgrown
  next id hid =>
    split
    next => exact hgrown
    next req hreq =>
      refine ⟨?_, ?_, hgrown.slots, hgrown.answers⟩
      · intro id' req' hreq'
        exact h.entries id' req' (Requests.lookup_erase_eq_some.mp hreq').2
      · intro d hd
        rw [List.mem_singleton.mp hd]
        refine ⟨id, h.entries id req hreq, value, ?_, hid, rfl⟩
        simp

theorem deliver (h : Traced secs s) (i : Nat) : Traced secs (s.deliver i) := by
  unfold Requests.deliver
  split
  next => exact h
  next d hd =>
    have hsend := h.send (List.mem_of_getElem? hd)
    refine ⟨hsend.entries, ?_, hsend.slots, hsend.answers⟩
    intro b hb
    refine hsend.hands b ?_
    rw [Requests.send_inHand]
    exact (List.eraseIdx_sublist s.inHand i).subset hb

theorem drain (h : Traced secs s) : Traced secs s.drain := by
  refine ⟨by simp [Requests.drain], ?_, h.slots, h.answers⟩
  intro d hd
  obtain ⟨e, he, rfl⟩ := List.mem_map.mp hd
  exact ⟨e.1, h.entries e.1 e.2 (AList.mem_lookup_iff.mpr he), rfl⟩

end Traced

/-! ### No response reaches two calls -/

def Oneshot.message : Oneshot → Option Nat
  | .sent m _ => m
  | .empty | .closed => none

/-- The message behind what a call holds or has returned. -/
def Call.source (c : Call) : Option Nat :=
  match c.phase with
  | .returned m _ => m
  | .started | .registered | .waiting => c.rx.message

theorem Call.source_live {c : Call} (h : ∀ m r, c.phase ≠ .returned m r) :
    c.source = c.rx.message := by
  cases hphase : c.phase with
  | returned m r => exact absurd hphase (h m r)
  | started | registered | waiting => simp only [Call.source, hphase]

namespace Requests

/-- How many hold what message `n` brought: the reader, or a call. -/
def holders (s : Requests) (n : Nat) : Nat :=
  s.inHand.countP (·.message = some n) + s.calls.countP (·.source = some n)

end Requests

/-- Each message received has one holder at most, a message to come has none. -/
def Single (s : Requests) : Prop :=
  ∀ n, s.holders n ≤ 1 ∧ (s.received.length ≤ n → s.holders n = 0)

namespace Single
variable {s : Requests}

theorem init : Single Requests.init := by
  intro n
  simp [Requests.holders, Requests.init]

theorem begin (h : Single s) (method : String) (params : Json) :
    Single (s.begin method params) := by
  have hnew : Call.source ⟨s.nextId, method, params, .empty, .started⟩ = none := rfl
  intro n
  simpa [Requests.holders, Requests.begin, List.countP_append, hnew] using h n

/-- Fewer holders are as good, as long as nothing that was received is forgotten. -/
theorem of_holders_le (h : Single s) {t : Requests} (hle : ∀ n, t.holders n ≤ s.holders n)
    (hlen : s.received.length ≤ t.received.length) : Single t := by
  intro n
  have hn := h n
  have htn := hle n
  constructor <;> omega

theorem holders_setCall {k : Nat} {c : Call} (hc : s.calls[k]? = some c) (c' : Call) (n : Nat) :
    (s.setCall k c').holders n + (decide (c.source = some n)).toNat =
      s.holders n + (decide (c'.source = some n)).toNat := by
  have hcount := Pool.countP_set (f := fun b : Call => b.source = some n) hc c'
  simp only [Requests.holders, Requests.setCall_calls, Requests.setCall_inHand]
  omega

theorem setCall (h : Single s) {k : Nat} {c c' : Call} (hc : s.calls[k]? = some c)
    (hsource : ∀ n, c'.source = some n → c.source = some n) : Single (s.setCall k c') := by
  refine h.of_holders_le ?_ le_rfl
  intro n
  have hcount := holders_setCall hc c' n
  by_cases hs : c'.source = some n
  · rw [hs, hsource n hs] at hcount
    omega
  · simp only [hs, decide_false, Bool.toNat_false] at hcount
    omega

theorem complete (h : Single s) {k : Nat} {c : Call} (hc : s.calls[k]? = some c)
    {m : Option Nat} {r : LspResult} (hm : ∀ n, m = some n → c.source = some n) :
    Single (s.complete k c m r) := h.setCall hc hm

theorem dropSender (h : Single s) (req : Option PendingRequest) :
    Single (s.dropSender req) := by
  rcases s.dropSender_cases req with he | ⟨k, c, hc, he⟩
  · rw [he]
    exact h
  · rw [he]
    refine h.setCall hc ?_
    intro n hn
    cases hphase : c.phase with
    | returned m r => simpa [Call.source, hphase] using hn
    | started | registered | waiting => simp [Call.source, hphase, Oneshot.message] at hn

theorem register (h : Single s) {k : Nat} {c : Call} (hc : s.calls[k]? = some c)
    (hphase : c.phase = .started) : Single (s.register k c) := by
  have hset : Single (s.setCall k { c with phase := .registered }) := by
    refine h.setCall hc ?_
    intro n hn
    simpa [Call.source, hphase] using hn
  exact hset.dropSender (s.pending.lookup c.id)

theorem respond (h : Single s) (hfree : s.inHand = []) (value : Json) :
    Single (s.respond value) := by
  have hgrown : Single { s with received := s.received ++ [value] } :=
    h.of_holders_le (fun n => le_rfl) (by simp)
  unfold Requests.respond
  split
  next => exact hgrown
  next id hid =>
    split
    next => exact hgrown
    next req hreq =>
      intro n
      obtain ⟨hone, hnone⟩ := h n
      simp only [Requests.holders, hfree, List.countP_nil, List.countP_singleton,
        List.length_append, List.length_singleton, decide_eq_true_eq, Option.some.injEq]
        at hone hnone ⊢
      split <;> omega

theorem deliver (h : Single s) (i : Nat) : Single (s.deliver i) := by
  unfold Requests.deliver
  split
  next => exact h
  next d hd =>
    refine h.of_holders_le ?_ (by simp)
    intro n
    have hhand := Pool.countP_eraseIdx (f := fun b : Delivery => b.message = some n) hd
    rcases s.send_cases d with he | ⟨c, hc, hphase, he⟩
    · rw [he]
      simp only [Requests.holders]
      omega
    · have hcount := Pool.countP_set (f := fun b : Call => b.source = some n) hc
        { c with rx := .sent d.message d.result }
      have hsource : Call.source { c with rx := .sent d.message d.result } = d.message :=
        Call.source_live hphase
      rw [hsource] at hcount
      rw [he]
      simp only [Requests.holders, Requests.setCall_calls]
      omega

theorem drain (h : Single s) : Single s.drain := by
  refine h.of_holders_le ?_ le_rfl
  intro n
  have hnone : (s.drain.inHand.countP (·.message = some n)) = 0 := by
    simp [Requests.drain, List.countP_map, Function.comp_def]
  simp only [Requests.holders, hnone]
  exact Nat.add_le_add_right (Nat.zero_le _) _

end Single

/-! ### What a request leaves behind -/

/-- The id that the `k`th call takes from the counter. -/
def idAt (k : Nat) : Int64 := Int64.ofNat (k + 1)

theorem idAt_inj {j k : Nat} (hj : j < 2 ^ 64) (hk : k < 2 ^ 64) (h : idAt j = idAt k) :
    j = k := by
  have hu : UInt64.ofNat (j + 1) = UInt64.ofNat (k + 1) := congrArg Int64.toUInt64 h
  have hn := congrArg UInt64.toNat hu
  rw [UInt64.toNat_ofNat', UInt64.toNat_ofNat'] at hn
  omega

/-- No id is taken twice, and only a call that still waits for its result has an entry. -/
structure Clean (s : Requests) : Prop where
  few : s.calls.length ≤ 2 ^ 64
  next : s.nextId = idAt s.calls.length
  ids : ∀ k id, s.idOf k = some id → id = idAt k
  fresh : ∀ c ∈ s.calls, c.phase = .started → c.rx = .empty
  entries : ∀ c ∈ s.calls, c.id ∈ s.pending →
    (c.phase = .registered ∨ c.phase = .waiting) ∧ c.rx = .empty
  hands : ∀ d ∈ s.inHand, ∀ c, s.calls[d.req.tx]? = some c → c.phase ≠ .started ∧ c.id ∉ s.pending

namespace Clean
variable {s : Requests} {secs : Nat}

theorem init : Clean Requests.init where
  few := by simp [Requests.init]
  next := rfl
  ids := by simp [Requests.init, Requests.idOf]
  fresh := by simp [Requests.init]
  entries := by simp [Requests.init]
  hands := by simp [Requests.init]

theorem index_lt {k : Nat} {id : Int64} (h : s.idOf k = some id) : k < s.calls.length := by
  obtain ⟨c, hc, -⟩ := Requests.idOf_eq_some.mp h
  exact (List.getElem?_eq_some_iff.mp hc).1

/-- Two calls with one id are one call. -/
theorem index_eq (h : Clean s) {j k : Nat} {id : Int64} (hj : s.idOf j = some id)
    (hk : s.idOf k = some id) : j = k := by
  have hlj := index_lt hj
  have hlk := index_lt hk
  have hfew := h.few
  refine idAt_inj (by omega) (by omega) ?_
  rw [← h.ids j id hj, ← h.ids k id hk]

/-- The next id is not in the map: an entry belongs to a call that has begun. -/
theorem nextId_notMem (h : Clean s) (htraced : Traced secs s) (hfew : s.calls.length < 2 ^ 64) :
    s.nextId ∉ s.pending := by
  intro hmem
  obtain ⟨req, hreq⟩ := Option.isSome_iff_exists.mp (AList.lookup_isSome.mpr hmem)
  have hid := htraced.entries s.nextId req hreq
  have hlt := index_lt hid
  have heq := h.ids req.tx s.nextId hid
  rw [h.next] at heq
  have := idAt_inj hfew (by omega) heq
  omega

theorem begin (h : Clean s) (htraced : Traced secs s) (hfew : s.calls.length < 2 ^ 64)
    (method : String) (params : Json) : Clean (s.begin method params) := by
  have hnew := h.nextId_notMem htraced hfew
  refine ⟨?_, ?_, ?_, ?_, ?_, ?_⟩
  · simp only [Requests.begin, List.length_append, List.length_singleton]
    omega
  · simp only [Requests.begin, List.length_append, List.length_singleton, h.next]
    simp only [idAt, Int64.ofNat_add]
    rfl
  · intro k id hk
    obtain ⟨c, hc, rfl⟩ := Requests.idOf_eq_some.mp hk
    rcases Pool.getElem?_concat_cases hc with hc | ⟨rfl, rfl⟩
    · exact h.ids k c.id (Requests.idOf_eq_some.mpr ⟨c, hc, rfl⟩)
    · exact h.next
  · intro c hc hphase
    rcases List.mem_append.mp hc with hc | hc
    · exact h.fresh c hc hphase
    · rw [List.mem_singleton.mp hc]
  · intro c hc hmem
    rcases List.mem_append.mp hc with hc | hc
    · exact h.entries c hc hmem
    · rw [List.mem_singleton.mp hc] at hmem
      exact absurd hmem hnew
  · intro d hd c hc
    obtain ⟨id, hid, -⟩ := htraced.hands d hd
    have hlt := index_lt hid
    rcases Pool.getElem?_concat_cases hc with hc | ⟨hlen, -⟩
    · exact h.hands d hd c hc
    · omega

/-- The call behind an entry has the id of the entry, and has registered. -/
theorem entry_call (h : Clean s) (htraced : Traced secs s) {id : Int64} {req : PendingRequest}
    (hreq : s.pending.lookup id = some req) {c : Call} (hc : s.calls[req.tx]? = some c) :
    c.id = id ∧ c.phase ≠ .started := by
  obtain ⟨b, hb, hbid⟩ := Requests.idOf_eq_some.mp (htraced.entries id req hreq)
  obtain rfl := Option.some.inj (hb.symm.trans hc)
  have hmem : b.id ∈ s.pending := by
    rw [hbid, ← AList.lookup_isSome, hreq]
    rfl
  refine ⟨hbid, ?_⟩
  obtain ⟨hp | hp, -⟩ := h.entries b (List.mem_of_getElem? hb) hmem <;> rw [hp] <;> simp

/-- A call that has registered may move on, as long as one with an entry still waits. -/
theorem setCall (h : Clean s) {k : Nat} {c c' : Call} (hc : s.calls[k]? = some c)
    (hid : c'.id = c.id) (hphase : c'.phase ≠ .started)
    (hentry : c'.id ∈ s.pending →
      (c'.phase = .registered ∨ c'.phase = .waiting) ∧ c'.rx = .empty) :
    Clean (s.setCall k c') := by
  refine ⟨?_, ?_, ?_, ?_, ?_, ?_⟩
  · simpa using h.few
  · simpa [Requests.setCall] using h.next
  · rw [Requests.idOf_setCall hc hid]
    exact h.ids
  · intro b hb hstarted
    rcases Requests.mem_setCall hb with hb | rfl
    · exact h.fresh b hb hstarted
    · exact absurd hstarted hphase
  · intro b hb hmem
    rcases Requests.mem_setCall hb with hb | rfl
    · exact h.entries b hb hmem
    · exact hentry hmem
  · intro d hd b hb
    rw [Requests.getElem?_setCall hc] at hb
    split at hb
    next hk =>
      obtain rfl := Option.some.inj hb
      refine ⟨hphase, ?_⟩
      rw [hid]
      exact (h.hands d hd c (hk ▸ hc)).2
    next => exact h.hands d hd b hb

/-- A call may return when its entry is gone. -/
theorem complete (h : Clean s) {k : Nat} {c : Call} (hc : s.calls[k]? = some c)
    (hgone : c.id ∉ s.pending) (m : Option Nat) (r : LspResult) : Clean (s.complete k c m r) := by
  refine h.setCall hc rfl (by simp) ?_
  intro hmem
  exact absurd hmem hgone

/-- With no id taken twice, nothing is pushed out of the map. -/
theorem register (h : Clean s) {k : Nat} {c : Call} (hc : s.calls[k]? = some c)
    (hphase : c.phase = .started) (hfree : s.inHand = []) : Clean (s.register k c) := by
  have hmem := List.mem_of_getElem? hc
  have hgone : c.id ∉ s.pending := by
    intro hin
    obtain ⟨hp | hp, -⟩ := h.entries c hmem hin <;> rw [hphase] at hp <;> cases hp
  have hset : Clean (s.setCall k { c with phase := .registered }) := by
    refine h.setCall hc rfl (by simp) ?_
    intro hin
    exact absurd hin hgone
  have hlookup : s.pending.lookup c.id = none := AList.lookup_eq_none.mpr hgone
  simp only [Requests.register, hlookup, Requests.dropSender]
  refine ⟨hset.few, hset.next, hset.ids, hset.fresh, ?_, by simp [hfree]⟩
  intro b hb hin
  rcases (AList.mem_insert _).mp hin with hid | hin
  · obtain ⟨j, hj⟩ := List.mem_iff_getElem?.mp hb
    rw [Requests.getElem?_setCall hc] at hj
    split at hj
    next =>
      obtain rfl := Option.some.inj hj
      exact ⟨.inl rfl, h.fresh c hmem hphase⟩
    next hne =>
      have hbid := Requests.idOf_eq_some.mpr ⟨b, hj, hid⟩
      have hcid := Requests.idOf_eq_some.mpr ⟨c, hc, rfl⟩
      exact absurd (h.index_eq hcid hbid) hne
  · exact hset.entries b hb hin

theorem respond (h : Clean s) (htraced : Traced secs s) (value : Json) :
    Clean (s.respond value) := by
  have hgrown : Clean { s with received := s.received ++ [value] } :=
    ⟨h.few, h.next, h.ids, h.fresh, h.entries, h.hands⟩
  unfold Requests.respond
  split
  next => exact hgrown
  next id hid =>
    split
    next => exact hgrown
    next req hreq =>
      refine ⟨h.few, h.next, h.ids, h.fresh, ?_, ?_⟩
      · intro c hc hmem
        exact h.entries c hc (AList.mem_erase.mp hmem).2
      · intro d hd c hc
        rw [List.mem_singleton.mp hd] at hc
        obtain ⟨rfl, hphase⟩ := h.entry_call htraced hreq hc
        exact ⟨hphase, by simp [AList.mem_erase]⟩

theorem deliver (h : Clean s) (i : Nat) : Clean (s.deliver i) := by
  unfold Requests.deliver
  split
  next => exact h
  next d hd =>
    have hmem := List.mem_of_getElem? hd
    have hsend : Clean (s.send d) := by
      rcases s.send_cases d with he | ⟨c, hc, -, he⟩
      · rw [he]
        exact h
      · rw [he]
        obtain ⟨hphase, hgone⟩ := h.hands d hmem c hc
        refine h.setCall hc rfl hphase ?_
        intro hin
        exact absurd hin hgone
    refine ⟨hsend.few, hsend.next, hsend.ids, hsend.fresh, hsend.entries, ?_⟩
    intro b hb
    refine hsend.hands b ?_
    rw [Requests.send_inHand]
    exact (List.eraseIdx_sublist s.inHand i).subset hb

theorem drain (h : Clean s) (htraced : Traced secs s) : Clean s.drain := by
  refine ⟨h.few, h.next, h.ids, h.fresh, by simp [Requests.drain], ?_⟩
  intro d hd c hc
  obtain ⟨e, he, rfl⟩ := List.mem_map.mp hd
  obtain ⟨-, hphase⟩ := h.entry_call htraced (AList.mem_lookup_iff.mpr he) hc
  exact ⟨hphase, AList.notMem_empty c.id⟩

end Clean

/-! ### Runs -/

section
variable (toVec : Json → Body) (fromSlice : Bytes → Option Json) (timeoutSecs : Nat)

namespace Client

/-- The step is not one in which a request gives up with its entry in the map, nor one that
takes an id a second time. -/
def Orderly (s : Client) : Event → Prop
  | .begin _ _ => s.requests.calls.length < 2 ^ 64
  | .send k => ∀ c, s.requests.calls[k]? = some c → c.phase = .registered →
    s.wire.closed = true → c.id ∉ s.requests.pending
  | .timeout k => ∀ c, s.requests.calls[k]? = some c → c.phase = .waiting → c.rx = .empty →
    c.id ∉ s.requests.pending
  | _ => True

variable {timeoutSecs} {s : Client} {e : Event} {t : Requests}

theorem Change.traced (hchange : Change timeoutSecs s e t) (h : Traced timeoutSecs s.requests) :
    Traced timeoutSecs t := by
  cases hchange with
  | keep => exact h
  | begin method params => exact h.begin method params
  | register hc hphase hfree => exact h.register hc
  | queued hc hphase =>
    have hslot := h.slots _ (List.mem_of_getElem? hc)
    exact h.setCall hc rfl hslot (by simp)
  | refused hc hphase hclosed => exact h.complete hc (.inr (.inl rfl))
  | answered hc hphase hrx =>
    exact h.complete hc ((h.slots _ (List.mem_of_getElem? hc) _ _ hrx).answers timeoutSecs)
  | orphaned hc hphase hrx => exact h.complete hc (.inr (.inr rfl))
  | timedOut hc hphase hrx => exact h.complete hc (.inl rfl)
  | respond hfree => exact h.respond hfree _
  | deliver i => exact h.deliver i
  | drain hfree => exact h.drain

theorem Change.single (hchange : Change timeoutSecs s e t) (h : Single s.requests) :
    Single t := by
  cases hchange with
  | keep => exact h
  | begin method params => exact h.begin method params
  | register hc hphase hfree => exact h.register hc hphase
  | queued hc hphase => exact h.setCall hc (by simp [Call.source, hphase])
  | refused hc hphase hclosed => exact h.complete hc (by simp)
  | answered hc hphase hrx =>
    exact h.complete hc (by simp [Call.source, hphase, hrx, Oneshot.message])
  | orphaned hc hphase hrx => exact h.complete hc (by simp)
  | timedOut hc hphase hrx => exact h.complete hc (by simp)
  | respond hfree => exact h.respond hfree _
  | deliver i => exact h.deliver i
  | drain hfree => exact h.drain

theorem Change.clean (hchange : Change timeoutSecs s e t) (h : Clean s.requests)
    (htraced : Traced timeoutSecs s.requests) (horderly : s.Orderly e) : Clean t := by
  cases hchange with
  | keep => exact h
  | begin method params => exact h.begin htraced horderly method params
  | register hc hphase hfree => exact h.register hc hphase hfree
  | queued hc hphase =>
    refine h.setCall hc rfl (by simp) fun hin => ⟨.inr rfl, ?_⟩
    exact (h.entries _ (List.mem_of_getElem? hc) hin).2
  | refused hc hphase hclosed => exact h.complete hc (horderly _ hc hphase hclosed) _ _
  | answered hc hphase hrx =>
    refine h.complete hc (fun hin => ?_) _ _
    have hempty := (h.entries _ (List.mem_of_getElem? hc) hin).2
    rw [hrx] at hempty
    cases hempty
  | orphaned hc hphase hrx =>
    refine h.complete hc (fun hin => ?_) _ _
    have hempty := (h.entries _ (List.mem_of_getElem? hc) hin).2
    rw [hrx] at hempty
    cases hempty
  | timedOut hc hphase hrx => exact h.complete hc (horderly _ hc hphase hrx) _ _
  | respond hfree => exact h.respond htraced _
  | deliver i => exact h.deliver i
  | drain hfree => exact h.drain htraced

/-- A request that gives up with its entry in the map leaves it there. -/
theorem leftover_of_not_orderly (hbegin : ∀ method params, e ≠ .begin method params)
    (h : ¬ s.Orderly e) :
    ∃ c ∈ (s.step toVec fromSlice timeoutSecs e).requests.calls, ∃ m r,
      c.phase = .returned m r ∧ c.id ∈ (s.step toVec fromSlice timeoutSecs e).requests.pending := by
  have hstay : ∀ {k c}, s.requests.calls[k]? = some c → c.id ∈ s.requests.pending → ∀ m r,
      ∃ b ∈ (s.requests.complete k c m r).calls, ∃ m r, b.phase = .returned m r ∧
        b.id ∈ (s.requests.complete k c m r).pending := by
    intro k c hc hin m r
    have hk := (List.getElem?_eq_some_iff.mp hc).1
    exact ⟨{ c with phase := .returned m r }, List.mem_set hk _, m, r, rfl, hin⟩
  cases e with
  | send k =>
    simp only [Orderly, not_forall, not_not] at h
    obtain ⟨c, hc, hphase, hclosed, hin⟩ := h
    simp only [step, sendStep, hc, hphase, hclosed, if_true]
    exact hstay hc hin _ _
  | timeout k =>
    simp only [Orderly, not_forall, not_not] at h
    obtain ⟨c, hc, hphase, hrx, hin⟩ := h
    simp only [step, timeoutStep, hc, hphase, hrx]
    exact hstay hc hin _ _
  | begin method params => exact absurd rfl (hbegin method params)
  | _ => exact absurd trivial h

variable (timeoutSecs)

theorem run_traced (es : List Event) :
    Traced timeoutSecs (run (step toVec fromSlice timeoutSecs) {} es).requests :=
  run_invariant (C := fun _ _ => True)
    (fun s e _ h => (step_change toVec fromSlice timeoutSecs s e).traced h) (fun _ _ => trivial)
    (Traced.init timeoutSecs)

theorem run_single (es : List Event) :
    Single (run (step toVec fromSlice timeoutSecs) {} es).requests :=
  run_invariant (P := fun s : Client => Single s.requests) (C := fun _ _ => True)
    (fun s e _ h => (step_change toVec fromSlice timeoutSecs s e).single h) (fun _ _ => trivial)
    Single.init

theorem run_clean {es : List Event}
    (horderly : ∀ v ∈ visits (step toVec fromSlice timeoutSecs) {} es, v.1.Orderly v.2) :
    Clean (run (step toVec fromSlice timeoutSecs) {} es).requests := by
  have hboth : Traced timeoutSecs (run (step toVec fromSlice timeoutSecs) {} es).requests ∧
      Clean (run (step toVec fromSlice timeoutSecs) {} es).requests := by
    refine run_invariant
      (P := fun s : Client => Traced timeoutSecs s.requests ∧ Clean s.requests)
      (C := Orderly) ?_ horderly ⟨Traced.init timeoutSecs, Clean.init⟩
    rintro s e he ⟨htraced, hclean⟩
    have hchange := step_change toVec fromSlice timeoutSecs s e
    exact ⟨hchange.traced htraced, hchange.clean hclean htraced he⟩
  exact hboth.2

/-- Over every run: a request returns what a response with its own id says, or that none came;
no response is returned by two requests; and in a run in which no request gives up with its entry
in the map, a request that has returned has none. Where one gives up so, the entry stays. -/
theorem requests_answered (es : List Event) :
    let s := run (step toVec fromSlice timeoutSecs) {} es
    (∀ c ∈ s.requests.calls, ∀ m r, c.phase = .returned m r →
      Answers s.requests.received timeoutSecs c m r) ∧
    (∀ (j k n : Nat) b c r q, s.requests.calls[j]? = some b → s.requests.calls[k]? = some c →
      b.phase = .returned (some n) r → c.phase = .returned (some n) q → j = k) ∧
    ((∀ v ∈ visits (step toVec fromSlice timeoutSecs) {} es, v.1.Orderly v.2) →
      ∀ c ∈ s.requests.calls, ∀ m r, c.phase = .returned m r → c.id ∉ s.requests.pending) ∧
    ∀ e, (∀ method params, e ≠ .begin method params) → ¬ s.Orderly e →
      ∃ c ∈ (s.step toVec fromSlice timeoutSecs e).requests.calls, ∃ m r, c.phase = .returned m r ∧
        c.id ∈ (s.step toVec fromSlice timeoutSecs e).requests.pending := by
  intro s
  refine ⟨(run_traced toVec fromSlice timeoutSecs es).answers, ?_, ?_, ?_⟩
  · intro j k n b c r q hb hc hr hq
    have hone := (run_single toVec fromSlice timeoutSecs es n).1
    refine Pool.place_eq_of_countP_le_one (f := fun a : Call => a.source = some n)
      ((Nat.le_add_left _ _).trans hone) hb hc ?_ ?_
    · simp [Call.source, hr]
    · simp [Call.source, hq]
  · intro horderly c hc m r hphase hmem
    obtain ⟨hp | hp, -⟩ :=
      (run_clean toVec fromSlice timeoutSecs horderly).entries c hc hmem <;>
      rw [hphase] at hp <;> cases hp
  · intro e hbegin h
    exact leftover_of_not_orderly toVec fromSlice hbegin h

end Client
end

/-- A request to which no response comes: it times out, and its entry stays in the map. -/
theorem timeout_leaves_entry :
    ¬ ∃ (toVec : Json → Body) (fromSlice : Bytes → Option Json) (timeoutSecs : Nat),
      ∀ es : List Event, ∀ c ∈ (run (Client.step toVec fromSlice timeoutSecs) {} es).requests.calls,
        ∀ m r, c.phase = .returned m r →
          c.id ∉ (run (Client.step toVec fromSlice timeoutSecs) {} es).requests.pending := by
  rintro ⟨toVec, fromSlice, timeoutSecs, h⟩
  have hgone := h [.begin "textDocument/hover" .null, .register 0, .send 0, .timeout 0]
    ⟨1, "textDocument/hover", .null, .empty,
      .returned none (.error (.timeout "textDocument/hover" timeoutSecs))⟩
    (List.mem_singleton.mpr rfl) _ _ rfl
  exact hgone (AList.lookup_isSome.mp rfl)

/-- `serde_json` on the JSON texts of the model. A text too long for a `Vec` has no body. -/
def textBody (j : Json) : Body :=
  if h : (Text.encode (Json.text j)).length < 2 ^ 63 then ⟨Text.encode (Json.text j), h⟩
  else ⟨[], by decide⟩

def bodyValue (b : Bytes) : Option Json :=
  (Text.fromUtf8 b).bind fun s => Json.fromText (String.ofList s)

/-- A request, its response, and nothing left. -/
def answeredRun : List Event :=
  [.begin "textDocument/hover" .null, .register 0, .send 0, .write,
    .receive (textBody (.obj [("id", .num 1 0), ("result", .str "here")])).bytes,
    .deliver 0, .poll 0]

theorem answeredRun_answered :
    (∀ v ∈ visits (Client.step textBody bodyValue 30) {} answeredRun, v.1.Orderly v.2) ∧
    ∃ c ∈ (run (Client.step textBody bodyValue 30) {} answeredRun).requests.calls,
      c.phase = .returned (some 0) (.ok (.str "here")) ∧
      c.id ∉ (run (Client.step textBody bodyValue 30) {} answeredRun).requests.pending := by
  have horderly :
      ∀ v ∈ visits (Client.step textBody bodyValue 30) {} answeredRun, v.1.Orderly v.2 := by
    intro v hv
    simp only [answeredRun, visits, List.mem_cons, List.not_mem_nil, or_false] at hv
    rcases hv with rfl | rfl | rfl | rfl | rfl | rfl | rfl
    · exact Nat.two_pow_pos 64
    · trivial
    · intro c hc hphase hclosed
      cases hclosed
    · trivial
    · trivial
    · trivial
    · trivial
  have hmem : ⟨1, "textDocument/hover", .null, .sent (some 0) (.ok (.str "here")),
      .returned (some 0) (.ok (.str "here"))⟩ ∈
      (run (Client.step textBody bodyValue 30) {} answeredRun).requests.calls := by
    decide +kernel
  exact ⟨horderly, _, hmem, rfl,
    (Client.requests_answered textBody bodyValue 30 answeredRun).2.2.1 horderly _ hmem _ _ rfl⟩

end Cerebellum.Lsp
