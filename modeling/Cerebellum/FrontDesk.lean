import Cerebellum.Json
import Cerebellum.Text
import Cerebellum.Lib.Transition

/-! The front desk: one `FrontDeskActor` and the visitor it talks to. A message of the visitor
starts a turn, which runs beside the actor and comes back as a `TurnResult` of its own; any number
of turns may be on the way, and the actor handles what arrives in any order until it is stopped. -/
namespace Cerebellum.FrontDesk
open Transition

inductive VisitorStatus where
  | active
  | admitted (reason : String)
  | denied (reason : String)
  | redirected (reason whereTo : String)
  deriving DecidableEq, Repr

namespace VisitorStatus

def isTerminal : VisitorStatus → Bool
  | active => false
  | admitted _ | denied _ | redirected _ _ => true

def label : VisitorStatus → String
  | active => "active"
  | admitted _ => "admitted"
  | denied _ => "denied"
  | redirected _ _ => "redirected"

def reason : VisitorStatus → String
  | active => ""
  | admitted r | denied r | redirected r _ => r

def whereTo : VisitorStatus → String
  | redirected _ w => w
  | active | admitted _ | denied _ => ""

end VisitorStatus

structure VisitorSession where
  visitor : String := "visitor"
  conversation : List Json := []
  facts : List String := []
  status : VisitorStatus := .active
  exchangeCount : UInt32 := 0
  patienceLimit : UInt32

namespace VisitorSession

/-- `saturating_sub`. -/
def exchangesRemaining (s : VisitorSession) : UInt32 :=
  if s.exchangeCount ≤ s.patienceLimit then s.patienceLimit - s.exchangeCount else 0

def message (role content : String) : Json :=
  .obj [("content", .str content), ("role", .str role)]

def pushUser (s : VisitorSession) (content : String) : VisitorSession :=
  { s with
    conversation := s.conversation ++ [message "user" content]
    exchangeCount := s.exchangeCount + 1 }

def pushAssistant (s : VisitorSession) (content : String) : VisitorSession :=
  { s with
    conversation := s.conversation ++ [message "assistant" content]
    facts := s.facts.insert s!"greeted({s.visitor})" }

def prologClauses (s : VisitorSession) (plPath : String) : List String :=
  ["consult('" ++ plPath ++ "').", s!"visitor({s.visitor})."] ++ s.facts.map (· ++ ".")

def deduceContext (s : VisitorSession) (systemPrompt : String) : List Json :=
  message "system" systemPrompt :: s.conversation

def evaluateData (s : VisitorSession) (systemMessage model deductionModel : String) : Json :=
  let prompt := (s.conversation.getLast?.bind (·.strField "content")).getD ""
  .obj [("context", .arr s.conversation.dropLast), ("deduction_model", .str deductionModel),
    ("model", .str model), ("prompt", .str prompt), ("system", .str systemMessage)]

end VisitorSession

/-- What the actor reads of the configuration. -/
structure Config where
  name : String
  agentName : String
  systemPrompt : String
  model : String
  patience : UInt32
  deductionSystemPrompt : String
  deductionModel : String
  claraPlPath : String

/-- What a turn is started with. -/
structure Turn where
  prologClauses : List String
  deduceContext : List Json
  evaluateData : Json
  exchangesRemaining : UInt32

/-- What the actor puts on the socket. -/
inductive Frame where
  | text (j : Json)
  | pong (bytes : List UInt8)
  | close (reason : Option String)

def Frame.isTerminal : Frame → Bool
  | text j => j.strField "type" = some "terminal"
  | pong _ | close _ => false

structure Actor where
  session : VisitorSession
  sent : List Frame
  inFlight : List Turn
  started : Nat
  stopped : Bool

inductive Event where
  | text (s : String)
  | ping (bytes : List UInt8)
  | close (reason : Option String)
  | other
  | finished
  | turnResult (i : Nat) (assistantText : String) (newStatus : Option VisitorStatus)

def agentFrame (text : String) (status : VisitorStatus) : Frame :=
  .text (.obj [("status", .str status.label), ("text", .str text), ("type", .str "agent")])

def terminalFrame (text : String) (status : VisitorStatus) : Frame :=
  .text (.obj [("reason", .str status.reason), ("status", .str status.label), ("text", .str text),
    ("type", .str "terminal"), ("where", .str status.whereTo)])

def concludedFrame (status : VisitorStatus) : Frame :=
  .text (.obj [("status", .str status.label), ("text", .str "This session has concluded."),
    ("type", .str "error")])

def weary : VisitorStatus := .denied "The Keeper has grown weary of this interview."

namespace Actor

/-- The actor once it has greeted the visitor. -/
def greeted (cfg : Config) : Actor :=
  let greeting := s!"Welcome to the {cfg.name}. I am {cfg.agentName}. State your business."
  { session := VisitorSession.pushAssistant { patienceLimit := cfg.patience } greeting
    sent := [agentFrame greeting .active]
    inFlight := []
    started := 0
    stopped := false }

/-- `run_turn` is given a snapshot of the session. -/
def turnOf (cfg : Config) (s : VisitorSession) : Turn where
  prologClauses := s.prologClauses cfg.claraPlPath
  deduceContext := s.deduceContext cfg.deductionSystemPrompt
  evaluateData := s.evaluateData cfg.systemPrompt cfg.model cfg.deductionModel
  exchangesRemaining := s.exchangesRemaining

/-- A text that is not blank. -/
def handleText (cfg : Config) (a : Actor) (text : String) : Actor :=
  if a.session.status.isTerminal then
    { a with sent := a.sent ++ [concludedFrame a.session.status] }
  else
    let session := a.session.pushUser text
    if session.exchangesRemaining = 0 then
      { a with
        session := { session with status := weary }
        sent := a.sent ++
          [terminalFrame "Enough. This audience is concluded. Remove yourself." weary,
            .close none] }
    else
      { a with
        session
        inFlight := a.inFlight ++ [turnOf cfg session]
        started := a.started + 1 }

/-- A turn has come back. -/
def handleTurnResult (a : Actor) (assistantText : String) (newStatus : Option VisitorStatus) :
    Actor :=
  let status := newStatus.getD a.session.status
  { a with
    session := { a.session.pushAssistant assistantText with status }
    sent := a.sent ++
      if status.isTerminal then [terminalFrame assistantText status, .close none]
      else [agentFrame assistantText status] }

def step (cfg : Config) (a : Actor) (e : Event) : Actor :=
  if a.stopped then a
  else
    match e with
    | .text s =>
      let text := Text.trim s.toList
      if text = [] then a else a.handleText cfg (String.ofList text)
    | .ping bytes => { a with sent := a.sent ++ [.pong bytes] }
    | .close reason => { a with sent := a.sent ++ [.close reason], stopped := true }
    | .other => a
    | .finished => { a with stopped := true }
    | .turnResult i assistantText newStatus =>
      if i < a.inFlight.length then
        { a with inFlight := a.inFlight.eraseIdx i }.handleTurnResult assistantText newStatus
      else a

/-- The frames of type terminal sent so far. -/
def terminals (a : Actor) : Nat := a.sent.countP Frame.isTerminal

/-- Nothing that counts for the verdict has changed. -/
structure Same (a b : Actor) : Prop where
  status : b.session.status = a.session.status
  terminals : b.terminals = a.terminals
  started : b.started = a.started
  count : b.session.exchangeCount = a.session.exchangeCount
  limit : b.session.patienceLimit = a.session.patienceLimit

/-- What a step can do. -/
inductive Change (a : Actor) : Event → Actor → Prop
  | quiet {e : Event} {b : Actor} (h : a.Same b) : Change a e b
  | denies {s : String} {b : Actor} (hactive : a.session.status = .active)
    (hstatus : b.session.status = weary) (hterminals : b.terminals = a.terminals + 1)
    (hstarted : b.started = a.started)
    (hlimit : b.session.patienceLimit = a.session.patienceLimit) : Change a (.text s) b
  | starts {s : String} {b : Actor} (hactive : a.session.status = .active)
    (hstatus : b.session.status = .active) (hterminals : b.terminals = a.terminals)
    (hstarted : b.started = a.started + 1)
    (hcount : b.session.exchangeCount = a.session.exchangeCount + 1)
    (hremaining : b.session.exchangesRemaining ≠ 0)
    (hlimit : b.session.patienceLimit = a.session.patienceLimit) : Change a (.text s) b
  | answers {i : Nat} {text : String} {newStatus : Option VisitorStatus} {b : Actor}
    (hrunning : a.stopped = false) (hi : i < a.inFlight.length)
    (hstatus : b.session.status = newStatus.getD a.session.status)
    (hterminals : b.terminals = a.terminals + b.session.status.isTerminal.toNat)
    (hstarted : b.started = a.started) (hcount : b.session.exchangeCount = a.session.exchangeCount)
    (hlimit : b.session.patienceLimit = a.session.patienceLimit) :
    Change a (.turnResult i text newStatus) b

theorem terminals_append (a : Actor) (fs : List Frame) (s : VisitorSession) (ts : List Turn)
    (n : Nat) (x : Bool) : terminals ⟨s, a.sent ++ fs, ts, n, x⟩ =
      a.terminals + fs.countP Frame.isTerminal := List.countP_append

theorem status_active {s : VisitorStatus} (h : ¬ s.isTerminal = true) : s = .active := by
  cases s <;> simp_all [VisitorStatus.isTerminal]

theorem countP_verdict (text : String) (status : VisitorStatus) :
    [terminalFrame text status, .close none].countP Frame.isTerminal = 1 := by
  simp [terminalFrame, Frame.isTerminal, Json.strField, Fields.get, Json.asStr]

theorem isTerminal_agentFrame (text : String) (status : VisitorStatus) :
    (agentFrame text status).isTerminal = false := by
  simp [agentFrame, Frame.isTerminal, Json.strField, Fields.get, Json.asStr]

theorem isTerminal_concludedFrame (status : VisitorStatus) :
    (concludedFrame status).isTerminal = false := by
  simp [concludedFrame, Frame.isTerminal, Json.strField, Fields.get, Json.asStr]

theorem handleText_change (cfg : Config) (a : Actor) (s text : String) :
    Change a (.text s) (a.handleText cfg text) := by
  unfold handleText
  split
  next h =>
    refine .quiet ⟨rfl, ?_, rfl, rfl, rfl⟩
    rw [terminals_append]
    simp [isTerminal_concludedFrame]
  next h =>
    have hactive := status_active h
    simp only
    split
    next hzero =>
      refine .denies hactive rfl ?_ rfl rfl
      rw [terminals_append]
      simp [countP_verdict]
    next hmore => exact .starts hactive hactive rfl rfl rfl hmore rfl

/-- A result announces the verdict it leaves, if it leaves one. -/
theorem terminals_handleTurnResult (a : Actor) (text : String)
    (newStatus : Option VisitorStatus) :
    (a.handleTurnResult text newStatus).terminals = a.terminals +
      (a.handleTurnResult text newStatus).session.status.isTerminal.toNat := by
  simp only [handleTurnResult]
  rw [terminals_append]
  cases (newStatus.getD a.session.status).isTerminal with
  | true => simp [countP_verdict]
  | false => simp [isTerminal_agentFrame]

theorem step_turnResult (cfg : Config) {a : Actor} (hrunning : a.stopped = false) {i : Nat}
    (hi : i < a.inFlight.length) (text : String) (newStatus : Option VisitorStatus) :
    a.step cfg (.turnResult i text newStatus) =
      handleTurnResult { a with inFlight := a.inFlight.eraseIdx i } text newStatus := by
  simp [step, hrunning, hi]

theorem step_change (cfg : Config) (a : Actor) (e : Event) : Change a e (a.step cfg e) := by
  unfold step
  split
  next => exact .quiet ⟨rfl, rfl, rfl, rfl, rfl⟩
  next hstopped =>
    have hrunning : a.stopped = false := by simpa using hstopped
    cases e with
    | text s =>
      simp only
      split
      next => exact .quiet ⟨rfl, rfl, rfl, rfl, rfl⟩
      next => exact handleText_change cfg a s _
    | ping bytes =>
      refine .quiet ⟨rfl, ?_, rfl, rfl, rfl⟩
      simp [terminals, Frame.isTerminal]
    | close reason =>
      refine .quiet ⟨rfl, ?_, rfl, rfl, rfl⟩
      simp [terminals, Frame.isTerminal]
    | other => exact .quiet ⟨rfl, rfl, rfl, rfl, rfl⟩
    | finished => exact .quiet ⟨rfl, rfl, rfl, rfl, rfl⟩
    | turnResult i text newStatus =>
      simp only
      split
      next hi =>
        exact .answers hrunning hi rfl (terminals_handleTurnResult _ text newStatus) rfl rfl rfl
      next => exact .quiet ⟨rfl, rfl, rfl, rfl, rfl⟩

/-- A turn that comes back finds the status still active. -/
def InTime (a : Actor) : Event → Prop
  | .turnResult i _ _ =>
    a.stopped = false → i < a.inFlight.length → a.session.status.isTerminal = false
  | .text _ | .ping _ | .close _ | .other | .finished => True

variable {cfg : Config} {a b : Actor} {e : Event}

/-- A verdict has been announced. -/
def Announced (a : Actor) : Prop := a.session.status.isTerminal = true → 1 ≤ a.terminals

theorem Change.announced (h : Change a e b) (ha : a.Announced) : b.Announced := by
  intro hb
  cases h with
  | quiet h =>
    rw [h.status] at hb
    rw [h.terminals]
    exact ha hb
  | denies hactive hstatus hterminals => omega
  | starts hactive hstatus => simp [hstatus, VisitorStatus.isTerminal] at hb
  | answers hrunning hi hstatus hterminals =>
    rw [hb, Bool.toNat_true] at hterminals
    omega

theorem Change.terminals_le (h : Change a e b) : a.terminals ≤ b.terminals := by
  cases h with
  | quiet h => exact h.terminals.ge
  | denies hactive hstatus hterminals => omega
  | starts hactive hstatus hterminals => omega
  | answers hrunning hi hstatus hterminals => omega

/-- While the status is active, each message has started a turn and nothing is announced. -/
structure Undecided (a : Actor) : Prop where
  terminals : a.terminals = 0
  count : a.session.exchangeCount.toNat = a.started

/-- One announcement at most, and no more turns than the patience allows. -/
structure Kept (cfg : Config) (a : Actor) : Prop where
  limit : a.session.patienceLimit = cfg.patience
  undecided : a.session.status = .active → a.Undecided
  frames : a.terminals ≤ 1
  patience : a.started ≤ cfg.patience.toNat - 1

theorem count_lt_of_remaining {s : VisitorSession} (h : s.exchangesRemaining ≠ 0) :
    s.exchangeCount.toNat < s.patienceLimit.toNat := by
  unfold VisitorSession.exchangesRemaining at h
  split at h
  next hle =>
    have hne : s.exchangeCount.toNat ≠ s.patienceLimit.toNat := by
      intro heq
      exact h (by rw [UInt32.toNat_inj.mp heq, UInt32.sub_self])
    have := UInt32.le_iff_toNat_le.mp hle
    omega
  next => exact absurd rfl h

theorem greeted_kept (cfg : Config) : Kept cfg (greeted cfg) where
  limit := rfl
  undecided _ := ⟨by simp [greeted, terminals, isTerminal_agentFrame], rfl⟩
  frames := by simp [greeted, terminals, isTerminal_agentFrame]
  patience := Nat.zero_le _

theorem Change.kept (h : Change a e b) (ha : Kept cfg a) (htime : a.InTime e) : Kept cfg b := by
  cases h with
  | quiet h =>
    refine ⟨h.limit.trans ha.limit, ?_, h.terminals.trans_le ha.frames,
      h.started.trans_le ha.patience⟩
    intro hactive
    have hundecided := ha.undecided (h.status ▸ hactive)
    exact ⟨h.terminals.trans hundecided.terminals, by rw [h.count, h.started, hundecided.count]⟩
  | denies hactive hstatus hterminals hstarted hlimit =>
    have hnone := (ha.undecided hactive).terminals
    refine ⟨hlimit.trans ha.limit, ?_, by omega, hstarted.trans_le ha.patience⟩
    intro hb
    rw [hstatus] at hb
    cases hb
  | starts hactive hstatus hterminals hstarted hcount hremaining hlimit =>
    have hundecided := ha.undecided hactive
    have hlt := count_lt_of_remaining hremaining
    rw [hlimit, ha.limit] at hlt
    -- the count stays below the limit, so that it never wraps around
    have hnext : b.session.exchangeCount.toNat = a.started + 1 := by
      have hfits := cfg.patience.toNat_lt
      have hbound := ha.patience
      rw [hcount, UInt32.toNat_add, hundecided.count, UInt32.toNat_one]
      omega
    refine ⟨hlimit.trans ha.limit, ?_, hterminals.trans_le ha.frames, by omega⟩
    intro _
    exact ⟨hterminals.trans hundecided.terminals, hnext.trans hstarted.symm⟩
  | answers hrunning hi hstatus hterminals hstarted hcount hlimit =>
    have hactive := status_active (Bool.eq_false_iff.mp (htime hrunning hi))
    have hundecided := ha.undecided hactive
    have hnone := hundecided.terminals
    have hbit := Bool.toNat_le b.session.status.isTerminal
    refine ⟨hlimit.trans ha.limit, ?_, by omega, hstarted.trans_le ha.patience⟩
    intro hb
    rw [hb] at hterminals
    exact ⟨hterminals.trans hnone, by rw [hcount, hstarted, hundecided.count]⟩

/-- In time, a verdict stays what it is, and no turn is started after it. -/
theorem Change.decided (h : Change a e b) (htime : a.InTime e)
    (ha : a.session.status.isTerminal = true) :
    b.session.status = a.session.status ∧ b.started = a.started := by
  cases h with
  | quiet h => exact ⟨h.status, h.started⟩
  | denies hactive => simp [hactive, VisitorStatus.isTerminal] at ha
  | starts hactive => simp [hactive, VisitorStatus.isTerminal] at ha
  | answers hrunning hi => simp [htime hrunning hi] at ha

/-- The actor after it has handled these messages. -/
def after (cfg : Config) (es : List Event) : Actor := run (step cfg) (greeted cfg) es

/-- The law: once there is a verdict it does not change and no turn is started, there is one
terminal frame at most, and no more turns than the patience leaves. -/
structure VerdictFinal (cfg : Config) (es : List Event) : Prop where
  decided : ∀ u w z, es = u ++ (w ++ z) → (after cfg u).session.status.isTerminal = true →
    (after cfg (u ++ w)).session.status = (after cfg u).session.status ∧
    (after cfg (u ++ w)).started = (after cfg u).started
  frames : (after cfg es).terminals ≤ 1
  patience : (after cfg es).started ≤ cfg.patience.toNat - 1

theorem after_announced (cfg : Config) (es : List Event) : (after cfg es).Announced := by
  refine run_invariant (C := fun _ _ => True)
    (fun a e _ ha => (step_change cfg a e).announced ha) (fun _ _ => trivial) ?_
  intro h
  cases h

theorem terminals_after_le (cfg : Config) (u w : List Event) :
    (after cfg u).terminals ≤ (after cfg (u ++ w)).terminals := by
  rw [after, after, run_append]
  refine run_invariant 
    (P := fun a : Actor => (run (step cfg) (greeted cfg) u).terminals ≤ a.terminals)
    (C := fun _ _ => True) ?_ (fun _ _ => trivial) le_rfl
  intro a e _ ha
  exact ha.trans (step_change cfg a e).terminals_le

/-- The verdict is final in exactly the runs in which every turn that comes back finds the visitor
without one. -/
theorem verdict_final_iff (cfg : Config) (es : List Event) :
    VerdictFinal cfg es ↔ ∀ v ∈ visits (step cfg) (greeted cfg) es, v.1.InTime v.2 := by
  constructor
  · rintro hfinal ⟨a, e⟩ hv
    obtain ⟨u, w, rfl, ha⟩ := mem_visits hv
    obtain rfl : a = after cfg u := ha
    cases e with
    | turnResult i text newStatus =>
      intro hrunning hi
      by_contra hactive
      have hterminal : (after cfg u).session.status.isTerminal = true := by simpa using hactive
      have hnext : after cfg (u ++ [.turnResult i text newStatus]) =
          handleTurnResult { after cfg u with inFlight := (after cfg u).inFlight.eraseIdx i }
            text newStatus := by
        rw [← step_turnResult cfg hrunning hi]
        exact run_append _ _ _
      -- the status is as before, so that the verdict is announced a second time
      obtain ⟨hsame, -⟩ := hfinal.decided u [.turnResult i text newStatus] w rfl hterminal
      have hgrows := terminals_handleTurnResult
        { after cfg u with inFlight := (after cfg u).inFlight.eraseIdx i } text newStatus
      rw [← hnext, hsame, hterminal, Bool.toNat_true] at hgrows
      have hkeeps : terminals { after cfg u with inFlight := (after cfg u).inFlight.eraseIdx i } =
          (after cfg u).terminals := rfl
      have hone := after_announced cfg u hterminal
      have hmore := terminals_after_le cfg (u ++ [.turnResult i text newStatus]) w
      rw [List.append_assoc, List.singleton_append] at hmore
      have hframes := hfinal.frames
      simp only at hframes
      omega
    | text | ping | close | other | finished => trivial
  · intro htime
    have hkept : Kept cfg (after cfg es) :=
      run_invariant (fun a e he ha => (step_change cfg a e).kept ha he) htime (greeted_kept cfg)
    refine ⟨?_, hkept.frames, hkept.patience⟩
    rintro u w z rfl hterminal
    have hboth : (after cfg (u ++ w)).session.status = (after cfg u).session.status ∧
        (after cfg (u ++ w)).started = (after cfg u).started := by
      rw [after, run_append]
      refine run_invariant (P := fun a : Actor =>
        a.session.status = (after cfg u).session.status ∧ a.started = (after cfg u).started)
        ?_ (fun v hv => htime v (mem_visits_segment hv)) ⟨rfl, rfl⟩
      rintro a e he ⟨hstatus, hstarted⟩
      obtain ⟨hs, hn⟩ := (step_change cfg a e).decided he (hstatus ▸ hterminal)
      exact ⟨hs.trans hstatus, hn.trans hstarted⟩
    exact hboth

/-- Two turns are on the way; the second comes back after the visitor has been admitted. -/
theorem late_result_denies : ¬ ∀ (cfg : Config) (es : List Event), VerdictFinal cfg es := by
  intro h
  let cfg : Config := ⟨"Ministry", "The Keeper", "", "", 3, "", "", "desk.pl"⟩
  let admitted : List Event := [.text "I have an appointment.", .text "At noon.",
    .turnResult 0 "You may enter." (some (.admitted "expected"))]
  let late : List Event := [.turnResult 0 "Be gone." (some (.denied "no appointment"))]
  have hdecided :=
    (h cfg (admitted ++ (late ++ []))).decided admitted late [] rfl (by decide +kernel)
  exact absurd hdecided.1 (by decide +kernel)

end Actor
end Cerebellum.FrontDesk
