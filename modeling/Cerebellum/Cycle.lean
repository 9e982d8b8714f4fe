import Cerebellum.Controller

/-! The loop of `CycleController::run`: the passes of one cycle, the relays between the
two mailboxes, the convergence check and the exits. An engine is known here by what it
does to the Coire while it runs. -/
namespace Cerebellum

/-- One access of an engine to the Coire, through the predicates both engines export. -/
inductive MailAct where
  | emit (sid : Uuid) (origin : String) (payload : Json)
  | poll (sid : Uuid) (f : OriginFilter)
  | mark (id : Uuid)
  | uuid

def MailAct.run (ord : RowOrder) (w : World) : MailAct → World
  | .emit sid origin payload => w.emit sid origin payload
  | .poll sid f => (w.poll ord sid f).2
  | .mark id => w.mark id
  | .uuid => w.newV4.2

def runActs (ord : RowOrder) (w : World) (acts : List MailAct) : World :=
  acts.foldl (MailAct.run ord) w

/-- What comes from outside in one cycle: the engines' behaviour, the peers, the broker,
the clock-driven tableau tests and the interrupt flag. -/
structure CycleInput where
  consume : List MailAct := []
  consumeOk : Bool := true
  goal : List MailAct := []
  clips : List MailAct := []
  clipsOk : Bool := true
  incoming : Option (List TephraEnvelope) := some []
  publishOk : ClaraEvent → Bool := fun _ => true
  agendaEmpty : Bool := true
  /-- Nothing happens here when there is no root goal to query. -/
  requery : List MailAct := []
  tableauProgressed : Bool := false
  rootResolved : Bool := false
  interrupted : Bool := false

/-- `translate_prolog_to_clips` and `translate_clips_to_prolog`. -/
structure Translators where
  prologToClips : Json → Json
  clipsToProlog : Json → Json

structure CoireSnapshot where
  prologPending : Nat
  clipsPending : Nat

/-- How `run` ends. -/
inductive RunEnd where
  | converged (cycles : Nat)
  | interrupted (cycles : Nat)
  | maxCyclesExceeded (maxCycles : Nat)
  | failed
  deriving DecidableEq

/-- Forward the events of one origin from one mailbox into the other. -/
def relay (ord : RowOrder) (translate : Json → Json) (own tag : String) (src dst : Uuid)
    (w : World) : World :=
  let (events, w) := w.poll ord src (.startsWith own)
  events.foldl (fun w e => w.emit dst (tag ++ e.origin) (translate e.payload)) w

namespace CycleController
variable (ord : RowOrder) (iter : HashOrder) (tr : Translators)

/-- `false` when `coire_consume` raises an error; a failing goal is only logged. -/
def prologPass (c : CycleController) (i : CycleInput) : Bool × CycleController :=
  let (_, world) := c.world.poll ord c.prologId (.startsWith "relay-")
  let world := runActs ord world i.consume
  if i.consumeOk then (true, { c with world := runActs ord world i.goal })
  else (false, { c with world := world })

def relayPrologToClips (c : CycleController) : CycleController :=
  { c with
    world := relay ord tr.prologToClips "prolog" "relay-prolog:" c.prologId c.clipsId c.world }

def relayClipsToProlog (c : CycleController) : CycleController :=
  { c with
    world := relay ord tr.clipsToProlog "clips" "relay-clips:" c.clipsId c.prologId c.world }

def clipsPass (c : CycleController) (i : CycleInput) : Bool × CycleController :=
  let (_, world) := c.world.poll ord c.clipsId (.notStartsWith "clips")
  (i.clipsOk, { c with world := runActs ord world i.clips })

def evaluatorPass (c : CycleController) (i : CycleInput) : CycleController :=
  match c.ritualHandle with
  | none => c
  | some handle =>
    let c := (i.incoming.getD []).foldl (ingestTephra iter) c
    (c.publishEvaluatorEvents ord handle i.publishOk).1

/-- The five passes ahead of the convergence check. -/
def passes (c : CycleController) (i : CycleInput) : Bool × CycleController :=
  match c.prologPass ord i with
  | (false, c) => (false, c)
  | (true, c) =>
    match (c.relayPrologToClips ord tr).clipsPass ord i with
    | (false, c) => (false, c)
    | (true, c) => (true, (c.relayClipsToProlog ord tr).evaluatorPass ord iter i)

def snapshot (c : CycleController) : CoireSnapshot where
  prologPending := c.world.coire.countPendingWithOriginPrefix c.prologId "relay-"
  clipsPending := c.world.coire.countPending c.clipsId

/-- What re-querying the root goal does to the mailboxes. -/
def reEvaluateRootGoal (c : CycleController) (i : CycleInput) : CycleController :=
  { c with world := runActs ord c.world i.requery }

/-- The check works on the snapshot taken before it; the root goal is queried again and
the offers get older on the way. -/
def hasConverged (c : CycleController) (curr : CoireSnapshot) (i : CycleInput) :
    Bool × CycleController :=
  let mailboxesEmpty := curr.prologPending == 0 && curr.clipsPending == 0
  let c := if mailboxesEmpty && i.agendaEmpty then c.reEvaluateRootGoal ord i else c
  let anyTimedOut := !(c.timedOut iter).isEmpty
  let c := c.ageOffers iter
  let pendingResponsesZero := c.pendingOffers.entries.isEmpty
  (mailboxesEmpty && i.agendaEmpty && pendingResponsesZero && !anyTimedOut &&
    (!i.tableauProgressed || i.rootResolved), c)

/-- The `for` loop: `remaining` cycles to go, `cycle` behind; with the state it ends in. -/
def runLoop (inputs : Nat → CycleInput) :
    (remaining cycle : Nat) → CycleController → RunEnd × CycleController
  | 0, cycle, c => (.maxCyclesExceeded cycle, c)
  | remaining + 1, cycle, c =>
    match c.passes ord iter tr (inputs cycle) with
    | (false, c) => (.failed, c)
    | (true, c) =>
      match c.hasConverged ord iter c.snapshot (inputs cycle) with
      | (true, c) => (.converged (cycle + 1), c)
      | (false, c) =>
        if (inputs cycle).interrupted then (.interrupted (cycle + 1), c)
        else runLoop inputs remaining (cycle + 1) c

/-- The run up to the point where its end is decided. -/
def runCycles (inputs : Nat → CycleInput) (maxCycles : Nat) (c : CycleController) :
    RunEnd × CycleController :=
  runLoop ord iter tr inputs maxCycles 0 c.injectInitialOffering

def evictCoireSessions (c : CycleController) : CycleController :=
  { c with world := (c.world.clear c.prologId).clear c.clipsId }

/-- An error of a pass returns at once; every other end evicts the two mailboxes. -/
def run (inputs : Nat → CycleInput) (maxCycles : Nat) (c : CycleController) :
    RunEnd × CycleController :=
  match runCycles ord iter tr inputs maxCycles c with
  | (.failed, c) => (.failed, c)
  | (ended, c) => (ended, c.evictCoireSessions)

end CycleController

end Cerebellum
