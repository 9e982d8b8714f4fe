import Cerebellum.Convergence
import Cerebellum.GoalText
import Cerebellum.RootGoal

/-! A deduction: the cycles of the controller with the tableau they keep, and what is read off the
tableau about the root goal at the end. -/
namespace Cerebellum
open Transpile

/-! ### The root goal -/

section RootGoals
variable {φ : Type} (F : FloatText φ) (m : Mint) (sid : Uuid) (initialGoal : Option String)

/-- The row with a star for each argument, as it is read off the text of the goal. -/
def starRow (goal : String) : String × List String :=
  (extractFunctorFromGoal goal, List.replicate (extractArityFromGoal goal) "*")

/-- `update_tableau_from_solutions`. -/
def updateTableauFromSolutions (solutions : Option Json) (s : LiveTableau) : LiveTableau :=
  match initialGoal, solutions.bind Json.asArray with
  | some goal, some [] => s.updateTruth m sid (starRow goal).1 (starRow goal).2 .knownFalse []
  | some goal, some (first :: _) =>
    s.updateTruth m sid (starRow goal).1 (starRow goal).2 .knownTrue
      (solutionBindings (first.asObject.getD []))
  | _, _ => s

/-- The bindings of the first of the solutions that were found again. -/
def capturedBindings (finalSolutions : Option Json) : List Binding :=
  match finalSolutions with
  | some (.arr (.obj m :: _)) => solutionBindings (m.filter fun e => isPrologVariable e.1.toList)
  | _ => []

/-- `root_goal_bindings`: without captured bindings, the row with one star is looked up. -/
def rootGoalBindings (agenda : GoalAgenda) (s : RootGoal) : Option (List Binding) :=
  if capturedBindings s.finalSolutions ≠ [] then some (capturedBindings s.finalSolutions)
  else
    agenda.rootFunctor.bind fun functor =>
      (s.tableau.tableau.getEntry sid functor ["*"]).bind fun entry =>
        if entry.bindings.isEmpty then none else some entry.bindings

/-- What the tableau is told in the course of a run. -/
inductive Observation where
  /-- The answer to the goal in the first cycle. -/
  | answered (solutions : List Json)
  /-- An event on its way through a relay. -/
  | relayed (payload : Json)
  /-- The answer when the root goal is queried again, if the query does not fail. -/
  | requeried (solutions : Option (List Json))
  deriving DecidableEq

/-- What the tableau makes of it. -/
def observe (s : RootGoal) : Observation → RootGoal
  | .answered solutions =>
    { s with
      tableau := updateTableauFromSolutions m sid initialGoal (some (.arr solutions)) s.tableau }
  | .relayed payload => { s with tableau := recordEventInTableau F m sid s.tableau payload }
  | .requeried solutions => reEvaluateRootGoal F m sid initialGoal (solutions.map Json.arr) s

end RootGoals

/-! ### The run -/

/-- What comes from outside in one cycle. The queries of `query_with_bindings` answer with lists;
in the first cycle a query that fails counts as one without solutions. -/
structure DeductionInput where
  cycle : CycleInput := {}
  now : Int := 0
  solutions : List Json := []
  requeried : Option (List Json) := none
  /-- Whether the two queries of the tableau work. -/
  changedOk : Bool := true
  listOk : Bool := true

/-- The controller with its tableau; the tests on the tableau that `controller` takes from outside
are made here. -/
structure Deduction where
  controller : CycleController
  root : RootGoal
  agenda : GoalAgenda
  initialSolutions : Option Json

inductive CycleStatus where
  | converged
  | interrupted
  deriving DecidableEq

structure DeductionResult where
  status : CycleStatus
  cycles : Nat
  prologSolutions : Option Json
  goalBindings : Option (List Binding)
  tableau : List PredicateEntry

inductive DeductionEnd where
  | ok (result : DeductionResult)
  | maxCyclesExceeded (maxCycles : Nat)
  | failed

/-- The end of a run without its result. -/
def DeductionEnd.toRunEnd : DeductionEnd → RunEnd
  | ok ⟨.converged, cycles, _, _, _⟩ => .converged cycles
  | ok ⟨.interrupted, cycles, _, _, _⟩ => .interrupted cycles
  | maxCyclesExceeded n => .maxCyclesExceeded n
  | failed => .failed

namespace Deduction
variable {φ : Type} (F : FloatText φ) (m : Mint) (initialGoal : Option String)
variable (ord : RowOrder) (iter : HashOrder) (rows : EntryOrder) (tr : Translators)

def see (d : Deduction) (o : Observation) : Deduction :=
  { d with root := observe F m d.controller.prologId initialGoal d.root o }

/-- A relay that records `recorded payload` of each event it forwards. -/
def relay (translate recorded : Json → Json) (own tag : String) (src dst : Uuid) (d : Deduction) :
    Deduction :=
  let (events, world) := d.controller.world.poll ord src (.startsWith own)
  events.foldl (fun d e =>
    let d := d.see F m initialGoal (.relayed (recorded e.payload))
    { d with controller := { d.controller with
        world := d.controller.world.emit dst (tag ++ e.origin) (translate e.payload) } })
    { d with controller := { d.controller with world := world } }

/-- The payload is recorded as Prolog wrote it. -/
def relayPrologToClips (d : Deduction) : Deduction :=
  d.relay F m initialGoal ord tr.prologToClips id "prolog" "relay-prolog:" d.controller.prologId
    d.controller.clipsId

/-- The payload is recorded in its translation. -/
def relayClipsToProlog (d : Deduction) : Deduction :=
  d.relay F m initialGoal ord tr.clipsToProlog tr.clipsToProlog "clips" "relay-clips:"
    d.controller.clipsId d.controller.prologId

/-- In the first cycle the solutions of the goal go into the tableau. -/
def answer (cycle : Nat) (i : DeductionInput) (d : Deduction) : Deduction :=
  if cycle = 0 then
    { d.see F m initialGoal (.answered i.solutions) with
      initialSolutions := some (.arr i.solutions) }
  else d

def passes (cycle : Nat) (i : DeductionInput) (d : Deduction) : Bool × Deduction :=
  match d.controller.prologPass ord i.cycle with
  | (false, c) => (false, { d with controller := c })
  | (true, c) =>
    let d := ({ d with controller := c }.answer F m initialGoal cycle i).relayPrologToClips F m
      initialGoal ord tr
    match d.controller.clipsPass ord i.cycle with
    | (false, c) => (false, { d with controller := c })
    | (true, c) =>
      let d := { d with controller := c }.relayClipsToProlog F m initialGoal ord tr
      (true, { d with controller := d.controller.evaluatorPass ord iter i.cycle })

/-- The root goal is queried again when the snapshot and the agenda are empty. -/
def requeries (curr : CoireSnapshot) (i : DeductionInput) : Bool :=
  (curr.prologPending == 0 && curr.clipsPending == 0) && i.cycle.agendaEmpty

/-- The input of the controller, with the tests made on this tableau. -/
def tested (d : Deduction) (i : DeductionInput) : CycleInput :=
  { i.cycle with
    tableauProgressed :=
      d.agenda.tableauProgressed d.controller.prologId d.root.tableau.tableau i.changedOk
    rootResolved :=
      d.agenda.rootGoalResolved rows d.controller.prologId d.root.tableau.tableau i.listOk }

def hasConverged (curr : CoireSnapshot) (i : DeductionInput) (d : Deduction) : Bool × Deduction :=
  let d := if requeries curr i then d.see F m initialGoal (.requeried i.requeried) else d
  let (converged, c) := d.controller.hasConverged ord iter curr (d.tested rows i)
  (converged, { d with controller := c })

/-- The result of an exit; solutions that were found again go before those of the first cycle. -/
def result (status : CycleStatus) (cycles : Nat) (d : Deduction) : DeductionResult where
  status := status
  cycles := cycles
  prologSolutions := d.root.finalSolutions.or d.initialSolutions
  goalBindings := rootGoalBindings d.controller.prologId d.agenda d.root
  tableau := d.root.tableau.tableau.exportSession rows d.controller.prologId

def beginCycle (i : DeductionInput) (d : Deduction) : Deduction :=
  { d with agenda := d.agenda.beginCycle i.now }

def runLoop (inputs : Nat → DeductionInput) :
    (remaining cycle : Nat) → Deduction → DeductionEnd
  | 0, cycle, _ => .maxCyclesExceeded cycle
  | remaining + 1, cycle, d =>
    match (d.beginCycle (inputs cycle)).passes F m initialGoal ord iter tr cycle (inputs cycle) with
    | (false, _) => .failed
    | (true, d) =>
      match d.hasConverged F m initialGoal ord iter rows d.controller.snapshot (inputs cycle) with
      | (true, d) => .ok (d.result rows .converged (cycle + 1))
      | (false, d) =>
        if (inputs cycle).cycle.interrupted then .ok (d.result rows .interrupted (cycle + 1))
        else runLoop inputs remaining (cycle + 1) d

/-- A controller before its run, with what its session has in the tableau. -/
def start (now : Int) (c : CycleController) (s : LiveTableau) : Deduction where
  controller := c.injectInitialOffering
  root := ⟨s, none⟩
  agenda := .new initialGoal now
  initialSolutions := none

def run (inputs : Nat → DeductionInput) (maxCycles : Nat) (now : Int) (c : CycleController)
    (s : LiveTableau) : DeductionEnd :=
  runLoop F m initialGoal ord iter rows tr inputs maxCycles 0 (start initialGoal now c s)

/-! ### What the tableau is told -/

/-- The payloads that the two relays of a cycle record. -/
def relayedIn (i : CycleInput) (c : CycleController) : List Json :=
  match c.prologPass ord i with
  | (false, _) => []
  | (true, c) =>
    let toClips := (c.world.poll ord c.prologId (.startsWith "prolog")).1.map ClaraEvent.payload
    match (c.relayPrologToClips ord tr).clipsPass ord i with
    | (false, _) => toClips
    | (true, c) =>
      toClips ++ (c.world.poll ord c.clipsId (.startsWith "clips")).1.map fun e =>
        tr.clipsToProlog e.payload

/-- The observations of the passes of a cycle. -/
def passed (cycle : Nat) (i : DeductionInput) (c : CycleController) : List Observation :=
  (if cycle = 0 then [.answered i.solutions] else []) ++
    (relayedIn ord tr i.cycle c).map Observation.relayed

/-- The observations behind the passes of a cycle, with those of the later cycles given. -/
def checked (i : DeductionInput) (later : Deduction → List Observation) :
    Bool × Deduction → List Observation
  | (false, _) => []
  | (true, d) =>
    (if requeries d.controller.snapshot i then [.requeried i.requeried] else []) ++
    match d.hasConverged F m initialGoal ord iter rows d.controller.snapshot i with
    | (true, _) => []
    | (false, d) => if i.cycle.interrupted then [] else later d

/-- The observations of a run, oldest first. -/
def observations (inputs : Nat → DeductionInput) :
    (remaining cycle : Nat) → Deduction → List Observation
  | 0, _, _ => []
  | remaining + 1, cycle, d =>
    passed ord tr cycle (inputs cycle) d.controller ++
      checked F m initialGoal ord iter rows (inputs cycle)
        (observations inputs remaining (cycle + 1))
        ((d.beginCycle (inputs cycle)).passes F m initialGoal ord iter tr cycle (inputs cycle))

/-- What the tableau is told in a whole run. -/
def runObservations (inputs : Nat → DeductionInput) (maxCycles : Nat) (now : Int)
    (c : CycleController) (s : LiveTableau) : List Observation :=
  observations F m initialGoal ord iter rows tr inputs maxCycles 0 (start initialGoal now c s)

variable {F m initialGoal ord iter rows tr}

theorem relayEvents_eq (translate recorded : Json → Json) (tag : String) (dst : Uuid)
    (events : List ClaraEvent) (d : Deduction) :
    events.foldl (fun d e =>
      let d := d.see F m initialGoal (.relayed (recorded e.payload))
      { d with controller := { d.controller with
          world := d.controller.world.emit dst (tag ++ e.origin) (translate e.payload) } }) d =
    { d with
      controller := { d.controller with
        world := events.foldl (fun w e => w.emit dst (tag ++ e.origin) (translate e.payload))
          d.controller.world }
      root := (events.map fun e => Observation.relayed (recorded e.payload)).foldl
        (observe F m d.controller.prologId initialGoal) d.root } := by
  induction events generalizing d with
  | nil => rfl
  | cons e events ih =>
    rw [List.foldl_cons, ih]
    rfl

/-- A relay does to the mailboxes what it does without a tableau. -/
theorem relay_eq (translate recorded : Json → Json) (own tag : String) (src dst : Uuid)
    (d : Deduction) :
    d.relay F m initialGoal ord translate recorded own tag src dst =
      { d with
        controller := { d.controller with
          world := Cerebellum.relay ord translate own tag src dst d.controller.world }
        root := ((d.controller.world.poll ord src (.startsWith own)).1.map fun e =>
          Observation.relayed (recorded e.payload)).foldl
            (observe F m d.controller.prologId initialGoal) d.root } :=
  relayEvents_eq translate recorded tag dst _ _

@[simp] theorem answer_controller (cycle : Nat) (i : DeductionInput) (d : Deduction) :
    (d.answer F m initialGoal cycle i).controller = d.controller := by
  unfold answer
  split <;> rfl

@[simp] theorem answer_agenda (cycle : Nat) (i : DeductionInput) (d : Deduction) :
    (d.answer F m initialGoal cycle i).agenda = d.agenda := by
  unfold answer
  split <;> rfl

theorem answer_root (cycle : Nat) (i : DeductionInput) (d : Deduction) :
    (d.answer F m initialGoal cycle i).root =
      (if cycle = 0 then [Observation.answered i.solutions] else []).foldl
        (observe F m d.controller.prologId initialGoal) d.root := by
  unfold answer
  split <;> rfl

theorem answer_initialSolutions (cycle : Nat) (i : DeductionInput) (d : Deduction) :
    (d.answer F m initialGoal cycle i).initialSolutions =
      if cycle = 0 then some (.arr i.solutions) else d.initialSolutions := by
  unfold answer
  split <;> rfl

variable (F m initialGoal ord iter tr) in
/-- The passes do to the controller what they do without a tableau. -/
theorem passes_controller (cycle : Nat) (i : DeductionInput) (d : Deduction) :
    ((d.passes F m initialGoal ord iter tr cycle i).1,
      (d.passes F m initialGoal ord iter tr cycle i).2.controller) =
        d.controller.passes ord iter tr i.cycle := by
  unfold passes CycleController.passes
  cases d.controller.prologPass ord i.cycle with
  | mk ok c =>
    cases ok with
    | false => rfl
    | true =>
      simp only [relayPrologToClips, relay_eq, answer_controller]
      change _ = match (c.relayPrologToClips ord tr).clipsPass ord i.cycle with
        | (false, c) => (false, c)
        | (true, c) => (true, (c.relayClipsToProlog ord tr).evaluatorPass ord iter i.cycle)
      unfold CycleController.relayPrologToClips
      split
      · next h => rw [h]
      · next h =>
        rw [h]
        simp only [relayClipsToProlog, relay_eq]
        rfl

/-- What the passes of a cycle leave of a deduction, but for its controller. -/
structure Passed (F : FloatText φ) (m : Mint) (initialGoal : Option String) (ord : RowOrder)
    (tr : Translators) (cycle : Nat) (i : DeductionInput) (d d' : Deduction) : Prop where
  prologId : d'.controller.prologId = d.controller.prologId
  agenda : d'.agenda = d.agenda
  initial : d'.initialSolutions = if cycle = 0 then some (.arr i.solutions) else d.initialSolutions
  root : d'.root = (passed ord tr cycle i d.controller).foldl
    (observe F m d.controller.prologId initialGoal) d.root

theorem passes_true {cycle : Nat} {i : DeductionInput} {d d' : Deduction}
    (h : d.passes F m initialGoal ord iter tr cycle i = (true, d')) :
    Passed F m initialGoal ord tr cycle i d d' := by
  have hcontroller := passes_controller F m initialGoal ord iter tr cycle i d
  rw [h] at hcontroller
  obtain ⟨hid, -, -⟩ := CycleController.passes_spec ord iter tr hcontroller.symm
  unfold passes at h
  split at h
  · cases h
  · next c hpass =>
    simp only [relayPrologToClips, relay_eq, answer_controller] at h
    change (match (c.relayPrologToClips ord tr).clipsPass ord i.cycle with
      | (false, c) => _
      | (true, c) => _) = _ at h
    split at h
    · cases h
    · next c' hclips =>
      obtain ⟨-, rfl⟩ := Prod.mk.inj h
      obtain ⟨hid₁, -, -⟩ := CycleController.prologPass_spec ord hpass
      obtain ⟨hid₂, -, -⟩ := CycleController.clipsPass_spec ord hclips
      have hid₃ : c'.prologId = c.prologId := hid₂
      simp only [relayClipsToProlog, relay_eq] at hid ⊢
      refine ⟨hid, answer_agenda _ _ _, answer_initialSolutions _ _ _, ?_⟩
      simp only [passed, relayedIn, hpass, hclips, List.map_append, List.map_map,
        List.foldl_append, answer_root, hid₃, hid₁]
      rfl

theorem ageOffers_prologId (c : CycleController) : (c.ageOffers iter).prologId = c.prologId := by
  have hexpire : ∀ (l : List Uuid) (c : CycleController),
      (l.foldl CycleController.expireOffer c).prologId = c.prologId := by
    intro l
    induction l with
    | nil => exact fun _ => rfl
    | cons cid l ih =>
      intro c
      rw [List.foldl_cons, ih, CycleController.expireOffer_eq]
      rfl
  rw [CycleController.ageOffers, hexpire]

/-- The check does to the controller what it does with the tests given, and to the tableau what
the re-query does. -/
theorem hasConverged_eq (curr : CoireSnapshot) (i : DeductionInput) (d : Deduction) :
    let seen := (if requeries curr i then [Observation.requeried i.requeried] else []).foldl
      (see F m initialGoal) d
    d.hasConverged F m initialGoal ord iter rows curr i =
      ((d.controller.hasConverged ord iter curr (seen.tested rows i)).1,
        { seen with
          controller := (d.controller.hasConverged ord iter curr (seen.tested rows i)).2 }) := by
  unfold hasConverged
  split <;> rfl

variable (F m initialGoal ord iter rows) in
theorem hasConverged_frame (curr : CoireSnapshot) (i : DeductionInput) (d : Deduction) :
    let d' := (d.hasConverged F m initialGoal ord iter rows curr i).2
    d'.controller.prologId = d.controller.prologId ∧ d'.agenda = d.agenda ∧
      d'.initialSolutions = d.initialSolutions ∧
      d'.root = (if requeries curr i then [Observation.requeried i.requeried] else []).foldl
        (observe F m d.controller.prologId initialGoal) d.root := by
  rw [hasConverged_eq]
  have hid : ∀ input, (d.controller.hasConverged ord iter curr input).2.prologId =
      d.controller.prologId := by
    intro input
    simp only [CycleController.hasConverged, ageOffers_prologId]
    split <;> rfl
  split
  · exact ⟨hid _, rfl, rfl, rfl⟩
  · exact ⟨hid _, rfl, rfl, rfl⟩

/-- The result of a run, as a deduction that has seen its observations. -/
structure Ended (F : FloatText φ) (m : Mint) (initialGoal : Option String) (rows : EntryOrder)
    (seen : List Observation) (d d' : Deduction) (r : DeductionResult) : Prop where
  result : ∃ status cycles, r = d'.result rows status cycles
  prologId : d'.controller.prologId = d.controller.prologId
  rootFunctor : d'.agenda.rootFunctor = d.agenda.rootFunctor
  root : d'.root = seen.foldl (observe F m d.controller.prologId initialGoal) d.root

/-- A run that returns a result has told the tableau its observations and nothing else. -/
theorem runLoop_ok {inputs : Nat → DeductionInput} {remaining cycle : Nat} {d : Deduction}
    {r : DeductionResult}
    (h : d.runLoop F m initialGoal ord iter rows tr inputs remaining cycle = .ok r) :
    ∃ d', Ended F m initialGoal rows
        (d.observations F m initialGoal ord iter rows tr inputs remaining cycle) d d' r ∧
      d'.initialSolutions =
        if cycle = 0 then some (.arr (inputs 0).solutions) else d.initialSolutions := by
  induction remaining generalizing cycle d with
  | zero => cases h
  | succ remaining ih =>
    unfold runLoop at h
    unfold observations checked
    split at h
    · cases h
    · next d₁ hpass =>
      have hpassed := passes_true hpass
      obtain ⟨hid, hagenda, hinitial, hroot⟩ := hasConverged_frame F m initialGoal
        ord iter rows d₁.controller.snapshot (inputs cycle) d₁
      have hprolog := hid.trans hpassed.prologId
      have hfunctor := congrArg GoalAgenda.rootFunctor (hagenda.trans hpassed.agenda)
      have hsolutions := hinitial.trans hpassed.initial
      have hfirst : (if cycle = 0 then some (Json.arr (inputs cycle).solutions)
          else d.initialSolutions) =
            if cycle = 0 then some (Json.arr (inputs 0).solutions) else d.initialSolutions := by
        split
        · next hzero => rw [hzero]
        · rfl
      rw [hpassed.root, hpassed.prologId, ← List.foldl_append] at hroot
      split at h
      · next d₂ hconv =>
        rw [hconv] at hprolog hfunctor hsolutions hroot
        refine ⟨d₂, ⟨⟨_, _, (DeductionEnd.ok.inj h).symm⟩, hprolog, hfunctor, ?_⟩,
          hsolutions.trans hfirst⟩
        rw [List.append_nil]
        exact hroot
      · next d₂ hconv =>
        rw [hconv] at hprolog hfunctor hsolutions hroot
        have hid₂ : d₂.controller.prologId = d.controller.prologId := hprolog
        have hroot₂ : d₂.root = _ := hroot
        split at h
        · next hint =>
          refine ⟨d₂, ⟨⟨_, _, (DeductionEnd.ok.inj h).symm⟩, hid₂, hfunctor, ?_⟩,
            hsolutions.trans hfirst⟩
          rw [if_pos hint, List.append_nil]
          exact hroot
        · next hint =>
          obtain ⟨d', hended, hinit⟩ := ih h
          refine ⟨d', ⟨hended.result, hended.prologId.trans hid₂,
            hended.rootFunctor.trans hfunctor, ?_⟩, ?_⟩
          · rw [hended.root, hid₂, hroot₂, if_neg hint, ← List.append_assoc]
            exact (List.foldl_append ..).symm
          · rw [hinit, if_neg (Nat.succ_ne_zero cycle)]
            exact hsolutions.trans hfirst

/-- The inputs of the controller's cycles, but for the tests on a tableau. -/
def Untested (inputs : Nat → DeductionInput) (inputs' : Nat → CycleInput) : Prop :=
  ∀ n, ∃ progressed resolved, inputs' n =
    { (inputs n).cycle with tableauProgressed := progressed, rootResolved := resolved }

theorem runLoop_congr {inputs inputs' : Nat → CycleInput} {remaining cycle : Nat}
    (h : ∀ n, cycle ≤ n → inputs n = inputs' n) (c : CycleController) :
    c.runLoop ord iter tr inputs remaining cycle = c.runLoop ord iter tr inputs' remaining cycle := by
  induction remaining generalizing cycle c with
  | zero => rfl
  | succ remaining ih =>
    unfold CycleController.runLoop
    rw [h cycle (Nat.le_refl _)]
    have hrest := fun c => ih (fun n hn => h n (Nat.le_of_succ_le hn)) c
    simp only [hrest]

/-- A deduction ends as its controller does when the tests are made on the tableau. -/
theorem runLoop_refines (inputs : Nat → DeductionInput) (remaining cycle : Nat) (d : Deduction) :
    ∃ inputs', Untested inputs inputs' ∧
      (d.runLoop F m initialGoal ord iter rows tr inputs remaining cycle).toRunEnd =
        (d.controller.runLoop ord iter tr inputs' remaining cycle).1 := by
  induction remaining generalizing cycle d with
  | zero => exact ⟨fun n => (inputs n).cycle, fun n => ⟨_, _, rfl⟩, rfl⟩
  | succ remaining ih =>
    have hpasses := passes_controller F m initialGoal ord iter tr cycle (inputs cycle)
      (d.beginCycle (inputs cycle))
    unfold runLoop
    cases hpass : (d.beginCycle (inputs cycle)).passes F m initialGoal ord iter tr cycle
      (inputs cycle) with
    | mk ok d₁ =>
      rw [hpass] at hpasses
      cases ok with
      | false =>
        refine ⟨fun n => (inputs n).cycle, fun n => ⟨_, _, rfl⟩, ?_⟩
        have hfail : d.controller.passes ord iter tr (inputs cycle).cycle = (false, d₁.controller) :=
          hpasses.symm
        simp only [CycleController.runLoop, hfail]
        rfl
      | true =>
        have hok : d.controller.passes ord iter tr (inputs cycle).cycle = (true, d₁.controller) :=
          hpasses.symm
        -- the tests of this cycle are those on the tableau after the re-query
        obtain ⟨seen, hcheck⟩ : ∃ seen : Deduction,
            d₁.hasConverged F m initialGoal ord iter rows d₁.controller.snapshot (inputs cycle) =
              ((d₁.controller.hasConverged ord iter d₁.controller.snapshot
                (seen.tested rows (inputs cycle))).1,
              { seen with controller := (d₁.controller.hasConverged ord iter d₁.controller.snapshot
                (seen.tested rows (inputs cycle))).2 }) := ⟨_, hasConverged_eq _ _ _⟩
        have htests : ∀ rest, Untested inputs rest →
            Untested inputs (Function.update rest cycle (seen.tested rows (inputs cycle))) := by
          intro rest hrest n
          by_cases hn : n = cycle
          · subst hn
            rw [Function.update_self]
            exact ⟨_, _, rfl⟩
          · rw [Function.update_of_ne hn]
            exact hrest n
        have hpassed : d.controller.passes ord iter tr (seen.tested rows (inputs cycle)) =
            (true, d₁.controller) := hok
        dsimp only
        rw [hcheck]
        cases hconv : d₁.controller.hasConverged ord iter d₁.controller.snapshot
          (seen.tested rows (inputs cycle)) with
        | mk converged c₂ =>
          cases converged with
          | true =>
            refine ⟨_, htests (fun n => (inputs n).cycle) fun n => ⟨_, _, rfl⟩, ?_⟩
            simp only [CycleController.runLoop, Function.update_self, hpassed, hconv]
            rfl
          | false =>
            obtain ⟨rest, hrest, hend⟩ := ih (cycle + 1) { seen with controller := c₂ }
            refine ⟨_, htests rest hrest, ?_⟩
            have htail : c₂.runLoop ord iter tr
                (Function.update rest cycle (seen.tested rows (inputs cycle))) remaining
                (cycle + 1) = c₂.runLoop ord iter tr rest remaining (cycle + 1) :=
              runLoop_congr (fun n hn => Function.update_of_ne (by omega) _ _) c₂
            simp only [CycleController.runLoop, Function.update_self, hpassed, hconv, htail]
            cases hint : (inputs cycle).cycle.interrupted with
            | true =>
              have hinterrupt : (seen.tested rows (inputs cycle)).interrupted = true := hint
              rw [if_pos rfl, if_pos hinterrupt]
              rfl
            | false =>
              have hinterrupt : (seen.tested rows (inputs cycle)).interrupted = false := hint
              simp only [hinterrupt, Bool.false_eq_true, if_false]
              exact hend

end Deduction

end Cerebellum
