import Cerebellum.Cycle
import Cerebellum.ControllerSpec

/-! When a converged run is a fixed point. The snapshot sees the relayed events of the
Prolog mailbox and all of the CLIPS mailbox, before the root goal is queried again; what
it does not see has to be gone for other reasons. -/
namespace Cerebellum

namespace MailAct

/-- The access takes the pending event out of its mailbox. -/
def takes (r : ClaraEvent) : MailAct → Bool
  | .poll sid f => f.selects sid r
  | .mark id => r.eventId == id && r.status == .pending
  | _ => false

def writes (w : World) : MailAct → List ClaraEvent
  | .emit sid origin payload => [w.newEvent sid origin payload]
  | _ => []

theorem run_pending (ord : RowOrder) (w : World) (a : MailAct) (r : ClaraEvent) :
    (r ∈ (a.run ord w).rows ∧ r.status = .pending) ↔
      (r ∈ w.rows ∧ r.status = .pending ∧ a.takes r = false) ∨ r ∈ a.writes w := by
  cases a with
  | emit sid origin payload =>
    simp only [run, World.emit_rows, List.mem_append, takes, writes, and_true]
    constructor
    · rintro ⟨hr | hr, hst⟩
      · exact .inl ⟨hr, hst⟩
      · exact .inr hr
    · rintro (⟨hr, hst⟩ | hr)
      · exact ⟨.inl hr, hst⟩
      · exact ⟨.inr hr, by rw [List.mem_singleton.mp hr]; rfl⟩
  | poll sid f =>
    rw [run, World.poll_rows, Coire.mem_flip_pending]
    simp [takes, writes]
  | mark id =>
    rw [run, World.mark_rows, Coire.mem_flip_pending]
    simp [takes, writes]
  | uuid => simp [run, takes, writes]

end MailAct

/-- The events a list of accesses writes and does not take again, oldest first. -/
def leaves (ord : RowOrder) : World → List MailAct → List ClaraEvent
  | _, [] => []
  | w, a :: acts => (a.writes w).filter (fun e => !acts.any (MailAct.takes e)) ++
      leaves ord (a.run ord w) acts

/-- What is pending after an engine has run: the old events it did not take and the new
ones it left. -/
theorem runActs_pending (ord : RowOrder) (w : World) (acts : List MailAct) (r : ClaraEvent) :
    (r ∈ (runActs ord w acts).rows ∧ r.status = .pending) ↔
      (r ∈ w.rows ∧ r.status = .pending ∧ acts.any (MailAct.takes r) = false) ∨
        r ∈ leaves ord w acts := by
  induction acts generalizing w with
  | nil => simp [runActs, leaves]
  | cons a acts ih =>
    have hrun : runActs ord w (a :: acts) = runActs ord (a.run ord w) acts := rfl
    rw [hrun, ih, ← and_assoc, a.run_pending ord w r]
    simp only [leaves, List.mem_append, List.mem_filter, List.any_cons, Bool.or_eq_false_iff,
      Bool.not_eq_true']
    tauto

section Timeouts

/-- An event under the label of the timeout Tabu. -/
def isTimeout (origin : String) : Bool := origin == "ritual/tabu-timeout"

/-- The timeout events ever written into one of two mailboxes. -/
def timeouts (a b : Uuid) (w : World) : Nat :=
  w.rows.countP fun r => (r.sessionId == a || r.sessionId == b) && isTimeout r.origin

/-- The access writes a timeout event of its own into one of two mailboxes. -/
def MailAct.emitsTimeout (a b : Uuid) : MailAct → Bool
  | .emit sid origin _ => (sid == a || sid == b) && isTimeout origin
  | _ => false

variable (a b : Uuid)

theorem timeouts_flip {w w' : World} {p : ClaraEvent → Bool}
    (h : w'.rows = w.rows.map fun r => if p r then r.withStatus .processed else r) :
    timeouts a b w' = timeouts a b w := by
  rw [timeouts, h, List.countP_map]
  refine List.countP_congr fun r _ => ?_
  simp only [Function.comp]
  split <;> rfl

theorem timeouts_emit (w : World) (sid : Uuid) (origin : String) (payload : Json) :
    timeouts a b (w.emit sid origin payload) =
      timeouts a b w + ((sid == a || sid == b) && isTimeout origin).toNat := by
  rw [timeouts, World.emit_rows, List.countP_append]
  simp only [timeouts, World.newEvent, List.countP_singleton]
  cases (sid == a || sid == b) && isTimeout origin <;> rfl

theorem timeouts_runActs (ord : RowOrder) (w : World) (acts : List MailAct) :
    timeouts a b (runActs ord w acts) = timeouts a b w + acts.countP (MailAct.emitsTimeout a b) := by
  induction acts generalizing w with
  | nil => simp [runActs]
  | cons act acts ih =>
    have hrun : runActs ord w (act :: acts) = runActs ord (act.run ord w) acts := rfl
    have hact : timeouts a b (act.run ord w) =
        timeouts a b w + (act.emitsTimeout a b).toNat := by
      cases act with
      | emit sid origin payload => exact timeouts_emit a b w sid origin payload
      | poll sid f => exact timeouts_flip a b (World.poll_rows ord w sid f)
      | mark id => exact timeouts_flip a b (World.mark_rows w id)
      | uuid => rfl
    rw [hrun, ih, hact, List.countP_cons]
    cases act.emitsTimeout a b with
    | false => simp
    | true =>
      simp only [Bool.toNat_true, if_true]
      omega

theorem timeouts_relay (ord : RowOrder) (translate : Json → Json) (own rest : String)
    (src dst : Uuid) (w : World) :
    timeouts a b (relay ord translate own ("relay-" ++ rest) src dst w) = timeouts a b w := by
  have hfold : ∀ (es : List ClaraEvent) (w : World), timeouts a b (es.foldl (fun w e =>
      w.emit dst ("relay-" ++ rest ++ e.origin) (translate e.payload)) w) = timeouts a b w := by
    intro es
    induction es with
    | nil => intro w; rfl
    | cons e es ih =>
      intro w
      have hne : isTimeout ("relay-" ++ rest ++ e.origin) = false := by
        refine beq_eq_false_iff_ne.mpr fun h => ?_
        have h' := congrArg (fun x : String => x.toList.drop 1 |>.head?) h
        simp at h'
      rw [List.foldl_cons, ih, timeouts_emit, hne]
      simp
  unfold relay
  rw [hfold]
  exact timeouts_flip a b (World.poll_rows ord w src _)

end Timeouts

namespace CycleController
variable (ord : RowOrder) (iter : HashOrder) (tr : Translators)

/-- One further cycle would act on the event. -/
def actionable (c : CycleController) (r : ClaraEvent) : Bool :=
  r.status == .pending && (r.sessionId == c.clipsId || r.sessionId == c.prologId &&
    (originLike "relay-" r.origin || originLike "prolog" r.origin || originLike "evaluator/" r.origin))

/-- A run whose last cycle began in `start` has come to rest. -/
structure FixedPoint (start c : CycleController) : Prop where
  quiet : ∀ r ∈ c.world.rows, c.actionable r = false
  answered : c.pendingOffers = ∅
  noTimeout : timeouts c.prologId c.clipsId c.world =
    timeouts start.prologId start.clipsId start.world

/-- An event on its way out of the Prolog mailbox, which the snapshot does not count. -/
def outbound (c : CycleController) (r : ClaraEvent) : Bool :=
  r.status == .pending && r.sessionId == c.prologId &&
    (originLike "prolog" r.origin || originLike "evaluator/" r.origin)

/-- Nothing happens in the cycle behind the snapshot's back. -/
structure Unobserved (c : CycleController) (i : CycleInput) : Prop where
  /-- An outbound event that the passes have left behind is taken by the re-query. -/
  passed : ∀ r ∈ (c.passes ord iter tr i).2.world.rows,
    (c.passes ord iter tr i).2.outbound r = true → i.requery.any (MailAct.takes r) = true
  /-- The re-query leaves no event to act on. -/
  requeried : ∀ r ∈ leaves ord (c.passes ord iter tr i).2.world i.requery,
    (c.passes ord iter tr i).2.actionable r = false
  /-- No engine writes a timeout event of its own. -/
  unforged : ∀ a ∈ i.consume ++ i.goal ++ i.clips ++ i.requery,
    a.emitsTimeout c.prologId c.clipsId = false

theorem ingestTephra_frame (c : CycleController) (t : TephraEnvelope) :
    (c.ingestTephra iter t).prologId = c.prologId ∧ (c.ingestTephra iter t).clipsId = c.clipsId := by
  rw [ingestTephra_eq]
  cases c.ingested iter t <;> exact ⟨rfl, rfl⟩

/-- An ingested message is either dropped or waits in the CLIPS mailbox. -/
theorem ingest_rows (ts : List TephraEnvelope) (c : CycleController) :
    (ts.foldl (ingestTephra iter) c).prologId = c.prologId ∧
    (ts.foldl (ingestTephra iter) c).clipsId = c.clipsId ∧
    ((ts.foldl (ingestTephra iter) c).world.rows = c.world.rows ∨
      ∃ r ∈ (ts.foldl (ingestTephra iter) c).world.rows, r.sessionId = c.clipsId ∧
        r.status = .pending) := by
  induction ts generalizing c with
  | nil => exact ⟨rfl, rfl, .inl rfl⟩
  | cons t ts ih =>
    obtain ⟨hp, hc⟩ := ingestTephra_frame iter c t
    obtain ⟨ip, ic, irows⟩ := ih (c.ingestTephra iter t)
    refine ⟨ip.trans hp, ic.trans hc, ?_⟩
    rw [List.foldl_cons]
    rcases irows with irows | ⟨r, hr, hsid, hst⟩
    · rw [irows, ingestTephra_eq]
      cases c.ingested iter t with
      | none => exact .inl rfl
      | some body =>
        refine .inr ⟨(c.world.emit c.prologId ("ritual/" ++ t.label) body).newEvent c.clipsId
          ("ritual/" ++ t.label) body, ?_, rfl, rfl⟩
        simp [writeBoth, World.emit_rows]
    · exact .inr ⟨r, hr, hsid.trans hc, hst⟩

theorem clipsPending_eq_zero {c : CycleController} (h : c.snapshot.clipsPending = 0)
    {r : ClaraEvent} (hr : r ∈ c.world.rows) (hsid : r.sessionId = c.clipsId) :
    r.status ≠ .pending := by
  intro hst
  have := List.countP_eq_zero.mp h r hr
  simp [hsid, hst] at this

/-- In a cycle that leaves the CLIPS mailbox empty, the evaluator pass has ingested nothing. -/
theorem evaluatorPass_spec (c : CycleController) (i : CycleInput) :
    (c.evaluatorPass ord iter i).prologId = c.prologId ∧
    (c.evaluatorPass ord iter i).clipsId = c.clipsId ∧
    ((c.evaluatorPass ord iter i).snapshot.clipsPending = 0 → ∀ a b,
      timeouts a b (c.evaluatorPass ord iter i).world = timeouts a b c.world) := by
  unfold evaluatorPass
  cases c.ritualHandle with
  | none => exact ⟨rfl, rfl, fun _ _ _ => rfl⟩
  | some handle =>
    obtain ⟨hp, hc, hrows⟩ := ingest_rows iter (i.incoming.getD []) c
    generalize (i.incoming.getD []).foldl (ingestTephra iter) c = d at hp hc hrows ⊢
    obtain ⟨gp, gc, -, -⟩ := d.publishEvaluatorEvents_spec handle i.publishOk ord
    have hflip := d.publishEvaluatorEvents_rows handle i.publishOk ord
    refine ⟨gp.trans hp, gc.trans hc, fun hzero a b => ?_⟩
    rw [timeouts_flip a b hflip]
    rcases hrows with hrows | ⟨r, hr, hsid, hst⟩
    · rw [timeouts, hrows]
      rfl
    · -- publishing only polls the Prolog mailbox, so the message would still be pending
      have hne : r.sessionId ≠ d.prologId := by
        rw [hsid, hp]
        exact c.idsDistinct.symm
      have hkept : r ∈ (d.publishEvaluatorEvents ord handle i.publishOk).1.world.rows := by
        rw [hflip]
        exact (Coire.mem_flip_pending.mpr ⟨hr, hst, by simp [OriginFilter.selects, hne]⟩).1
      exact absurd hst (clipsPending_eq_zero hzero hkept (by rw [hsid, gc, hc]))

theorem prologPass_spec {c d : CycleController} {i : CycleInput}
    (h : c.prologPass ord i = (true, d)) : d.prologId = c.prologId ∧ d.clipsId = c.clipsId ∧
      ∀ a b, timeouts a b d.world = timeouts a b c.world +
        (i.consume ++ i.goal).countP (MailAct.emitsTimeout a b) := by
  unfold prologPass at h
  cases hok : i.consumeOk with
  | false => simp [hok] at h
  | true =>
    simp only [hok, if_true, Prod.mk.injEq, true_and] at h
    subst h
    refine ⟨rfl, rfl, fun a b => ?_⟩
    rw [timeouts_runActs, timeouts_runActs, timeouts_flip a b (World.poll_rows ord c.world _ _),
      List.countP_append]
    omega

theorem clipsPass_spec {c d : CycleController} {i : CycleInput}
    (h : c.clipsPass ord i = (true, d)) : d.prologId = c.prologId ∧ d.clipsId = c.clipsId ∧
      ∀ a b, timeouts a b d.world = timeouts a b c.world +
        i.clips.countP (MailAct.emitsTimeout a b) := by
  unfold clipsPass at h
  simp only [Prod.mk.injEq] at h
  obtain ⟨-, rfl⟩ := h
  refine ⟨rfl, rfl, fun a b => ?_⟩
  rw [timeouts_runActs, timeouts_flip a b (World.poll_rows ord c.world _ _)]

theorem passes_true {c d : CycleController} {i : CycleInput}
    (h : c.passes ord iter tr i = (true, d)) : ∃ c₁ c₂, c.prologPass ord i = (true, c₁) ∧
      (c₁.relayPrologToClips ord tr).clipsPass ord i = (true, c₂) ∧
      d = (c₂.relayClipsToProlog ord tr).evaluatorPass ord iter i := by
  unfold passes at h
  split at h
  · cases h
  · rename_i c₁ h₁
    split at h
    · cases h
    · rename_i c₂ h₂
      cases h
      exact ⟨c₁, c₂, h₁, h₂, rfl⟩

theorem passes_spec {c d : CycleController} {i : CycleInput}
    (h : c.passes ord iter tr i = (true, d)) : d.prologId = c.prologId ∧ d.clipsId = c.clipsId ∧
      (d.snapshot.clipsPending = 0 → ∀ a b, timeouts a b d.world = timeouts a b c.world +
        (i.consume ++ i.goal ++ i.clips).countP (MailAct.emitsTimeout a b)) := by
  obtain ⟨c₁, c₂, h₁, h₂, rfl⟩ := passes_true ord iter tr h
  obtain ⟨p₁, k₁, t₁⟩ := prologPass_spec ord h₁
  obtain ⟨p₂, k₂, t₂⟩ := clipsPass_spec ord h₂
  obtain ⟨p₃, k₃, t₃⟩ := (c₂.relayClipsToProlog ord tr).evaluatorPass_spec ord iter i
  refine ⟨p₃.trans (p₂.trans p₁), k₃.trans (k₂.trans k₁), fun hzero a b => ?_⟩
  have hpc : timeouts a b (c₁.relayPrologToClips ord tr).world = timeouts a b c₁.world :=
    timeouts_relay a b ord tr.prologToClips "prolog" "prolog:" c₁.prologId c₁.clipsId c₁.world
  have hcp : timeouts a b (c₂.relayClipsToProlog ord tr).world = timeouts a b c₂.world :=
    timeouts_relay a b ord tr.clipsToProlog "clips" "clips:" c₂.clipsId c₂.prologId c₂.world
  rw [t₃ hzero, hcp, t₂, hpc, t₁]
  simp only [List.countP_append]
  omega

/-- What a positive check means: the snapshot was empty, the root goal was queried again,
and no offer was pending or timed out. -/
theorem hasConverged_true {c d : CycleController} {i : CycleInput}
    (h : c.hasConverged ord iter c.snapshot i = (true, d)) :
    c.snapshot.prologPending = 0 ∧ c.snapshot.clipsPending = 0 ∧ d.prologId = c.prologId ∧
      d.clipsId = c.clipsId ∧ d.world = runActs ord c.world i.requery ∧ d.pendingOffers = ∅ := by
  simp only [hasConverged, Prod.mk.injEq, Bool.and_eq_true, beq_iff_eq, Bool.not_eq_true',
    Bool.not_eq_false', List.isEmpty_iff] at h
  obtain ⟨⟨⟨⟨⟨⟨hp, hc⟩, ha⟩, he⟩, ht⟩, -⟩, hd⟩ := h
  have hq : ((c.snapshot.prologPending = 0 ∧ c.snapshot.clipsPending = 0) ∧
      i.agendaEmpty = true) = True := by simp [hp, hc, ha]
  simp only [hq, if_true] at he ht hd
  have hage : (c.reEvaluateRootGoal ord i).ageOffers iter = { c.reEvaluateRootGoal ord i with
      pendingOffers := bump (c.reEvaluateRootGoal ord i).pendingOffers } := by
    rw [ageOffers, ht]
    rfl
  rw [hd] at he
  rw [hage] at hd
  refine ⟨hp, hc, by rw [← hd]; rfl, by rw [← hd]; rfl, by rw [← hd]; rfl, ?_⟩
  exact AList.ext he

theorem relayPending_eq_zero {c : CycleController} (h : c.snapshot.prologPending = 0)
    {r : ClaraEvent} (hr : r ∈ c.world.rows) (hsid : r.sessionId = c.prologId)
    (hst : r.status = .pending) : originLike "relay-" r.origin = false := by
  have := List.countP_eq_zero.mp h r hr
  simpa [hsid, hst] using this

/-- What an empty snapshot leaves to act on is on its way out. -/
theorem outbound_of_actionable {c : CycleController} (hp : c.snapshot.prologPending = 0)
    (hc : c.snapshot.clipsPending = 0) {r : ClaraEvent} (hr : r ∈ c.world.rows) :
    c.actionable r = c.outbound r := by
  by_cases hst : r.status = .pending
  · have hclips : r.sessionId ≠ c.clipsId := fun h => clipsPending_eq_zero hc hr h hst
    by_cases hsid : r.sessionId = c.prologId
    · simp [actionable, outbound, hst, hsid, relayPending_eq_zero hp hr hsid hst, c.idsDistinct]
    · simp [actionable, outbound, beq_eq_false_iff_ne.mpr hsid, beq_eq_false_iff_ne.mpr hclips]
  · simp [actionable, outbound, beq_eq_false_iff_ne.mpr hst]

theorem actionable_pending {c : CycleController} {r : ClaraEvent} (h : c.actionable r = true) :
    r.status = .pending := by
  simp only [actionable, Bool.and_eq_true, beq_iff_eq] at h
  exact h.1

/-- One cycle that ends with a positive check comes to rest exactly when nothing in it went
past the snapshot. -/
theorem fixedPoint_iff_unobserved {start c d : CycleController} {i : CycleInput}
    (hpass : start.passes ord iter tr i = (true, c))
    (hconv : c.hasConverged ord iter c.snapshot i = (true, d)) :
    FixedPoint start d ↔ start.Unobserved ord iter tr i := by
  obtain ⟨hp, hc, dp, dc, hw, hempty⟩ := hasConverged_true ord iter hconv
  obtain ⟨sp, sc, ht⟩ := passes_spec ord iter tr hpass
  have hsnd : (start.passes ord iter tr i).2 = c := by rw [hpass]
  have hact : ∀ r, d.actionable r = c.actionable r := fun r => by rw [actionable, actionable, dp, dc]
  have hrows : ∀ r, (r ∈ d.world.rows ∧ r.status = .pending) ↔
      (r ∈ c.world.rows ∧ r.status = .pending ∧ i.requery.any (MailAct.takes r) = false) ∨
        r ∈ leaves ord c.world i.requery := by
    intro r
    rw [hw]
    exact runActs_pending ord c.world i.requery r
  have htimeouts : timeouts d.prologId d.clipsId d.world =
      timeouts start.prologId start.clipsId start.world +
        (i.consume ++ i.goal ++ i.clips ++ i.requery).countP
          (MailAct.emitsTimeout start.prologId start.clipsId) := by
    rw [dp, dc, sp, sc, hw, timeouts_runActs, ht hc]
    simp only [List.countP_append]
    omega
  constructor
  · intro hf
    refine ⟨?_, ?_, ?_⟩
    · rw [hsnd]
      intro r hr hout
      by_contra htaken
      rw [← outbound_of_actionable hp hc hr] at hout
      have hr' := (hrows r).mpr (.inl ⟨hr, actionable_pending hout, by simpa using htaken⟩)
      have := hf.quiet r hr'.1
      rw [hact, hout] at this
      cases this
    · rw [hsnd]
      intro r hr
      rw [← hact]
      exact hf.quiet r ((hrows r).mpr (.inr hr)).1
    · have hzero := hf.noTimeout
      rw [htimeouts] at hzero
      intro a ha
      have := List.countP_eq_zero.mp (Nat.add_eq_left.mp hzero) a ha
      simpa using this
  · intro hu
    obtain ⟨hpassed, hrequeried, hunforged⟩ := hu
    rw [hsnd] at hpassed hrequeried
    refine ⟨fun r hr => ?_, hempty, ?_⟩
    · rw [hact]
      by_contra hne
      rw [Bool.not_eq_false] at hne
      rcases (hrows r).mp ⟨hr, actionable_pending hne⟩ with ⟨hold, -, hkept⟩ | hleft
      · rw [hpassed r hold (by rw [← outbound_of_actionable hp hc hold]; exact hne)] at hkept
        cases hkept
      · rw [hrequeried r hleft] at hne
        cases hne
    · rw [htimeouts, List.countP_eq_zero.mpr fun a ha => by simp [hunforged a ha], Nat.add_zero]

/-- The cycles of a run: the state each begins in, with what comes in from outside. -/
def cycles (inputs : Nat → CycleInput) :
    (remaining cycle : Nat) → CycleController → List (CycleController × CycleInput)
  | 0, _, _ => []
  | remaining + 1, cycle, c => (c, inputs cycle) ::
    match c.passes ord iter tr (inputs cycle) with
    | (false, _) => []
    | (true, c) =>
      match c.hasConverged ord iter c.snapshot (inputs cycle) with
      | (true, _) => []
      | (false, c) =>
        if (inputs cycle).interrupted then [] else cycles inputs remaining (cycle + 1) c

/-- A converged run ends with a cycle whose check is positive. -/
theorem runLoop_converged (inputs : Nat → CycleInput) (remaining cycle : Nat)
    (c : CycleController) {n : Nat}
    (h : (runLoop ord iter tr inputs remaining cycle c).1 = .converged n) :
    ∃ v ∈ (cycles ord iter tr inputs remaining cycle c).getLast?, ∃ d,
      v.1.passes ord iter tr v.2 = (true, d) ∧ d.hasConverged ord iter d.snapshot v.2 =
        (true, (runLoop ord iter tr inputs remaining cycle c).2) := by
  induction remaining generalizing cycle c with
  | zero => cases h
  | succ remaining ih =>
    unfold runLoop at h ⊢
    unfold cycles
    cases hp : c.passes ord iter tr (inputs cycle) with
    | mk ok d =>
      cases ok with
      | false => simp [hp] at h
      | true =>
        cases hc : d.hasConverged ord iter d.snapshot (inputs cycle) with
        | mk conv e =>
          cases conv with
          | true => exact ⟨(c, inputs cycle), by simp [hc], d, hp, by simp [hc]⟩
          | false =>
            cases hi : (inputs cycle).interrupted with
            | true => simp [hp, hc, hi] at h
            | false =>
              simp only [hp, hc, hi] at h ⊢
              obtain ⟨v, hv, hd⟩ := ih (cycle + 1) e h
              exact ⟨v, by simp [List.getLast?_cons, Option.mem_def.mp hv], hd⟩

/-- A run that returns `Converged` has come to rest exactly when nothing in its last cycle
went past the snapshot: no outbound event was left by the passes, the re-query of the root
goal left nothing to act on, and no engine wrote a timeout event. -/
theorem converged_fixed_point_iff (inputs : Nat → CycleInput) (maxCycles : Nat)
    (c : CycleController) {n : Nat}
    (h : (c.runCycles ord iter tr inputs maxCycles).1 = .converged n) :
    ∃ v ∈ (cycles ord iter tr inputs maxCycles 0 c.injectInitialOffering).getLast?,
      FixedPoint v.1 (c.runCycles ord iter tr inputs maxCycles).2 ↔
        v.1.Unobserved ord iter tr v.2 := by
  obtain ⟨v, hv, d, hpass, hconv⟩ := runLoop_converged ord iter tr inputs maxCycles 0 _ h
  exact ⟨v, hv, fixedPoint_iff_unobserved ord iter tr hpass hconv⟩

/-- A fact is published by either engine in the first cycle; the second is quiet. -/
def publishing : Nat → CycleInput
  | 0 => { goal := [.emit ⟨1⟩ "prolog" (.obj [])], clips := [.emit ⟨2⟩ "clips" (.obj [])] }
  | _ => {}

theorem converged_fixed_point_publishing :
    (joined.runCycles .stable .listed ⟨id, id⟩ publishing 5).1 = .converged 2 ∧
      ∃ v ∈ (cycles .stable .listed ⟨id, id⟩ publishing 5 0 joined).getLast?,
        FixedPoint v.1 (joined.runCycles .stable .listed ⟨id, id⟩ publishing 5).2 := by
  have hconv : (joined.runCycles .stable .listed ⟨id, id⟩ publishing 5).1 = .converged 2 := by
    decide +kernel
  obtain ⟨v, hv, hiff⟩ := converged_fixed_point_iff .stable .listed ⟨id, id⟩ publishing 5 joined hconv
  have hquiet : ∀ v ∈ (cycles .stable .listed ⟨id, id⟩ publishing 5 0 joined).getLast?,
      (∀ r ∈ (v.1.passes .stable .listed ⟨id, id⟩ v.2).2.world.rows,
        (v.1.passes .stable .listed ⟨id, id⟩ v.2).2.outbound r = true →
          v.2.requery.any (MailAct.takes r) = true) ∧
      (∀ r ∈ leaves .stable (v.1.passes .stable .listed ⟨id, id⟩ v.2).2.world v.2.requery,
        (v.1.passes .stable .listed ⟨id, id⟩ v.2).2.actionable r = false) ∧
      ∀ a ∈ v.2.consume ++ v.2.goal ++ v.2.clips ++ v.2.requery,
        a.emitsTimeout v.1.prologId v.1.clipsId = false := by
    decide +kernel
  obtain ⟨h1, h2, h3⟩ := hquiet v hv
  exact ⟨hconv, v, hv, hiff.mpr ⟨h1, h2, h3⟩⟩

/-- The root goal makes an offer only when it is queried again. -/
def offeringLate : Nat → CycleInput := fun _ =>
  { requery := [.uuid, .emit ⟨1⟩ "evaluator/offering" (.obj [])] }

/-- The run converges with the unpublished Offering in its mailbox. -/
theorem requery_offer_is_dropped :
    (joined.runCycles .stable .listed ⟨id, id⟩ offeringLate 5).1 = .converged 1 ∧
      ∀ start, ¬ FixedPoint start (joined.runCycles .stable .listed ⟨id, id⟩ offeringLate 5).2 := by
  refine ⟨by decide +kernel, fun start h => ?_⟩
  have hleft : (joined.runCycles .stable .listed ⟨id, id⟩ offeringLate 5).2.world.rows.any
      (joined.runCycles .stable .listed ⟨id, id⟩ offeringLate 5).2.actionable = true := by
    decide +kernel
  obtain ⟨r, hr, hact⟩ := List.any_eq_true.mp hleft
  rw [h.quiet r hr] at hact
  cases hact

end CycleController

end Cerebellum
