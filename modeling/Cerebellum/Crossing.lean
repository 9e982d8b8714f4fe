import Cerebellum.CoireAccounting
import Cerebellum.ControllerSpec
import Cerebellum.Cycle
import Cerebellum.Lib.Transition

/-! Who takes what out of the two mailboxes. Six consumers poll destructively by the origin
of the events, the relays write what they take into the other mailbox under an origin of
their own, and nothing of it may come back. -/
namespace Cerebellum
open Transition

inductive Consumer where
  | relayPrologToClips
  | coireConsume
  | cawsDrain
  | publishEvaluator
  | relayClipsToProlog
  | clipsConsume
  deriving DecidableEq

namespace Consumer

def filter : Consumer → OriginFilter
  | .relayPrologToClips => .startsWith "prolog"
  | .coireConsume => .startsWith "relay-"
  | .cawsDrain => .startsWith "ritual/"
  | .publishEvaluator => .startsWith "evaluator/"
  | .relayClipsToProlog => .startsWith "clips"
  | .clipsConsume => .notStartsWith "clips"

def mailbox (c : CycleController) : Consumer → Uuid
  | .relayClipsToProlog => c.clipsId
  | .clipsConsume => c.clipsId
  | _ => c.prologId

/-- The origin under which the engine behind a relay emits; the other consumers forward
nothing. -/
def engineOrigin : Consumer → Option String
  | .relayPrologToClips => some "prolog"
  | .relayClipsToProlog => some "clips"
  | _ => none

end Consumer

/-- The Ritual a publisher joined and what its broker accepts. -/
structure Broker where
  handle : RitualHandle
  accepts : ClaraEvent → Bool

/-- An engine, the controller or a client writes an event, or a consumer runs. Only the
publisher looks at the broker. -/
inductive BoundaryStep where
  | emit (sid : Uuid) (origin : String) (payload : Json)
  | consume (k : Consumer) (b : Broker)

def BoundaryStep.runs (k : Consumer) : BoundaryStep → Bool
  | .emit _ _ _ => false
  | .consume k' _ => k' == k

namespace CycleController
variable (ord : RowOrder) (tr : Translators)

def boundaryStep (c : CycleController) : BoundaryStep → CycleController
  | .emit sid origin payload => { c with world := c.world.emit sid origin payload }
  | .consume .relayPrologToClips _ => c.relayPrologToClips ord tr
  | .consume .relayClipsToProlog _ => c.relayClipsToProlog ord tr
  | .consume .publishEvaluator b => (c.publishEvaluatorEvents ord b.handle b.accepts).1
  | .consume k _ => { c with world := (c.world.poll ord (k.mailbox c) k.filter).2 }

/-- The consumer of the step polls the row. -/
def takes (c : CycleController) (r : ClaraEvent) : BoundaryStep → Bool
  | .emit _ _ _ => false
  | .consume k _ => k.filter.selects (k.mailbox c) r

/-- The events a step hands on into the other mailbox. -/
def forwarded (c : CycleController) : BoundaryStep → List ClaraEvent
  | .consume .relayPrologToClips _ => (c.world.poll ord c.prologId (.startsWith "prolog")).1
  | .consume .relayClipsToProlog _ => (c.world.poll ord c.clipsId (.startsWith "clips")).1
  | _ => []

/-- What a step writes: mailbox, origin and payload. A relay writes one event for each it
forwards. -/
def boundaryWrites (c : CycleController) : BoundaryStep → List (Uuid × String × Json)
  | .emit sid origin payload => [(sid, origin, payload)]
  | .consume .relayPrologToClips b => (c.forwarded ord (.consume .relayPrologToClips b)).map
      fun e => (c.clipsId, "relay-prolog:" ++ e.origin, tr.prologToClips e.payload)
  | .consume .relayClipsToProlog b => (c.forwarded ord (.consume .relayClipsToProlog b)).map
      fun e => (c.prologId, "relay-clips:" ++ e.origin, tr.clipsToProlog e.payload)
  | .consume _ _ => []

/-- An event as it is written. -/
def asWritten (e : ClaraEvent) : Uuid × String × Json := (e.sessionId, e.origin, e.payload)

theorem foldl_emit_rows (events : List ClaraEvent) (f : ClaraEvent → Uuid × String × Json)
    (w : World) : ∃ new : List ClaraEvent,
      (events.foldl (fun w e => w.emit (f e).1 (f e).2.1 (f e).2.2) w).rows = w.rows ++ new ∧
        new.map asWritten = events.map f ∧ ∀ e ∈ new, e.status = .pending := by
  induction events generalizing w with
  | nil => exact ⟨[], by simp⟩
  | cons e events ih =>
    obtain ⟨new, hrows, hnew, hst⟩ := ih (w.emit (f e).1 (f e).2.1 (f e).2.2)
    refine ⟨w.newEvent (f e).1 (f e).2.1 (f e).2.2 :: new, ?_, ?_, ?_⟩
    · rw [List.foldl_cons, hrows, World.emit_rows, List.append_assoc]
      rfl
    · rw [List.map_cons, hnew]
      rfl
    · intro x hx
      rcases List.mem_cons.mp hx with rfl | hx
      · rfl
      · exact hst x hx

theorem relay_rows (translate : Json → Json) (own tag : String) (src dst : Uuid) (w : World) :
    ∃ new : List ClaraEvent, (relay ord translate own tag src dst w).rows =
      (w.rows.map fun r => if (OriginFilter.startsWith own).selects src r
        then r.withStatus .processed else r) ++ new ∧
      new.map asWritten = (w.poll ord src (.startsWith own)).1.map
        (fun e => (dst, tag ++ e.origin, translate e.payload)) ∧
      ∀ e ∈ new, e.status = .pending := by
  obtain ⟨new, hrows, hnew⟩ := foldl_emit_rows (w.poll ord src (.startsWith own)).1
    (fun e => (dst, tag ++ e.origin, translate e.payload)) (w.poll ord src (.startsWith own)).2
  rw [World.poll_rows] at hrows
  exact ⟨new, hrows, hnew⟩

/-- Everything a step can do to the table, said once. -/
theorem boundaryStep_rows (c : CycleController) (s : BoundaryStep) : ∃ new : List ClaraEvent,
    (c.boundaryStep ord tr s).world.rows =
      (c.world.rows.map fun r => if c.takes r s then r.withStatus .processed else r) ++ new ∧
    new.map asWritten = c.boundaryWrites ord tr s ∧ ∀ e ∈ new, e.status = .pending := by
  cases s with
  | emit sid origin payload =>
    refine ⟨[c.world.newEvent sid origin payload], ?_, rfl, by simp [World.newEvent]⟩
    simp [boundaryStep, takes, World.emit_rows]
  | consume k b =>
    cases k with
    | relayPrologToClips =>
      exact relay_rows ord tr.prologToClips "prolog" "relay-prolog:" c.prologId c.clipsId c.world
    | relayClipsToProlog =>
      exact relay_rows ord tr.clipsToProlog "clips" "relay-clips:" c.clipsId c.prologId c.world
    | publishEvaluator =>
      refine ⟨[], ?_, rfl, by simp⟩
      rw [List.append_nil]
      exact publishEvaluatorEvents_rows b.handle b.accepts ord c
    | coireConsume =>
      exact ⟨[], by rw [List.append_nil]; exact World.poll_rows ord c.world _ _, rfl, by simp⟩
    | cawsDrain =>
      exact ⟨[], by rw [List.append_nil]; exact World.poll_rows ord c.world _ _, rfl, by simp⟩
    | clipsConsume =>
      exact ⟨[], by rw [List.append_nil]; exact World.poll_rows ord c.world _ _, rfl, by simp⟩

theorem boundaryStep_ids (c : CycleController) (s : BoundaryStep) :
    (c.boundaryStep ord tr s).prologId = c.prologId ∧
      (c.boundaryStep ord tr s).clipsId = c.clipsId := by
  cases s with
  | emit sid origin payload => exact ⟨rfl, rfl⟩
  | consume k b =>
    cases k with
    | publishEvaluator =>
      have h := publishEvaluatorEvents_spec b.handle b.accepts ord c
      exact ⟨h.1, h.2.1⟩
    | _ => exact ⟨rfl, rfl⟩

theorem takes_pending {c : CycleController} {r : ClaraEvent} {s : BoundaryStep}
    (h : c.takes r s = true) : r.status = .pending := by
  cases s with
  | emit sid origin payload => cases h
  | consume k b => exact CoireOp.selects_pending h

theorem takes_step (c : CycleController) (r : ClaraEvent) (s t : BoundaryStep) :
    (c.boundaryStep ord tr s).takes r t = c.takes r t := by
  cases t with
  | emit sid origin payload => rfl
  | consume k b =>
    obtain ⟨hp, hc⟩ := boundaryStep_ids ord tr c s
    cases k <;> simp [takes, Consumer.mailbox, hp, hc]

theorem takes_run (c : CycleController) (r : ClaraEvent) (steps : List BoundaryStep)
    (t : BoundaryStep) : (Transition.run (boundaryStep ord tr) c steps).takes r t = c.takes r t := by
  induction steps generalizing c with
  | nil => rfl
  | cons s steps ih => exact (ih _).trans (takes_step ord tr c r s t)

/-- A row stays in the table; being taken flips its status and nothing else happens to it. -/
theorem boundaryStep_row {c : CycleController} {r : ClaraEvent} (hr : r ∈ c.world.rows)
    (s : BoundaryStep) : (if c.takes r s then r.withStatus .processed else r) ∈
      (c.boundaryStep ord tr s).world.rows := by
  obtain ⟨new, hrows, -⟩ := boundaryStep_rows ord tr c s
  rw [hrows]
  exact List.mem_append_left _ (List.mem_map_of_mem hr)

/-- As long as no step takes it, a row stays as it is. -/
theorem run_row {c : CycleController} {r : ClaraEvent} (hr : r ∈ c.world.rows)
    {steps : List BoundaryStep} (h : ∀ s ∈ steps, c.takes r s = false) :
    r ∈ (Transition.run (boundaryStep ord tr) c steps).world.rows := by
  induction steps generalizing c with
  | nil => exact hr
  | cons s steps ih =>
    have hs := boundaryStep_row ord tr hr s
    rw [h s (by simp), if_neg (by simp)] at hs
    refine ih hs fun t ht => ?_
    rw [takes_step]
    exact h t (List.mem_cons_of_mem _ ht)

/-- How often a step hands the event `id` on. -/
def forwards (c : CycleController) (id : Uuid) (s : BoundaryStep) : Nat :=
  (c.forwarded ord s).countP (·.eventId == id)

/-- How often a run does. -/
def timesForwarded (c : CycleController) (id : Uuid) (steps : List BoundaryStep) : Nat :=
  ((visits (boundaryStep ord tr) c steps).map fun v => v.1.forwards ord id v.2).sum

theorem poll_countP {w : World} {r : ClaraEvent} (hr : r ∈ w.rows) (sid : Uuid)
    (f : OriginFilter) : ((w.poll ord sid f).1.countP (·.eventId == r.eventId)) =
      if f.selects sid r then 1 else 0 := by
  have hids : (w.poll ord sid f).1.countP (·.eventId == r.eventId) =
      ((w.rows.filter (f.selects sid)).map ClaraEvent.eventId).count r.eventId := by
    rw [World.poll, (Coire.poll_events_perm ord w.coire sid f).countP_eq, List.countP_map,
      List.count, List.countP_map]
    rfl
  have hnodup : ((w.rows.filter (f.selects sid)).map ClaraEvent.eventId).Nodup :=
    (List.filter_sublist.map _).nodup w.coire.primaryKey
  rw [hids]
  split
  · rename_i hsel
    refine List.count_eq_one_of_mem hnodup (List.mem_map.mpr ⟨r, ?_, rfl⟩)
    exact List.mem_filter.mpr ⟨hr, hsel⟩
  · rename_i hsel
    refine List.count_eq_zero.mpr fun hmem => hsel ?_
    obtain ⟨x, hx, hid⟩ := List.mem_map.mp hmem
    obtain ⟨hx, hxsel⟩ := List.mem_filter.mp hx
    rwa [← Coire.eq_of_eventId hx hr hid]

/-- A relay forwards each row it takes once; no other step forwards anything. -/
theorem forwards_eq {c : CycleController} {r : ClaraEvent} (hr : r ∈ c.world.rows)
    (k : Consumer) (b : Broker) : c.forwards ord r.eventId (.consume k b) =
      if k.engineOrigin.isSome && c.takes r (.consume k b) then 1 else 0 := by
  cases k with
  | relayPrologToClips => exact poll_countP ord hr c.prologId (.startsWith "prolog")
  | relayClipsToProlog => exact poll_countP ord hr c.clipsId (.startsWith "clips")
  | _ => rfl

theorem forwards_zero {c : CycleController} {r : ClaraEvent} (hr : r ∈ c.world.rows)
    {s : BoundaryStep} (h : c.takes r s = false) : c.forwards ord r.eventId s = 0 := by
  cases s with
  | emit sid origin payload => rfl
  | consume k b => rw [forwards_eq ord hr, h]; simp

/-- What no step takes, no step forwards. -/
theorem timesForwarded_zero {c : CycleController} {r : ClaraEvent} (hr : r ∈ c.world.rows)
    {steps : List BoundaryStep} (h : ∀ s ∈ steps, c.takes r s = false) :
    c.timesForwarded ord tr r.eventId steps = 0 := by
  refine List.sum_eq_zero_iff_forall_eq_nat.mpr fun n hn => ?_
  obtain ⟨v, hv, rfl⟩ := List.mem_map.mp hn
  obtain ⟨u, w, rfl, hreach⟩ := mem_visits hv
  have hrow : r ∈ (Transition.run (boundaryStep ord tr) c u).world.rows :=
    run_row ord tr hr fun s hs => h s (by simp [hs])
  rw [← hreach] at hrow
  refine forwards_zero ord hrow ?_
  rw [hreach, takes_run]
  exact h v.2 (by simp)

/-- Two prefixes of one origin, neither of which starts the other, cannot both be there. -/
theorem originLike_exclusive {p q o : String} (hp : SqlText.Literal p.toList)
    (hq : SqlText.Literal q.toList) (hpq : p.toList.isPrefixOf q.toList = false)
    (hqp : q.toList.isPrefixOf p.toList = false) (ho : originLike p o = true) :
    originLike q o = false := by
  rw [originLike_eq _ _ hp, List.isPrefixOf_iff_prefix] at ho
  rw [originLike_eq _ _ hq, ← Bool.not_eq_true, List.isPrefixOf_iff_prefix]
  intro hoq
  rcases List.prefix_or_prefix_of_prefix ho hoq with h | h
  · exact Bool.false_ne_true (hpq.symm.trans (List.isPrefixOf_iff_prefix.mpr h))
  · exact Bool.false_ne_true (hqp.symm.trans (List.isPrefixOf_iff_prefix.mpr h))

theorem selects_mailbox {c : CycleController} {k : Consumer} {r : ClaraEvent}
    (h : k.filter.selects (k.mailbox c) r = true) :
    r.sessionId = k.mailbox c ∧ k.filter.cond r.origin = true := by
  simp only [OriginFilter.selects, Bool.and_eq_true, beq_iff_eq] at h
  exact ⟨h.1.1, h.2⟩

/-- No row is eligible for two consumers. -/
theorem selects_unique {c : CycleController} {k k' : Consumer} {r : ClaraEvent}
    (h : k.filter.selects (k.mailbox c) r = true)
    (h' : k'.filter.selects (k'.mailbox c) r = true) : k = k' := by
  obtain ⟨hs, ho⟩ := selects_mailbox h
  obtain ⟨hs', ho'⟩ := selects_mailbox h'
  have hm : k.mailbox c = k'.mailbox c := hs.symm.trans hs'
  have hex : ∀ {p q : String}, originLike p r.origin = true → originLike q r.origin = true →
      SqlText.Literal p.toList → SqlText.Literal q.toList →
      p.toList.isPrefixOf q.toList = false → q.toList.isPrefixOf p.toList = false → False :=
    fun hp hq lp lq n n' => Bool.false_ne_true ((originLike_exclusive lp lq n n' hp).symm.trans hq)
  cases k <;> cases k' <;> first
    | rfl
    | exact absurd hm c.idsDistinct
    | exact absurd hm.symm c.idsDistinct
    | exact (hex ho ho' (by decide) (by decide) (by decide) (by decide)).elim
    | simp [Consumer.filter, OriginFilter.cond] at ho ho'; simp [ho] at ho'

theorem run_row_status {c : CycleController} {r : ClaraEvent} {st : EventStatus}
    (hr : r.withStatus st ∈ c.world.rows) (steps : List BoundaryStep) :
    ∃ st', r.withStatus st' ∈ (Transition.run (boundaryStep ord tr) c steps).world.rows := by
  induction steps generalizing c st with
  | nil => exact ⟨st, hr⟩
  | cons s steps ih =>
    have hs := boundaryStep_row ord tr hr s
    split at hs
    · exact @ih _ .processed hs
    · exact ih hs

/-- What a relay wrote carries an origin no relay asks for. -/
theorem relayed_not_taken {c : CycleController} {r : ClaraEvent} {k : Consumer} (b : Broker)
    (hk : k.engineOrigin.isSome = true) (h : originLike "relay-" r.origin = true) :
    c.takes r (.consume k b) = false := by
  have hno : k.filter.cond r.origin = false := by
    cases k with
    | relayPrologToClips =>
      exact originLike_exclusive (by decide) (by decide) (by decide) (by decide) h
    | relayClipsToProlog =>
      exact originLike_exclusive (by decide) (by decide) (by decide) (by decide) h
    | _ => cases hk
  simp [takes, OriginFilter.selects, hno]

theorem relayed_not_forwarded {c : CycleController} {r : ClaraEvent} (hr : r ∈ c.world.rows)
    (h : originLike "relay-" r.origin = true) (steps : List BoundaryStep) :
    c.timesForwarded ord tr r.eventId steps = 0 := by
  refine List.sum_eq_zero_iff_forall_eq_nat.mpr fun n hn => ?_
  obtain ⟨v, hv, rfl⟩ := List.mem_map.mp hn
  obtain ⟨u, w, rfl, hreach⟩ := mem_visits hv
  obtain ⟨st, hrow⟩ := @run_row_status ord tr _ _ r.status hr u
  rw [← hreach] at hrow
  cases hs : v.2 with
  | emit sid origin payload => rfl
  | consume k b =>
    have hf := forwards_eq ord hrow k b
    cases hk : k.engineOrigin.isSome with
    | false => simpa [hk] using hf
    | true => simpa [hk, relayed_not_taken b hk (r := r.withStatus st) h] using hf

/-- The rows a relay adds are the ones it writes. -/
theorem relay_new_origin {c : CycleController} {k : Consumer} (b : Broker)
    (hk : k.engineOrigin.isSome = true) {e : ClaraEvent}
    (he : e ∈ (c.boundaryStep ord tr (.consume k b)).world.rows)
    (hnew : ∀ r ∈ c.world.rows, r.eventId ≠ e.eventId) :
    originLike "relay-" e.origin = true := by
  obtain ⟨new, hrows, hwritten, -⟩ := boundaryStep_rows ord tr c (.consume k b)
  rw [hrows] at he
  have hmem : e ∈ new := by
    rcases List.mem_append.mp he with h | h
    · obtain ⟨r, hr, rfl⟩ := List.mem_map.mp h
      refine absurd ?_ (hnew r hr)
      split <;> rfl
    · exact h
  have hw : asWritten e ∈ c.boundaryWrites ord tr (.consume k b) := by
    rw [← hwritten]
    exact List.mem_map_of_mem hmem
  have hpre : ∀ o : String, ∀ tag rest : String, tag = "relay-" ++ rest →
      originLike "relay-" (tag ++ o) = true := by
    intro o tag rest htag
    rw [htag, String.append_assoc]
    exact originLike_append _ _ (by decide)
  cases k with
  | relayPrologToClips =>
    obtain ⟨x, -, hx⟩ := List.mem_map.mp hw
    have ho : "relay-prolog:" ++ x.origin = e.origin := congrArg (fun p => p.2.1) hx
    rw [← ho]
    exact hpre _ _ "prolog:" (by decide)
  | relayClipsToProlog =>
    obtain ⟨x, -, hx⟩ := List.mem_map.mp hw
    have ho : "relay-clips:" ++ x.origin = e.origin := congrArg (fun p => p.2.1) hx
    rw [← ho]
    exact hpre _ _ "clips:" (by decide)
  | _ => cases hk

/-- What holds at a state of a run about everything that can follow. -/
structure CrossesOnce (c : CycleController) : Prop where
  /-- A relay's own events are not forwarded again, by it or by the other one. -/
  relayed : ∀ (k : Consumer) (b : Broker), k.engineOrigin.isSome = true →
    ∀ e ∈ (c.boundaryStep ord tr (.consume k b)).world.rows,
      (∀ r ∈ c.world.rows, r.eventId ≠ e.eventId) → ∀ steps,
        (c.boundaryStep ord tr (.consume k b)).timesForwarded ord tr e.eventId steps = 0
  /-- What an engine emits waits for its relay. -/
  emitted : ∀ (k : Consumer) (o : String), k.engineOrigin = some o → ∀ payload, ∃ r,
    r ∈ (c.boundaryStep ord tr (.emit (k.mailbox c) o payload)).world.rows ∧
      r = c.world.newEvent (k.mailbox c) o payload ∧ k.filter.selects (k.mailbox c) r = true
  /-- It goes over once, with the relay's next run, and then never again. -/
  forwarded : ∀ k : Consumer, k.engineOrigin.isSome = true →
    ∀ r ∈ c.world.rows, k.filter.selects (k.mailbox c) r = true →
      ∀ before, (∀ s ∈ before, s.runs k = false) →
        c.timesForwarded ord tr r.eventId before = 0 ∧
        ∀ b after,
          (Transition.run (boundaryStep ord tr) c before).forwards ord r.eventId (.consume k b) = 1 ∧
          (Transition.run (boundaryStep ord tr) c (before ++ [.consume k b])).timesForwarded ord tr
            r.eventId after = 0
  /-- No consumer of its own engine, nor any other, ever takes it. -/
  dispatched : ∀ k : Consumer, k.engineOrigin.isSome = true →
    ∀ r ∈ c.world.rows, k.filter.selects (k.mailbox c) r = true →
      ∀ steps, ∀ v ∈ visits (boundaryStep ord tr) c steps, ∀ r' ∈ v.1.world.rows,
        r'.eventId = r.eventId → v.1.takes r' v.2 = true → v.2.runs k = true
  /-- Nothing waits for two consumers. -/
  eligible : ∀ r ∈ c.world.rows, ∀ k k' : Consumer, k.filter.selects (k.mailbox c) r = true →
    k'.filter.selects (k'.mailbox c) r = true → k = k'

theorem not_takes_of_runs {c : CycleController} {k : Consumer} {r : ClaraEvent}
    (h : k.filter.selects (k.mailbox c) r = true) {s : BoundaryStep} (hs : s.runs k = false) :
    c.takes r s = false := by
  cases s with
  | emit sid origin payload => rfl
  | consume k' b =>
    rw [takes, ← Bool.not_eq_true]
    intro htake
    simp [BoundaryStep.runs, selects_unique htake h] at hs

/-- After the relay's run the row is processed, and stays so. -/
theorem relay_forwards_once {c : CycleController} {k : Consumer} (b : Broker)
    (hk : k.engineOrigin.isSome = true) {r : ClaraEvent} (hr : r ∈ c.world.rows)
    (h : k.filter.selects (k.mailbox c) r = true) (after : List BoundaryStep) :
    c.forwards ord r.eventId (.consume k b) = 1 ∧
      (c.boundaryStep ord tr (.consume k b)).timesForwarded ord tr r.eventId after = 0 := by
  have htake : c.takes r (.consume k b) = true := h
  constructor
  · rw [forwards_eq ord hr, hk, htake]
    rfl
  · have hrow := boundaryStep_row ord tr hr (.consume k b)
    rw [htake, if_pos rfl] at hrow
    have hdone : ∀ s ∈ after, (c.boundaryStep ord tr (.consume k b)).takes
        (r.withStatus .processed) s = false := by
      intro s _
      rw [← Bool.not_eq_true]
      intro hs
      cases takes_pending hs
    exact timesForwarded_zero ord tr hrow hdone

/-- Everything a consumer can take under a row's id is that row, or what became of it. -/
theorem visit_row_status {c : CycleController} {r : ClaraEvent} (hr : r ∈ c.world.rows)
    {steps : List BoundaryStep} {v : CycleController × BoundaryStep}
    (hv : v ∈ visits (boundaryStep ord tr) c steps) {r' : ClaraEvent}
    (hr' : r' ∈ v.1.world.rows) (hid : r'.eventId = r.eventId) : ∃ st, r' = r.withStatus st := by
  obtain ⟨u, w, -, hreach⟩ := mem_visits hv
  obtain ⟨st, hrow⟩ := @run_row_status ord tr _ _ r.status hr u
  rw [← hreach] at hrow
  exact ⟨st, Coire.eq_of_eventId hr' hrow hid⟩

theorem crossesOnce (c : CycleController) : c.CrossesOnce ord tr where
  relayed k b hk e he hnew steps :=
    relayed_not_forwarded ord tr he (relay_new_origin ord tr b hk he hnew) steps
  emitted k o ho payload := by
    refine ⟨c.world.newEvent (k.mailbox c) o payload, ?_, rfl, ?_⟩
    · rw [boundaryStep, World.emit_rows]
      simp
    · cases k with
      | relayPrologToClips =>
        cases ho
        simp [OriginFilter.selects, World.newEvent, Consumer.filter, OriginFilter.cond]
        decide
      | relayClipsToProlog =>
        cases ho
        simp [OriginFilter.selects, World.newEvent, Consumer.filter, OriginFilter.cond]
        decide
      | _ => cases ho
  forwarded k hk r hr h before hbefore := by
    have hmiss : ∀ s ∈ before, c.takes r s = false := fun s hs => not_takes_of_runs h (hbefore s hs)
    have hrow := run_row ord tr hr hmiss
    refine ⟨timesForwarded_zero ord tr hr hmiss, fun b after => ?_⟩
    have hsel : k.filter.selects (k.mailbox (Transition.run (boundaryStep ord tr) c before)) r =
        true := (takes_run ord tr c r before (.consume k b)).trans h
    rw [run_append]
    exact relay_forwards_once ord tr b hk hrow hsel after
  dispatched k hk r hr h steps v hv r' hr' hid htake := by
    obtain ⟨st, rfl⟩ := visit_row_status ord tr hr hv hr' hid
    have hpend := takes_pending htake
    have hst : st = r.status := hpend.trans (CoireOp.selects_pending h).symm
    subst hst
    obtain ⟨u, w, -, hreach⟩ := mem_visits hv
    rw [hreach, takes_run] at htake
    by_contra hother
    rw [Bool.not_eq_true] at hother
    exact Bool.false_ne_true ((not_takes_of_runs h hother).symm.trans htake)
  eligible r _ k k' h h' := selects_unique h h'

end CycleController

end Cerebellum
