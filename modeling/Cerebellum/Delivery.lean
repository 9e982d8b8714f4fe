import Cerebellum.Crossing
import Cerebellum.Lib.Batch
import Mathlib.Data.List.TakeWhile

/-! What becomes of the events a relay or the publisher takes when the deliveries can fail.
The poll has marked the whole batch processed before the first delivery is tried. -/
namespace Cerebellum
open Transition Batch
variable {ε : Type*}

/-- Forward one event; `fails` is what `write_event` returns for it. The new event's id is
minted in either case. -/
def forwardEvent (translate : Json → Json) (tag : String) (dst : Uuid)
    (fails : ClaraEvent → Option ε) (w : World) (e : ClaraEvent) : Option ε × World :=
  match fails e with
  | some err => (some err, w.newV4.2)
  | none => (none, w.emit dst (tag ++ e.origin) (translate e.payload))

/-- A relay with its early return: the number of events, or the first failed write. -/
def tryRelay (ord : RowOrder) (translate : Json → Json) (own tag : String) (src dst : Uuid)
    (fails : ClaraEvent → Option ε) (w : World) : Except ε Nat × World :=
  let (events, w) := w.poll ord src (.startsWith own)
  match upTo (forwardEvent translate tag dst fails) w events with
  | (none, w) => (.ok events.length, w)
  | (some err, w) => (.error err, w)

namespace CycleController

def tryRelayPrologToClips (ord : RowOrder) (tr : Translators) (fails : ClaraEvent → Option ε)
    (c : CycleController) : Except ε Nat × World :=
  tryRelay ord tr.prologToClips "prolog" "relay-prolog:" c.prologId c.clipsId fails c.world

def tryRelayClipsToProlog (ord : RowOrder) (tr : Translators) (fails : ClaraEvent → Option ε)
    (c : CycleController) : Except ε Nat × World :=
  tryRelay ord tr.clipsToProlog "clips" "relay-clips:" c.clipsId c.prologId fails c.world

end CycleController

section Forward
variable (translate : Json → Json) (tag : String) (dst : Uuid) (fails : ClaraEvent → Option ε)

theorem upTo_forwardEvent_rows (events : List ClaraEvent) (w : World) :
    w.rows ⊆ (upTo (forwardEvent translate tag dst fails) w events).2.rows := by
  induction events generalizing w with
  | nil => exact fun r hr => hr
  | cons e events ih =>
    cases hf : fails e with
    | some err =>
      have herr : (forwardEvent translate tag dst fails w e).1 = some err := by
        simp [forwardEvent, hf]
      rw [upTo_cons_error herr]
      simp [after, forwardEvent, hf]
    | none =>
      have hok : (forwardEvent translate tag dst fails w e).1 = none := by
        simp [forwardEvent, hf]
      rw [upTo_cons_ok hok]
      refine fun r hr => ih _ ?_
      simp [after, forwardEvent, hf, World.emit_rows, hr]

/-- Writing stops at the first failure. -/
theorem upTo_forwardEvent_log (events : List ClaraEvent) (w : World) :
    (upTo (forwardEvent translate tag dst fails) w events).2.log dst = w.log dst ++
      (events.takeWhile fun e => (fails e).isNone).map fun e =>
        (tag ++ e.origin, translate e.payload) := by
  induction events generalizing w with
  | nil => simp [upTo]
  | cons e events ih =>
    cases hf : fails e with
    | some err =>
      have herr : (forwardEvent translate tag dst fails w e).1 = some err := by
        simp [forwardEvent, hf]
      rw [upTo_cons_error herr]
      simp [after, forwardEvent, hf]
    | none =>
      have hok : (forwardEvent translate tag dst fails w e).1 = none := by
        simp [forwardEvent, hf]
      rw [upTo_cons_ok hok, ih]
      simp [after, forwardEvent, hf, World.emit_log]

theorem upTo_forwardEvent_ok (events : List ClaraEvent) (w : World)
    (h : ∀ e ∈ events, fails e = none) :
    upTo (forwardEvent translate tag dst fails) w events =
      (none, events.foldl (fun w e => w.emit dst (tag ++ e.origin) (translate e.payload)) w) := by
  induction events generalizing w with
  | nil => rfl
  | cons e events ih =>
    have hok : (forwardEvent translate tag dst fails w e).1 = none := by
      simp [forwardEvent, h e (by simp)]
    rw [upTo_cons_ok hok, ih _ fun x hx => h x (List.mem_cons_of_mem _ hx)]
    simp [after, forwardEvent, h e (by simp)]

end Forward

section Relay
variable (ord : RowOrder) (translate : Json → Json) (own tag : String) (src dst : Uuid)
  (fails : ClaraEvent → Option ε) (w : World)

theorem tryRelay_world : (tryRelay ord translate own tag src dst fails w).2 =
    (upTo (forwardEvent translate tag dst fails) (w.poll ord src (.startsWith own)).2
      (w.poll ord src (.startsWith own)).1).2 := by
  unfold tryRelay
  dsimp only
  split
  · rename_i h
    rw [h]
  · rename_i h
    rw [h]

/-- As long as every write succeeds this is the relay of the cycle. -/
theorem tryRelay_eq_relay
    (h : ∀ e ∈ (w.poll ord src (.startsWith own)).1, fails e = none) :
    tryRelay ord translate own tag src dst fails w =
      (.ok (w.poll ord src (.startsWith own)).1.length, relay ord translate own tag src dst w) := by
  unfold tryRelay
  dsimp only
  rw [upTo_forwardEvent_ok translate tag dst fails _ _ h]
  rfl

theorem tryRelay_log : (tryRelay ord translate own tag src dst fails w).2.log dst = w.log dst ++
    ((w.poll ord src (.startsWith own)).1.takeWhile fun e => (fails e).isNone).map fun e =>
      (tag ++ e.origin, translate e.payload) := by
  rw [tryRelay_world, upTo_forwardEvent_log, World.poll_log]

theorem tryRelay_rows :
    (w.rows.map fun r => if (OriginFilter.startsWith own).selects src r
      then r.withStatus .processed else r) ⊆
        (tryRelay ord translate own tag src dst fails w).2.rows := by
  rw [tryRelay_world, ← World.poll_rows ord]
  exact upTo_forwardEvent_rows translate tag dst fails _ _

end Relay

/-- Each event that was pending in the mailbox `src` is among the delivered ones or pending
as before. -/
def DeliveredOrKept (src : Uuid) (w w' : World) (delivered : List ClaraEvent) : Prop :=
  delivered.Nodup ∧ ∀ r ∈ w.rows, r.sessionId = src → r.status = .pending →
    r.withStatus .processed ∈ delivered ∨ r ∈ w'.rows

section Kept
variable {ord : RowOrder} {src : Uuid} {f : OriginFilter} {w w' : World}

theorem poll_nodup (ord : RowOrder) (w : World) (src : Uuid) (f : OriginFilter) :
    (w.poll ord src f).1.Nodup := by
  have hids : ((w.rows.filter (f.selects src)).map ClaraEvent.eventId).Nodup :=
    (List.filter_sublist.map _).nodup w.coire.primaryKey
  refine (Coire.poll_events_perm ord w.coire src f).nodup_iff.mpr ?_
  refine List.Nodup.of_map ClaraEvent.eventId ?_
  rw [List.map_map]
  exact hids

/-- If nothing of what a poll took may be lost, all of it is delivered. -/
theorem poll_length_le_delivered
    (hrows : (w.rows.map fun r => if f.selects src r then r.withStatus .processed else r) ⊆ w'.rows)
    {delivered : List ClaraEvent} (h : DeliveredOrKept src w w' delivered) :
    (w.poll ord src f).1.length ≤ delivered.length := by
  refine (List.subperm_of_subset (poll_nodup ord w src f) fun e he => ?_).length_le
  obtain ⟨r, hr, hsel, rfl⟩ := (World.mem_poll ord).mp he
  have hmine : r.sessionId = src ∧ r.status = .pending := by
    simp only [OriginFilter.selects, Bool.and_eq_true, beq_iff_eq] at hsel
    exact hsel.1
  rcases h.2 r hr hmine.1 hmine.2 with hdone | hkept
  · exact hdone
  · -- the row is there under its id, but processed
    have hflip : r.withStatus .processed ∈ w'.rows :=
      hrows (List.mem_map.mpr ⟨r, hr, by rw [if_pos hsel]⟩)
    have hsame := Coire.eq_of_eventId hkept hflip rfl
    rw [hsame] at hmine
    cases hmine.2

/-- A poll whose events are all delivered leaves the others pending. -/
theorem deliveredOrKept_poll (ord : RowOrder)
    (hrows : (w.rows.map fun r => if f.selects src r then r.withStatus .processed else r) ⊆ w'.rows) :
    DeliveredOrKept src w w' (w.poll ord src f).1 := by
  refine ⟨poll_nodup ord w src f, fun r hr _ _ => ?_⟩
  by_cases hsel : f.selects src r = true
  · exact .inl ((World.mem_poll ord).mpr ⟨r, hr, hsel, rfl⟩)
  · exact .inr (hrows (List.mem_map.mpr ⟨r, hr, by rw [if_neg hsel]⟩))

end Kept

theorem all_of_takeWhile_length {α : Type*} {p : α → Bool} {l : List α}
    (h : l.length ≤ (l.takeWhile p).length) : ∀ x ∈ l, p x = true := by
  have heq : l.takeWhile p = l := (List.takeWhile_prefix p).eq_of_length_le h
  exact List.takeWhile_eq_self_iff.mp heq

/-- A relay's law: what it wrote into the destination, and nothing else, is delivered. -/
def RelayKeeps (translate : Json → Json) (tag : String) (src dst : Uuid) (w w' : World) : Prop :=
  ∃ delivered : List ClaraEvent, DeliveredOrKept src w w' delivered ∧
    w'.log dst = w.log dst ++ delivered.map fun e => (tag ++ e.origin, translate e.payload)

theorem relayKeeps_iff (ord : RowOrder) (translate : Json → Json) (own tag : String)
    (src dst : Uuid) (fails : ClaraEvent → Option ε) (w : World) :
    RelayKeeps translate tag src dst w (tryRelay ord translate own tag src dst fails w).2 ↔
      ∀ r ∈ w.rows, (OriginFilter.startsWith own).selects src r = true →
        fails (r.withStatus .processed) = none := by
  have hrows := tryRelay_rows ord translate own tag src dst fails w
  constructor
  · rintro ⟨delivered, hkept, hlog⟩ r hr hsel
    have hlen := @poll_length_le_delivered ord _ _ _ _ hrows _ hkept
    rw [tryRelay_log] at hlog
    have hcount := congrArg List.length (List.append_cancel_left hlog)
    rw [List.length_map, List.length_map] at hcount
    have hall := all_of_takeWhile_length (hlen.trans hcount.ge)
    have hr' := hall _ ((World.mem_poll ord).mpr ⟨r, hr, hsel, rfl⟩)
    simpa using hr'
  · intro h
    refine ⟨_, deliveredOrKept_poll ord hrows, ?_⟩
    rw [tryRelay_log]
    have hall : ∀ e ∈ (w.poll ord src (.startsWith own)).1, (fails e).isNone = true := by
      intro e he
      obtain ⟨r, hr, hsel, rfl⟩ := (World.mem_poll ord).mp he
      rw [h r hr hsel]
      rfl
    rw [List.takeWhile_eq_self_iff.mpr hall]

namespace CycleController
variable (handle : RitualHandle) (publishOk : ClaraEvent → Bool)

/-- The message carries the event: its payload without the directive, or the event whole. -/
def Carries (e : ClaraEvent) (m : Outgoing) : Prop :=
  m.body = cleanBody e.payload ∨ m.body = eventValue e

theorem publishEvent_out (c : CycleController) (e : ClaraEvent) :
    List.Forall₂ Carries (if publishOk e then [e] else []) (c.publishEvent handle publishOk e).2 := by
  unfold publishEvent
  generalize cawsDirective c.world e handle = d
  obtain ⟨caws, w⟩ := d
  by_cases hok : publishOk e = true
  · cases caws <;> simp [hok, Carries]
  · cases caws <;> simp [hok]

/-- One message goes out for each event the broker accepts. -/
theorem publishEvents_out (c : CycleController) (es : List ClaraEvent) :
    List.Forall₂ Carries (es.filter publishOk) (publishEvents handle publishOk c es).2 := by
  induction es generalizing c with
  | nil => exact .nil
  | cons e es ih =>
    have hsplit : (e :: es).filter publishOk =
        (if publishOk e then [e] else []) ++ es.filter publishOk := by
      by_cases hok : publishOk e = true <;> simp [hok]
    rw [hsplit, publishEvents]
    exact List.rel_append (publishEvent_out handle publishOk c e) (ih _)

/-- The publisher's law. -/
def PublishKeeps (c c' : CycleController) (out : List Outgoing) : Prop :=
  ∃ delivered : List ClaraEvent, DeliveredOrKept c.prologId c.world c'.world delivered ∧
    List.Forall₂ Carries delivered out

theorem publishKeeps_iff (ord : RowOrder) (c : CycleController) :
    c.PublishKeeps (c.publishEvaluatorEvents ord handle publishOk).1
        (c.publishEvaluatorEvents ord handle publishOk).2 ↔
      ∀ r ∈ c.world.rows, (OriginFilter.startsWith "evaluator/").selects c.prologId r = true →
        publishOk (r.withStatus .processed) = true := by
  have hrows : (c.world.rows.map fun r =>
      if (OriginFilter.startsWith "evaluator/").selects c.prologId r then r.withStatus .processed
      else r) ⊆ (c.publishEvaluatorEvents ord handle publishOk).1.world.rows := by
    rw [publishEvaluatorEvents_rows]
    exact List.Subset.refl _
  have hout : List.Forall₂ Carries
      ((c.world.poll ord c.prologId (.startsWith "evaluator/")).1.filter publishOk)
      (c.publishEvaluatorEvents ord handle publishOk).2 := publishEvents_out handle publishOk _ _
  constructor
  · rintro ⟨delivered, hkept, hcarry⟩ r hr hsel
    have hlen := @poll_length_le_delivered ord _ _ _ _ hrows _ hkept
    rw [hcarry.length_eq, ← hout.length_eq] at hlen
    have hall := List.length_filter_eq_length_iff.mp (le_antisymm (List.length_filter_le _ _) hlen)
    exact hall _ ((World.mem_poll ord).mpr ⟨r, hr, hsel, rfl⟩)
  · intro h
    refine ⟨_, deliveredOrKept_poll ord hrows, ?_⟩
    have hall : ∀ e ∈ (c.world.poll ord c.prologId (.startsWith "evaluator/")).1,
        publishOk e = true := by
      intro e he
      obtain ⟨r, hr, hsel, rfl⟩ := (World.mem_poll ord).mp he
      exact h r hr hsel
    rw [List.filter_eq_self.mpr hall] at hout
    exact hout

/-- A drained event is delivered or kept exactly when no delivery of its batch fails: for
both relays and for the publisher. -/
theorem drained_delivered_or_kept_iff (ord : RowOrder) (tr : Translators)
    (fails : ClaraEvent → Option ε) (c : CycleController) :
    (RelayKeeps tr.prologToClips "relay-prolog:" c.prologId c.clipsId c.world
        (c.tryRelayPrologToClips ord tr fails).2 ↔
      ∀ r ∈ c.world.rows, (OriginFilter.startsWith "prolog").selects c.prologId r = true →
        fails (r.withStatus .processed) = none) ∧
    (RelayKeeps tr.clipsToProlog "relay-clips:" c.clipsId c.prologId c.world
        (c.tryRelayClipsToProlog ord tr fails).2 ↔
      ∀ r ∈ c.world.rows, (OriginFilter.startsWith "clips").selects c.clipsId r = true →
        fails (r.withStatus .processed) = none) ∧
    (c.PublishKeeps (c.publishEvaluatorEvents ord handle publishOk).1
        (c.publishEvaluatorEvents ord handle publishOk).2 ↔
      ∀ r ∈ c.world.rows, (OriginFilter.startsWith "evaluator/").selects c.prologId r = true →
        publishOk (r.withStatus .processed) = true) :=
  ⟨relayKeeps_iff ord _ _ _ _ _ fails _, relayKeeps_iff ord _ _ _ _ _ fails _,
    publishKeeps_iff handle publishOk ord c⟩

/-- Prolog has emitted two events. -/
def twoEmitted : CycleController :=
  { joined with
    world := (World.start.emit ⟨1⟩ "prolog" (.str "a")).emit ⟨1⟩ "prolog" (.str "b") }

/-- The first write fails: both events are gone from the mailbox, and neither arrived. -/
theorem failed_write_loses_batch :
    (twoEmitted.world.coire.countPending ⟨1⟩ = 2) ∧
    (twoEmitted.tryRelayPrologToClips .stable ⟨id, id⟩
      fun e => if e.payload = .str "a" then some "disk full" else none).2.coire.countPending ⟨1⟩ = 0 ∧
    (twoEmitted.tryRelayPrologToClips .stable ⟨id, id⟩
      fun e => if e.payload = .str "a" then some "disk full" else none).2.log ⟨2⟩ = [] ∧
    ¬ RelayKeeps id "relay-prolog:" ⟨1⟩ ⟨2⟩ twoEmitted.world
      (twoEmitted.tryRelayPrologToClips .stable ⟨id, id⟩
        fun e => if e.payload = .str "a" then some "disk full" else none).2 := by
  refine ⟨by decide +kernel, by decide +kernel, by decide +kernel, ?_⟩
  intro h
  have hall := (relayKeeps_iff .stable id "prolog" "relay-prolog:" ⟨1⟩ ⟨2⟩ _ twoEmitted.world).mp h
  have hfirst := hall ⟨⟨1000⟩, ⟨1⟩, "prolog", 0, .str "a", .pending⟩ (by decide +kernel)
    (by decide +kernel)
  simp [ClaraEvent.withStatus] at hfirst

end CycleController

end Cerebellum
