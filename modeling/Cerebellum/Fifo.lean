import Cerebellum.CoireAccounting
import Cerebellum.Consume

/-! In which order a mailbox hands out its events. Producers write with a clock that never
goes back, so two events can share a millisecond; polls sort by that millisecond alone. -/
namespace Cerebellum
open Transition Batch

/-- The order that turns equal timestamps round. -/
def RowOrder.reversing : RowOrder where
  sort l := RowOrder.stable.sort l.reverse
  perm l := (RowOrder.stable.perm _).trans (List.reverse_perm l)
  sorted l := RowOrder.stable.sorted l.reverse

/-- What is written to the Coire over a run, with a clock that never goes back for the
session `sid`. Ids are freshly minted. -/
structure MailboxRun (sid : Uuid) where
  ops : List CoireOp
  unique : ((ops.filterMap CoireOp.written).map ClaraEvent.eventId).Nodup
  monotone : ((ops.filterMap CoireOp.written).filter (·.sessionId == sid)).Pairwise
    fun a b => a.createdAtMs ≤ b.createdAtMs

theorem foldl_emit_log (events : List ClaraEvent) (f : ClaraEvent → String × Json) (dst : Uuid)
    (w : World) : (events.foldl (fun w e => w.emit dst (f e).1 (f e).2) w).log dst =
      w.log dst ++ events.map f := by
  induction events generalizing w with
  | nil => simp
  | cons e events ih => rw [List.foldl_cons, ih, World.emit_log]; simp

/-- A relay writes in the order its poll returns. -/
theorem relay_log (ord : RowOrder) (translate : Json → Json) (own tag : String) (src dst : Uuid)
    (w : World) : (relay ord translate own tag src dst w).log dst = w.log dst ++
      (w.poll ord src (.startsWith own)).1.map fun e => (tag ++ e.origin, translate e.payload) := by
  have h := foldl_emit_log (w.poll ord src (.startsWith own)).1
    (fun e => (tag ++ e.origin, translate e.payload)) dst (w.poll ord src (.startsWith own)).2
  rw [World.poll_log] at h
  exact h

/-- The tie order of a poll has no influence on the table it leaves. -/
theorem CoireOp.apply_ord (ord ord' : RowOrder) : CoireOp.apply ord = CoireOp.apply ord' := by
  funext c op
  exact Coire.ext (by rw [apply_rows, apply_rows])

namespace CoireOp
variable (ord : RowOrder)

/-- What is left of the rows after an operation is still in the order of the table. -/
theorem filterMap_effect_sublist (op : CoireOp) (rows : List ClaraEvent) :
    ((rows.filterMap op.effect).map (·.withStatus .processed)).Sublist
      (rows.map (·.withStatus .processed)) := by
  induction rows with
  | nil => simp
  | cons r rows ih =>
    cases h : op.effect r with
    | none => simpa [h] using ih.cons (r.withStatus .processed)
    | some r' =>
      have hr : r'.withStatus .processed = r.withStatus .processed := by
        rw [effect_some h]
        rfl
      simpa [h, hr] using ih.cons_cons (r.withStatus .processed)

theorem added_sublist (op : CoireOp) (c : Coire) : (op.added c).Sublist op.written.toList := by
  cases op with
  | write e =>
    simp only [added, written, Option.toList_some]
    split
    · simp
    · exact List.Sublist.refl _
  | _ => simp [added, written]

/-- The table stands in the order of the writes. -/
theorem run_rows_sublist (ops : List CoireOp) (c : Coire) :
    ((run (apply ord) c ops).rows.map (·.withStatus .processed)).Sublist
      (c.rows.map (·.withStatus .processed) ++
        (ops.filterMap written).map (·.withStatus .processed)) := by
  induction ops generalizing c with
  | nil => simp [run]
  | cons op ops ih =>
    have hstep : ((op.apply ord c).rows.map (·.withStatus .processed)).Sublist
        (c.rows.map (·.withStatus .processed) ++
          op.written.toList.map (·.withStatus .processed)) := by
      rw [apply_rows, List.map_append]
      exact (op.filterMap_effect_sublist c.rows).append ((op.added_sublist c).map _)
    have hwritten : ((op :: ops).filterMap written).map (·.withStatus .processed) =
        op.written.toList.map (·.withStatus .processed) ++
          (ops.filterMap written).map (·.withStatus .processed) := by
      cases h : op.written <;> simp [h]
    rw [run, hwritten, ← List.append_assoc]
    exact (ih (op.apply ord c)).trans (hstep.append_right _)

end CoireOp

namespace MailboxRun
variable {sid : Uuid} (R : MailboxRun sid)

/-- The events in the order they were written, as a poll returns them. -/
def history : List ClaraEvent :=
  (R.ops.filterMap CoireOp.written).map (·.withStatus .processed)

/-- First in, first out: along the whole run events leave the mailbox in the order they
came in, and so they are relayed and dispatched. -/
structure Fifo (ord : RowOrder) : Prop where
  polled : ∀ v ∈ visits (CoireOp.apply ord) Coire.new R.ops, ∀ f, v.2 = .poll sid f →
    (v.1.pollPendingImpl ord sid f).1.Sublist R.history
  relayed : ∀ v ∈ visits (CoireOp.apply ord) Coire.new R.ops, ∀ own,
    v.2 = .poll sid (.startsWith own) → ∀ w : World, w.coire = v.1 → ∀ translate tag dst,
    ∃ es : List ClaraEvent, es.Sublist R.history ∧ (relay ord translate own tag sid dst w).log dst =
      w.log dst ++ es.map fun e => (tag ++ e.origin, translate e.payload)
  dispatched : ∀ v ∈ visits (CoireOp.apply ord) Coire.new R.ops,
    v.2 = .poll sid (.startsWith "relay-") → ∀ w : World, w.coire = v.1 →
    ∀ (τ α ε : Type) (L : Dispatch τ α ε) (store : τ), ∃ es : List ClaraEvent, es.Sublist R.history ∧
      (reached L.coireDispatchEvent (Dispatch.inbound ord sid (w, store)).2
        (Dispatch.inbound ord sid (w, store)).1).map Prod.snd = es.map ClaraEvent.payload

/-- No poll of the session finds two events with one timestamp. -/
def Untied : Prop :=
  ∀ v ∈ visits (CoireOp.apply .stable) Coire.new R.ops, ∀ f, v.2 = .poll sid f →
    (v.1.rows.filter (f.selects sid)).Pairwise fun a b => a.createdAtMs ≠ b.createdAtMs

theorem history_nodup : R.history.Nodup := by
  refine List.Nodup.of_map ClaraEvent.eventId ?_
  rw [history, List.map_map]
  exact R.unique

variable {R} {ord : RowOrder} {v : Coire × CoireOp}

theorem rows_sublist_history (hv : v ∈ visits (CoireOp.apply ord) Coire.new R.ops) :
    (v.1.rows.map (·.withStatus .processed)).Sublist R.history := by
  obtain ⟨u, w, hops, hstate⟩ := mem_visits hv
  have h := CoireOp.run_rows_sublist ord u Coire.new
  rw [← hstate] at h
  refine h.trans ?_
  rw [history, hops, List.filterMap_append, List.map_append]
  exact List.sublist_append_left _ _

theorem batch_sublist_history (hv : v ∈ visits (CoireOp.apply ord) Coire.new R.ops)
    (f : OriginFilter) :
    ((v.1.rows.filter (f.selects sid)).map (·.withStatus .processed)).Sublist R.history :=
  (List.filter_sublist.map _).trans (rows_sublist_history hv)

/-- The rows a poll selects have come in with growing timestamps. -/
theorem batch_monotone (hv : v ∈ visits (CoireOp.apply ord) Coire.new R.ops) (f : OriginFilter) :
    (v.1.rows.filter (f.selects sid)).Pairwise fun a b => a.createdAtMs ≤ b.createdAtMs := by
  have hmine : ((v.1.rows.filter (f.selects sid)).map (·.withStatus .processed)).Sublist
      (((R.ops.filterMap CoireOp.written).filter (·.sessionId == sid)).map
        (·.withStatus .processed)) := by
    have h := (batch_sublist_history hv f).filter (·.sessionId == sid)
    rw [history, List.filter_map, List.filter_map] at h
    have hall : (v.1.rows.filter (f.selects sid)).filter
        ((·.sessionId == sid) ∘ (·.withStatus .processed)) = v.1.rows.filter (f.selects sid) := by
      refine List.filter_eq_self.mpr fun r hr => ?_
      have hsel := (List.mem_filter.mp hr).2
      simp only [OriginFilter.selects, Bool.and_eq_true] at hsel
      exact hsel.1.1
    rw [hall] at h
    exact h
  have hpair : (((R.ops.filterMap CoireOp.written).filter (·.sessionId == sid)).map
      (·.withStatus .processed)).Pairwise fun a b => a.createdAtMs ≤ b.createdAtMs :=
    List.pairwise_map.mpr R.monotone
  have hbatch := hpair.sublist hmine
  rw [List.pairwise_map] at hbatch
  exact hbatch

/-- Without ties the sort has no choice. -/
theorem sort_batch (hv : v ∈ visits (CoireOp.apply ord) Coire.new R.ops) {f : OriginFilter}
    (huntied : (v.1.rows.filter (f.selects sid)).Pairwise
      fun a b => a.createdAtMs ≠ b.createdAtMs) :
    ord.sort (v.1.rows.filter (f.selects sid)) = v.1.rows.filter (f.selects sid) := by
  refine List.Perm.eq_of_pairwise ?_ (ord.sorted _) (batch_monotone hv f) (ord.perm _)
  intro a b ha hb hab hba
  by_contra hne
  have : Std.Symm fun a b : ClaraEvent => a.createdAtMs ≠ b.createdAtMs := ⟨fun _ _ h => h.symm⟩
  exact huntied.forall ((ord.perm _).mem_iff.mp ha) hb hne (le_antisymm hab hba)

theorem fifo_of_untied (huntied : R.Untied) (ord : RowOrder) : R.Fifo ord := by
  have hpoll : ∀ v ∈ visits (CoireOp.apply ord) Coire.new R.ops, ∀ f, v.2 = .poll sid f →
      (v.1.pollPendingImpl ord sid f).1.Sublist R.history := by
    intro v hv f hf
    have hv' := hv
    rw [CoireOp.apply_ord ord .stable] at hv'
    rw [Coire.pollPendingImpl, sort_batch hv (huntied v hv' f hf)]
    exact batch_sublist_history hv f
  refine ⟨hpoll, ?_, ?_⟩
  · intro v hv own hown w hw translate tag dst
    refine ⟨_, hpoll v hv _ hown, ?_⟩
    rw [relay_log, ← hw]
    rfl
  · intro v hv hown w hw τ α ε L store
    obtain ⟨rest, hrest⟩ := reached_prefix L.coireDispatchEvent
      (Dispatch.inbound ord sid (w, store)).2 (Dispatch.inbound ord sid (w, store)).1
    obtain ⟨done, left, hsplit, hdone, -⟩ := List.map_eq_append_iff.mp hrest.symm
    refine ⟨done, ?_, hdone.symm⟩
    have hpolled := hpoll v hv _ hown
    rw [← hw] at hpolled
    refine List.Sublist.trans ?_ hpolled
    rw [show (w.coire.pollPendingImpl ord sid (.startsWith "relay-")).1 = done ++ left from hsplit]
    exact List.sublist_append_left done left

/-- Two entries of a list without duplicates stand in one order only. -/
theorem not_swapped {α : Type*} {a b : α} {l : List α} (hn : l.Nodup) (hab : [a, b].Sublist l)
    (hba : [b, a].Sublist l) : False := by
  induction l with
  | nil => simp at hab
  | cons x l ih =>
    obtain ⟨hx, hl⟩ := List.nodup_cons.mp hn
    cases hab with
    | cons _ hab =>
      cases hba with
      | cons _ hba => exact ih hl hab hba
      | cons_cons _ _ => exact hx (hab.subset (by simp))
    | cons_cons _ hb =>
      cases hba with
      | cons _ hba => exact hx (hba.subset (by simp))
      | cons_cons _ _ => exact hx (hb.subset (by simp))

theorem untied_of_fifo (hfifo : ∀ ord, R.Fifo ord) : R.Untied := by
  intro v hv f hf
  rw [List.pairwise_iff_forall_sublist]
  intro a b hab heq
  have hv' := hv
  rw [CoireOp.apply_ord .stable .reversing] at hv'
  -- the reversing order returns the two the other way round
  have hswap : [b, a].Sublist (RowOrder.reversing.sort (v.1.rows.filter (f.selects sid))) :=
    List.pair_sublist_insertionSort heq.ge (by simpa using hab.reverse)
  have hba : ([b, a].map (·.withStatus .processed)).Sublist R.history :=
    (hswap.map _).trans ((hfifo .reversing).polled v hv' f hf)
  have hab' : ([a, b].map (·.withStatus .processed)).Sublist R.history :=
    (hab.map _).trans (batch_sublist_history hv f)
  exact not_swapped R.history_nodup hab' hba

end MailboxRun

/-- A mailbox is first in, first out whatever the SQL engine does with equal keys exactly
when no poll of it finds two events of one millisecond. -/
theorem mailbox_fifo_iff {sid : Uuid} (R : MailboxRun sid) : (∀ ord, R.Fifo ord) ↔ R.Untied :=
  ⟨MailboxRun.untied_of_fifo, MailboxRun.fifo_of_untied⟩

def mailOf (id : Nat) (type : String) : ClaraEvent :=
  ⟨⟨id⟩, ⟨1⟩, "prolog", 5, .obj [("type", .str type), ("data", .str "p")], .pending⟩

/-- A fact is asserted and retracted within one millisecond, then relayed. -/
def assertRetract : MailboxRun ⟨1⟩ where
  ops := [.write (mailOf 10 "assert"), .write (mailOf 11 "retract"), .poll ⟨1⟩ (.startsWith "prolog")]
  unique := by decide
  monotone := by decide

/-- The retract can come out first. -/
theorem assert_retract_swapped :
    (∃ v ∈ visits (CoireOp.apply .reversing) Coire.new assertRetract.ops,
      v.2 = .poll ⟨1⟩ (.startsWith "prolog") ∧
      (v.1.pollPendingImpl .reversing ⟨1⟩ (.startsWith "prolog")).1.map ClaraEvent.eventId =
        [⟨11⟩, ⟨10⟩]) ∧
    ¬ ∀ ord, assertRetract.Fifo ord := by
  have hmoment : (run (CoireOp.apply .reversing) Coire.new (assertRetract.ops.take 2),
      CoireOp.poll ⟨1⟩ (.startsWith "prolog")) ∈
        visits (CoireOp.apply .reversing) Coire.new assertRetract.ops := by
    simp [assertRetract, visits, run]
  refine ⟨⟨_, hmoment, rfl, by decide +kernel⟩, fun h => ?_⟩
  have hpolled := (h .reversing).polled _ hmoment _ rfl
  revert hpolled
  decide +kernel

end Cerebellum
