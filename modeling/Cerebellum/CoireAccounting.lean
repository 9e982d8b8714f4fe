import Cerebellum.Coire
import Cerebellum.Lib.Transition

/-! Accounting for the events of the in-memory Coire over whole runs: where a written
event can go, who can take it, and what the counters say about it. -/
namespace Cerebellum
open Transition

/-- The operations that change the table. The three polls differ in their filter. -/
inductive CoireOp where
  | write (e : ClaraEvent)
  | poll (sid : Uuid) (f : OriginFilter)
  | mark (id : Uuid)
  | drain (sid : Uuid)
  | clear (sid : Uuid)

namespace CoireOp
variable (ord : RowOrder)

/-- A failed write or mark leaves the table as it is. -/
def apply (c : Coire) : CoireOp → Coire
  | .write e => match c.writeEvent e with
    | .ok c' => c'
    | .error _ => c
  | .poll sid f => (c.pollPendingImpl ord sid f).2
  | .mark id => match c.markProcessed id with
    | .ok c' => c'
    | .error _ => c
  | .drain sid => (c.drainSession sid).2
  | .clear sid => (c.clearSession sid).2

def Succeeds (c : Coire) : CoireOp → Prop
  | .write e => ∃ c', c.writeEvent e = .ok c'
  | .mark id => ∃ c', c.markProcessed id = .ok c'
  | _ => True

/-- The events an operation hands to its caller. -/
def returned (c : Coire) : CoireOp → List ClaraEvent
  | .poll sid f => (c.pollPendingImpl ord sid f).1
  | _ => []

def written : CoireOp → Option ClaraEvent
  | .write e => some e
  | _ => none

/-- What becomes of one row; `none` when it is deleted. -/
def effect (r : ClaraEvent) : CoireOp → Option ClaraEvent
  | .write _ => some r
  | .poll sid f => some (if f.selects sid r then r.withStatus .processed else r)
  | .mark id => some (if r.eventId == id && r.status == .pending then
      r.withStatus .processed else r)
  | .drain sid => some (if r.sessionId == sid && r.status == .pending then
      r.withStatus .drained else r)
  | .clear sid => if r.sessionId == sid then none else some r

/-- The row an operation adds: only a write whose id is not taken adds one. -/
def added (c : Coire) : CoireOp → List ClaraEvent
  | .write e => if e.eventId ∈ c.rows.map ClaraEvent.eventId then [] else [e]
  | _ => []

/-- Everything an operation can do to the table, said once. -/
theorem apply_rows (c : Coire) (op : CoireOp) :
    (op.apply ord c).rows = c.rows.filterMap op.effect ++ op.added c := by
  cases op with
  | write e =>
    by_cases h : e.eventId ∈ c.rows.map ClaraEvent.eventId
    · simp [apply, Coire.writeEvent, added, effect, h]
    · simp [apply, Coire.writeEvent, added, effect, h]
  | poll sid f =>
    simp only [apply, Coire.poll_rows, added, effect, List.append_nil]
    exact (List.filterMap_eq_map (f := fun r : ClaraEvent =>
      if f.selects sid r then r.withStatus .processed else r)).symm ▸ rfl
  | mark id =>
    simp only [added, effect, List.append_nil, apply, Coire.markProcessed]
    by_cases h : c.rows.countP (fun r => r.eventId == id && r.status == .pending) = 0
    · rw [if_pos h]
      have hid : ∀ r ∈ c.rows, some (if r.eventId == id && r.status == .pending then
          r.withStatus .processed else r) = some r := by
        intro r hr
        have := List.countP_eq_zero.mp h r hr
        simp [this]
      rw [List.filterMap_congr hid, List.filterMap_some]
    · rw [if_neg h]
      exact List.filterMap_eq_map.symm ▸ rfl
  | drain sid =>
    simp only [added, effect, List.append_nil, apply, Coire.drainSession]
    exact List.filterMap_eq_map.symm ▸ rfl
  | clear sid =>
    simp only [added, effect, List.append_nil, apply, Coire.clearSession]
    rw [← List.filterMap_eq_filter]
    refine List.filterMap_congr fun r _ => ?_
    by_cases h : r.sessionId = sid <;> simp [h, Option.guard]

theorem selects_pending {f : OriginFilter} {sid : Uuid} {r : ClaraEvent}
    (h : f.selects sid r = true) : r.status = .pending := by
  simp only [OriginFilter.selects, Bool.and_eq_true, beq_iff_eq] at h
  exact h.1.2

/-- What an operation can do to a row it keeps: nothing, or take it out of pending. -/
theorem effect_cases {op : CoireOp} {r r' : ClaraEvent} (h : op.effect r = some r') :
    r' = r ∨
    (r.status = .pending ∧ r' = r.withStatus .processed ∧
      ((∃ sid f, op = .poll sid f ∧ f.selects sid r = true) ∨ op = .mark r.eventId)) ∨
    (r.status = .pending ∧ r' = r.withStatus .drained ∧ op = .drain r.sessionId) := by
  cases op with
  | write e => cases h; exact .inl rfl
  | poll sid f =>
    simp only [effect, Option.some.injEq] at h
    subst h
    by_cases hs : f.selects sid r = true
    · exact .inr (.inl ⟨selects_pending hs, by simp [hs], .inl ⟨sid, f, rfl, hs⟩⟩)
    · exact .inl (by simp [hs])
  | mark id =>
    simp only [effect, Option.some.injEq] at h
    subst h
    by_cases hs : (r.eventId == id && r.status == .pending) = true
    · have hh := hs
      simp only [Bool.and_eq_true, beq_iff_eq] at hh
      exact .inr (.inl ⟨hh.2, by rw [if_pos hs], .inr (by rw [hh.1])⟩)
    · exact .inl (by rw [if_neg hs])
  | drain sid =>
    simp only [effect, Option.some.injEq] at h
    subst h
    by_cases hs : (r.sessionId == sid && r.status == .pending) = true
    · have hh := hs
      simp only [Bool.and_eq_true, beq_iff_eq] at hh
      exact .inr (.inr ⟨hh.2, by rw [if_pos hs], by rw [hh.1]⟩)
    · exact .inl (by rw [if_neg hs])
  | clear sid =>
    simp only [effect] at h
    split at h
    · cases h
    · cases h; exact .inl rfl

/-- An operation changes nothing of a surviving row but its status. -/
theorem effect_some {op : CoireOp} {r r' : ClaraEvent} (h : op.effect r = some r') :
    r' = r.withStatus r'.status := by
  rcases effect_cases h with rfl | ⟨_, rfl, _⟩ | ⟨_, rfl, _⟩ <;> rfl

theorem effect_eventId {op : CoireOp} {r r' : ClaraEvent} (h : op.effect r = some r') :
    r'.eventId = r.eventId := by
  rw [effect_some h]
  rfl

/-- Nothing makes a row pending again. -/
theorem effect_pending {op : CoireOp} {r r' : ClaraEvent} (h : op.effect r = some r')
    (hp : r'.status = .pending) : r.status = .pending := by
  rcases effect_cases h with rfl | ⟨h, _⟩ | ⟨h, _⟩
  · exact hp
  · exact h
  · exact h

end CoireOp

namespace Coire

/-- The event `id` is in the table with status `st`. -/
def has (id : Uuid) (st : EventStatus) (c : Coire) : Bool :=
  c.rows.any fun r => r.eventId == id && r.status == st

theorem has_iff {id : Uuid} {st : EventStatus} {c : Coire} :
    c.has id st = true ↔ ∃ r ∈ c.rows, r.eventId = id ∧ r.status = st := by
  simp [has]

theorem not_has_iff {id : Uuid} {st : EventStatus} {c : Coire} :
    c.has id st = false ↔ ∀ r ∈ c.rows, r.eventId = id → r.status ≠ st := by
  simp [has]

end Coire

namespace CoireOp
variable (ord : RowOrder)

theorem mem_apply {c : Coire} {op : CoireOp} {r' : ClaraEvent} :
    r' ∈ (op.apply ord c).rows ↔
      (∃ r ∈ c.rows, op.effect r = some r') ∨ r' ∈ op.added c := by
  rw [apply_rows, List.mem_append, List.mem_filterMap]

theorem mem_added {c : Coire} {op : CoireOp} {e : ClaraEvent} (h : e ∈ op.added c) :
    op = .write e := by
  cases op with
  | write e' =>
    simp only [added] at h
    split at h
    · simp at h
    · simp only [List.mem_singleton] at h
      rw [h]
  | poll sid f => simp [added] at h
  | mark id => simp [added] at h
  | drain sid => simp [added] at h
  | clear sid => simp [added] at h

/-- The operation hands event `id` to its caller. -/
def polls (id : Uuid) (v : Coire × CoireOp) : Bool :=
  (v.2.returned ord v.1).any (·.eventId == id)

def marks (id : Uuid) (v : Coire × CoireOp) : Bool :=
  match v.2 with
  | .mark j => j == id
  | _ => false

def drains (id : Uuid) (v : Coire × CoireOp) : Bool :=
  match v.2 with
  | .drain sid => v.1.rows.any fun r =>
      r.eventId == id && (r.sessionId == sid && r.status == .pending)
  | _ => false

theorem polls_iff {id : Uuid} {c : Coire} {op : CoireOp} :
    polls ord id (c, op) = true ↔
      ∃ sid f, op = .poll sid f ∧ ∃ r ∈ c.rows, f.selects sid r = true ∧ r.eventId = id := by
  cases op with
  | poll sid f =>
    simp only [polls, returned, List.any_eq_true, Coire.mem_poll_events]
    constructor
    · rintro ⟨e, ⟨r, hr, hsel, rfl⟩, he⟩
      exact ⟨sid, f, rfl, r, hr, hsel, by simpa using he⟩
    · rintro ⟨_, _, h, r, hr, hsel, he⟩
      cases h
      exact ⟨_, ⟨r, hr, hsel, rfl⟩, by simpa using he⟩
  | write e => simp [polls, returned]
  | mark id => simp [polls, returned]
  | drain sid => simp [polls, returned]
  | clear sid => simp [polls, returned]

/-- A row that an operation flips was pending and is pending no more. -/
theorem falls_of_flip {c : Coire} (op : CoireOp) {id : Uuid} {r : ClaraEvent}
    (hr : r ∈ c.rows) (hid : r.eventId = id) (hp : r.status = .pending)
    (hflip : ∀ r', op.effect r = some r' → r'.status ≠ .pending) (hadd : op.added c = []) :
    c.has id .pending = true ∧ (op.apply ord c).has id .pending = false := by
  refine ⟨Coire.has_iff.mpr ⟨r, hr, hid, hp⟩, Coire.not_has_iff.mpr ?_⟩
  intro r' hr' hid'
  rcases (mem_apply ord).mp hr' with ⟨s, hs, he⟩ | h
  · have hsr : s = r := Coire.eq_of_eventId hs hr (by rw [← effect_eventId he, hid', hid])
    exact hflip r' (hsr ▸ he)
  · simp [hadd] at h

/-- One operation takes a given event in at most one way, and only from pending. -/
theorem taken_le_fall (id : Uuid) (c : Coire) (op : CoireOp) (hok : op.Succeeds c) :
    (polls ord id (c, op)).toNat + (marks id (c, op)).toNat + (drains id (c, op)).toNat ≤
      (c.has id .pending && !(op.apply ord c).has id .pending).toNat := by
  cases op with
  | write e => simp [polls, returned, marks, drains]
  | clear sid => simp [polls, returned, marks, drains]
  | poll sid f =>
    by_cases h : polls ord id (c, .poll sid f) = true
    · obtain ⟨_, _, he, r, hr, hsel, hid⟩ := (polls_iff ord).mp h
      cases he
      have hf := falls_of_flip ord (.poll sid f) hr hid (selects_pending hsel)
        (by
          intro r' hr'
          simp only [effect, hsel, if_true, Option.some.injEq] at hr'
          subst hr'
          simp [ClaraEvent.withStatus]) rfl
      simp [hf.1, hf.2, marks, drains, Bool.toNat_le]
    · simp [h, marks, drains]
  | mark j =>
    by_cases hj : j = id
    · subst hj
      obtain ⟨c', hc'⟩ := hok
      have hpos : c.rows.countP (fun r => r.eventId == j && r.status == .pending) ≠ 0 := by
        intro h0
        simp [Coire.markProcessed, h0] at hc'
      obtain ⟨r, hr, hhit⟩ := List.countP_pos_iff.mp (Nat.pos_of_ne_zero hpos)
      simp only [Bool.and_eq_true, beq_iff_eq] at hhit
      have hf := falls_of_flip ord (.mark j) hr hhit.1 hhit.2
        (by
          intro r' hr'
          simp only [effect, hhit.1, hhit.2, beq_self_eq_true, Bool.and_self, if_true,
            Option.some.injEq] at hr'
          subst hr'
          simp [ClaraEvent.withStatus]) rfl
      simp [hf.1, hf.2, marks, drains, polls, returned]
    · have hm : marks id (c, .mark j) = false := by simpa [marks] using hj
      simp [hm, drains, polls, returned]
  | drain sid =>
    by_cases h : drains id (c, .drain sid) = true
    · simp only [drains, List.any_eq_true, Bool.and_eq_true, beq_iff_eq] at h
      obtain ⟨r, hr, hid, hs, hp⟩ := h
      have hf := falls_of_flip ord (.drain sid) hr hid hp
        (by
          intro r' hr'
          simp only [effect, hs, hp, beq_self_eq_true, Bool.and_self, if_true,
            Option.some.injEq] at hr'
          subst hr'
          simp [ClaraEvent.withStatus]) rfl
      simp [hf.1, hf.2, marks, polls, returned, Bool.toNat_le]
    · simp [h, marks, polls, returned]

theorem rise_pending {id : Uuid} {c : Coire} {op : CoireOp}
    (h0 : c.has id .pending = false) (h1 : (op.apply ord c).has id .pending = true) :
    ∃ e, op = .write e ∧ e.eventId = id := by
  obtain ⟨r', hr', hid, hp⟩ := Coire.has_iff.mp h1
  rcases (mem_apply ord).mp hr' with ⟨r, hr, he⟩ | h
  · exact absurd (effect_pending he hp)
      (Coire.not_has_iff.mp h0 r hr (by rw [← effect_eventId he, hid]))
  · exact ⟨r', mem_added h, hid⟩

/-- A row becomes processed only by being returned from a poll or marked. -/
theorem rise_processed {id : Uuid} {c : Coire} {op : CoireOp}
    (hnew : ∀ e, op = .write e → e.status = .pending)
    (h0 : c.has id .processed = false) (h1 : (op.apply ord c).has id .processed = true) :
    polls ord id (c, op) = true ∨ marks id (c, op) = true := by
  obtain ⟨r', hr', hid, hp⟩ := Coire.has_iff.mp h1
  rcases (mem_apply ord).mp hr' with ⟨r, hr, he⟩ | h
  · have hrid : r.eventId = id := by rw [← effect_eventId he, hid]
    rcases effect_cases he with rfl | ⟨_, _, ⟨sid, f, hop, hsel⟩ | hop⟩ | ⟨_, rfl, _⟩
    · exact absurd hp (Coire.not_has_iff.mp h0 _ hr hrid)
    · exact .inl ((polls_iff ord).mpr ⟨sid, f, hop, r, hr, hsel, hrid⟩)
    · exact .inr (by simp [hop, marks, hrid])
    · cases hp
  · rw [hnew r' (mem_added h)] at hp
    cases hp

/-- A row becomes drained only by a drain of its session. -/
theorem rise_drained {id : Uuid} {c : Coire} {op : CoireOp}
    (hnew : ∀ e, op = .write e → e.status = .pending)
    (h0 : c.has id .drained = false) (h1 : (op.apply ord c).has id .drained = true) :
    drains id (c, op) = true := by
  obtain ⟨r', hr', hid, hp⟩ := Coire.has_iff.mp h1
  rcases (mem_apply ord).mp hr' with ⟨r, hr, he⟩ | h
  · have hrid : r.eventId = id := by rw [← effect_eventId he, hid]
    rcases effect_cases he with rfl | ⟨_, rfl, _⟩ | ⟨hpend, _, hop⟩
    · exact absurd hp (Coire.not_has_iff.mp h0 _ hr hrid)
    · cases hp
    · simp only [hop, drains, List.any_eq_true]
      exact ⟨r, hr, by simp [hrid, hpend]⟩
  · rw [hnew r' (mem_added h)] at hp
    cases hp

end CoireOp

/-- A finite interleaving of operations on a fresh Coire: every operation succeeds, every
write carries a new event in the state `ClaraEvent::new` gives it. -/
structure CoireRun (ord : RowOrder) where
  ops : List CoireOp
  isNew : ∀ e, CoireOp.write e ∈ ops → e.status = .pending
  unique : ((ops.filterMap CoireOp.written).map ClaraEvent.eventId).Nodup
  succeeds : ∀ v ∈ visits (CoireOp.apply ord) Coire.new ops, v.2.Succeeds v.1

namespace CoireRun
variable {ord : RowOrder} (R : CoireRun ord)

/-- The moments of the run, and the table it ends with. -/
def moments : List (Coire × CoireOp) := visits (CoireOp.apply ord) Coire.new R.ops

def final : Coire := run (CoireOp.apply ord) Coire.new R.ops

def timesPolled (id : Uuid) : Nat := R.moments.countP (CoireOp.polls ord id)

def timesMarked (id : Uuid) : Nat := R.moments.countP (CoireOp.marks id)

def timesDrained (id : Uuid) : Nat := R.moments.countP (CoireOp.drains id)

theorem op_mem {v : Coire × CoireOp} (h : v ∈ R.moments) : v.2 ∈ R.ops := by
  have := List.mem_map_of_mem (f := Prod.snd) h
  rwa [moments, visits_map_snd] at this

def writes (id : Uuid) (op : CoireOp) : Bool :=
  match op with
  | .write e => e.eventId == id
  | _ => false

theorem countP_writes_le_one (id : Uuid) : R.ops.countP (writes id) ≤ 1 := by
  have hcount : ∀ ops : List CoireOp, ops.countP (writes id) =
      ((ops.filterMap CoireOp.written).map ClaraEvent.eventId).count id := by
    intro ops
    induction ops with
    | nil => rfl
    | cons op ops ih =>
      cases op <;> simp [CoireOp.written, writes, List.filterMap_cons, List.countP_cons,
        List.count_cons, ih]
  rw [hcount]
  exact List.nodup_iff_count_le_one.mp R.unique id

/-- An event can be taken only as often as it became pending, and it became pending once. -/
theorem taken_le_one (id : Uuid) :
    R.timesPolled id + R.timesMarked id + R.timesDrained id +
      (R.final.has id .pending).toNat ≤ 1 := by
  have htaken : R.timesPolled id + R.timesMarked id + R.timesDrained id ≤
      falls (CoireOp.apply ord) (Coire.has id .pending) Coire.new R.ops :=
    countP_add_three_le fun v hv => CoireOp.taken_le_fall ord id v.1 v.2 (R.succeeds v hv)
  have hrise : rises (CoireOp.apply ord) (Coire.has id .pending) Coire.new R.ops ≤ 1 := by
    refine le_trans ?_ (R.countP_writes_le_one id)
    have hmap := congrArg (List.countP (writes id))
      (visits_map_snd (CoireOp.apply ord) Coire.new R.ops)
    rw [List.countP_map] at hmap
    rw [← hmap]
    refine List.countP_mono_left fun v _ hv => ?_
    simp only [Bool.and_eq_true, Bool.not_eq_true'] at hv
    obtain ⟨e, he, hid⟩ := CoireOp.rise_pending ord hv.1 hv.2
    simp [Function.comp, he, writes, hid]
  have hcons := toNat_add_rises (CoireOp.apply ord) (Coire.has id .pending)
    Coire.new R.ops
  have h0 : (Coire.has id .pending Coire.new).toNat = 0 := rfl
  unfold final
  omega

theorem processed_le (id : Uuid) :
    (R.final.has id .processed).toNat ≤ R.timesPolled id + R.timesMarked id := by
  have hrise : rises (CoireOp.apply ord) (Coire.has id .processed) Coire.new R.ops ≤
      R.timesPolled id + R.timesMarked id := by
    refine le_trans (List.countP_mono_left (q := fun v =>
      CoireOp.polls ord id v || CoireOp.marks id v) fun v hv hr => ?_) (countP_or_le _ _ _)
    simp only [Bool.and_eq_true, Bool.not_eq_true'] at hr
    have hnew : ∀ e, v.2 = .write e → e.status = .pending :=
      fun e he => R.isNew e (he ▸ R.op_mem hv)
    simpa using CoireOp.rise_processed ord hnew hr.1 hr.2
  have hcons := toNat_add_rises (CoireOp.apply ord) (Coire.has id .processed)
    Coire.new R.ops
  have h0 : (Coire.has id .processed Coire.new).toNat = 0 := rfl
  unfold final
  omega

theorem drained_le (id : Uuid) : (R.final.has id .drained).toNat ≤ R.timesDrained id := by
  have hrise : rises (CoireOp.apply ord) (Coire.has id .drained) Coire.new R.ops ≤
      R.timesDrained id := by
    refine List.countP_mono_left fun v hv hr => ?_
    simp only [Bool.and_eq_true, Bool.not_eq_true'] at hr
    have hnew : ∀ e, v.2 = .write e → e.status = .pending :=
      fun e he => R.isNew e (he ▸ R.op_mem hv)
    exact CoireOp.rise_drained ord hnew hr.1 hr.2
  have hcons := toNat_add_rises (CoireOp.apply ord) (Coire.has id .drained)
    Coire.new R.ops
  have h0 : (Coire.has id .drained Coire.new).toNat = 0 := rfl
  unfold final
  omega

/-- Rows come from writes. -/
theorem mem_run_rows {c : Coire} {ops : List CoireOp} {r : ClaraEvent}
    (h : r ∈ (run (CoireOp.apply ord) c ops).rows) :
    (∃ r₀ ∈ c.rows, r₀.eventId = r.eventId) ∨
      ∃ e, CoireOp.write e ∈ ops ∧ e.eventId = r.eventId := by
  induction ops generalizing c with
  | nil => exact .inl ⟨r, h, rfl⟩
  | cons op ops ih =>
    rcases ih h with ⟨r₁, hr₁, hid⟩ | ⟨e, he, hid⟩
    · rcases (CoireOp.mem_apply ord).mp hr₁ with ⟨r₀, hr₀, heff⟩ | hadd
      · exact .inl ⟨r₀, hr₀, by rw [← CoireOp.effect_eventId heff, hid]⟩
      · exact .inr ⟨r₁, by simp [CoireOp.mem_added hadd], hid⟩
    · exact .inr ⟨e, List.mem_cons_of_mem _ he, hid⟩

/-- Once an event has left pending it never returns, whatever follows. -/
theorem never_pending_again {u w : List CoireOp} (hsplit : R.ops = u ++ w) {r : ClaraEvent}
    (hr : r ∈ (run (CoireOp.apply ord) Coire.new u).rows) (hp : r.status ≠ .pending) :
    R.final.has r.eventId .pending = false := by
  have hwritten : ∃ e, CoireOp.write e ∈ u ∧ e.eventId = r.eventId := by
    rcases mem_run_rows hr with ⟨r₀, h, _⟩ | h
    · cases h
    · exact h
  obtain ⟨e, heu, heid⟩ := hwritten
  have hnow : (run (CoireOp.apply ord) Coire.new u).has r.eventId .pending = false := by
    refine Coire.not_has_iff.mpr fun s hs hid => ?_
    rwa [Coire.eq_of_eventId hs hr hid]
  -- `w` cannot write the id again, so the observation cannot rise on it.
  have hw : w.countP (writes r.eventId) = 0 := by
    have hone := R.countP_writes_le_one r.eventId
    have hu : 0 < u.countP (writes r.eventId) :=
      List.countP_pos_iff.mpr ⟨_, heu, by simp [writes, heid]⟩
    rw [hsplit, List.countP_append] at hone
    omega
  have hrise : rises (CoireOp.apply ord) (Coire.has r.eventId .pending)
      (run (CoireOp.apply ord) Coire.new u) w = 0 := by
    refine List.countP_eq_zero.mpr fun v hv hrise => ?_
    simp only [Bool.and_eq_true, Bool.not_eq_true'] at hrise
    obtain ⟨e', he', hid⟩ := CoireOp.rise_pending ord hrise.1 hrise.2
    have hmem : v.2 ∈ w := by
      have := List.mem_map_of_mem (f := Prod.snd) hv
      rwa [visits_map_snd] at this
    exact List.countP_eq_zero.mp hw v.2 hmem (by simp [he', writes, hid])
  have hcons := toNat_add_rises (CoireOp.apply ord) (Coire.has r.eventId .pending)
    (run (CoireOp.apply ord) Coire.new u) w
  rw [← run_append, ← hsplit, hnow, hrise] at hcons
  cases hf : R.final.has r.eventId .pending with
  | false => rfl
  | true =>
    rw [final] at hf
    rw [hf, Bool.toNat_false, Bool.toNat_true] at hcons
    omega

/-- A row stays in the table, its contents unchanged, until its session is cleared. -/
theorem row_kept {c : Coire} {ops : List CoireOp} {r : ClaraEvent} (hr : r ∈ c.rows)
    (hclear : CoireOp.clear r.sessionId ∉ ops) :
    ∃ st, r.withStatus st ∈ (run (CoireOp.apply ord) c ops).rows := by
  induction ops generalizing c r with
  | nil => exact ⟨r.status, hr⟩
  | cons op ops ih =>
    have hop : ∃ st, op.effect r = some (r.withStatus st) := by
      cases h : op.effect r with
      | some r' => exact ⟨r'.status, by rw [← CoireOp.effect_some h]⟩
      | none =>
        cases op with
        | clear sid =>
          simp only [CoireOp.effect, ite_eq_left_iff, reduceCtorEq, imp_false, not_not,
            beq_iff_eq] at h
          exact absurd (by simp [h]) hclear
        | write e => cases h
        | poll sid f => cases h
        | mark id => cases h
        | drain sid => cases h
    obtain ⟨st, hst⟩ := hop
    have hmem : r.withStatus st ∈ (op.apply ord c).rows :=
      (CoireOp.mem_apply ord).mpr (.inl ⟨r, hr, hst⟩)
    obtain ⟨st', h'⟩ := ih hmem fun h => hclear (List.mem_cons_of_mem _ h)
    exact ⟨st', h'⟩

end CoireRun

namespace Coire
variable (ord : RowOrder)

/-- Polling with one filter does not disturb what a disjoint filter will see. -/
theorem poll_after_disjoint (c : Coire) (sid : Uuid) (f g : OriginFilter)
    (hfg : ∀ o, f.cond o = true → g.cond o = false) :
    ((c.pollPendingImpl ord sid f).2.pollPendingImpl ord sid g).1 =
      (c.pollPendingImpl ord sid g).1 := by
  have hrows : (c.pollPendingImpl ord sid f).2.rows.filter (g.selects sid) =
      c.rows.filter (g.selects sid) := by
    rw [poll_rows]
    induction c.rows with
    | nil => rfl
    | cons r rs ih =>
      simp only [List.map_cons, List.filter_cons, ih]
      by_cases hsel : f.selects sid r = true
      · have hf := hsel
        simp only [OriginFilter.selects, Bool.and_eq_true] at hf
        have hg : g.selects sid r = false := by
          simp [OriginFilter.selects, hfg _ hf.2]
        have hg' : g.selects sid (r.withStatus .processed) = false := by
          simp [OriginFilter.selects]
        simp [hsel, hg, hg']
      · simp [hsel]
  unfold pollPendingImpl
  simp only [pollPendingImpl] at hrows
  simp only [hrows]

/-- A prefix poll and then the excluding poll share out the pending events of the session. -/
theorem poll_partition (c : Coire) (sid : Uuid) (p : String) :
    ((c.pollPendingWithOriginPrefix ord sid p).1 ++
      ((c.pollPendingWithOriginPrefix ord sid p).2.pollPendingExcludingOriginPrefix
        ord sid p).1).Perm (c.pollPending ord sid).1 := by
  have hdisj : ∀ o, (OriginFilter.startsWith p).cond o = true →
      (OriginFilter.notStartsWith p).cond o = false := by
    intro o h
    simpa [OriginFilter.cond] using h
  rw [pollPendingWithOriginPrefix, pollPendingExcludingOriginPrefix,
    poll_after_disjoint ord c sid _ _ hdisj]
  refine ((poll_events_perm ord c sid _).append (poll_events_perm ord c sid _)).trans ?_
  refine List.Perm.trans ?_ (poll_events_perm ord c sid .any).symm
  rw [← List.map_append]
  refine List.Perm.map _ ?_
  have hany : ∀ f : OriginFilter, c.rows.filter (f.selects sid) =
      (c.rows.filter (OriginFilter.any.selects sid)).filter (fun r => f.cond r.origin) := by
    intro f
    rw [List.filter_filter]
    refine List.filter_congr fun r _ => ?_
    simp [OriginFilter.selects, OriginFilter.cond, Bool.and_comm]
  rw [hany (.startsWith p), hany (.notStartsWith p)]
  exact List.filter_append_perm _ _

theorem countPending_eq (c : Coire) (sid : Uuid) :
    c.countPending sid = (c.pollPending ord sid).1.length := by
  rw [pollPending, (poll_events_perm ord c sid .any).length_eq, List.length_map,
    ← List.countP_eq_length_filter]
  refine List.countP_congr fun r _ => ?_
  simp [OriginFilter.selects, OriginFilter.cond]

theorem countPendingWithOriginPrefix_eq (c : Coire) (sid : Uuid) (p : String) :
    c.countPendingWithOriginPrefix sid p = (c.pollPendingWithOriginPrefix ord sid p).1.length := by
  rw [pollPendingWithOriginPrefix, (poll_events_perm ord c sid _).length_eq, List.length_map,
    ← List.countP_eq_length_filter]
  exact List.countP_congr fun r _ => by simp [OriginFilter.selects, OriginFilter.cond]

theorem statuses_total (rows : List ClaraEvent) :
    rows.length = rows.countP (·.status == .pending) + rows.countP (·.status == .processed) +
      rows.countP (·.status == .drained) := by
  induction rows with
  | nil => rfl
  | cons r rows ih =>
    simp only [List.length_cons, List.countP_cons, ih]
    cases r.status <;> simp <;> omega

end Coire

namespace CoireOp
variable (ord : RowOrder)

/-- The session an operation is about; a mark is about the session of its event. -/
def Concerns (c : Coire) (sid : Uuid) : CoireOp → Prop
  | .write e => e.sessionId = sid
  | .poll s _ => s = sid
  | .mark id => ∃ r ∈ c.rows, r.eventId = id ∧ r.sessionId = sid
  | .drain s => s = sid
  | .clear s => s = sid

theorem effect_other {c : Coire} {op : CoireOp} {sid : Uuid} (h : ¬op.Concerns c sid)
    {r : ClaraEvent} (hr : r ∈ c.rows) (hs : r.sessionId = sid) : op.effect r = some r := by
  cases op with
  | write e => rfl
  | poll s f =>
    have hne : ¬(r.sessionId = s) := fun he => h (by simp [Concerns, ← he, hs])
    simp [effect, OriginFilter.selects, hne]
  | mark id =>
    have hne : ¬(r.eventId = id) := fun he => h ⟨r, hr, he, hs⟩
    simp [effect, hne]
  | drain s =>
    have hne : ¬(r.sessionId = s) := fun he => h (by simp [Concerns, ← he, hs])
    simp [effect, hne]
  | clear s =>
    have hne : ¬(r.sessionId = s) := fun he => h (by simp [Concerns, ← he, hs])
    simp [effect, hne]

theorem other_session_unchanged {c : Coire} {op : CoireOp} {sid : Uuid}
    (h : ¬op.Concerns c sid) :
    (op.apply ord c).rows.filter (·.sessionId == sid) = c.rows.filter (·.sessionId == sid) := by
  have hadd : (op.added c).filter (·.sessionId == sid) = [] := by
    refine List.filter_eq_nil_iff.mpr fun e he hs => h ?_
    rw [mem_added he]
    simpa [Concerns] using hs
  have hkeep : ∀ rows : List ClaraEvent, (∀ r ∈ rows, r ∈ c.rows) →
      (rows.filterMap op.effect).filter (·.sessionId == sid) =
        rows.filter (·.sessionId == sid) := by
    intro rows hrows
    induction rows with
    | nil => rfl
    | cons r rows ih =>
      have ih := ih fun x hx => hrows x (List.mem_cons_of_mem _ hx)
      by_cases hs : r.sessionId = sid
      · simp [effect_other h (hrows r (by simp)) hs, hs, ih]
      · cases he : op.effect r with
        | none => simp [he, hs, ih]
        | some r' =>
          have hs' : r'.sessionId = r.sessionId := by rw [effect_some he]; rfl
          simp [he, hs, hs', ih]
  rw [apply_rows, List.filter_append, hadd, List.append_nil, hkeep c.rows fun _ hr => hr]

end CoireOp

/-- The three fates of a written event, with how often it was polled, marked and drained. -/
def AccountedFor (st : EventStatus) (polled marked drained : Nat) : Prop :=
  (st = .pending ∧ polled + marked = 0 ∧ drained = 0) ∨
  (st = .processed ∧ polled + marked = 1 ∧ drained = 0) ∨
  (st = .drained ∧ polled + marked = 0 ∧ drained = 1)

theorem CoireRun.accountedFor {ord : RowOrder} (R : CoireRun ord) {r : ClaraEvent}
    (hr : r ∈ R.final.rows) :
    AccountedFor r.status (R.timesPolled r.eventId) (R.timesMarked r.eventId)
      (R.timesDrained r.eventId) := by
  have htaken := R.taken_le_one r.eventId
  have hproc := R.processed_le r.eventId
  have hdrain := R.drained_le r.eventId
  have hhas : R.final.has r.eventId r.status = true := Coire.has_iff.mpr ⟨r, hr, rfl, rfl⟩
  cases hst : r.status with
  | pending =>
    rw [hst] at hhas
    rw [hhas, Bool.toNat_true] at htaken
    exact .inl ⟨rfl, by omega, by omega⟩
  | processed =>
    rw [hst] at hhas
    rw [hhas, Bool.toNat_true] at hproc
    exact .inr (.inl ⟨rfl, by omega, by omega⟩)
  | drained =>
    rw [hst] at hhas
    rw [hhas, Bool.toNat_true] at hdrain
    exact .inr (.inr ⟨rfl, by omega, by omega⟩)

end Cerebellum
