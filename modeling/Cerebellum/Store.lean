import Cerebellum.CoireAccounting
import Cerebellum.Lib.Batch
import Cerebellum.Lib.Keyed

/-! The durable side of the Coire: `CoireStore` keeps the pending events of finished runs
in a table of the same shape, and restores them into the live Coire of a later run. -/
namespace Cerebellum
open Transition Batch

/-- The `coire_events` table on file; `event_id` is its primary key here too. -/
@[ext] structure CoireStore where
  rows : List ClaraEvent
  primaryKey : (rows.map ClaraEvent.eventId).Nodup

namespace ClaraEvent

def withSession (r : ClaraEvent) (sid : Uuid) : ClaraEvent := { r with sessionId := sid }

@[simp] theorem withSession_eventId (r : ClaraEvent) (sid : Uuid) :
    (r.withSession sid).eventId = r.eventId := rfl

end ClaraEvent

namespace Coire

/-- `read_pending`, which leaves the events as they are. -/
def readPending (ord : RowOrder) (c : Coire) (sid : Uuid) : List ClaraEvent :=
  ord.sort (c.rows.filter fun r => r.sessionId == sid && r.status == .pending)

/-- One write of a loop that stops at the first error. -/
def tryWrite (c : Coire) (e : ClaraEvent) : Option CoireError × Coire :=
  match c.writeEvent e with
  | .error err => (some err, c)
  | .ok c => (none, c)

end Coire

namespace CoireStore

def new : CoireStore := ⟨[], List.nodup_nil⟩

/-- On a conflict every column is overwritten, the session too. -/
def upsertEvent (s : CoireStore) (e : ClaraEvent) : CoireStore where
  rows := Keyed.upsert ClaraEvent.eventId Keyed.overwrite s.rows e
  primaryKey := Keyed.nodup_upsert (fun _ _ h => h.symm) s.primaryKey e

def saveSession (ord : RowOrder) (s : CoireStore) (sid : Uuid) (c : Coire) : Nat × CoireStore :=
  let events := c.readPending ord sid
  (events.length, events.foldl upsertEvent s)

def readSession (ord : RowOrder) (s : CoireStore) (sid : Uuid) : List ClaraEvent :=
  ord.sort (s.rows.filter (·.sessionId == sid))

/-- The number of events restored, or the first failed write. -/
def restored (events : List ClaraEvent) : Option CoireError × Coire → Except CoireError Nat × Coire
  | (none, c) => (.ok events.length, c)
  | (some err, c) => (.error err, c)

def restoreSession (ord : RowOrder) (s : CoireStore) (sid : Uuid) (c : Coire) :
    Except CoireError Nat × Coire :=
  let events := s.readSession ord sid
  restored events (upTo Coire.tryWrite c events)

def restoreSessionAs (ord : RowOrder) (s : CoireStore) (fromId intoId : Uuid) (c : Coire) :
    Except CoireError Nat × Coire :=
  let events := s.readSession ord fromId
  restored events (upTo Coire.tryWrite c (events.map (·.withSession intoId)))

def deleteSession (s : CoireStore) (sid : Uuid) : Nat × CoireStore :=
  (s.rows.countP (·.sessionId == sid),
    ⟨s.rows.filter (·.sessionId != sid), (List.filter_sublist.map _).nodup s.primaryKey⟩)

variable {ord : RowOrder} {s : CoireStore} {c : Coire} {sid : Uuid} {e : ClaraEvent}

theorem eq_of_eventId {r r' : ClaraEvent} (hr : r ∈ s.rows) (hr' : r' ∈ s.rows)
    (h : r.eventId = r'.eventId) : r = r' :=
  List.inj_on_of_nodup_map s.primaryKey hr hr' h

theorem mem_readPending : e ∈ c.readPending ord sid ↔
    e ∈ c.rows ∧ e.sessionId = sid ∧ e.status = .pending := by
  rw [Coire.readPending, (ord.perm _).mem_iff, List.mem_filter]
  simp

theorem readPending_nodup : ((c.readPending ord sid).map ClaraEvent.eventId).Nodup := by
  refine ((ord.perm _).map _).nodup_iff.mpr ?_
  exact (List.filter_sublist.map _).nodup c.primaryKey

theorem mem_readSession : e ∈ s.readSession ord sid ↔ e ∈ s.rows ∧ e.sessionId = sid := by
  rw [readSession, (ord.perm _).mem_iff, List.mem_filter]
  simp

theorem readSession_nodup : ((s.readSession ord sid).map ClaraEvent.eventId).Nodup := by
  refine ((ord.perm _).map _).nodup_iff.mpr ?_
  exact (List.filter_sublist.map _).nodup s.primaryKey

theorem foldl_upsertEvent_rows (events : List ClaraEvent) (s : CoireStore) :
    (events.foldl upsertEvent s).rows =
      events.foldl (Keyed.upsert ClaraEvent.eventId Keyed.overwrite) s.rows := by
  induction events generalizing s with
  | nil => rfl
  | cons e events ih => exact ih (s.upsertEvent e)

/-- What a save leaves in the table: the pending events, and every row under another id. -/
theorem mem_saveSession : e ∈ (s.saveSession ord sid c).2.rows ↔
    e ∈ c.readPending ord sid ∨
      (e ∈ s.rows ∧ e.eventId ∉ (c.readPending ord sid).map ClaraEvent.eventId) := by
  rw [saveSession, foldl_upsertEvent_rows]
  exact Keyed.mem_foldl_overwrite readPending_nodup

/-- A restored batch fails at the first id the live Coire already has. -/
theorem tryWrite_none_iff {c : Coire} {e : ClaraEvent} :
    (c.tryWrite e).1 = none ↔ e.eventId ∉ c.rows.map ClaraEvent.eventId := by
  unfold Coire.tryWrite Coire.writeEvent
  by_cases h : e.eventId ∈ c.rows.map ClaraEvent.eventId
  · simp [h]
  · simp [h]

theorem tryWrite_fail {c : Coire} {e : ClaraEvent} (h : (c.tryWrite e).1 ≠ none) :
    after Coire.tryWrite c e = c := by
  unfold after Coire.tryWrite at *
  split
  · rfl
  · rename_i hok
    simp [hok] at h

theorem tryWrite_ok {c : Coire} {e : ClaraEvent} (h : (c.tryWrite e).1 = none) :
    (after Coire.tryWrite c e).rows = c.rows ++ [e] := by
  unfold after Coire.tryWrite at *
  split
  · rename_i herr
    simp [herr] at h
  · rename_i hok
    exact (Coire.writeEvent_rows hok).1

/-- A batch of events with ids of their own goes in whole when the table has none of them. -/
theorem upTo_tryWrite {c : Coire} {events : List ClaraEvent}
    (hids : (events.map ClaraEvent.eventId).Nodup)
    (hfree : ∀ e ∈ events, e.eventId ∉ c.rows.map ClaraEvent.eventId) :
    (upTo Coire.tryWrite c events).1 = none ∧
      (upTo Coire.tryWrite c events).2.rows = c.rows ++ events := by
  induction events generalizing c with
  | nil => simp [upTo]
  | cons e events ih =>
    obtain ⟨hne, hrest⟩ := List.nodup_cons.mp hids
    have hok : (c.tryWrite e).1 = none := tryWrite_none_iff.mpr (hfree e (by simp))
    have hfree' : ∀ x ∈ events,
        x.eventId ∉ (after Coire.tryWrite c e).rows.map ClaraEvent.eventId := by
      intro x hx
      rw [tryWrite_ok hok, List.map_append, List.mem_append, not_or]
      refine ⟨hfree x (List.mem_cons_of_mem _ hx), ?_⟩
      simp only [List.map_cons, List.map_nil, List.mem_singleton]
      exact fun he => hne (he ▸ List.mem_map_of_mem hx)
    obtain ⟨h1, h2⟩ := ih hrest hfree'
    rw [upTo_cons_ok hok]
    exact ⟨h1, by rw [h2, tryWrite_ok hok, List.append_assoc]; rfl⟩

/-- Saving events of another session leaves the rows of `sid` alone as long as no id of
theirs is written. -/
theorem saveSession_filter {other : Uuid} (hother : other ≠ sid)
    (hfree : ∀ e ∈ c.readPending ord other, ∀ r ∈ s.rows, r.sessionId = sid →
      r.eventId ≠ e.eventId) :
    (s.saveSession ord other c).2.rows.filter (·.sessionId == sid) =
      s.rows.filter (·.sessionId == sid) := by
  rw [saveSession, foldl_upsertEvent_rows]
  refine Keyed.filter_foldl_overwrite ?_ ?_
  · intro e he
    rw [beq_eq_false_iff_ne, (mem_readPending.mp he).2.1]
    exact hother
  · intro e he r hr hsid
    exact hfree e he r hr (beq_iff_eq.mp hsid)

end CoireStore

/-- The store and the live Coire of the process that uses it. -/
structure Persisted where
  store : CoireStore
  live : Coire

/-- The operations that touch either of them. -/
inductive PersistOp where
  | live (op : CoireOp)
  | saveSession (sid : Uuid)
  | readSession (sid : Uuid)
  | restoreSession (sid : Uuid)
  | restoreSessionAs (fromId intoId : Uuid)
  | deleteSession (sid : Uuid)

namespace PersistOp
variable (ord : RowOrder)

def apply (s : Persisted) : PersistOp → Persisted
  | .live op => { s with live := op.apply ord s.live }
  | .saveSession sid => { s with store := (s.store.saveSession ord sid s.live).2 }
  | .readSession _ => s
  | .restoreSession sid => { s with live := (s.store.restoreSession ord sid s.live).2 }
  | .restoreSessionAs fromId intoId =>
    { s with live := (s.store.restoreSessionAs ord fromId intoId s.live).2 }
  | .deleteSession sid => { s with store := (s.store.deleteSession sid).2 }

/-- The operation reads the stored session `sid` at most. -/
def ReadsOnly (sid : Uuid) : PersistOp → Prop
  | .saveSession other => other ≠ sid
  | .deleteSession other => other ≠ sid
  | _ => True

/-- A save writes no id that is stored for `sid`. -/
def Spares (sid : Uuid) (s : Persisted) : PersistOp → Prop
  | .saveSession other => ∀ e ∈ s.live.rows, e.sessionId = other → e.status = .pending →
      ∀ r ∈ s.store.rows, r.sessionId = sid → r.eventId ≠ e.eventId
  | _ => True

variable {ord} {sid : Uuid}

/-- An operation that only reads a session and spares it leaves its rows alone. -/
theorem apply_filter {s : Persisted} {op : PersistOp} (h : op.ReadsOnly sid)
    (hspare : op.Spares sid s) : (op.apply ord s).store.rows.filter (·.sessionId == sid) =
      s.store.rows.filter (·.sessionId == sid) := by
  cases op with
  | saveSession other =>
    refine CoireStore.saveSession_filter h fun e he r hr hsid => ?_
    obtain ⟨hrow, hmine, hpend⟩ := CoireStore.mem_readPending.mp he
    exact hspare e hrow hmine hpend r hr hsid
  | deleteSession other =>
    simp only [apply, CoireStore.deleteSession, List.filter_filter]
    refine List.filter_congr fun r _ => ?_
    by_cases hr : r.sessionId = sid
    · simp [hr, Ne.symm h]
    · simp [hr]
  | _ => rfl

/-- A save that does not spare a stored row takes it away from its session. -/
theorem spares_of_kept {s : Persisted} {op : PersistOp} (h : op.ReadsOnly sid)
    (hkept : ∀ r ∈ s.store.rows, r.sessionId = sid → r ∈ (op.apply ord s).store.rows) :
    op.Spares sid s := by
  cases op with
  | saveSession other =>
    intro e he hmine hpend r hr hsid hid
    have hsaved : e ∈ (s.store.saveSession ord other s.live).2.rows :=
      CoireStore.mem_saveSession.mpr (.inl (CoireStore.mem_readPending.mpr ⟨he, hmine, hpend⟩))
    -- one id cannot stand in two sessions
    have heq := CoireStore.eq_of_eventId (hkept r hr hsid) hsaved hid
    exact h (hmine.symm.trans (heq ▸ hsid))
  | _ => trivial

end PersistOp

/-- Operations of a run in which the stored session `sid` is only read. -/
structure ReadOnlyRun (sid : Uuid) where
  ops : List PersistOp
  readOnly : ∀ op ∈ ops, op.ReadsOnly sid

/-- A stored session reads as before, and resuming it gives what it gave before. -/
structure Intact (ord : RowOrder) (sid : Uuid) (s s' : CoireStore) : Prop where
  read : s'.readSession ord sid = s.readSession ord sid
  resumed : ∀ intoId c, s'.restoreSessionAs ord sid intoId c = s.restoreSessionAs ord sid intoId c

theorem intact_of_filter {ord : RowOrder} {sid : Uuid} {s s' : CoireStore}
    (h : s'.rows.filter (·.sessionId == sid) = s.rows.filter (·.sessionId == sid)) :
    Intact ord sid s s' := by
  have hread : s'.readSession ord sid = s.readSession ord sid := by
    rw [CoireStore.readSession, h, CoireStore.readSession]
  exact ⟨hread, fun intoId c => by rw [CoireStore.restoreSessionAs, hread]; rfl⟩

/-- As long as every save spares the session, its rows do not change along a run. -/
theorem run_filter {ord : RowOrder} {sid : Uuid} {s : Persisted} {ops : List PersistOp}
    (hread : ∀ op ∈ ops, op.ReadsOnly sid)
    (hspare : ∀ v ∈ visits (PersistOp.apply ord) s ops, v.2.Spares sid v.1) :
    (run (PersistOp.apply ord) s ops).store.rows.filter (·.sessionId == sid) =
      s.store.rows.filter (·.sessionId == sid) := by
  induction ops generalizing s with
  | nil => rfl
  | cons op ops ih =>
    have hone := @PersistOp.apply_filter ord _ _ _ (hread op (by simp))
      (hspare (s, op) (by simp [visits]))
    have hrest := ih (s := op.apply ord s) (fun o ho => hread o (List.mem_cons_of_mem _ ho))
      fun v hv => hspare v (List.mem_cons_of_mem _ hv)
    exact hrest.trans hone

/-- In a run that only reads a stored session, the session stays as it was at every state
reached exactly when no save writes an id that is stored for it. -/
theorem stored_session_unchanged_iff {sid : Uuid} (R : ReadOnlyRun sid) (ord : RowOrder)
    (s : Persisted) :
    (∀ u w, R.ops = u ++ w → Intact ord sid s.store (run (PersistOp.apply ord) s u).store) ↔
      ∀ v ∈ visits (PersistOp.apply ord) s R.ops, v.2.Spares sid v.1 := by
  constructor
  · intro h v hv
    obtain ⟨u, w, hops, hstate⟩ := mem_visits hv
    have hbefore := (h u (v.2 :: w) hops).read
    have hafter := (h (u ++ [v.2]) w (by simpa using hops)).read
    rw [run_append, ← hbefore, ← hstate] at hafter
    refine @PersistOp.spares_of_kept ord _ _ _ (R.readOnly v.2 (by simp [hops]))
      fun r hr hsid => ?_
    have hread : r ∈ v.1.store.readSession ord sid := CoireStore.mem_readSession.mpr ⟨hr, hsid⟩
    rw [← hafter] at hread
    exact (CoireStore.mem_readSession.mp hread).1
  · intro h u w hops
    refine intact_of_filter (run_filter (fun op hop => R.readOnly op (by simp [hops, hop])) ?_)
    intro v hv
    refine h v ?_
    rw [hops, visits_append]
    exact List.mem_append_left _ hv

/-- A stored event of session 1. -/
def storedMail : ClaraEvent := ⟨⟨10⟩, ⟨1⟩, "relay-clips:clips", 5, .str "p", .pending⟩

/-- A snapshot is resumed as session 2, and the run ends with the event still pending. -/
def resumeAndSave : ReadOnlyRun ⟨1⟩ where
  ops := [.restoreSessionAs ⟨1⟩ ⟨2⟩, .saveSession ⟨2⟩]
  readOnly := by simp [PersistOp.ReadsOnly]

/-- The snapshot's own event is gone. -/
theorem resumed_save_empties_snapshot :
    (run (PersistOp.apply .stable) ⟨⟨[storedMail], by decide⟩, Coire.new⟩
      resumeAndSave.ops).store.readSession .stable ⟨1⟩ = [] ∧
    ¬ ∀ u w, resumeAndSave.ops = u ++ w → Intact .stable ⟨1⟩ ⟨[storedMail], by decide⟩
      (run (PersistOp.apply .stable) ⟨⟨[storedMail], by decide⟩, Coire.new⟩ u).store := by
  refine ⟨by decide +kernel, fun h => ?_⟩
  have hread := (h resumeAndSave.ops [] (by simp)).read
  revert hread
  decide +kernel

/-- A save of `sid` captures exactly what is pending in it, and restoring it under another
session into a Coire that has none of its events gives exactly that back. -/
structure CapturesPending (ord : RowOrder) (sid : Uuid) (s : Persisted) : Prop where
  saved : ∀ e, e ∈ (s.store.saveSession ord sid s.live).2.readSession ord sid ↔
    e ∈ s.live.rows ∧ e.sessionId = sid ∧ e.status = .pending
  restored : ∀ intoId (c : Coire),
    (∀ r ∈ c.rows, ∀ e ∈ (s.store.saveSession ord sid s.live).2.readSession ord sid,
      r.eventId ≠ e.eventId) →
    ∃ new : List ClaraEvent,
      (s.store.saveSession ord sid s.live).2.restoreSessionAs ord sid intoId c =
        (.ok new.length, (upTo Coire.tryWrite c new).2) ∧
      (upTo Coire.tryWrite c new).2.rows = c.rows ++ new ∧
      new.Perm ((s.live.rows.filter fun r => r.sessionId == sid && r.status == .pending).map
        (·.withSession intoId))

/-- Every event stored for the session is still pending in it. -/
def NoneStale (sid : Uuid) (s : Persisted) : Prop :=
  ∀ r ∈ s.store.rows, r.sessionId = sid →
    ∃ e ∈ s.live.rows, e.sessionId = sid ∧ e.status = .pending ∧ e.eventId = r.eventId

namespace CoireStore
variable {ord : RowOrder} {sid : Uuid} {s : Persisted}

theorem mem_saved : ∀ e, e ∈ (s.store.saveSession ord sid s.live).2.readSession ord sid ↔
    (e ∈ s.live.rows ∧ e.sessionId = sid ∧ e.status = .pending) ∨
      (e ∈ s.store.rows ∧ e.sessionId = sid ∧
        e.eventId ∉ (s.live.readPending ord sid).map ClaraEvent.eventId) := by
  intro e
  rw [mem_readSession, mem_saveSession, mem_readPending]
  constructor
  · rintro ⟨h | ⟨h, hid⟩, hsid⟩
    · exact .inl h
    · exact .inr ⟨h, hsid, hid⟩
  · rintro (h | ⟨h, hsid, hid⟩)
    · exact ⟨.inl h, h.2.1⟩
    · exact ⟨.inr ⟨h, hid⟩, hsid⟩

theorem saved_iff : (∀ e, e ∈ (s.store.saveSession ord sid s.live).2.readSession ord sid ↔
    e ∈ s.live.rows ∧ e.sessionId = sid ∧ e.status = .pending) ↔ NoneStale sid s := by
  constructor
  · intro h r hr hsid
    by_contra hno
    have hstale : r.eventId ∉ (s.live.readPending ord sid).map ClaraEvent.eventId := by
      intro hid
      obtain ⟨e, he, heq⟩ := List.mem_map.mp hid
      obtain ⟨hrow, hmine, hpend⟩ := mem_readPending.mp he
      exact hno ⟨e, hrow, hmine, hpend, heq⟩
    -- the old row is read back, so it would have to be pending itself
    have hlive := (h r).mp ((mem_saved r).mpr (.inr ⟨hr, hsid, hstale⟩))
    exact hno ⟨r, hlive.1, hlive.2.1, hlive.2.2, rfl⟩
  · intro h e
    rw [mem_saved]
    refine ⟨fun he => ?_, .inl⟩
    rcases he with he | ⟨hr, hsid, hid⟩
    · exact he
    · obtain ⟨x, hx, hmine, hpend, heq⟩ := h e hr hsid
      refine absurd (List.mem_map.mpr ⟨x, mem_readPending.mpr ⟨hx, hmine, hpend⟩, heq⟩) hid

/-- A session is restored whole into a Coire that has none of its events. -/
theorem restoreSessionAs_ok {s : CoireStore} {c : Coire} (intoId : Uuid)
    (hfree : ∀ r ∈ c.rows, ∀ e ∈ s.readSession ord sid, r.eventId ≠ e.eventId) :
    s.restoreSessionAs ord sid intoId c = (.ok (s.readSession ord sid).length,
        (upTo Coire.tryWrite c ((s.readSession ord sid).map (·.withSession intoId))).2) ∧
      (upTo Coire.tryWrite c ((s.readSession ord sid).map (·.withSession intoId))).2.rows =
        c.rows ++ (s.readSession ord sid).map (·.withSession intoId) := by
  have hids : (((s.readSession ord sid).map (·.withSession intoId)).map
      ClaraEvent.eventId).Nodup := by
    rw [List.map_map]
    exact readSession_nodup
  have hnew : ∀ e ∈ (s.readSession ord sid).map (·.withSession intoId),
      e.eventId ∉ c.rows.map ClaraEvent.eventId := by
    intro e he hid
    obtain ⟨x, hx, rfl⟩ := List.mem_map.mp he
    obtain ⟨r, hr, heq⟩ := List.mem_map.mp hid
    exact hfree r hr x hx heq
  obtain ⟨hok, hrows⟩ := upTo_tryWrite hids hnew
  refine ⟨?_, hrows⟩
  simp only [restoreSessionAs]
  generalize upTo Coire.tryWrite c ((s.readSession ord sid).map (·.withSession intoId)) = r at hok
  obtain ⟨err, c'⟩ := r
  cases hok
  rfl

theorem nodup_of_ids {l : List ClaraEvent} (h : (l.map ClaraEvent.eventId).Nodup) : l.Nodup :=
  List.Nodup.of_map _ h

theorem capturesPending_iff : CapturesPending ord sid s ↔ NoneStale sid s := by
  constructor
  · intro h
    exact saved_iff.mp h.saved
  · intro h
    have hsaved := (@saved_iff ord sid s).mpr h
    refine ⟨hsaved, fun intoId c hfree => ?_⟩
    obtain ⟨hok, hrows⟩ := restoreSessionAs_ok intoId hfree
    refine ⟨_, ?_, hrows, ?_⟩
    · rw [hok, List.length_map]
    · refine List.Perm.map _ ((List.perm_ext_iff_of_nodup (nodup_of_ids readSession_nodup) ?_).mpr ?_)
      · exact nodup_of_ids ((List.filter_sublist.map _).nodup s.live.primaryKey)
      · intro e
        rw [hsaved e, List.mem_filter]
        simp

end CoireStore

/-- Along every run of saves, restores and live operations, the saves of a session capture
exactly what is pending in it if and only if at each of them everything stored for the
session before is still pending. -/
theorem save_captures_pending_iff (ord : RowOrder) (sid : Uuid) (s : Persisted)
    (ops : List PersistOp) :
    (∀ v ∈ visits (PersistOp.apply ord) s ops, v.2 = .saveSession sid →
      CapturesPending ord sid v.1) ↔
    ∀ v ∈ visits (PersistOp.apply ord) s ops, v.2 = .saveSession sid → NoneStale sid v.1 :=
  forall₂_congr fun _ _ => imp_congr_right fun _ => CoireStore.capturesPending_iff

/-- An event is written and saved, then consumed, and the session is saved again. -/
def saveConsumeSave : List PersistOp :=
  [.live (.write storedMail), .saveSession ⟨1⟩, .live (.poll ⟨1⟩ .any), .saveSession ⟨1⟩]

/-- The consumed event is still in the store after the second save. -/
theorem consumed_event_stays_stored :
    (run (PersistOp.apply .stable) ⟨CoireStore.new, Coire.new⟩ saveConsumeSave).store.readSession
      .stable ⟨1⟩ = [storedMail] ∧
    (run (PersistOp.apply .stable) ⟨CoireStore.new, Coire.new⟩ saveConsumeSave).live.countPending
      ⟨1⟩ = 0 ∧
    ¬ ∀ v ∈ visits (PersistOp.apply .stable) ⟨CoireStore.new, Coire.new⟩ saveConsumeSave,
      v.2 = .saveSession ⟨1⟩ → CapturesPending .stable ⟨1⟩ v.1 := by
  refine ⟨by decide +kernel, by decide +kernel, fun h => ?_⟩
  have hlast := h (run (PersistOp.apply .stable) ⟨CoireStore.new, Coire.new⟩ (saveConsumeSave.take 3),
    .saveSession ⟨1⟩) (by simp [saveConsumeSave, visits, run]) rfl
  have hpend := ((hlast.saved storedMail).mp (by decide +kernel)).1
  revert hpend
  decide +kernel

end Cerebellum
