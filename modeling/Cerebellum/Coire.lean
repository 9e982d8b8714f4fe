import Cerebellum.Json
import Cerebellum.Uuid
import Cerebellum.Lib.SqlText
import Mathlib.Data.List.Sort
import Mathlib.Data.List.Dedup
import Mathlib.Data.List.Perm.Basic

/-! The in-memory Coire: one table of events with a status column, shared by all
sessions of the process. Every operation runs under the connection lock, so it is one
step on the whole table. -/
namespace Cerebellum

inductive EventStatus where
  | pending
  | processed
  | drained
  deriving DecidableEq, Repr

structure ClaraEvent where
  eventId : Uuid
  sessionId : Uuid
  origin : String
  createdAtMs : Int
  payload : Json
  status : EventStatus
  deriving DecidableEq

inductive CoireError where
  | eventNotFound (id : Uuid)
  | duplicateKey (id : Uuid)

/-- The `coire_events` table; `event_id` is its primary key. -/
@[ext] structure Coire where
  rows : List ClaraEvent
  primaryKey : (rows.map ClaraEvent.eventId).Nodup

/-- What `ORDER BY created_at_ms ASC` promises. The order of equal keys is the engine's. -/
structure RowOrder where
  sort : List ClaraEvent → List ClaraEvent
  perm : ∀ l, (sort l).Perm l
  sorted : ∀ l, (sort l).Pairwise fun a b => a.createdAtMs ≤ b.createdAtMs

/-- The order that leaves equal timestamps as they stand in the table. -/
def RowOrder.stable : RowOrder where
  sort := List.insertionSort fun a b => a.createdAtMs ≤ b.createdAtMs
  perm := List.perm_insertionSort _
  sorted l :=
    haveI : Std.Total fun a b : ClaraEvent => a.createdAtMs ≤ b.createdAtMs :=
      ⟨fun a b => le_total a.createdAtMs b.createdAtMs⟩
    haveI : IsTrans ClaraEvent fun a b => a.createdAtMs ≤ b.createdAtMs :=
      ⟨fun _ _ _ => le_trans⟩
    List.pairwise_insertionSort _ l

inductive OriginFilter where
  | any
  | startsWith (p : String)
  | notStartsWith (p : String)

/-- `origin LIKE 'p%'`, as every filtered query writes it. -/
def originLike (p origin : String) : Bool :=
  SqlText.like (p ++ "%").toList origin.toList

def OriginFilter.cond : OriginFilter → String → Bool
  | .any, _ => true
  | .startsWith p, origin => originLike p origin
  | .notStartsWith p, origin => !originLike p origin

/-- The `WHERE` clause of a poll. -/
def OriginFilter.selects (f : OriginFilter) (sid : Uuid) (r : ClaraEvent) : Bool :=
  r.sessionId == sid && r.status == .pending && f.cond r.origin

namespace ClaraEvent

def withStatus (r : ClaraEvent) (s : EventStatus) : ClaraEvent := { r with status := s }

@[simp] theorem withStatus_eventId (r : ClaraEvent) (s : EventStatus) :
    (r.withStatus s).eventId = r.eventId := rfl
@[simp] theorem withStatus_sessionId (r : ClaraEvent) (s : EventStatus) :
    (r.withStatus s).sessionId = r.sessionId := rfl
@[simp] theorem withStatus_origin (r : ClaraEvent) (s : EventStatus) :
    (r.withStatus s).origin = r.origin := rfl
@[simp] theorem withStatus_payload (r : ClaraEvent) (s : EventStatus) :
    (r.withStatus s).payload = r.payload := rfl
@[simp] theorem withStatus_status (r : ClaraEvent) (s : EventStatus) :
    (r.withStatus s).status = s := rfl

end ClaraEvent

structure SessionSummary where
  sessionId : Uuid
  total : Nat
  pending : Nat
  processed : Nat
  drained : Nat
  deriving DecidableEq

namespace Coire

def new : Coire := ⟨[], List.nodup_nil⟩

/-- `UPDATE coire_events SET status = st WHERE p`. -/
def setStatus (c : Coire) (p : ClaraEvent → Bool) (st : EventStatus) : Coire where
  rows := c.rows.map fun r => if p r then r.withStatus st else r
  primaryKey := by
    have h : (c.rows.map fun r => if p r then r.withStatus st else r).map ClaraEvent.eventId =
        c.rows.map ClaraEvent.eventId := by
      rw [List.map_map]
      refine List.map_congr_left fun r _ => ?_
      simp only [Function.comp]
      split <;> rfl
    rw [h]
    exact c.primaryKey

def writeEvent (c : Coire) (e : ClaraEvent) : Except CoireError Coire :=
  if h : e.eventId ∈ c.rows.map ClaraEvent.eventId then .error (.duplicateKey e.eventId)
  else .ok ⟨c.rows ++ [e], by simpa [List.nodup_append] using ⟨c.primaryKey, by simpa using h⟩⟩

def markProcessed (c : Coire) (id : Uuid) : Except CoireError Coire :=
  let hit := fun r : ClaraEvent => r.eventId == id && r.status == .pending
  if c.rows.countP hit = 0 then .error (.eventNotFound id) else .ok (c.setStatus hit .processed)

/-- Read the selected events, then mark each of them processed by its id. -/
def pollPendingImpl (ord : RowOrder) (c : Coire) (sid : Uuid) (f : OriginFilter) :
    List ClaraEvent × Coire :=
  let raw := ord.sort (c.rows.filter (f.selects sid))
  (raw.map (·.withStatus .processed),
    (raw.map ClaraEvent.eventId).foldl (fun c id => c.setStatus (·.eventId == id) .processed) c)

def pollPending (ord : RowOrder) (c : Coire) (sid : Uuid) : List ClaraEvent × Coire :=
  c.pollPendingImpl ord sid .any

def pollPendingWithOriginPrefix (ord : RowOrder) (c : Coire) (sid : Uuid) (p : String) :
    List ClaraEvent × Coire :=
  c.pollPendingImpl ord sid (.startsWith p)

def pollPendingExcludingOriginPrefix (ord : RowOrder) (c : Coire) (sid : Uuid) (p : String) :
    List ClaraEvent × Coire :=
  c.pollPendingImpl ord sid (.notStartsWith p)

def drainSession (c : Coire) (sid : Uuid) : Nat × Coire :=
  let hit := fun r : ClaraEvent => r.sessionId == sid && r.status == .pending
  (c.rows.countP hit, c.setStatus hit .drained)

def clearSession (c : Coire) (sid : Uuid) : Nat × Coire :=
  (c.rows.countP (·.sessionId == sid),
    ⟨c.rows.filter (·.sessionId != sid), (List.filter_sublist.map _).nodup c.primaryKey⟩)

def countPending (c : Coire) (sid : Uuid) : Nat :=
  c.rows.countP fun r => r.sessionId == sid && r.status == .pending

def countPendingWithOriginPrefix (c : Coire) (sid : Uuid) (p : String) : Nat :=
  c.rows.countP fun r => r.sessionId == sid && r.status == .pending && originLike p r.origin

/-- `GROUP BY session_id`, the groups in the order of their printed ids. -/
def listSessions (c : Coire) : List SessionSummary :=
  let sids := (c.rows.map ClaraEvent.sessionId).dedup.insertionSort
    fun a b => a.toText ≤ b.toText
  sids.map fun sid =>
    let mine := c.rows.filter (·.sessionId == sid)
    { sessionId := sid
      total := mine.length
      pending := mine.countP (·.status == .pending)
      processed := mine.countP (·.status == .processed)
      drained := mine.countP (·.status == .drained) }

end Coire

/-- The three ways a prefix filter reads for a prefix without wildcards. -/
theorem originLike_eq (p origin : String) (h : SqlText.Literal p.toList) :
    originLike p origin = p.toList.isPrefixOf origin.toList := by
  have hp : (p ++ "%").toList = p.toList ++ ['%'] := by simp
  rw [originLike, hp]
  exact SqlText.like_literal_percent _ _ h

theorem originLike_append (p s : String) (h : SqlText.Literal p.toList) :
    originLike p (p ++ s) = true := by
  rw [originLike_eq _ _ h]
  simp

namespace Coire
variable (ord : RowOrder)

/-- Rows of a table are told apart by their ids. -/
theorem eq_of_eventId {c : Coire} {r s : ClaraEvent} (hr : r ∈ c.rows) (hs : s ∈ c.rows)
    (h : r.eventId = s.eventId) : r = s :=
  List.inj_on_of_nodup_map c.primaryKey hr hs h

theorem writeEvent_ok {c : Coire} {e : ClaraEvent} (h : ∀ r ∈ c.rows, r.eventId ≠ e.eventId) :
    ∃ c', c.writeEvent e = .ok c' ∧ c'.rows = c.rows ++ [e] := by
  have hn : e.eventId ∉ c.rows.map ClaraEvent.eventId := by
    simpa using h
  exact ⟨_, dif_neg hn, rfl⟩

theorem writeEvent_rows {c c' : Coire} {e : ClaraEvent} (h : c.writeEvent e = .ok c') :
    c'.rows = c.rows ++ [e] ∧ ∀ r ∈ c.rows, r.eventId ≠ e.eventId := by
  unfold writeEvent at h
  split at h
  · cases h
  · rename_i hn
    cases h
    exact ⟨rfl, by simpa using hn⟩

theorem foldl_setStatus_rows (ids : List Uuid) (c : Coire) :
    (ids.foldl (fun c id => c.setStatus (·.eventId == id) .processed) c).rows =
      c.rows.map fun r => if r.eventId ∈ ids then r.withStatus .processed else r := by
  induction ids generalizing c with
  | nil => simp
  | cons id ids ih =>
    rw [List.foldl_cons, ih]
    simp only [setStatus, List.map_map]
    refine List.map_congr_left fun r _ => ?_
    by_cases h : r.eventId = id <;> by_cases h' : r.eventId ∈ ids <;>
      simp [h, ClaraEvent.withStatus]

/-- A poll flips exactly the rows its `WHERE` clause selects. -/
theorem poll_rows (c : Coire) (sid : Uuid) (f : OriginFilter) :
    (c.pollPendingImpl ord sid f).2.rows =
      c.rows.map fun r => if f.selects sid r then r.withStatus .processed else r := by
  simp only [pollPendingImpl, foldl_setStatus_rows]
  refine List.map_congr_left fun r hr => ?_
  have hmem : r.eventId ∈ (ord.sort (c.rows.filter (f.selects sid))).map ClaraEvent.eventId ↔
      f.selects sid r = true := by
    rw [List.mem_map]
    constructor
    · rintro ⟨s, hs, he⟩
      have hs' := (ord.perm _).mem_iff.mp hs
      obtain ⟨hsr, hsel⟩ := List.mem_filter.mp hs'
      rwa [← eq_of_eventId hsr hr he]
    · intro h
      exact ⟨r, (ord.perm _).mem_iff.mpr (List.mem_filter.mpr ⟨hr, h⟩), rfl⟩
  simp only [hmem]

/-- What is pending after some rows are flipped was pending before and is none of them. -/
theorem mem_flip_pending {rows : List ClaraEvent} {p : ClaraEvent → Bool} {r : ClaraEvent} :
    (r ∈ rows.map (fun s => if p s then s.withStatus .processed else s) ∧ r.status = .pending) ↔
      r ∈ rows ∧ r.status = .pending ∧ p r = false := by
  constructor
  · rintro ⟨hr, hst⟩
    obtain ⟨s, hs, rfl⟩ := List.mem_map.mp hr
    by_cases hp : p s = true
    · simp [hp] at hst
    · simp only [hp] at hst ⊢
      exact ⟨hs, hst, by simpa using hp⟩
  · rintro ⟨hr, hst, hp⟩
    exact ⟨List.mem_map.mpr ⟨r, hr, by simp [hp]⟩, hst⟩

theorem markProcessed_rows (c : Coire) (id : Uuid) {c' : Coire} (h : c.markProcessed id = .ok c') :
    c'.rows = c.rows.map fun r =>
      if r.eventId == id && r.status == .pending then r.withStatus .processed else r := by
  unfold markProcessed at h
  dsimp only at h
  split at h
  · cases h
  · cases h
    rfl

/-- A poll returns the selected rows, each once, with their status already flipped. -/
theorem poll_events_perm (c : Coire) (sid : Uuid) (f : OriginFilter) :
    (c.pollPendingImpl ord sid f).1.Perm
      ((c.rows.filter (f.selects sid)).map (·.withStatus .processed)) :=
  (ord.perm _).map _

theorem mem_poll_events {c : Coire} {sid : Uuid} {f : OriginFilter} {e : ClaraEvent} :
    e ∈ (c.pollPendingImpl ord sid f).1 ↔
      ∃ r ∈ c.rows, f.selects sid r = true ∧ e = r.withStatus .processed := by
  rw [(poll_events_perm ord c sid f).mem_iff, List.mem_map]
  constructor
  · rintro ⟨r, hr, rfl⟩
    obtain ⟨h1, h2⟩ := List.mem_filter.mp hr
    exact ⟨r, h1, h2, rfl⟩
  · rintro ⟨r, hr, hsel, rfl⟩
    exact ⟨r, List.mem_filter.mpr ⟨hr, hsel⟩, rfl⟩

end Coire

end Cerebellum
