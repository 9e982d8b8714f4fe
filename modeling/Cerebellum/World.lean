import Cerebellum.Coire
import Mathlib.Logic.Function.Basic

/-! The process around the engines: the global Coire, the random UUIDs it hands out and
the clock. A freshly minted UUID is one that nothing in the table carries yet. -/
namespace Cerebellum

/-- `uuid n` and `clock n` are what the `n`-th call of `Uuid::new_v4` and of the system
clock return; `tick` calls have been made. -/
structure World where
  coire : Coire
  uuid : Nat → Uuid
  clock : Nat → Int
  tick : Nat
  uuidNew : Function.Injective uuid
  rowsOld : ∀ r ∈ coire.rows, ∀ n, tick ≤ n → r.eventId ≠ uuid n

namespace World

def rows (w : World) : List ClaraEvent := w.coire.rows

/-- `Uuid::new_v4`. -/
def newV4 (w : World) : Uuid × World :=
  (w.uuid w.tick,
    { w with tick := w.tick + 1, rowsOld := fun r hr n hn => w.rowsOld r hr n (by omega) })

/-- `ClaraEvent::new`. -/
def newEvent (w : World) (sid : Uuid) (origin : String) (payload : Json) : ClaraEvent :=
  { eventId := w.uuid w.tick, sessionId := sid, origin := origin
    createdAtMs := w.clock w.tick, payload := payload, status := .pending }

theorem newEvent_fresh (w : World) (sid : Uuid) (origin : String) (payload : Json) :
    ∀ r ∈ w.coire.rows, r.eventId ≠ (w.newEvent sid origin payload).eventId :=
  fun r hr => w.rowsOld r hr w.tick (le_refl _)

/-- Mint an event and write it into the mailbox `sid`; a failed write is only logged. -/
def emit (w : World) (sid : Uuid) (origin : String) (payload : Json) : World :=
  match h : w.coire.writeEvent (w.newEvent sid origin payload) with
  | .error _ => w.newV4.2
  | .ok c =>
    { w with
      coire := c
      tick := w.tick + 1
      rowsOld := by
        intro r hr n hn
        rw [(Coire.writeEvent_rows h).1, List.mem_append, List.mem_singleton] at hr
        rcases hr with hr | rfl
        · exact w.rowsOld r hr n (by omega)
        · exact fun he => by have := w.uuidNew he; omega }

/-- Poll the mailbox `sid` through an origin filter. -/
def poll (ord : RowOrder) (w : World) (sid : Uuid) (f : OriginFilter) : List ClaraEvent × World :=
  ((w.coire.pollPendingImpl ord sid f).1,
    { w with
      coire := (w.coire.pollPendingImpl ord sid f).2
      rowsOld := by
        intro r hr n hn
        rw [Coire.poll_rows, List.mem_map] at hr
        obtain ⟨s, hs, rfl⟩ := hr
        have := w.rowsOld s hs n hn
        split
        · exact this
        · exact this })

/-- Mark one event processed; an id that is not pending is an error and changes nothing. -/
def mark (w : World) (id : Uuid) : World :=
  match h : w.coire.markProcessed id with
  | .error _ => w
  | .ok c =>
    { w with
      coire := c
      rowsOld := by
        intro r hr n hn
        rw [Coire.markProcessed_rows _ _ h, List.mem_map] at hr
        obtain ⟨s, hs, rfl⟩ := hr
        have := w.rowsOld s hs n hn
        split
        · exact this
        · exact this }

/-- Delete both mailboxes' rows or any other session's: `clear_session`. -/
def clear (w : World) (sid : Uuid) : World :=
  { w with
    coire := (w.coire.clearSession sid).2
    rowsOld := fun r hr => w.rowsOld r (List.mem_of_mem_filter hr) }

/-- Freshness is what makes every write of the program succeed. -/
theorem emit_rows (w : World) (sid : Uuid) (origin : String) (payload : Json) :
    (w.emit sid origin payload).rows = w.rows ++ [w.newEvent sid origin payload] := by
  obtain ⟨c, hc, hrows⟩ := Coire.writeEvent_ok (w.newEvent_fresh sid origin payload)
  unfold emit
  split
  · rename_i h
    rw [hc] at h
    cases h
  · rename_i h
    rw [hc] at h
    cases h
    exact hrows

theorem emit_supply (w : World) (sid : Uuid) (origin : String) (payload : Json) :
    (w.emit sid origin payload).uuid = w.uuid ∧ (w.emit sid origin payload).clock = w.clock ∧
      (w.emit sid origin payload).tick = w.tick + 1 := by
  unfold emit
  split <;> exact ⟨rfl, rfl, rfl⟩

@[simp] theorem newV4_rows (w : World) : w.newV4.2.rows = w.rows := rfl
@[simp] theorem newV4_uuid (w : World) : w.newV4.2.uuid = w.uuid := rfl
@[simp] theorem newV4_tick (w : World) : w.newV4.2.tick = w.tick + 1 := rfl
@[simp] theorem emit_uuid (w : World) (sid : Uuid) (origin : String) (payload : Json) :
    (w.emit sid origin payload).uuid = w.uuid := (emit_supply w sid origin payload).1
@[simp] theorem emit_tick (w : World) (sid : Uuid) (origin : String) (payload : Json) :
    (w.emit sid origin payload).tick = w.tick + 1 := (emit_supply w sid origin payload).2.2

theorem poll_rows (ord : RowOrder) (w : World) (sid : Uuid) (f : OriginFilter) :
    (w.poll ord sid f).2.rows =
      w.rows.map fun r => if f.selects sid r then r.withStatus .processed else r :=
  Coire.poll_rows ord w.coire sid f

theorem mem_poll (ord : RowOrder) {w : World} {sid : Uuid} {f : OriginFilter} {e : ClaraEvent} :
    e ∈ (w.poll ord sid f).1 ↔ ∃ r ∈ w.rows, f.selects sid r = true ∧ e = r.withStatus .processed :=
  Coire.mem_poll_events ord

theorem mark_rows (w : World) (id : Uuid) : (w.mark id).rows = w.rows.map fun r =>
    if r.eventId == id && r.status == .pending then r.withStatus .processed else r := by
  unfold mark
  split
  · rename_i h
    unfold Coire.markProcessed at h
    dsimp only at h
    split at h
    · rename_i hzero
      have hnone := List.countP_eq_zero.mp hzero
      have hsame : ∀ r ∈ w.rows, (if r.eventId == id && r.status == .pending
          then r.withStatus .processed else r) = r := fun r hr => if_neg (hnone r hr)
      rw [List.map_congr_left hsame, List.map_id']
    · cases h
  · rename_i c h
    exact Coire.markProcessed_rows _ _ h

/-- Everything ever written into a mailbox and not cleared, oldest first. -/
def log (w : World) (sid : Uuid) : List (String × Json) :=
  (w.rows.filter (·.sessionId == sid)).map fun r => (r.origin, r.payload)

theorem emit_log (w : World) (sid s : Uuid) (origin : String) (payload : Json) :
    (w.emit sid origin payload).log s =
      w.log s ++ if sid = s then [(origin, payload)] else [] := by
  by_cases h : sid = s
  · simp [log, emit_rows, List.filter_append, newEvent, h]
  · simp [log, emit_rows, List.filter_append, newEvent, h]

/-- Polling flips statuses; what was written stays written. -/
@[simp] theorem poll_log (ord : RowOrder) (w : World) (sid s : Uuid) (f : OriginFilter) :
    (w.poll ord sid f).2.log s = w.log s := by
  simp only [log, poll_rows]
  induction w.rows with
  | nil => rfl
  | cons r rs ih =>
    by_cases hsel : f.selects sid r = true <;> by_cases hs : r.sessionId = s <;>
      simp [hsel, hs, ih]

@[simp] theorem newV4_log (w : World) (s : Uuid) : w.newV4.2.log s = w.log s := rfl

/-- `w'` is `w` some time later: rows may have come and gone and changed their status, but
an id still stands for the same message. -/
structure Later (w w' : World) : Prop where
  uuid : w'.uuid = w.uuid
  tick : w.tick ≤ w'.tick
  rows : ∀ r ∈ w'.rows, (∃ n, w.tick ≤ n ∧ r.eventId = w.uuid n) ∨
    ∃ r₀ ∈ w.rows, r.eventId = r₀.eventId ∧ r.origin = r₀.origin ∧ r.payload = r₀.payload

theorem Later.refl (w : World) : w.Later w :=
  ⟨rfl, le_refl _, fun r hr => .inr ⟨r, hr, rfl, rfl, rfl⟩⟩

theorem Later.trans {w w' w'' : World} (h : w.Later w') (h' : w'.Later w'') : w.Later w'' := by
  refine ⟨h'.uuid.trans h.uuid, h.tick.trans h'.tick, fun r hr => ?_⟩
  rcases h'.rows r hr with ⟨n, hn, he⟩ | ⟨r₁, hr₁, h1, h2, h3⟩
  · exact .inl ⟨n, h.tick.trans hn, by rw [← h.uuid]; exact he⟩
  · rcases h.rows r₁ hr₁ with ⟨n, hn, he⟩ | ⟨r₀, hr₀, g1, g2, g3⟩
    · exact .inl ⟨n, hn, h1.trans he⟩
    · exact .inr ⟨r₀, hr₀, h1.trans g1, h2.trans g2, h3.trans g3⟩

theorem Later.newV4 (w : World) : w.Later w.newV4.2 :=
  ⟨rfl, Nat.le_succ _, fun r hr => .inr ⟨r, hr, rfl, rfl, rfl⟩⟩

theorem Later.emit (w : World) (sid : Uuid) (origin : String) (payload : Json) :
    w.Later (w.emit sid origin payload) := by
  refine ⟨by simp, by simp, fun r hr => ?_⟩
  rw [emit_rows, List.mem_append, List.mem_singleton] at hr
  rcases hr with hr | rfl
  · exact .inr ⟨r, hr, rfl, rfl, rfl⟩
  · exact .inl ⟨w.tick, le_refl _, rfl⟩

theorem Later.poll (ord : RowOrder) (w : World) (sid : Uuid) (f : OriginFilter) :
    w.Later (w.poll ord sid f).2 := by
  refine ⟨rfl, le_refl _, fun r hr => .inr ?_⟩
  rw [poll_rows, List.mem_map] at hr
  obtain ⟨r₀, hr₀, rfl⟩ := hr
  refine ⟨r₀, hr₀, ?_⟩
  split <;> exact ⟨rfl, rfl, rfl⟩

/-- A process that has just started, with an empty Coire. -/
def start : World where
  coire := Coire.new
  uuid n := ⟨n + 1000⟩
  clock n := n
  tick := 0
  uuidNew := by
    intro a b h
    simpa using h
  rowsOld := by simp [Coire.new]

end World

end Cerebellum
