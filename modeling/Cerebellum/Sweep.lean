import Cerebellum.Store
import Cerebellum.Sources

/-! `CarrionPicker::sweep`: expired snapshots go with their events, then the sessions whose
newest event is too old, then cache entries and sources. -/
namespace Cerebellum

/-- `as i64`, and the wrapping `i64` subtraction. -/
def wrapI64 (n : Int) : Int := (n + 2 ^ 63) % 2 ^ 64 - 2 ^ 63

/-- A row of `deduction_snapshots`. -/
structure SnapshotRow extends DeductionSnapshot where
  createdAtMs : Int
  expiresAtMs : Int

/-- The tables of the store that a sweep touches. -/
structure StoreTables where
  events : CoireStore
  snapshots : List SnapshotRow
  snapshotKey : (snapshots.map (·.deductionId)).Nodup
  sources : SourceTables

/-- `EvaluateCacheEviction`: both calls return how many entries they remove. -/
structure CacheEviction (χ : Type*) where
  evictOlderThan : χ → Int → Nat × χ
  evictByDeduction : χ → Uuid → Nat × χ

/-- The orders the two queries of a sweep come in. -/
structure SweepOrders where
  snapshots : OrderBy fun s : SnapshotRow => s.expiresAtMs
  sessions : ∀ newest : Uuid → Int, OrderBy newest

/-- The mailboxes of a snapshot. -/
def SnapshotRow.names (snap : SnapshotRow) (sid : Uuid) : Bool :=
  snap.prologSessionId == sid || snap.clipsSessionId == sid

namespace StoreTables

def loadSnapshot (t : StoreTables) (deductionId : Uuid) : Option SnapshotRow :=
  t.snapshots.find? (·.deductionId == deductionId)

def snapshotsExpired (ord : SweepOrders) (t : StoreTables) (now : Int) (exclude : List Uuid) :
    List SnapshotRow :=
  (ord.snapshots.sort (t.snapshots.filter fun s => decide (s.expiresAtMs < now))).filter fun s =>
    !(exclude.contains s.prologSessionId || exclude.contains s.clipsSessionId)

/-- The number of events deleted, and the tables without the snapshot and its events. -/
def deleteSnapshot (t : StoreTables) (deductionId : Uuid) : Nat × StoreTables :=
  match t.loadSnapshot deductionId with
  | none => (0, t)
  | some snap =>
    let (prolog, events) := t.events.deleteSession snap.prologSessionId
    let (clips, events) := events.deleteSession snap.clipsSessionId
    (prolog + clips,
      { t with
        events := events
        snapshots := t.snapshots.filter fun s => !s.deductionId == deductionId
        snapshotKey := t.snapshotKey.sublist (List.filter_sublist.map _) })

end StoreTables

namespace CoireStore

/-- `MAX(created_at_ms)` of a session. -/
def newestEvent (s : CoireStore) (sid : Uuid) : Option Int :=
  ((s.rows.filter (·.sessionId == sid)).map (·.createdAtMs)).max?

def sessionsOlderThan (ord : SweepOrders) (s : CoireStore) (olderThan : Int)
    (exclude : List Uuid) : List Uuid :=
  let groups := (s.rows.map (·.sessionId)).dedup.filter fun sid =>
    (s.newestEvent sid).any fun newest => decide (newest < olderThan)
  ((ord.sessions fun sid => (s.newestEvent sid).getD 0).sort groups).filter fun sid =>
    !exclude.contains sid

end CoireStore

/-- The counters of a sweep and what it works on. -/
structure Swept (χ : Type*) where
  snapshotsDeleted : Nat
  eventsDeleted : Nat
  cacheEvicted : Nat
  tables : StoreTables
  cache : χ

namespace Swept
variable {χ : Type*}

/-- One round of pass 1. -/
def expireSnapshot (ev : Option (CacheEviction χ)) (s : Swept χ) (snap : SnapshotRow) : Swept χ :=
  let tables := (s.tables.deleteSnapshot snap.deductionId).2
  match ev with
  | none => { s with snapshotsDeleted := s.snapshotsDeleted + 1, tables := tables }
  | some ev =>
    let (n, cache) := ev.evictByDeduction s.cache snap.deductionId
    { s with
      snapshotsDeleted := s.snapshotsDeleted + 1
      cacheEvicted := s.cacheEvicted + n
      tables := tables
      cache := cache }

/-- One round of pass 2. -/
def deleteOrphan (s : Swept χ) (sid : Uuid) : Swept χ :=
  let (n, events) := s.tables.events.deleteSession sid
  { s with
    eventsDeleted := s.eventsDeleted + n
    tables := { s.tables with events := events } }

/-- Pass 3. -/
def evictCache (ev : Option (CacheEviction χ)) (cutoff : Int) (s : Swept χ) : Swept χ :=
  match ev with
  | none => s
  | some ev =>
    let (n, cache) := ev.evictOlderThan s.cache cutoff
    { s with cacheEvicted := s.cacheEvicted + n, cache := cache }

end Swept

/-- The settings of a picker; the durations in milliseconds. -/
structure CarrionPicker (χ : Type*) where
  coireTtl : Nat
  cacheTtl : Nat
  cacheEviction : Option (CacheEviction χ)

namespace CarrionPicker
variable {χ : Type*} (ord : SweepOrders) (P : CarrionPicker χ)

/-- The reading of the clock a sweep works with. -/
def nowMs (clock : Nat) : Int := wrapI64 clock

def coireCutoff (clock : Nat) : Int := wrapI64 (nowMs clock - wrapI64 P.coireTtl)

/-- Pass 1: the expired snapshots. -/
def expirePass (tables : StoreTables) (cache : χ) (clock : Nat) (active : List Uuid) : Swept χ :=
  (tables.snapshotsExpired ord (nowMs clock) active).foldl
    (Swept.expireSnapshot P.cacheEviction) ⟨0, 0, 0, tables, cache⟩

/-- Pass 2: the sessions with no recent event. -/
def orphanPass (clock : Nat) (active : List Uuid) (s : Swept χ) : Swept χ :=
  (s.tables.events.sessionsOlderThan ord (P.coireCutoff clock) active).foldl Swept.deleteOrphan s

/-- One sweep, from the clock in milliseconds and the sessions active at its start. -/
def sweep (tables : StoreTables) (cache : χ) (clock : Nat) (active : List Uuid) : Swept χ :=
  let s := P.expirePass ord tables cache clock active
  let s := P.orphanPass ord clock active s
  let s := s.evictCache P.cacheEviction (wrapI64 (nowMs clock - wrapI64 P.cacheTtl))
  { s with tables := { s.tables with sources := (s.tables.sources.sweepExpired (nowMs clock)).2 } }

end CarrionPicker

namespace StoreTables
variable {t : StoreTables} {snap : SnapshotRow} {now : Int} {exclude : List Uuid}

/-- The snapshots pass 1 deletes: past their expiry, and of no active session. -/
def Due (now : Int) (active : List Uuid) (snap : SnapshotRow) : Bool :=
  decide (snap.expiresAtMs < now) &&
    !(active.contains snap.prologSessionId || active.contains snap.clipsSessionId)

theorem snapshotsExpired_perm (ord : SweepOrders) (t : StoreTables) (now : Int)
    (active : List Uuid) :
    (t.snapshotsExpired ord now active).Perm (t.snapshots.filter (Due now active)) := by
  refine ((ord.snapshots.perm _).filter _).trans (List.Perm.of_eq ?_)
  rw [List.filter_filter]
  exact List.filter_congr fun s _ => Bool.and_comm _ _

theorem loadSnapshot_of_mem (h : snap ∈ t.snapshots) :
    t.loadSnapshot snap.deductionId = some snap :=
  (Keyed.find_eq_some_iff t.snapshotKey).mpr ⟨h, rfl⟩

theorem mem_of_loadSnapshot {deductionId : Uuid} (h : t.loadSnapshot deductionId = some snap) :
    snap ∈ t.snapshots ∧ snap.deductionId = deductionId :=
  (Keyed.find_eq_some_iff t.snapshotKey).mp h

/-- A snapshot goes with the events of both its sessions, and nothing else does. -/
theorem deleteSnapshot_of_mem (h : snap ∈ t.snapshots) :
    (t.deleteSnapshot snap.deductionId).2.snapshots =
      t.snapshots.filter (fun s => !s.deductionId == snap.deductionId) ∧
    (t.deleteSnapshot snap.deductionId).2.events.rows =
      t.events.rows.filter (fun e => !snap.names e.sessionId) := by
  rw [deleteSnapshot, loadSnapshot_of_mem h]
  refine ⟨rfl, ?_⟩
  simp only [CoireStore.deleteSession, List.filter_filter]
  refine List.filter_congr fun e _ => ?_
  simp only [SnapshotRow.names, bne, Bool.not_or, Bool.beq_comm (a := e.sessionId), Bool.and_comm]

end StoreTables

namespace Swept
variable {χ : Type*} (ev : Option (CacheEviction χ))

theorem expireSnapshot_spec (s : Swept χ) (snap : SnapshotRow) :
    (s.expireSnapshot ev snap).tables = (s.tables.deleteSnapshot snap.deductionId).2 ∧
    (s.expireSnapshot ev snap).snapshotsDeleted = s.snapshotsDeleted + 1 ∧
    (s.expireSnapshot ev snap).eventsDeleted = s.eventsDeleted := by
  cases ev <;> exact ⟨rfl, rfl, rfl⟩

/-- Pass 1 over snapshots that are in the table. -/
theorem expire_spec (snaps : List SnapshotRow) (s : Swept χ)
    (hids : (snaps.map (·.deductionId)).Nodup) (hmem : ∀ snap ∈ snaps, snap ∈ s.tables.snapshots) :
    (snaps.foldl (expireSnapshot ev) s).tables.snapshots =
      s.tables.snapshots.filter
        (fun r => !snaps.any fun snap => r.deductionId == snap.deductionId) ∧
    (snaps.foldl (expireSnapshot ev) s).tables.events.rows =
      s.tables.events.rows.filter (fun e => !snaps.any fun snap => snap.names e.sessionId) ∧
    (snaps.foldl (expireSnapshot ev) s).snapshotsDeleted = s.snapshotsDeleted + snaps.length ∧
    (snaps.foldl (expireSnapshot ev) s).eventsDeleted = s.eventsDeleted := by
  induction snaps generalizing s with
  | nil => simp
  | cons snap snaps ih =>
    obtain ⟨hnew, hrest⟩ := List.nodup_cons.mp hids
    obtain ⟨htables, hcount, hevents⟩ := expireSnapshot_spec ev s snap
    obtain ⟨hsnaps, hrows⟩ := StoreTables.deleteSnapshot_of_mem (hmem snap (by simp))
    rw [← htables] at hsnaps hrows
    have hstill : ∀ x ∈ snaps, x ∈ (s.expireSnapshot ev snap).tables.snapshots := by
      intro x hx
      rw [hsnaps, List.mem_filter]
      refine ⟨hmem x (List.mem_cons_of_mem _ hx), ?_⟩
      have hne : x.deductionId ≠ snap.deductionId := fun he =>
        hnew (List.mem_map.mpr ⟨x, hx, he⟩)
      simpa using hne
    obtain ⟨h1, h2, h3, h4⟩ := ih (s.expireSnapshot ev snap) hrest hstill
    rw [List.foldl_cons, h1, h2, h3, h4, hsnaps, hrows, hcount, hevents]
    refine ⟨?_, ?_, by rw [List.length_cons]; omega, rfl⟩
    · rw [List.filter_filter]
      refine List.filter_congr fun r _ => ?_
      rw [List.any_cons, Bool.not_or, Bool.and_comm]
    · rw [List.filter_filter]
      refine List.filter_congr fun e _ => ?_
      rw [List.any_cons, Bool.not_or, Bool.and_comm]

/-- Pass 2 over any sessions. -/
theorem orphans_spec (sids : List Uuid) (s : Swept χ) :
    (sids.foldl deleteOrphan s).tables.snapshots = s.tables.snapshots ∧
    (sids.foldl deleteOrphan s).tables.events.rows =
      s.tables.events.rows.filter (fun e => !sids.contains e.sessionId) ∧
    (sids.foldl deleteOrphan s).snapshotsDeleted = s.snapshotsDeleted ∧
    (sids.foldl deleteOrphan s).eventsDeleted +
        (sids.foldl deleteOrphan s).tables.events.rows.length =
      s.eventsDeleted + s.tables.events.rows.length := by
  induction sids generalizing s with
  | nil => simp
  | cons sid sids ih =>
    obtain ⟨h1, h2, h3, h4⟩ := ih (s.deleteOrphan sid)
    have hcount := Keyed.countP_add_kept (fun e : ClaraEvent => e.sessionId == sid)
      s.tables.events.rows
    have hstep : (s.deleteOrphan sid).eventsDeleted +
        (s.deleteOrphan sid).tables.events.rows.length = s.eventsDeleted + s.tables.events.rows.length := by
      simp only [deleteOrphan, CoireStore.deleteSession, bne]
      omega
    refine ⟨h1, ?_, h3, h4.trans hstep⟩
    rw [List.foldl_cons, h2]
    simp only [deleteOrphan, CoireStore.deleteSession, List.filter_filter]
    refine List.filter_congr fun e _ => ?_
    rw [List.contains_cons, Bool.not_or, Bool.and_comm]
    rfl

/-- Pass 3 works on the cache only. -/
theorem evictCache_spec (s : Swept χ) (cutoff : Int) :
    (s.evictCache ev cutoff).tables = s.tables ∧
    (s.evictCache ev cutoff).snapshotsDeleted = s.snapshotsDeleted ∧
    (s.evictCache ev cutoff).eventsDeleted = s.eventsDeleted := by
  unfold evictCache
  cases ev <;> exact ⟨rfl, rfl, rfl⟩

end Swept

namespace CoireStore
variable {s : CoireStore} {sid : Uuid}

theorem newestEvent_lt_iff {cutoff : Int} :
    (s.newestEvent sid).any (fun newest => decide (newest < cutoff)) = true ↔
      (∃ e ∈ s.rows, e.sessionId = sid) ∧
        ∀ e ∈ s.rows, e.sessionId = sid → e.createdAtMs < cutoff := by
  have hmem : ∀ m : Int, m ∈ (s.rows.filter (·.sessionId == sid)).map (·.createdAtMs) ↔
      ∃ e ∈ s.rows, e.sessionId = sid ∧ e.createdAtMs = m := by
    intro m
    simp [and_assoc]
  unfold newestEvent
  cases hmax : ((s.rows.filter (·.sessionId == sid)).map (·.createdAtMs)).max? with
  | none =>
    rw [List.max?_eq_none_iff, List.map_eq_nil_iff, List.filter_eq_nil_iff] at hmax
    simp only [Option.any_none, Bool.false_eq_true, false_iff]
    rintro ⟨⟨e, he, hsid⟩, -⟩
    exact hmax e he (by simpa using hsid)
  | some m =>
    obtain ⟨hm, hle⟩ := List.max?_eq_some_iff.mp hmax
    obtain ⟨e, he, hsid, rfl⟩ := (hmem m).mp hm
    simp only [Option.any_some, decide_eq_true_iff]
    constructor
    · intro hlt
      refine ⟨⟨e, he, hsid⟩, fun x hx hxsid => lt_of_le_of_lt ?_ hlt⟩
      exact hle x.createdAtMs ((hmem _).mpr ⟨x, hx, hxsid, rfl⟩)
    · rintro ⟨-, hall⟩
      exact hall e he hsid

/-- The sessions pass 2 takes: not active, and with no event from the cutoff on. -/
theorem mem_sessionsOlderThan {ord : SweepOrders} {cutoff : Int} {active : List Uuid} :
    sid ∈ s.sessionsOlderThan ord cutoff active ↔ sid ∉ active ∧
      (∃ e ∈ s.rows, e.sessionId = sid) ∧
        ∀ e ∈ s.rows, e.sessionId = sid → e.createdAtMs < cutoff := by
  have hgroup : sid ∈ (s.rows.map (·.sessionId)).dedup ↔ ∃ e ∈ s.rows, e.sessionId = sid := by
    rw [List.mem_dedup, List.mem_map]
  rw [sessionsOlderThan, List.mem_filter, OrderBy.mem_sort, List.mem_filter, hgroup,
    newestEvent_lt_iff]
  simp only [Bool.not_eq_true', List.contains_eq_mem, decide_eq_false_iff_not]
  constructor
  · rintro ⟨⟨-, hold⟩, hactive⟩
    exact ⟨hactive, hold⟩
  · rintro ⟨hactive, hold⟩
    exact ⟨⟨hold.1, hold⟩, hactive⟩

end CoireStore

namespace CarrionPicker
variable {χ : Type*} (ord : SweepOrders) (P : CarrionPicker χ) (tables : StoreTables) (cache : χ)
  (clock : Nat) (active : List Uuid)

/-- A snapshot that goes names the session. -/
def swallowed (now : Int) (sid : Uuid) : Bool :=
  tables.snapshots.any fun snap => StoreTables.Due now active snap && snap.names sid

/-- The session is active, or has an event from the cutoff on. -/
def recent (cutoff : Int) (sid : Uuid) : Bool :=
  active.contains sid ||
    tables.events.rows.any fun e => e.sessionId == sid && decide (cutoff ≤ e.createdAtMs)

theorem expirePass_spec :
    (P.expirePass ord tables cache clock active).tables.snapshots =
      tables.snapshots.filter (fun r => !StoreTables.Due (nowMs clock) active r) ∧
    (P.expirePass ord tables cache clock active).tables.events.rows =
      tables.events.rows.filter (fun e => !swallowed tables active (nowMs clock) e.sessionId) ∧
    (P.expirePass ord tables cache clock active).snapshotsDeleted =
      tables.snapshots.countP (StoreTables.Due (nowMs clock) active) ∧
    (P.expirePass ord tables cache clock active).eventsDeleted = 0 := by
  have hperm := tables.snapshotsExpired_perm ord (nowMs clock) active
  have hmem : ∀ snap, snap ∈ tables.snapshotsExpired ord (nowMs clock) active ↔
      snap ∈ tables.snapshots ∧ StoreTables.Due (nowMs clock) active snap = true := by
    intro snap
    rw [hperm.mem_iff, List.mem_filter]
  have hids : ((tables.snapshotsExpired ord (nowMs clock) active).map (·.deductionId)).Nodup :=
    (hperm.map _).nodup_iff.mpr (tables.snapshotKey.sublist (List.filter_sublist.map _))
  obtain ⟨hsnaps, hrows, hcount, hevents⟩ := Swept.expire_spec P.cacheEviction
    (tables.snapshotsExpired ord (nowMs clock) active) ⟨0, 0, 0, tables, cache⟩ hids
    fun snap hs => ((hmem snap).mp hs).1
  refine ⟨hsnaps.trans (List.filter_congr fun r hr => ?_),
    hrows.trans (List.filter_congr fun e _ => ?_), ?_, hevents⟩
  · refine congrArg Bool.not ?_
    rw [Bool.eq_iff_iff, List.any_eq_true]
    constructor
    · rintro ⟨snap, hs, hid⟩
      obtain ⟨hs, hdue⟩ := (hmem snap).mp hs
      rw [List.inj_on_of_nodup_map tables.snapshotKey hr hs (by simpa using hid)]
      exact hdue
    · exact fun hdue => ⟨r, (hmem r).mpr ⟨hr, hdue⟩, by simp⟩
  · refine congrArg Bool.not ?_
    rw [swallowed, Bool.eq_iff_iff, List.any_eq_true, List.any_eq_true]
    simp only [hmem, Bool.and_eq_true, and_assoc]
  · rw [expirePass, hcount, hperm.length_eq, List.countP_eq_length_filter]
    exact Nat.zero_add _

/-- Pass 2 spares the events of the sessions that are active or recent: a session that pass 1
leaves alone has all its events left. -/
theorem not_stale_eq {e : ClaraEvent}
    (he : e ∈ (P.expirePass ord tables cache clock active).tables.events.rows) (cutoff : Int) :
    (!((P.expirePass ord tables cache clock active).tables.events.sessionsOlderThan ord cutoff
      active).contains e.sessionId) = recent tables active cutoff e.sessionId := by
  have hrows := (P.expirePass_spec ord tables cache clock active).2.1
  have hkept := he
  rw [hrows, List.mem_filter] at hkept
  have hrecent : recent tables active cutoff e.sessionId = true ↔ e.sessionId ∈ active ∨
      ∃ x ∈ tables.events.rows, x.sessionId = e.sessionId ∧ cutoff ≤ x.createdAtMs := by
    simp [recent]
  rw [Bool.eq_iff_iff, hrecent, Bool.not_eq_true', List.contains_eq_mem, decide_eq_false_iff_not,
    CoireStore.mem_sessionsOlderThan]
  constructor
  · intro h
    by_contra hno
    rw [not_or] at hno
    refine h ⟨hno.1, ⟨e, he, rfl⟩, fun x hx hsid => not_le.mp fun hle => hno.2 ?_⟩
    rw [hrows, List.mem_filter] at hx
    exact ⟨x, hx.1, hsid, hle⟩
  · rintro (hactive | ⟨x, hx, hsid, hle⟩) ⟨hidle, -, hold⟩
    · exact hidle hactive
    · refine absurd (hold x ?_ hsid) (not_lt.mpr hle)
      rw [hrows, List.mem_filter, hsid]
      exact ⟨hx, hkept.2⟩

/-- Everything a sweep does to snapshots and events, and what it counts. -/
theorem sweep_spec :
    (P.sweep ord tables cache clock active).tables.snapshots =
      tables.snapshots.filter (fun r => !StoreTables.Due (nowMs clock) active r) ∧
    (P.sweep ord tables cache clock active).tables.events.rows =
      tables.events.rows.filter (fun e => !swallowed tables active (nowMs clock) e.sessionId &&
        recent tables active (P.coireCutoff clock) e.sessionId) ∧
    (P.sweep ord tables cache clock active).snapshotsDeleted =
      tables.snapshots.countP (StoreTables.Due (nowMs clock) active) ∧
    (P.sweep ord tables cache clock active).eventsDeleted +
      (P.sweep ord tables cache clock active).tables.events.rows.length =
        tables.events.rows.countP fun e => !swallowed tables active (nowMs clock) e.sessionId := by
  obtain ⟨hsnaps, hrows, hcount, hevents⟩ := P.expirePass_spec ord tables cache clock active
  have hspare := fun e he => P.not_stale_eq ord tables cache clock active (e := e) he
    (P.coireCutoff clock)
  unfold sweep orphanPass
  generalize P.expirePass ord tables cache clock active = pass1
    at hsnaps hrows hcount hevents hspare ⊢
  obtain ⟨hsnaps', hrows', hcount', hevents'⟩ := Swept.orphans_spec
    (pass1.tables.events.sessionsOlderThan ord (P.coireCutoff clock) active) pass1
  obtain ⟨htables, hsnapsDeleted, heventsDeleted⟩ := Swept.evictCache_spec P.cacheEviction
    ((pass1.tables.events.sessionsOlderThan ord (P.coireCutoff clock) active).foldl
      Swept.deleteOrphan pass1) (wrapI64 (nowMs clock - wrapI64 P.cacheTtl))
  dsimp only
  rw [htables, hsnapsDeleted, heventsDeleted]
  refine ⟨hsnaps'.trans hsnaps, ?_, hcount'.trans hcount, ?_⟩
  · rw [hrows', List.filter_congr fun e he => hspare e he, hrows, List.filter_filter]
    exact List.filter_congr fun e _ => Bool.and_comm _ _
  · rw [hevents', hevents, hrows, Nat.zero_add, List.countP_eq_length_filter]

theorem swallowed_eq_true {now : Int} {sid : Uuid} :
    swallowed tables active now sid = true ↔ ∃ snap ∈ tables.snapshots,
      StoreTables.Due now active snap = true ∧ snap.names sid = true := by
  simp [swallowed]

theorem recent_eq_true {cutoff : Int} {sid : Uuid} :
    recent tables active cutoff sid = true ↔ sid ∈ active ∨
      ∃ e ∈ tables.events.rows, e.sessionId = sid ∧ cutoff ≤ e.createdAtMs := by
  simp [recent]

theorem due_eq_true {now : Int} {snap : SnapshotRow} :
    StoreTables.Due now active snap = true ↔ snap.expiresAtMs < now ∧
      snap.prologSessionId ∉ active ∧ snap.clipsSessionId ∉ active := by
  simp [StoreTables.Due]

theorem names_eq_true {snap : SnapshotRow} {sid : Uuid} :
    snap.names sid = true ↔ snap.prologSessionId = sid ∨ snap.clipsSessionId = sid := by
  simp [SnapshotRow.names]

/-- The events that survive a sweep. -/
theorem mem_sweep_events {e : ClaraEvent} :
    e ∈ (P.sweep ord tables cache clock active).tables.events.rows ↔ e ∈ tables.events.rows ∧
      (¬∃ snap ∈ tables.snapshots, StoreTables.Due (nowMs clock) active snap = true ∧
        snap.names e.sessionId = true) ∧
      (e.sessionId ∈ active ∨ ∃ e' ∈ tables.events.rows, e'.sessionId = e.sessionId ∧
        P.coireCutoff clock ≤ e'.createdAtMs) := by
  rw [(P.sweep_spec ord tables cache clock active).2.1, List.mem_filter, Bool.and_eq_true,
    Bool.not_eq_true', ← Bool.not_eq_true, swallowed_eq_true, recent_eq_true]

theorem mem_sweep_snapshots {snap : SnapshotRow} :
    snap ∈ (P.sweep ord tables cache clock active).tables.snapshots ↔ snap ∈ tables.snapshots ∧
      ¬StoreTables.Due (nowMs clock) active snap = true := by
  rw [(P.sweep_spec ord tables cache clock active).1, List.mem_filter, Bool.not_eq_true',
    Bool.not_eq_true]

/-- Wrapping moves a difference only up. -/
theorem le_coireCutoff (httl : P.coireTtl < 2 ^ 63) :
    nowMs clock - P.coireTtl ≤ P.coireCutoff clock := by
  have hexact : wrapI64 P.coireTtl = P.coireTtl := by
    unfold wrapI64
    omega
  have hnow : nowMs clock < 2 ^ 63 := by
    unfold nowMs wrapI64
    omega
  rw [coireCutoff, hexact]
  generalize nowMs clock = now at hnow
  unfold wrapI64
  omega

/-- What is left of a session by the sweep is what the sweep found of it. -/
theorem readSession_sweep {sid : Uuid}
    (h : ∀ e ∈ tables.events.rows, e.sessionId = sid →
      e ∈ (P.sweep ord tables cache clock active).tables.events.rows) (rows : RowOrder) :
    (P.sweep ord tables cache clock active).tables.events.readSession rows sid =
      tables.events.readSession rows sid := by
  have hspec := (P.sweep_spec ord tables cache clock active).2.1
  unfold CoireStore.readSession
  rw [hspec, List.filter_filter]
  refine congrArg rows.sort (List.filter_congr fun e he => ?_)
  by_cases hsid : e.sessionId = sid
  · have hkept := h e he hsid
    rw [hspec, List.mem_filter] at hkept
    rw [hkept.2, Bool.and_true]
  · simp [hsid]

/-- The sweep keeps every snapshot it leaves whole exactly when no session of such a snapshot
is named by one that goes, and each that has events is active or has a recent one. -/
theorem sweep_keeps_live_iff :
    (∀ deductionId snap, (P.sweep ord tables cache clock active).tables.loadSnapshot deductionId =
        some snap → ∀ sid, snap.names sid = true →
      (∀ e ∈ tables.events.rows, e.sessionId = sid →
        e ∈ (P.sweep ord tables cache clock active).tables.events.rows) ∧
      ∀ rows : RowOrder,
        (P.sweep ord tables cache clock active).tables.events.readSession rows sid =
          tables.events.readSession rows sid) ↔
    ∀ snap ∈ tables.snapshots, ¬StoreTables.Due (nowMs clock) active snap = true →
      ∀ e ∈ tables.events.rows, snap.names e.sessionId = true →
        (¬∃ other ∈ tables.snapshots, StoreTables.Due (nowMs clock) active other = true ∧
          other.names e.sessionId = true) ∧
        (e.sessionId ∈ active ∨ ∃ e' ∈ tables.events.rows, e'.sessionId = e.sessionId ∧
          P.coireCutoff clock ≤ e'.createdAtMs) := by
  constructor
  · intro h snap hs hkeep e he hname
    have hs' := (P.mem_sweep_snapshots ord tables cache clock active).mpr ⟨hs, hkeep⟩
    have hwhole := h snap.deductionId snap (StoreTables.loadSnapshot_of_mem hs') e.sessionId hname
    exact ((P.mem_sweep_events ord tables cache clock active).mp (hwhole.1 e he rfl)).2
  · intro h deductionId snap hload sid hname
    obtain ⟨hs, -⟩ := StoreTables.mem_of_loadSnapshot hload
    obtain ⟨hs, hkeep⟩ := (P.mem_sweep_snapshots ord tables cache clock active).mp hs
    have hevents : ∀ e ∈ tables.events.rows, e.sessionId = sid →
        e ∈ (P.sweep ord tables cache clock active).tables.events.rows := by
      rintro e he rfl
      exact (P.mem_sweep_events ord tables cache clock active).mpr ⟨he, h snap hs hkeep e he hname⟩
    exact ⟨hevents, P.readSession_sweep ord tables cache clock active hevents⟩

/-- A sweep deletes exactly what it may, and counts it. -/
theorem sweep_exact {χ : Type*} (ord : SweepOrders) (P : CarrionPicker χ) (tables : StoreTables)
    (cache : χ) (clock : Nat) (active : List Uuid) (httl : P.coireTtl < 2 ^ 63) :
    let s := P.sweep ord tables cache clock active
    (∀ e ∈ tables.events.rows, e.sessionId ∈ active → e ∈ s.tables.events.rows) ∧
    (∀ snap ∈ tables.snapshots, snap.prologSessionId ∈ active ∨ snap.clipsSessionId ∈ active →
      snap ∈ s.tables.snapshots) ∧
    (∀ snap ∈ tables.snapshots, snap.expiresAtMs < nowMs clock → snap.prologSessionId ∉ active →
      snap.clipsSessionId ∉ active → snap ∉ s.tables.snapshots ∧ ∀ e ∈ s.tables.events.rows,
        e.sessionId ≠ snap.prologSessionId ∧ e.sessionId ≠ snap.clipsSessionId) ∧
    (∀ snap ∈ tables.snapshots, nowMs clock ≤ snap.expiresAtMs → snap ∈ s.tables.snapshots) ∧
    (∀ sid newest, sid ∉ active → s.tables.events.newestEvent sid = some newest →
      nowMs clock - P.coireTtl ≤ newest) ∧
    s.snapshotsDeleted + s.tables.snapshots.length = tables.snapshots.length ∧
    s.eventsDeleted + s.tables.events.rows.length +
        tables.events.rows.countP (fun e => swallowed tables active (nowMs clock) e.sessionId) =
      tables.events.rows.length := by
  intro s
  obtain ⟨hsnaps, hrows, hcount, hevents⟩ := P.sweep_spec ord tables cache clock active
  refine ⟨fun e he hactive => ?_, fun snap hs hactive => ?_, fun snap hs hexp hp hc => ⟨?_, ?_⟩,
    fun snap hs hexp => ?_, fun sid newest hidle hnewest => ?_, ?_, ?_⟩
  · refine (P.mem_sweep_events ord tables cache clock active).mpr ⟨he, ?_, .inl hactive⟩
    rintro ⟨snap, -, hdue, hname⟩
    obtain ⟨-, hp, hc⟩ := (due_eq_true active).mp hdue
    rcases names_eq_true.mp hname with h | h
    · exact hp (h ▸ hactive)
    · exact hc (h ▸ hactive)
  · refine (P.mem_sweep_snapshots ord tables cache clock active).mpr ⟨hs, fun hdue => ?_⟩
    obtain ⟨-, hp, hc⟩ := (due_eq_true active).mp hdue
    exact hactive.elim hp hc
  · intro hkept
    exact ((P.mem_sweep_snapshots ord tables cache clock active).mp hkept).2
      ((due_eq_true active).mpr ⟨hexp, hp, hc⟩)
  · intro e he
    have hno := ((P.mem_sweep_events ord tables cache clock active).mp he).2.1
    have hdue := (due_eq_true active).mpr ⟨hexp, hp, hc⟩
    exact ⟨fun h => hno ⟨snap, hs, hdue, names_eq_true.mpr (.inl h.symm)⟩,
      fun h => hno ⟨snap, hs, hdue, names_eq_true.mpr (.inr h.symm)⟩⟩
  · refine (P.mem_sweep_snapshots ord tables cache clock active).mpr ⟨hs, fun hdue => ?_⟩
    exact absurd ((due_eq_true active).mp hdue).1 (not_lt.mpr hexp)
  · -- a session that is left has all its events left, one of them from the cutoff on
    by_contra hold
    have hlt := lt_of_lt_of_le (not_le.mp hold) (P.le_coireCutoff clock httl)
    have hany : (s.tables.events.newestEvent sid).any
        (fun newest => decide (newest < P.coireCutoff clock)) = true := by
      rw [hnewest, Option.any_some]
      exact decide_eq_true hlt
    obtain ⟨⟨e, he, hsid⟩, hall⟩ := CoireStore.newestEvent_lt_iff.mp hany
    obtain ⟨-, hno, hrec⟩ := (P.mem_sweep_events ord tables cache clock active).mp he
    rw [hsid] at hno hrec
    obtain ⟨e', he', hsid', hle⟩ := hrec.resolve_left hidle
    have hleft : e' ∈ s.tables.events.rows :=
      (P.mem_sweep_events ord tables cache clock active).mpr ⟨he', hsid' ▸ hno, hsid' ▸ hrec⟩
    exact absurd (hall e' hleft hsid') (not_lt.mpr hle)
  · rw [hsnaps, hcount]
    exact Keyed.countP_add_kept _ _
  · have hsplit := Keyed.countP_add_kept
      (fun e : ClaraEvent => swallowed tables active (nowMs clock) e.sessionId) tables.events.rows
    rw [← List.countP_eq_length_filter, ← hevents] at hsplit
    rw [Nat.add_comm]
    exact hsplit

/-- A snapshot that expires at 1000, with one event from time 0. -/
def oldEvents : StoreTables where
  events := CoireStore.new.upsertEvent ⟨⟨9⟩, ⟨1⟩, "prolog", 0, .null, .pending⟩
  snapshots := [⟨⟨⟨7⟩, [], [], none, ⟨1⟩, ⟨2⟩, [], none, none⟩, 0, 1000⟩]
  snapshotKey := by simp
  sources := SourceTables.new

def hundredMs : CarrionPicker Unit := ⟨100, 0, none⟩

theorem sweep_exact_hundred_ms :
    hundredMs.coireTtl < 2 ^ 63 ∧ ∀ snap ∈ oldEvents.snapshots, nowMs 500 ≤ snap.expiresAtMs →
      snap ∈ (hundredMs.sweep ⟨.stable _, fun _ => .stable _⟩ oldEvents () 500
        []).tables.snapshots := by
  have httl : hundredMs.coireTtl < 2 ^ 63 := by decide
  exact ⟨httl, (hundredMs.sweep_exact ⟨.stable _, fun _ => .stable _⟩ oldEvents () 500 []
    httl).2.2.2.1⟩

/-- The snapshot lives until 1000, its events go at 500. -/
theorem live_snapshot_loses_events : ¬∀ (P : CarrionPicker Unit) (ord : SweepOrders)
    (tables : StoreTables) (clock : Nat) (active : List Uuid), ∀ deductionId snap,
    (P.sweep ord tables () clock active).tables.loadSnapshot deductionId = some snap →
    ∀ sid, snap.names sid = true → ∀ e ∈ tables.events.rows, e.sessionId = sid →
      e ∈ (P.sweep ord tables () clock active).tables.events.rows := by
  intro h
  have hkept := h hundredMs ⟨.stable _, fun _ => .stable _⟩ oldEvents 500 [] ⟨7⟩ _ rfl ⟨1⟩
    (by decide) ⟨⟨9⟩, ⟨1⟩, "prolog", 0, .null, .pending⟩ (by decide) rfl
  revert hkept
  decide +kernel

end CarrionPicker

end Cerebellum
