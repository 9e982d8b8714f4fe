import Cerebellum.Store
import Cerebellum.Tableau

/-! Resuming a persisted deduction: `restore_from` brings back the two mailboxes under the
ids of the fresh session, and then the tableau entries of the snapshot. -/
namespace Cerebellum
open Transition Batch

/-- A fresh engine pair with the tableau that seeding has filled. -/
structure DeductionSession where
  prologId : Uuid
  clipsId : Uuid
  tableau : Dagda

/-- The errors of `restore_from`: a failed event write or a failed tableau write. -/
inductive RestoreError (ε : Type*) where
  | coire (err : CoireError)
  | tableau (err : ε)

namespace DeductionSession
variable {ε : Type*}

/-- `fails` is what the tableau returns for the entries of the snapshot. -/
def restoreFrom (ord : RowOrder) (fails : PredicateEntry → Option ε) (store : CoireStore)
    (prevPrologId prevClipsId : Uuid) (prevTableau : List PredicateEntry) (c : Coire)
    (session : DeductionSession) : Option (RestoreError ε) × (Coire × Dagda) :=
  match store.restoreSessionAs ord prevPrologId session.prologId c with
  | (.error err, c) => (some (.coire err), (c, session.tableau))
  | (.ok _, c) =>
    match store.restoreSessionAs ord prevClipsId session.clipsId c with
    | (.error err, c) => (some (.coire err), (c, session.tableau))
    | (.ok _, c) =>
      if prevTableau.isEmpty then (none, (c, session.tableau))
      else match session.tableau.importSession fails prevTableau with
        | (some err, t) => (some (.tableau err), (c, t))
        | (none, t) => (none, (c, t))

/-- The events of the snapshot in the order they are written. -/
def restoredEvents (ord : RowOrder) (store : CoireStore) (prevPrologId prevClipsId : Uuid)
    (session : DeductionSession) : List ClaraEvent :=
  (store.readSession ord prevPrologId).map (·.withSession session.prologId) ++
    (store.readSession ord prevClipsId).map (·.withSession session.clipsId)

theorem restoreSessionAs_eq (ord : RowOrder) (s : CoireStore) (fromId intoId : Uuid) (c : Coire) :
    s.restoreSessionAs ord fromId intoId c = CoireStore.restored (s.readSession ord fromId)
      (upTo Coire.tryWrite c ((s.readSession ord fromId).map (·.withSession intoId))) := rfl

/-- Both mailboxes are one batch of writes, and the tableau follows when it went through. -/
theorem restoreFrom_eq (ord : RowOrder) (fails : PredicateEntry → Option ε) (store : CoireStore)
    (prevPrologId prevClipsId : Uuid) (prevTableau : List PredicateEntry) (c : Coire)
    (session : DeductionSession) :
    restoreFrom ord fails store prevPrologId prevClipsId prevTableau c session =
      match upTo Coire.tryWrite c (restoredEvents ord store prevPrologId prevClipsId session) with
      | (some err, c) => (some (.coire err), (c, session.tableau))
      | (none, c) => ((session.tableau.importSession fails prevTableau).1.map .tableau,
          (c, (session.tableau.importSession fails prevTableau).2)) := by
  unfold restoreFrom restoredEvents
  rw [upTo_append, restoreSessionAs_eq]
  generalize upTo Coire.tryWrite c
    ((store.readSession ord prevPrologId).map (·.withSession session.prologId)) = r
  obtain ⟨err, c⟩ := r
  cases err with
  | some err => rfl
  | none =>
    simp only [CoireStore.restored, restoreSessionAs_eq]
    generalize upTo Coire.tryWrite c
      ((store.readSession ord prevClipsId).map (·.withSession session.clipsId)) = r
    obtain ⟨err, c⟩ := r
    cases err with
    | some err => rfl
    | none =>
      cases prevTableau with
      | nil => rfl
      | cons e es =>
        simp only [List.isEmpty_cons]
        generalize session.tableau.importSession fails (e :: es) = r
        obtain ⟨err, t⟩ := r
        cases err <;> rfl

end DeductionSession

/-- A run is resumed in a fresh session: the ids it is given are new. -/
structure Resumption where
  store : CoireStore
  live : Coire
  prevPrologId : Uuid
  prevClipsId : Uuid
  /-- The snapshot's tableau entries. -/
  entries : List PredicateEntry
  /-- They were exported for the Prolog session of the run. -/
  exported : ∀ e ∈ entries, e.sessionId = prevPrologId
  session : DeductionSession
  fresh : prevPrologId ≠ session.prologId

namespace Resumption
variable {ε : Type*} (R : Resumption)

/-- The tableau after `restore_from`. -/
def tableau (ord : RowOrder) (fails : PredicateEntry → Option ε) : Dagda :=
  (DeductionSession.restoreFrom ord fails R.store R.prevPrologId R.prevClipsId R.entries R.live
    R.session).2.2

/-- Every view the resumed session has of its tableau shows the entries of the snapshot. -/
structure TableauRestored (byTime : EntryOrder) (t : Dagda) : Prop where
  exported : ∀ e ∈ R.entries, ∃ r ∈ t.exportSession byTime R.session.prologId, r.Same e
  got : ∀ e ∈ R.entries, t.get R.session.prologId e.functor e.args = e.truthValue
  listed : ∀ e ∈ R.entries,
    ∃ r ∈ t.listByFunctor byTime R.session.prologId e.functor e.arity, r.Same e

/-- The rows of the fresh session are those it was seeded with. -/
theorem mem_tableau (ord : RowOrder) (fails : PredicateEntry → Option ε) {r : PredicateEntry} :
    (r ∈ (R.tableau ord fails).rows ∧ r.sessionId = R.session.prologId) ↔
      (r ∈ R.session.tableau.rows ∧ r.sessionId = R.session.prologId) := by
  have hfilter : (R.tableau ord fails).rows.filter (·.sessionId == R.session.prologId) =
      R.session.tableau.rows.filter (·.sessionId == R.session.prologId) := by
    unfold tableau
    rw [DeductionSession.restoreFrom_eq]
    split
    · rfl
    · refine Dagda.importSession_filter fun e he => ?_
      rw [R.exported e he]
      exact R.fresh
  have hiff : r ∈ (R.tableau ord fails).rows.filter (·.sessionId == R.session.prologId) ↔
      r ∈ R.session.tableau.rows.filter (·.sessionId == R.session.prologId) := by rw [hfilter]
  simpa using hiff

/-- Resuming brings a snapshot's tableau back exactly when seeding has already put every
entry of it there. -/
theorem resume_restores_tableau_iff (ord : RowOrder) (byTime : EntryOrder)
    (fails : PredicateEntry → Option ε) :
    R.TableauRestored byTime (R.tableau ord fails) ↔
      ∀ e ∈ R.entries, ∃ r ∈ R.session.tableau.rows,
        r.sessionId = R.session.prologId ∧ r.Same e := by
  constructor
  · intro h e he
    obtain ⟨r, hr, hsame⟩ := h.exported e he
    obtain ⟨hrow, hsid⟩ := (R.mem_tableau ord fails).mp (Dagda.mem_exportSession.mp hr)
    exact ⟨r, hrow, hsid, hsame⟩
  · intro h
    have hkept : ∀ e ∈ R.entries, ∃ r ∈ (R.tableau ord fails).rows,
        r.sessionId = R.session.prologId ∧ r.Same e := by
      intro e he
      obtain ⟨r, hr, hsid, hsame⟩ := h e he
      exact ⟨r, ((R.mem_tableau ord fails).mpr ⟨hr, hsid⟩).1, hsid, hsame⟩
    refine ⟨?_, ?_, ?_⟩
    · intro e he
      obtain ⟨r, hr, hsid, hsame⟩ := hkept e he
      exact ⟨r, Dagda.mem_exportSession.mpr ⟨hr, hsid⟩, hsame⟩
    · intro e he
      obtain ⟨r, hr, hsid, hf, ha, ht, -⟩ := hkept e he
      rw [← hsid, ← hf, ← ha, ← ht]
      exact Dagda.get_of_mem hr
    · intro e he
      obtain ⟨r, hr, hsid, hsame⟩ := hkept e he
      refine ⟨r, Dagda.mem_listByFunctor.mpr ⟨hr, hsid, hsame.1, ?_⟩, hsame⟩
      rw [PredicateEntry.arity, hsame.2.1, PredicateEntry.arity]

end Resumption

/-- A run whose tableau knows `defcon(4)` is resumed in a session seeded with nothing. -/
def defconResumed : Resumption where
  store := CoireStore.new
  live := Coire.new
  prevPrologId := ⟨1⟩
  prevClipsId := ⟨2⟩
  entries := [Dagda.minimalEntry ⟨9⟩ 5 ⟨1⟩ "defcon" ["4"] .knownTrue []]
  exported := by decide
  session := ⟨⟨3⟩, ⟨4⟩, Dagda.new⟩
  fresh := by decide

/-- The restore succeeds, and the resumed session knows nothing about it. -/
theorem resumed_session_forgets_tableau :
    (DeductionSession.restoreFrom .stable (fun _ => (none : Option Unit)) defconResumed.store ⟨1⟩ ⟨2⟩
      defconResumed.entries defconResumed.live defconResumed.session).1.isNone = true ∧
    (defconResumed.tableau .stable fun _ => (none : Option Unit)).get ⟨3⟩ "defcon" ["4"] = .unknown ∧
    ¬ defconResumed.TableauRestored .stable
      (defconResumed.tableau .stable fun _ => (none : Option Unit)) := by
  refine ⟨by decide +kernel, by decide +kernel, fun h => ?_⟩
  have hgot := h.got (Dagda.minimalEntry ⟨9⟩ 5 ⟨1⟩ "defcon" ["4"] .knownTrue [])
    (by simp [defconResumed])
  revert hgot
  decide +kernel

/-- The Coire has none of the ids of the batch, which differ from each other. -/
def Fits (c : Coire) (events : List ClaraEvent) : Prop :=
  (events.map ClaraEvent.eventId).Nodup ∧ ∀ e ∈ events, e.eventId ∉ c.rows.map ClaraEvent.eventId

/-- The Coire already has the id of the first event of the batch. -/
def FirstTaken (c : Coire) (events : List ClaraEvent) : Prop :=
  ∃ e ∈ events.head?, e.eventId ∈ c.rows.map ClaraEvent.eventId

theorem upTo_tryWrite_none_iff {c : Coire} {events : List ClaraEvent} :
    (upTo Coire.tryWrite c events).1 = none ↔ Fits c events := by
  refine ⟨fun h => ?_, fun h => (CoireStore.upTo_tryWrite h.1 h.2).1⟩
  induction events generalizing c with
  | nil => exact ⟨List.nodup_nil, by simp⟩
  | cons e events ih =>
    cases hok : (c.tryWrite e).1 with
    | some err => rw [upTo_cons_error hok] at h; cases h
    | none =>
      rw [upTo_cons_ok hok] at h
      obtain ⟨hids, hfree⟩ := ih h
      have hrows := CoireStore.tryWrite_ok hok
      simp only [hrows, List.map_append, List.mem_append, not_or] at hfree
      refine ⟨List.nodup_cons.mpr ⟨fun hmem => ?_, hids⟩, fun x hx => ?_⟩
      · obtain ⟨x, hx, hid⟩ := List.mem_map.mp hmem
        exact (hfree x hx).2 (by simp [hid])
      · rcases List.mem_cons.mp hx with rfl | hx
        · exact CoireStore.tryWrite_none_iff.mp hok
        · exact (hfree x hx).1

/-- A batch of event writes leaves the Coire as it was on an error exactly when there is no
error, or the first write is the one that fails. -/
theorem upTo_tryWrite_atomic_iff {c : Coire} {events : List ClaraEvent} :
    ((upTo Coire.tryWrite c events).1 ≠ none → (upTo Coire.tryWrite c events).2 = c) ↔
      Fits c events ∨ FirstTaken c events := by
  have hgrow : ∀ (c : Coire) (e : ClaraEvent), (c.tryWrite e).1 = none →
      c.rows.length < (after Coire.tryWrite c e).rows.length := by
    intro c e hok
    simp [CoireStore.tryWrite_ok hok]
  rw [upTo_atomic_iff (fun c e h => CoireStore.tryWrite_fail h) hgrow, upTo_tryWrite_none_iff]
  simp only [FirstTaken, ne_eq, CoireStore.tryWrite_none_iff, not_not]

namespace DeductionSession
variable {ε : Type*}

/-- An error of a restore leaves no trace. -/
def Atomic (c : Coire) (r : Except CoireError Nat × Coire) : Prop :=
  ∀ err, r.1 = .error err → r.2 = c

theorem atomic_restored_iff {c : Coire} {events : List ClaraEvent} {r : Option CoireError × Coire} :
    Atomic c (CoireStore.restored events r) ↔ (r.1 ≠ none → r.2 = c) := by
  obtain ⟨err, c'⟩ := r
  cases err with
  | none => simp [CoireStore.restored, Atomic]
  | some err => simp [CoireStore.restored, Atomic]

theorem fits_withSession {c : Coire} {events : List ClaraEvent} (sid : Uuid) :
    Fits c (events.map (·.withSession sid)) ↔ Fits c events := by
  simp [Fits, Function.comp_def]

theorem firstTaken_withSession {c : Coire} {events : List ClaraEvent} (sid : Uuid) :
    FirstTaken c (events.map (·.withSession sid)) ↔ FirstTaken c events := by
  simp [FirstTaken]

section RestoreFrom
variable (ord : RowOrder) (fails : PredicateEntry → Option ε) (store : CoireStore)
  (prevPrologId prevClipsId : Uuid) (prevTableau : List PredicateEntry) (c : Coire)
  (session : DeductionSession)

/-- The entries ahead of the first failing one leave the tableau as it is. -/
def ImportIdle (t : Dagda) : Prop :=
  (prevTableau.takeWhile fun e => (fails e).isNone).foldl Dagda.setEntry t = t

theorem restoreFrom_atomic_iff :
    ((restoreFrom ord fails store prevPrologId prevClipsId prevTableau c session).1 ≠ none →
      (restoreFrom ord fails store prevPrologId prevClipsId prevTableau c session).2 =
        (c, session.tableau)) ↔
    FirstTaken c (restoredEvents ord store prevPrologId prevClipsId session) ∨
      (Fits c (restoredEvents ord store prevPrologId prevClipsId session) ∧
        ((∀ e ∈ prevTableau, fails e = none) ∨
          (restoredEvents ord store prevPrologId prevClipsId session = [] ∧
            ImportIdle fails prevTableau session.tableau))) := by
  rw [restoreFrom_eq]
  generalize restoredEvents ord store prevPrologId prevClipsId session = events
  have hatomic := @upTo_tryWrite_atomic_iff c events
  have hnone := @upTo_tryWrite_none_iff c events
  have hexcl : FirstTaken c events → ¬ Fits c events := by
    rintro ⟨e, he, hid⟩ ⟨-, hfree⟩
    exact hfree e (List.mem_of_mem_head? he) hid
  cases hr : upTo Coire.tryWrite c events with
  | mk err c' =>
    rw [hr] at hatomic hnone
    cases err with
    | some err =>
      -- an event write failed: the tableau was not touched
      have hno : ¬ Fits c events := fun hfit => by simpa using hnone.mpr hfit
      simpa [hno, hexcl] using hatomic
    | none =>
      have hfit : Fits c events := hnone.mp rfl
      have hno : ¬ FirstTaken c events := fun hfirst => hexcl hfirst hfit
      have hrows : c'.rows = c.rows ++ events := by
        have h := (CoireStore.upTo_tryWrite hfit.1 hfit.2).2
        rwa [hr] at h
      have hsame : c' = c ↔ events = [] := by
        constructor
        · intro h
          rw [h] at hrows
          simpa using hrows
        · intro h
          exact Coire.ext (by rw [hrows, h, List.append_nil])
      have hall : prevTableau.findSome? fails = none ↔ ∀ e ∈ prevTableau, fails e = none :=
        List.findSome?_eq_none_iff
      simp only [Dagda.importSession_eq, ne_eq, Option.map_eq_none_iff, Prod.mk.injEq, hsame, hno,
        hfit, true_and, false_or, ← hall, ImportIdle]
      exact ⟨fun h => or_iff_not_imp_left.mpr h, fun h => or_iff_not_imp_left.mp h⟩

/-- Restoring is all or nothing exactly when no write fails, or nothing was written ahead of
the write that fails. -/
theorem restore_all_or_nothing_iff (sid intoId : Uuid) :
    (Atomic c (store.restoreSession ord sid c) ↔
      Fits c (store.readSession ord sid) ∨ FirstTaken c (store.readSession ord sid)) ∧
    (Atomic c (store.restoreSessionAs ord sid intoId c) ↔
      Fits c (store.readSession ord sid) ∨ FirstTaken c (store.readSession ord sid)) ∧
    (((restoreFrom ord fails store prevPrologId prevClipsId prevTableau c session).1 ≠ none →
        (restoreFrom ord fails store prevPrologId prevClipsId prevTableau c session).2 =
          (c, session.tableau)) ↔
      FirstTaken c (restoredEvents ord store prevPrologId prevClipsId session) ∨
        (Fits c (restoredEvents ord store prevPrologId prevClipsId session) ∧
          ((∀ e ∈ prevTableau, fails e = none) ∨
            (restoredEvents ord store prevPrologId prevClipsId session = [] ∧
              ImportIdle fails prevTableau session.tableau)))) := by
  refine ⟨?_, ?_, restoreFrom_atomic_iff ord fails store prevPrologId prevClipsId prevTableau c
    session⟩
  · rw [CoireStore.restoreSession, atomic_restored_iff, upTo_tryWrite_atomic_iff]
  · rw [CoireStore.restoreSessionAs, atomic_restored_iff, upTo_tryWrite_atomic_iff,
      fits_withSession, firstTaken_withSession]

end RestoreFrom

end DeductionSession

/-- Two events are stored for session 1; the live Coire already holds the second of them,
because the snapshot is being resumed a second time. -/
def twiceResumed : CoireStore × Coire :=
  (⟨[⟨⟨10⟩, ⟨1⟩, "prolog", 5, .str "a", .pending⟩, ⟨⟨11⟩, ⟨1⟩, "prolog", 6, .str "b", .pending⟩],
      by decide⟩,
    ⟨[⟨⟨11⟩, ⟨7⟩, "prolog", 6, .str "b", .pending⟩], by decide⟩)

/-- The restore fails, and its first event stays behind. -/
theorem failed_restore_leaves_events :
    (twiceResumed.1.restoreSessionAs .stable ⟨1⟩ ⟨2⟩ twiceResumed.2).1.isOk = false ∧
    (twiceResumed.1.restoreSessionAs .stable ⟨1⟩ ⟨2⟩ twiceResumed.2).2.rows.length = 2 ∧
    ¬ DeductionSession.Atomic twiceResumed.2
      (twiceResumed.1.restoreSessionAs .stable ⟨1⟩ ⟨2⟩ twiceResumed.2) := by
  have hrows : (twiceResumed.1.restoreSessionAs .stable ⟨1⟩ ⟨2⟩ twiceResumed.2).2.rows.length = 2 := by
    decide +kernel
  have hfailed : (twiceResumed.1.restoreSessionAs .stable ⟨1⟩ ⟨2⟩ twiceResumed.2).1.isOk = false := by
    decide +kernel
  refine ⟨hfailed, hrows, fun h => ?_⟩
  cases herr : (twiceResumed.1.restoreSessionAs .stable ⟨1⟩ ⟨2⟩ twiceResumed.2).1 with
  | ok n =>
    rw [herr] at hfailed
    cases hfailed
  | error err =>
    rw [h err herr] at hrows
    simp [twiceResumed] at hrows

end Cerebellum
