import Cerebellum.Cycle
import Cerebellum.Tableau
import Cerebellum.Text
import Cerebellum.Lib.Transition

/-! `GoalAgenda`: how a cycle tells by the clock whether the tableau has changed. -/
namespace Cerebellum
open Transition

def TruthValue.isResolved : TruthValue → Bool
  | unknown => false
  | _ => true

def extractFunctorFromGoal (goal : String) : String :=
  String.ofList ((Text.trim goal.toList).takeWhile (· != '('))

/-- Commas outside inner parentheses. -/
def topCommas : Nat → List Char → Nat
  | _, [] => 0
  | depth, ch :: s =>
    if ch = '(' then topCommas (depth + 1) s
    else if ch = ')' then topCommas (depth - 1) s
    else if ch = ',' ∧ depth = 0 then topCommas depth s + 1
    else topCommas depth s

def extractArityFromGoal (goal : String) : Nat :=
  match (Text.trim goal.toList).dropWhile (· != '(') with
  | [] => 0
  | _ :: rest =>
    let inner := (rest.reverse.dropWhile (· == ')')).reverse
    if (Text.trim inner).isEmpty then 0 else topCommas 0 inner + 1

example : extractFunctorFromGoal " path(f(a,b), X)" = "path" ∧
    extractArityFromGoal " path(f(a,b), X)" = 2 ∧ extractArityFromGoal "halt" = 0 := by
  decide +kernel

structure GoalAgenda where
  rootFunctor : Option String
  rootArity : Nat
  lastCycleTs : Int

namespace GoalAgenda

def new (initialGoal : Option String) (now : Int) : GoalAgenda where
  rootFunctor := initialGoal.map extractFunctorFromGoal
  rootArity := (initialGoal.map extractArityFromGoal).getD 0
  lastCycleTs := now

def beginCycle (a : GoalAgenda) (now : Int) : GoalAgenda := { a with lastCycleTs := now }

/-- `queryOk` is whether the query works; if not, the tableau counts as changed. -/
def tableauProgressed (a : GoalAgenda) (sid : Uuid) (t : Dagda) (queryOk : Bool) : Bool :=
  (if queryOk then some (t.tableauChangedSince sid a.lastCycleTs) else none).getD true

def rootGoalResolved (a : GoalAgenda) (ord : EntryOrder) (sid : Uuid) (t : Dagda)
    (queryOk : Bool) : Bool :=
  match a.rootFunctor with
  | none => false
  | some functor =>
    queryOk && (t.listByFunctor ord sid functor a.rootArity).any (·.truthValue.isResolved)

end GoalAgenda

/-- What happens to the agenda and the tableau between two readings of the clock. -/
inductive AgendaEvent where
  | beginCycle
  | set (entryId sid : Uuid) (functor : String) (args : List String) (truth : TruthValue)
  | setEntry (e : PredicateEntry)
  | updateTruth (entryId sid : Uuid) (functor : String) (args : List String) (truth : TruthValue)
    (bindings : List Binding)
  | test (queryOk : Bool)

namespace AgendaEvent

/-- The session whose tableau an event writes. -/
def session : AgendaEvent → Option Uuid
  | set _ sid _ _ _ => some sid
  | setEntry e => some e.sessionId
  | updateTruth _ sid _ _ _ _ => some sid
  | beginCycle => none
  | test _ => none

/-- The writes take the time from the clock; an entry is set with the current time. -/
def write (now : Int) (t : Dagda) : AgendaEvent → Dagda
  | set entryId sid functor args truth => t.set entryId now sid functor args truth
  | setEntry e => t.setEntry { e with updatedAtMs := now }
  | updateTruth entryId sid functor args truth bindings =>
    t.updateTruth entryId now sid functor args truth bindings
  | beginCycle => t
  | test _ => t

end AgendaEvent

structure AgendaState where
  agenda : GoalAgenda
  tableau : Dagda

/-- One event and the clock reading it takes. -/
def AgendaState.step (s : AgendaState) (e : Int × AgendaEvent) : AgendaState where
  agenda := match e.2 with
    | .beginCycle => s.agenda.beginCycle e.1
    | _ => s.agenda
  tableau := e.2.write e.1 s.tableau

namespace AgendaState
variable {s : AgendaState} {sid : Uuid} {e : Int × AgendaEvent} {r : PredicateEntry}

/-- Everything a write does to the rows of a session: an old row stays or takes the new
time, and a row of the session written has the new time. -/
structure Written (sid : Uuid) (now : Int) (wrote : Prop) (old new : List PredicateEntry) :
    Prop where
  source : ∀ r ∈ new, r.sessionId = sid → r ∈ old ∨ (wrote ∧ r.updatedAtMs = now)
  kept : ∀ r ∈ old, r.sessionId = sid → ∃ r' ∈ new, r'.sessionId = sid ∧
    (r' = r ∨ r'.updatedAtMs = now)
  made : wrote → ∃ r ∈ new, r.sessionId = sid ∧ r.updatedAtMs = now

theorem written_upsert (merge : PredicateEntry → PredicateEntry → PredicateEntry)
    (hkey : ∀ a b, a.key = b.key → (merge a b).key = a.key)
    (htime : ∀ a b, (merge a b).updatedAtMs = b.updatedAtMs) (sid : Uuid)
    (rows : List PredicateEntry) (new : PredicateEntry) :
    Written sid new.updatedAtMs (new.sessionId = sid) rows
      (Keyed.upsert PredicateEntry.key merge rows new) where
  source r hr hsid := by
    rcases Keyed.mem_upsert.mp hr with ⟨hr, -⟩ | ⟨old, -, hk, rfl⟩ | ⟨-, rfl⟩
    · exact .inl hr
    · have hs : (merge old new).sessionId = new.sessionId :=
        congrArg Prod.fst ((hkey old new hk).trans hk)
      exact .inr ⟨hs ▸ hsid, htime old new⟩
    · exact .inr ⟨hsid, rfl⟩
  kept r hr hsid := by
    by_cases hk : r.key = new.key
    · refine ⟨merge r new, Keyed.mem_upsert.mpr (.inr (.inl ⟨r, hr, hk, rfl⟩)), ?_,
        .inr (htime r new)⟩
      rw [← hsid]
      exact congrArg Prod.fst (hkey r new hk)
    · exact ⟨r, Keyed.mem_upsert.mpr (.inl ⟨hr, hk⟩), hsid, .inl rfl⟩
  made hsid := by
    by_cases hmem : new.key ∈ rows.map PredicateEntry.key
    · obtain ⟨old, hold, hk⟩ := List.mem_map.mp hmem
      refine ⟨merge old new, Keyed.mem_upsert.mpr (.inr (.inl ⟨old, hold, hk, rfl⟩)), ?_,
        htime old new⟩
      rw [← hsid]
      exact congrArg Prod.fst ((hkey old new hk).trans hk)
    · exact ⟨new, Keyed.mem_upsert.mpr (.inr (.inr ⟨hmem, rfl⟩)), hsid, rfl⟩

theorem written_none (sid : Uuid) (now : Int) (rows : List PredicateEntry) :
    Written sid now False rows rows where
  source _ hr _ := .inl hr
  kept r hr hsid := ⟨r, hr, hsid, .inl rfl⟩
  made h := h.elim

theorem Written.congr {now : Int} {wrote wrote' : Prop} {old new : List PredicateEntry}
    (h : Written sid now wrote old new) (hw : wrote ↔ wrote') : Written sid now wrote' old new :=
  propext hw ▸ h

theorem written_step (sid : Uuid) (s : AgendaState) (e : Int × AgendaEvent) :
    Written sid e.1 (e.2.session = some sid) s.tableau.rows (s.step e).tableau.rows := by
  obtain ⟨now, ev⟩ := e
  cases ev with
  | beginCycle => exact (written_none sid now s.tableau.rows).congr (by simp [AgendaEvent.session])
  | set entryId x functor args truth =>
    exact (written_upsert PredicateEntry.withTruthOnly
      (fun a b _ => PredicateEntry.withTruthOnly_key a b) (fun _ _ => rfl) sid s.tableau.rows
      (Dagda.minimalEntry entryId now x functor args truth [])).congr Option.some_inj.symm
  | setEntry x =>
    exact (written_upsert Keyed.overwrite (fun _ _ h => h.symm) (fun _ _ => rfl)
      sid s.tableau.rows { x with updatedAtMs := now }).congr Option.some_inj.symm
  | updateTruth entryId x functor args truth bindings =>
    exact (written_upsert PredicateEntry.withTruth
      (fun a b _ => PredicateEntry.withTruth_key a b) (fun _ _ => rfl) sid s.tableau.rows
      (Dagda.minimalEntry entryId now x functor args truth bindings)).congr Option.some_inj.symm
  | test queryOk =>
    exact (written_none sid now s.tableau.rows).congr (by simp [AgendaEvent.session])

theorem tableauChangedSince_iff {t : Dagda} {since : Int} :
    t.tableauChangedSince sid since = true ↔
      ∃ r ∈ t.rows, r.sessionId = sid ∧ since < r.updatedAtMs := by
  simp [Dagda.tableauChangedSince]

theorem changed_of_written {since : Int} (hw : e.2.session = some sid) (ht : since < e.1) :
    (s.step e).tableau.tableauChangedSince sid since = true := by
  obtain ⟨r, hr, hsid, htime⟩ := (written_step sid s e).made hw
  exact tableauChangedSince_iff.mpr ⟨r, hr, hsid, htime ▸ ht⟩

theorem changed_step {since : Int} (h : s.tableau.tableauChangedSince sid since = true)
    (ht : since < e.1) : (s.step e).tableau.tableauChangedSince sid since = true := by
  obtain ⟨r, hr, hsid, hlt⟩ := tableauChangedSince_iff.mp h
  obtain ⟨r', hr', hsid', rfl | htime⟩ := (written_step sid s e).kept r hr hsid
  · exact tableauChangedSince_iff.mpr ⟨r', hr', hsid', hlt⟩
  · exact tableauChangedSince_iff.mpr ⟨r', hr', hsid', htime ▸ ht⟩

/-- No row of the session is newer than `since`. -/
def Quiet (sid : Uuid) (since : Int) (s : AgendaState) : Prop :=
  ∀ r ∈ s.tableau.rows, r.sessionId = sid → r.updatedAtMs ≤ since

theorem Quiet.step {since : Int} (h : Quiet sid since s)
    (ht : e.2.session = some sid → e.1 ≤ since) : Quiet sid since (s.step e) := by
  intro r hr hsid
  rcases (written_step sid s e).source r hr hsid with hr | ⟨hw, htime⟩
  · exact h r hr hsid
  · exact htime ▸ ht hw

theorem Quiet.run {since : Int} {w : List (Int × AgendaEvent)} (h : Quiet sid since s)
    (ht : ∀ e ∈ w, e.2.session = some sid → e.1 ≤ since) :
    Quiet sid since (run AgendaState.step s w) := by
  induction w generalizing s with
  | nil => exact h
  | cons e w ih =>
    exact ih (h.step (ht e (by simp))) fun x hx => ht x (List.mem_cons_of_mem _ hx)

theorem Quiet.not_changed {since : Int} (h : Quiet sid since s) :
    s.tableau.tableauChangedSince sid since = false := by
  rw [← Bool.not_eq_true, tableauChangedSince_iff]
  rintro ⟨r, hr, hsid, hlt⟩
  exact absurd (h r hr hsid) (not_le.mpr hlt)

theorem changed_run {since : Int} {w : List (Int × AgendaEvent)}
    (h : s.tableau.tableauChangedSince sid since = true) (ht : ∀ e ∈ w, since < e.1) :
    (run AgendaState.step s w).tableau.tableauChangedSince sid since = true := by
  induction w generalizing s with
  | nil => exact h
  | cons e w ih =>
    exact ih (changed_step h (ht e (by simp))) fun x hx => ht x (List.mem_cons_of_mem _ hx)

theorem lastCycleTs_run {w : List (Int × AgendaEvent)} (hw : ∀ e ∈ w, e.2 ≠ .beginCycle)
    (s : AgendaState) : (run AgendaState.step s w).agenda = s.agenda := by
  induction w generalizing s with
  | nil => rfl
  | cons e w ih =>
    have hstep : (s.step e).agenda = s.agenda := by
      obtain ⟨now, ev⟩ := e
      cases ev with
      | beginCycle => exact absurd rfl (hw (now, .beginCycle) (by simp))
      | _ => rfl
    rw [run, ih (fun x hx => hw x (List.mem_cons_of_mem _ hx)), hstep]

end AgendaState

/-- A cycle of a trace, up to one of its tests: what came before, when it began, what
happened in it, the test, and what follows. -/
structure CycleTest (trace : List (Int × AgendaEvent)) where
  before : List (Int × AgendaEvent)
  began : Int
  during : List (Int × AgendaEvent)
  tested : Int
  queryOk : Bool
  after : List (Int × AgendaEvent)
  split : trace = before ++ (began, .beginCycle) :: (during ++ (tested, .test queryOk) :: after)
  sameCycle : ∀ e ∈ during, e.2 ≠ .beginCycle

namespace CycleTest
variable {trace : List (Int × AgendaEvent)}

/-- The state the test sees. -/
def state (q : CycleTest trace) (s : AgendaState) : AgendaState :=
  run AgendaState.step (run AgendaState.step s q.before |>.step (q.began, .beginCycle)) q.during

def progressed (q : CycleTest trace) (sid : Uuid) (s : AgendaState) : Bool :=
  (q.state s).agenda.tableauProgressed sid (q.state s).tableau q.queryOk

/-- The session's tableau was written in the cycle. -/
def Wrote (q : CycleTest trace) (sid : Uuid) : Prop := ∃ e ∈ q.during, e.2.session = some sid

/-- The session's tableau was written in the cycle, in a later millisecond than it began. -/
def WroteLater (q : CycleTest trace) (sid : Uuid) : Prop :=
  ∃ e ∈ q.during, e.2.session = some sid ∧ q.began < e.1

theorem lastCycleTs_state (q : CycleTest trace) (s : AgendaState) :
    (q.state s).agenda.lastCycleTs = q.began := by
  rw [state, AgendaState.lastCycleTs_run q.sameCycle]
  rfl

theorem progressed_eq (q : CycleTest trace) (sid : Uuid) (s : AgendaState) :
    q.progressed sid s = (!q.queryOk || (q.state s).tableau.tableauChangedSince sid q.began) := by
  rw [progressed, GoalAgenda.tableauProgressed, lastCycleTs_state]
  cases q.queryOk <;> rfl

/-- A write in a later millisecond is seen: what is written after it is later still. -/
theorem progressed_of_wroteLater (q : CycleTest trace) {sid : Uuid} (s : AgendaState)
    (hclock : trace.Pairwise fun a b => a.1 ≤ b.1) (h : q.WroteLater sid) :
    q.progressed sid s = true := by
  obtain ⟨e, he, hw, ht⟩ := h
  obtain ⟨w, w', hdur⟩ := List.append_of_mem he
  have hlater : ∀ x ∈ w', q.began < x.1 := by
    intro x hx
    have hpair := hclock
    rw [q.split, hdur, List.pairwise_append] at hpair
    have hcyc := (List.pairwise_cons.mp hpair.2.1).2
    rw [List.append_assoc, List.cons_append, List.pairwise_append] at hcyc
    have hle := (List.pairwise_cons.mp hcyc.2.1).1 x (List.mem_append_left _ hx)
    exact lt_of_lt_of_le ht hle
  rw [progressed_eq, state, hdur, run_append, run,
    AgendaState.changed_run (AgendaState.changed_of_written hw ht) hlater, Bool.or_true]

theorem began_mem (q : CycleTest trace) : (q.began, .beginCycle) ∈ trace := by
  obtain ⟨before, began, during, tested, queryOk, after, split, sameCycle⟩ := q
  subst split
  simp

/-- Readings that the clock gave before the cycle began. -/
theorem before_le (q : CycleTest trace) (hclock : trace.Pairwise fun a b => a.1 ≤ b.1) :
    ∀ e ∈ q.before, e.1 ≤ q.began := by
  intro e he
  rw [q.split, List.pairwise_append] at hclock
  exact hclock.2.2 e he (q.began, .beginCycle) (by simp)

/-- When no row of the session is ahead of the clock, a working test sees later writes only. -/
theorem wroteLater_of_progressed (q : CycleTest trace) {sid : Uuid} {s : AgendaState}
    (hclock : trace.Pairwise fun a b => a.1 ≤ b.1)
    (hpast : ∀ r ∈ s.tableau.rows, r.sessionId = sid → ∀ e ∈ trace, r.updatedAtMs ≤ e.1)
    (hok : q.queryOk = true) (h : q.progressed sid s = true) : q.WroteLater sid := by
  by_contra hno
  have hstart : AgendaState.Quiet sid q.began s := fun r hr hsid =>
    hpast r hr hsid _ q.began_mem
  have hbefore := hstart.run fun e he _ => q.before_le hclock e he
  have hbegan := hbefore.step (e := (q.began, .beginCycle)) fun _ => le_refl _
  have hstate : AgendaState.Quiet sid q.began (q.state s) :=
    hbegan.run fun e he hw => not_lt.mp fun hlt => hno ⟨e, he, hw, hlt⟩
  rw [progressed_eq, hok, hstate.not_changed] at h
  cases h

end CycleTest

/-- Every test of a cycle that wrote the session's tableau sees progress, and as long as the
root goal is not resolved such a cycle is not taken for a fixed point. -/
def NeverMissed (sid : Uuid) (s : AgendaState) (trace : List (Int × AgendaEvent)) : Prop :=
  ∀ q : CycleTest trace, q.Wrote sid → q.progressed sid s = true ∧
    ∀ (ord : RowOrder) (iter : HashOrder) (c : CycleController) (curr : CoireSnapshot)
      (i : CycleInput), i.tableauProgressed = q.progressed sid s → i.rootResolved = false →
      (c.hasConverged ord iter curr i).1 = false

/-- Progress is seen when the writes of a cycle do not all fall into the millisecond it began
in. From a tableau that is not ahead of the clock, only then. -/
theorem never_missed_iff (sid : Uuid) (s : AgendaState) (trace : List (Int × AgendaEvent))
    (hclock : trace.Pairwise fun a b => a.1 ≤ b.1) :
    ((∀ q : CycleTest trace, q.queryOk = true → q.Wrote sid → q.WroteLater sid) →
      NeverMissed sid s trace) ∧
    ((∀ r ∈ s.tableau.rows, r.sessionId = sid → ∀ e ∈ trace, r.updatedAtMs ≤ e.1) →
      (NeverMissed sid s trace ↔
        ∀ q : CycleTest trace, q.queryOk = true → q.Wrote sid → q.WroteLater sid)) := by
  have henough : (∀ q : CycleTest trace, q.queryOk = true → q.Wrote sid → q.WroteLater sid) →
      NeverMissed sid s trace := by
    intro hticks q hw
    have hprog : q.progressed sid s = true := by
      by_cases hok : q.queryOk = true
      · exact q.progressed_of_wroteLater s hclock (hticks q hok hw)
      · rw [CycleTest.progressed_eq]
        simp [hok]
    refine ⟨hprog, fun ord iter c curr i hanswer hroot => ?_⟩
    simp [CycleController.hasConverged, hanswer, hprog, hroot]
  refine ⟨henough, fun hpast => ⟨fun h q hok hw => ?_, henough⟩⟩
  exact q.wroteLater_of_progressed hclock hpast hok (h q hw).1

/-- One cycle in which everything happens in one millisecond. -/
def sameMillisecond : List (Int × AgendaEvent) :=
  [(5, .beginCycle), (5, .set ⟨1⟩ ⟨0⟩ "p" [] .knownTrue), (5, .test true)]

def sameMillisecondTest : CycleTest sameMillisecond where
  before := []
  began := 5
  during := [(5, .set ⟨1⟩ ⟨0⟩ "p" [] .knownTrue)]
  tested := 5
  queryOk := true
  after := []
  split := rfl
  sameCycle := by simp

theorem never_missed_iff_same_millisecond :
    sameMillisecond.Pairwise (fun a b => a.1 ≤ b.1) ∧
    (NeverMissed ⟨0⟩ ⟨.new none 0, Dagda.new⟩ sameMillisecond ↔
      ∀ q : CycleTest sameMillisecond, q.queryOk = true → q.Wrote ⟨0⟩ → q.WroteLater ⟨0⟩) := by
  have hclock : sameMillisecond.Pairwise fun a b => a.1 ≤ b.1 := by simp [sameMillisecond]
  refine ⟨hclock, (never_missed_iff ⟨0⟩ ⟨.new none 0, Dagda.new⟩ sameMillisecond hclock).2 ?_⟩
  intro r hr
  cases hr

/-- A write in the millisecond the cycle began in is missed. -/
theorem same_millisecond_missed : ¬∀ (sid : Uuid) (s : AgendaState)
    (trace : List (Int × AgendaEvent)), (trace.Pairwise fun a b => a.1 ≤ b.1) →
    NeverMissed sid s trace := by
  intro h
  have hseen := (h ⟨0⟩ ⟨.new none 0, Dagda.new⟩ sameMillisecond (by simp [sameMillisecond])
    sameMillisecondTest ⟨_, List.mem_singleton.mpr rfl, rfl⟩).1
  have hmissed : sameMillisecondTest.progressed ⟨0⟩ ⟨.new none 0, Dagda.new⟩ = false := by
    decide +kernel
  rw [hmissed] at hseen
  cases hseen

end Cerebellum
