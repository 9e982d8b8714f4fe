import Cerebellum.Delivery
import Cerebellum.Store

/-! The exits of `CycleController::run` when its steps can fail. Four steps of a cycle return
their error at once. The three regular ends save both mailboxes to the store and then clear
them; what goes wrong there is only logged. -/
namespace Cerebellum
open Batch
variable {ε : Type*}

/-- The `?` of a cycle. -/
inductive EarlyReturn where
  | prologPass
  | relayPrologToClips
  | clipsPass
  | relayClipsToProlog
  deriving DecidableEq

inductive RunExit where
  | converged (cycles : Nat)
  | interrupted (cycles : Nat)
  | maxCyclesExceeded (maxCycles : Nat)
  | error (site : EarlyReturn)
  deriving DecidableEq

/-- What the Coire refuses in one cycle: a poll, or the write of a relayed event. -/
structure CycleFaults (ε : Type*) where
  prologPoll : Option ε := none
  relayPrologPoll : Option ε := none
  relayPrologWrite : ClaraEvent → Option ε := fun _ => none
  clipsPoll : Option ε := none
  relayClipsPoll : Option ε := none
  relayClipsWrite : ClaraEvent → Option ε := fun _ => none

/-- What goes wrong in `save_session`: the read, or the upsert of an event. -/
structure SaveFaults (ε : Type*) where
  read : Option ε := none
  upsert : ClaraEvent → Option ε := fun _ => none

/-- What goes wrong at a regular end. -/
structure ExitFaults (ε : Type*) where
  saveProlog : SaveFaults ε := {}
  saveClips : SaveFaults ε := {}
  clearProlog : Option ε := none
  clearClips : Option ε := none

namespace CoireStore

def tryUpsert (fails : ClaraEvent → Option ε) (s : CoireStore) (e : ClaraEvent) :
    Option ε × CoireStore :=
  match fails e with
  | some err => (some err, s)
  | none => (none, s.upsertEvent e)

/-- `save_session` stops at the first upsert that fails. -/
def trySaveSession (ord : RowOrder) (f : SaveFaults ε) (s : CoireStore) (sid : Uuid) (c : Coire) :
    Except ε Nat × CoireStore :=
  match f.read with
  | some err => (.error err, s)
  | none =>
    let events := c.readPending ord sid
    match upTo (tryUpsert f.upsert) s events with
    | (some err, s) => (.error err, s)
    | (none, s) => (.ok events.length, s)

end CoireStore

namespace World

def tryClear (w : World) (sid : Uuid) : Option ε → World
  | some _ => w
  | none => w.clear sid

end World

namespace CycleController
variable (ord : RowOrder) (iter : HashOrder) (tr : Translators)

def tryPrologPass (c : CycleController) (i : CycleInput) (f : CycleFaults ε) :
    Bool × CycleController :=
  match f.prologPoll with
  | some _ => (false, c)
  | none => c.prologPass ord i

def tryClipsPass (c : CycleController) (i : CycleInput) (f : CycleFaults ε) :
    Bool × CycleController :=
  match f.clipsPoll with
  | some _ => (false, c)
  | none => c.clipsPass ord i

/-- A relay whose poll can fail before anything is taken. -/
def relayed (c : CycleController) (poll : Option ε) (r : Except ε Nat × World) :
    Bool × CycleController :=
  match poll with
  | some _ => (false, c)
  | none => (r.1.isOk, { c with world := r.2 })

/-- The five passes of a cycle, with the first error. -/
def tryPasses (c : CycleController) (i : CycleInput) (f : CycleFaults ε) :
    Option EarlyReturn × CycleController :=
  match c.tryPrologPass ord i f with
  | (false, c) => (some .prologPass, c)
  | (true, c) =>
    match c.relayed f.relayPrologPoll (c.tryRelayPrologToClips ord tr f.relayPrologWrite) with
    | (false, c) => (some .relayPrologToClips, c)
    | (true, c) =>
      match c.tryClipsPass ord i f with
      | (false, c) => (some .clipsPass, c)
      | (true, c) =>
        match c.relayed f.relayClipsPoll (c.tryRelayClipsToProlog ord tr f.relayClipsWrite) with
        | (false, c) => (some .relayClipsToProlog, c)
        | (true, c) => (none, c.evaluatorPass ord iter i)

/-- One cycle: the state it leaves to the next one, or how the run ends and in which state. -/
def tryCycle (cycle : Nat) (i : CycleInput) (f : CycleFaults ε) (c : CycleController) :
    Except (RunExit × CycleController) CycleController :=
  match c.tryPasses ord iter tr i f with
  | (some site, c) => .error (.error site, c)
  | (none, c) =>
    match c.hasConverged ord iter c.snapshot i with
    | (true, c) => .error (.converged (cycle + 1), c)
    | (false, c) => if i.interrupted then .error (.interrupted (cycle + 1), c) else .ok c

def tryLoop (inputs : Nat → CycleInput) (faults : Nat → CycleFaults ε) :
    (remaining cycle : Nat) → CycleController → RunExit × CycleController
  | 0, cycle, c => (.maxCyclesExceeded cycle, c)
  | remaining + 1, cycle, c =>
    match tryCycle ord iter tr cycle (inputs cycle) (faults cycle) c with
    | .error stop => stop
    | .ok c => tryLoop inputs faults remaining (cycle + 1) c

/-- The run up to its end. -/
def tryCycles (inputs : Nat → CycleInput) (faults : Nat → CycleFaults ε) (maxCycles : Nat)
    (c : CycleController) : RunExit × CycleController :=
  tryLoop ord iter tr inputs faults maxCycles 0 c.injectInitialOffering

def saveToStore (x : ExitFaults ε) (c : CycleController) (store : CoireStore) : CoireStore :=
  let store := (store.trySaveSession ord x.saveProlog c.prologId c.world.coire).2
  (store.trySaveSession ord x.saveClips c.clipsId c.world.coire).2

def tryEvict (x : ExitFaults ε) (c : CycleController) : CycleController :=
  { c with world := (c.world.tryClear c.prologId x.clearProlog).tryClear c.clipsId x.clearClips }

/-- `run` with a store: an error of a pass or a relay is returned at once. -/
def tryRun (inputs : Nat → CycleInput) (faults : Nat → CycleFaults ε) (exit : ExitFaults ε)
    (maxCycles : Nat) (c : CycleController) (store : CoireStore) :
    RunExit × CycleController × CoireStore :=
  match tryCycles ord iter tr inputs faults maxCycles c with
  | (.error site, c) => (.error site, c, store)
  | (ended, c) => (ended, c.tryEvict exit, c.saveToStore ord exit store)

end CycleController

/-- The save comes to the event, and no upsert before it has failed. -/
def SaveFaults.Writes (ord : RowOrder) (f : SaveFaults ε) (sid : Uuid) (c : Coire)
    (e : ClaraEvent) : Prop :=
  f.read = none ∧ e ∈ (c.readPending ord sid).takeWhile fun e => (f.upsert e).isNone

namespace CoireStore
variable {ord : RowOrder} {s : CoireStore} {sid : Uuid} {c : Coire} {e : ClaraEvent}

theorem upTo_tryUpsert (fails : ClaraEvent → Option ε) (events : List ClaraEvent)
    (s : CoireStore) : (upTo (tryUpsert fails) s events).2 =
      (events.takeWhile fun e => (fails e).isNone).foldl upsertEvent s := by
  induction events generalizing s with
  | nil => rfl
  | cons e events ih =>
    cases hf : fails e with
    | some err =>
      have herr : (tryUpsert fails s e).1 = some err := by simp [tryUpsert, hf]
      rw [upTo_cons_error herr]
      simp [after, tryUpsert, hf]
    | none =>
      have hok : (tryUpsert fails s e).1 = none := by simp [tryUpsert, hf]
      rw [upTo_cons_ok hok, ih]
      simp [after, tryUpsert, hf]

theorem trySaveSession_snd (f : SaveFaults ε) (hread : f.read = none) :
    (s.trySaveSession ord f sid c).2 =
      ((c.readPending ord sid).takeWhile fun e => (f.upsert e).isNone).foldl upsertEvent s := by
  rw [← upTo_tryUpsert]
  simp only [trySaveSession, hread]
  split
  · rename_i h
    rw [h]
  · rename_i h
    rw [h]

theorem trySaveSession_faultless :
    (s.trySaveSession ord ({} : SaveFaults ε) sid c).2 = (s.saveSession ord sid c).2 := by
  have hall : ((c.readPending ord sid).takeWhile fun e =>
      (({} : SaveFaults ε).upsert e).isNone) = c.readPending ord sid :=
    List.takeWhile_eq_self_iff.mpr fun _ _ => rfl
  rw [trySaveSession_snd _ rfl, hall]
  rfl

/-- Of the events in the live Coire, a save leaves those in the store that it wrote or that
were there. -/
theorem mem_trySaveSession (f : SaveFaults ε) (he : e ∈ c.rows) :
    e ∈ (s.trySaveSession ord f sid c).2.rows ↔ f.Writes ord sid c e ∨ e ∈ s.rows := by
  cases hread : f.read with
  | some err => simp [trySaveSession, SaveFaults.Writes, hread]
  | none =>
    have hsub : ∀ x ∈ (c.readPending ord sid).takeWhile fun e => (f.upsert e).isNone,
        x ∈ c.rows := fun x hx =>
      (mem_readPending.mp ((List.takeWhile_prefix _).subset hx)).1
    rw [trySaveSession_snd f hread, foldl_upsertEvent_rows, Keyed.mem_foldl_overwrite
      (readPending_nodup.sublist ((List.takeWhile_prefix _).sublist.map _)), SaveFaults.Writes]
    constructor
    · rintro (hw | ⟨hs, -⟩)
      · exact .inl ⟨hread, hw⟩
      · exact .inr hs
    · rintro (⟨-, hw⟩ | hs)
      · exact .inl hw
      · by_cases hid : e.eventId ∈ ((c.readPending ord sid).takeWhile fun e =>
            (f.upsert e).isNone).map ClaraEvent.eventId
        · -- a row written under its id is the event itself
          obtain ⟨x, hx, hxe⟩ := List.mem_map.mp hid
          rw [← Coire.eq_of_eventId (hsub x hx) he hxe]
          exact .inl hx
        · exact .inr ⟨hs, hid⟩

end CoireStore

theorem World.mem_tryClear {w : World} {sid : Uuid} {err : Option ε} {e : ClaraEvent} :
    e ∈ (w.tryClear sid err).rows ↔ e ∈ w.rows ∧ (e.sessionId = sid → err ≠ none) := by
  cases err with
  | some err => simp [tryClear]
  | none => simp [tryClear, clear, World.rows, Coire.clearSession]

namespace CycleController
variable {ord : RowOrder} {iter : HashOrder} {tr : Translators}

/-- The event is in one of the two mailboxes. -/
def Owns (c : CycleController) (e : ClaraEvent) : Prop :=
  e.sessionId = c.prologId ∨ e.sessionId = c.clipsId

/-- What was pending before the exit is in the store, and both mailboxes are empty after it. -/
structure CleanedUp (before after : CycleController) (store : CoireStore) : Prop where
  saved : ∀ e ∈ before.world.rows, before.Owns e → e.status = .pending → e ∈ store.rows
  evicted : ∀ e ∈ after.world.rows, ¬before.Owns e

/-- Every pending event of the mailboxes gets written, unless the store has it already. -/
def Saves (ord : RowOrder) (x : ExitFaults ε) (c : CycleController) (store : CoireStore) : Prop :=
  ∀ e ∈ c.world.rows, c.Owns e → e.status = .pending →
    x.saveProlog.Writes ord c.prologId c.world.coire e ∨
      x.saveClips.Writes ord c.clipsId c.world.coire e ∨ e ∈ store.rows

/-- A mailbox with events in it can be cleared. -/
def Clears (x : ExitFaults ε) (c : CycleController) : Prop :=
  ∀ e ∈ c.world.rows, (e.sessionId = c.prologId → x.clearProlog = none) ∧
    (e.sessionId = c.clipsId → x.clearClips = none)

theorem cleanedUp_exit_iff (x : ExitFaults ε) (c : CycleController) (store : CoireStore) :
    CleanedUp c (c.tryEvict x) (c.saveToStore ord x store) ↔
      c.Saves ord x store ∧ c.Clears x := by
  have hsaved : ∀ e ∈ c.world.rows, (e ∈ (c.saveToStore ord x store).rows ↔
      x.saveProlog.Writes ord c.prologId c.world.coire e ∨
        x.saveClips.Writes ord c.clipsId c.world.coire e ∨ e ∈ store.rows) := by
    intro e he
    rw [saveToStore, CoireStore.mem_trySaveSession _ he, CoireStore.mem_trySaveSession _ he]
    exact or_left_comm
  have hleft : ∀ e, e ∈ (c.tryEvict x).world.rows ↔ e ∈ c.world.rows ∧
      (e.sessionId = c.prologId → x.clearProlog ≠ none) ∧
        (e.sessionId = c.clipsId → x.clearClips ≠ none) := by
    intro e
    rw [tryEvict, World.mem_tryClear, World.mem_tryClear, and_assoc]
  constructor
  · intro h
    refine ⟨fun e he ho hp => (hsaved e he).mp (h.saved e he ho hp), fun e he => ?_⟩
    constructor
    · intro hsid
      by_contra hne
      have hother : e.sessionId ≠ c.clipsId := fun h => c.idsDistinct (hsid.symm.trans h)
      exact h.evicted e ((hleft e).mpr ⟨he, fun _ => hne, fun h => absurd h hother⟩) (.inl hsid)
    · intro hsid
      by_contra hne
      have hother : e.sessionId ≠ c.prologId := fun h => c.idsDistinct (h.symm.trans hsid)
      exact h.evicted e ((hleft e).mpr ⟨he, fun h => absurd h hother, fun _ => hne⟩) (.inr hsid)
  · rintro ⟨hs, hc⟩
    refine ⟨fun e he ho hp => (hsaved e he).mpr (hs e he ho hp), fun e he ho => ?_⟩
    obtain ⟨hrow, hp, hq⟩ := (hleft e).mp he
    rcases ho with ho | ho
    · exact hp ho ((hc e hrow).1 ho)
    · exact hq ho ((hc e hrow).2 ho)

end CycleController

/-- The end as the run without faults knows it. -/
def RunExit.toRunEnd : RunExit → RunEnd
  | converged cycles => .converged cycles
  | interrupted cycles => .interrupted cycles
  | maxCyclesExceeded maxCycles => .maxCyclesExceeded maxCycles
  | error _ => .failed

namespace CycleController
variable {ord : RowOrder} {iter : HashOrder} {tr : Translators}

theorem tryPasses_faultless (ε : Type*) (ord : RowOrder) (iter : HashOrder) (tr : Translators)
    (c : CycleController) (i : CycleInput) :
    ((c.tryPasses ord iter tr i ({} : CycleFaults ε)).1.isNone,
      (c.tryPasses ord iter tr i ({} : CycleFaults ε)).2) = c.passes ord iter tr i := by
  have hrelay₁ : ∀ c : CycleController, c.relayed none
      (c.tryRelayPrologToClips ord tr fun _ => (none : Option ε)) =
        (true, c.relayPrologToClips ord tr) := by
    intro c
    unfold relayed tryRelayPrologToClips
    rw [tryRelay_eq_relay _ _ _ _ _ _ _ _ fun _ _ => rfl]
    rfl
  have hrelay₂ : ∀ c : CycleController, c.relayed none
      (c.tryRelayClipsToProlog ord tr fun _ => (none : Option ε)) =
        (true, c.relayClipsToProlog ord tr) := by
    intro c
    unfold relayed tryRelayClipsToProlog
    rw [tryRelay_eq_relay _ _ _ _ _ _ _ _ fun _ _ => rfl]
    rfl
  unfold tryPasses passes tryPrologPass tryClipsPass
  dsimp only
  cases hp : c.prologPass ord i with
  | mk ok c₁ =>
    cases ok with
    | false => rfl
    | true =>
      dsimp only
      rw [hrelay₁]
      dsimp only
      cases hq : (c₁.relayPrologToClips ord tr).clipsPass ord i with
      | mk ok c₂ =>
        cases ok with
        | false => rfl
        | true =>
          dsimp only
          rw [hrelay₂]
          rfl

/-- Without faults the loop is the loop of the run. -/
theorem tryLoop_faultless (inputs : Nat → CycleInput) (remaining cycle : Nat)
    (c : CycleController) :
    ((tryLoop ord iter tr inputs (fun _ => ({} : CycleFaults ε)) remaining cycle c).1.toRunEnd,
      (tryLoop ord iter tr inputs (fun _ => ({} : CycleFaults ε)) remaining cycle c).2) =
        runLoop ord iter tr inputs remaining cycle c := by
  induction remaining generalizing cycle c with
  | zero => rfl
  | succ remaining ih =>
    have hpasses := tryPasses_faultless ε ord iter tr c (inputs cycle)
    unfold tryLoop tryCycle runLoop
    rw [← hpasses]
    cases hp : c.tryPasses ord iter tr (inputs cycle) ({} : CycleFaults ε) with
    | mk site c₁ =>
      cases site with
      | some site => rfl
      | none =>
        dsimp only [Option.isNone]
        cases hc : c₁.hasConverged ord iter c₁.snapshot (inputs cycle) with
        | mk conv c₂ =>
          cases conv with
          | true => rfl
          | false =>
            dsimp only
            by_cases hi : (inputs cycle).interrupted = true
            · rw [if_pos hi, if_pos hi]
              rfl
            · rw [if_neg hi, if_neg hi]
              exact ih (cycle + 1) c₂

/-- Without faults the run is the run of the cycle, and the store has both sessions saved. -/
theorem tryRun_faultless (inputs : Nat → CycleInput) (maxCycles : Nat) (c : CycleController)
    (store : CoireStore) :
    let r := tryRun ord iter tr inputs (fun _ => ({} : CycleFaults ε)) {} maxCycles c store
    let stop := (runCycles ord iter tr inputs maxCycles c).2
    (r.1.toRunEnd, r.2.1) = run ord iter tr inputs maxCycles c ∧
      (r.1.toRunEnd ≠ .failed → r.2.2 =
        ((store.saveSession ord stop.prologId stop.world.coire).2.saveSession ord stop.clipsId
          stop.world.coire).2) := by
  have hcycles : ((tryCycles ord iter tr inputs (fun _ => ({} : CycleFaults ε)) maxCycles
      c).1.toRunEnd, (tryCycles ord iter tr inputs (fun _ => ({} : CycleFaults ε)) maxCycles c).2) =
        runCycles ord iter tr inputs maxCycles c :=
    tryLoop_faultless inputs maxCycles 0 c.injectInitialOffering
  unfold tryRun run
  rw [← hcycles]
  cases hstop : tryCycles ord iter tr inputs (fun _ => ({} : CycleFaults ε)) maxCycles c with
  | mk ended c' =>
    have hsaved : c'.saveToStore ord ({} : ExitFaults ε) store =
        ((store.saveSession ord c'.prologId c'.world.coire).2.saveSession ord c'.clipsId
          c'.world.coire).2 := by
      simp only [saveToStore, CoireStore.trySaveSession_faultless]
    cases ended with
    | error site => exact ⟨rfl, fun h => absurd rfl h⟩
    | converged n => exact ⟨rfl, fun _ => hsaved⟩
    | interrupted n => exact ⟨rfl, fun _ => hsaved⟩
    | maxCyclesExceeded n => exact ⟨rfl, fun _ => hsaved⟩

/-- The state in which cycle `n` begins, when the run comes to it. -/
def cycleStart (ord : RowOrder) (iter : HashOrder) (tr : Translators)
    (inputs : Nat → CycleInput) (faults : Nat → CycleFaults ε) (c : CycleController) :
    Nat → Option CycleController
  | 0 => some c.injectInitialOffering
  | n + 1 => (cycleStart ord iter tr inputs faults c n).bind fun c =>
      (tryCycle ord iter tr n (inputs n) (faults n) c).toOption

variable {inputs : Nat → CycleInput} {faults : Nat → CycleFaults ε} {c : CycleController}

theorem tryCycle_error_iff (ord : RowOrder) (iter : HashOrder) (tr : Translators) (n : Nat)
    (i : CycleInput) (f : CycleFaults ε) (c : CycleController) :
    (∃ site c', tryCycle ord iter tr n i f c = .error (.error site, c')) ↔
      (c.tryPasses ord iter tr i f).1 ≠ none := by
  unfold tryCycle
  cases hp : c.tryPasses ord iter tr i f with
  | mk site c₁ =>
    cases site with
    | some site => simp
    | none =>
      dsimp only
      cases hc : c₁.hasConverged ord iter c₁.snapshot i with
      | mk conv c₂ =>
        cases conv with
        | true => simp
        | false => by_cases hi : i.interrupted = true <;> simp [hi]

theorem cycleStart_none {n m : Nat} (h : cycleStart ord iter tr inputs faults c n = none)
    (hm : n ≤ m) : cycleStart ord iter tr inputs faults c m = none := by
  induction m, hm using Nat.le_induction with
  | base => exact h
  | succ m hm ih => rw [cycleStart, ih, Option.bind_none]

/-- A run ends with an error exactly when a pass or a relay of a cycle it comes to fails. -/
theorem tryLoop_error_iff (remaining cycle : Nat) {c₀ : CycleController}
    (h₀ : cycleStart ord iter tr inputs faults c cycle = some c₀) :
    (∃ site, (tryLoop ord iter tr inputs faults remaining cycle c₀).1 = .error site) ↔
      ∃ n c', cycle ≤ n ∧ n < cycle + remaining ∧
        cycleStart ord iter tr inputs faults c n = some c' ∧
          (c'.tryPasses ord iter tr (inputs n) (faults n)).1 ≠ none := by
  induction remaining generalizing cycle c₀ with
  | zero =>
    simp only [tryLoop, reduceCtorEq, exists_false, Nat.add_zero, false_iff]
    rintro ⟨n, _, h, h', -⟩
    omega
  | succ remaining ih =>
    have hpasses := tryCycle_error_iff ord iter tr cycle (inputs cycle) (faults cycle) c₀
    have hnext : cycleStart ord iter tr inputs faults c (cycle + 1) =
        (tryCycle ord iter tr cycle (inputs cycle) (faults cycle) c₀).toOption := by
      rw [cycleStart, h₀, Option.bind_some]
    rw [tryLoop]
    cases ht : tryCycle ord iter tr cycle (inputs cycle) (faults cycle) c₀ with
    | error stop =>
      rw [ht] at hpasses hnext
      constructor
      · rintro ⟨site, hsite⟩
        exact ⟨cycle, c₀, le_rfl, by omega, h₀, hpasses.mp ⟨site, stop.2, by rw [← hsite]⟩⟩
      · rintro ⟨n, c', hle, -, hn, hfail⟩
        -- the run has come to no cycle after this one
        obtain rfl : n = cycle := by
          by_contra hne
          rw [cycleStart_none hnext (by omega)] at hn
          cases hn
        rw [h₀] at hn
        cases hn
        obtain ⟨site, c', he⟩ := hpasses.mpr hfail
        exact ⟨site, by rw [Except.error.inj he]⟩
    | ok c₁ =>
      rw [ht] at hpasses hnext
      have hok : (c₀.tryPasses ord iter tr (inputs cycle) (faults cycle)).1 = none := by
        by_contra hne
        obtain ⟨_, _, he⟩ := hpasses.mpr hne
        cases he
      refine (ih (cycle + 1) hnext).trans ⟨?_, ?_⟩
      · rintro ⟨n, c', hle, hlt, hn, hfail⟩
        exact ⟨n, c', by omega, by omega, hn, hfail⟩
      · rintro ⟨n, c', hle, hlt, hn, hfail⟩
        have hne : n ≠ cycle := by
          rintro rfl
          rw [h₀] at hn
          cases hn
          exact hfail hok
        exact ⟨n, c', by omega, by omega, hn, hfail⟩

theorem tryRun_error {exit : ExitFaults ε} {maxCycles : Nat} {store : CoireStore}
    {site : EarlyReturn}
    (h : (tryCycles ord iter tr inputs faults maxCycles c).1 = .error site) :
    tryRun ord iter tr inputs faults exit maxCycles c store =
      (.error site, (tryCycles ord iter tr inputs faults maxCycles c).2, store) := by
  unfold tryRun
  split
  · rename_i hstop
    rw [hstop] at h ⊢
    cases h
    rfl
  · rename_i hne hstop
    rw [hstop] at h
    exact absurd h (hne site)

theorem tryRun_regular {exit : ExitFaults ε} {maxCycles : Nat} {store : CoireStore}
    (h : ∀ site, (tryCycles ord iter tr inputs faults maxCycles c).1 ≠ .error site) :
    tryRun ord iter tr inputs faults exit maxCycles c store =
      ((tryCycles ord iter tr inputs faults maxCycles c).1,
        (tryCycles ord iter tr inputs faults maxCycles c).2.tryEvict exit,
        (tryCycles ord iter tr inputs faults maxCycles c).2.saveToStore ord exit store) := by
  unfold tryRun
  split
  · rename_i site c' hstop
    exact absurd (by rw [hstop]) (h site)
  · rename_i hstop
    rw [hstop]

/-- A run with a store cleans up exactly when it ends regularly, with its saves and clears
done, or is ended by an error of a pass or a relay while both mailboxes are empty. -/
theorem run_cleans_up_iff (ord : RowOrder) (iter : HashOrder) (tr : Translators)
    (inputs : Nat → CycleInput) (faults : Nat → CycleFaults ε) (exit : ExitFaults ε)
    (maxCycles : Nat) (c : CycleController) (store : CoireStore) :
    CleanedUp (tryCycles ord iter tr inputs faults maxCycles c).2
        (tryRun ord iter tr inputs faults exit maxCycles c store).2.1
        (tryRun ord iter tr inputs faults exit maxCycles c store).2.2 ↔
      ((∀ n c', n < maxCycles → cycleStart ord iter tr inputs faults c n = some c' →
          (c'.tryPasses ord iter tr (inputs n) (faults n)).1 = none) ∧
        (tryCycles ord iter tr inputs faults maxCycles c).2.Saves ord exit store ∧
        (tryCycles ord iter tr inputs faults maxCycles c).2.Clears exit) ∨
      ((∃ n c', n < maxCycles ∧ cycleStart ord iter tr inputs faults c n = some c' ∧
          (c'.tryPasses ord iter tr (inputs n) (faults n)).1 ≠ none) ∧
        ∀ e ∈ (tryCycles ord iter tr inputs faults maxCycles c).2.world.rows,
          ¬(tryCycles ord iter tr inputs faults maxCycles c).2.Owns e) := by
  have herror : (∃ site, (tryCycles ord iter tr inputs faults maxCycles c).1 = .error site) ↔
      ∃ n c', n < maxCycles ∧ cycleStart ord iter tr inputs faults c n = some c' ∧
        (c'.tryPasses ord iter tr (inputs n) (faults n)).1 ≠ none := by
    refine (tryLoop_error_iff maxCycles 0 rfl).trans ?_
    simp
  have hregular : (∀ n c', n < maxCycles → cycleStart ord iter tr inputs faults c n = some c' →
      (c'.tryPasses ord iter tr (inputs n) (faults n)).1 = none) ↔
        ¬∃ n c', n < maxCycles ∧ cycleStart ord iter tr inputs faults c n = some c' ∧
          (c'.tryPasses ord iter tr (inputs n) (faults n)).1 ≠ none := by
    constructor
    · rintro h ⟨n, c', hn, hc', hne⟩
      exact hne (h n c' hn hc')
    · intro h n c' hn hc'
      by_contra hne
      exact h ⟨n, c', hn, hc', hne⟩
  rw [hregular, ← herror]
  by_cases h : ∃ site, (tryCycles ord iter tr inputs faults maxCycles c).1 = .error site
  · obtain ⟨site, hsite⟩ := h
    rw [tryRun_error hsite]
    constructor
    · intro hclean
      exact .inr ⟨⟨site, hsite⟩, hclean.evicted⟩
    · rintro (⟨hno, -⟩ | ⟨-, hempty⟩)
      · exact absurd ⟨site, hsite⟩ hno
      · exact ⟨fun e he ho _ => absurd ho (hempty e he), hempty⟩
  · rw [tryRun_regular (fun site hsite => h ⟨site, hsite⟩), cleanedUp_exit_iff]
    simp [h]

/-- Prolog emits an event, CLIPS answers it and then its engine fails. -/
def clipsFails : Nat → CycleInput := fun _ =>
  { goal := [.emit ⟨1⟩ "prolog" (.str "a")], clips := [.emit ⟨2⟩ "clips" (.str "b")]
    clipsOk := false }

/-- The run of `clipsFails` up to the error. -/
def leakyStop : RunExit × CycleController :=
  tryCycles .stable .listed ⟨id, id⟩ clipsFails (fun _ => ({} : CycleFaults Empty)) 3 joined

/-- The whole run: there is a store, and nothing else goes wrong. -/
def leakyRun : RunExit × CycleController × CoireStore :=
  tryRun .stable .listed ⟨id, id⟩ clipsFails (fun _ => ({} : CycleFaults Empty)) {} 3 joined .new

/-- Three events stay in the Coire, one of them pending, and the store has none. -/
theorem failed_clips_pass_leaks :
    leakyRun.1 = .error .clipsPass ∧ leakyRun.2.1.world.rows.length = 3 ∧
      leakyRun.2.1.world.coire.countPending ⟨2⟩ = 1 ∧ leakyRun.2.2.rows = [] ∧
      ¬CleanedUp leakyStop.2 leakyRun.2.1 leakyRun.2.2 := by
  refine ⟨by decide +kernel, by decide +kernel, by decide +kernel, by decide +kernel, fun h => ?_⟩
  have hleft : (leakyRun.2.1.world.rows.any fun e => e.sessionId == ⟨2⟩) = true := by
    decide +kernel
  have hclips : leakyStop.2.clipsId = ⟨2⟩ := by decide +kernel
  obtain ⟨e, he, hsid⟩ := List.any_eq_true.mp hleft
  exact h.evicted e he (.inr ((beq_iff_eq.mp hsid).trans hclips.symm))

end CycleController

end Cerebellum
