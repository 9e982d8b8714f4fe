import Cerebellum.RitualRegistry

/-! Concurrent calls on one `RitualRegistry`: what a call does under the lock of the map, and
each statement it runs on the store, are steps of their own. `create` gives the lock back
before its row is written; `join` and `terminate` hold it over their `UPDATE`. -/
namespace Cerebellum
open Transition

structure RitualSummary where
  ritualId : Uuid
  name : String
  state : String
  topic : String

def RitualServer.listActive (s : RitualServer) : List RitualSummary :=
  (s.rituals.rituals.filter fun r => r.state == .active).map fun r =>
    ⟨r.ritualId, r.config.name, "active", r.topic⟩

inductive RitualRequest where
  | create (config : RitualConfig) (ensure : Option String)
  | join (id : Uuid) (key : Option String)
  | terminate (id : Uuid)
  | listActive

/-- The `UPDATE` a call runs while it holds the lock. -/
inductive RitualUpdate where
  | state (state : String)
  | participants (participantsJson : String)

namespace RitualUpdate

def on : RitualUpdate → RitualRow → RitualRow
  | state s, row => { row with state := s }
  | participants json, row => { row with participantsJson := json }

def apply (t : RitualTable) (id : Uuid) (now : Int) : RitualUpdate → RitualTable
  | state s => t.setRitualState id s now
  | participants json => t.setRitualParticipants id json now

theorem get_apply {t : RitualTable} {id : Uuid} {row : RitualRow} (hrow : t.get id = some row)
    (now : Int) (u : RitualUpdate) (x : Uuid) :
    (u.apply t id now).get x =
      if id = x then some { u.on row with updatedAtMs := now } else t.get x := by
  cases u with
  | state s => exact RitualServer.get_setRitualState hrow s now x
  | participants json => exact RitualServer.get_setRitualParticipants hrow json now x

end RitualUpdate

/-- Where a call stands. In `update` it holds the lock. -/
inductive RitualPhase where
  | idle
  | insert (id : Uuid) (config : RitualConfig) (topic : String)
  | upsert (id : Uuid) (config : RitualConfig) (topic : String)
  | update (id : Uuid) (u : RitualUpdate) (answer : RitualServer.Answer)
  | listed (rituals : List RitualSummary)
  | done (answer : RitualServer.Answer)

/-- `shown` are the ids that some caller has been told. -/
structure RitualRace (κ : Type*) where
  server : RitualServer
  lock : Option κ
  shown : List Uuid
  phase : κ → RitualPhase

namespace RitualRace
open RitualServer (Answer)
variable {κ : Type*} [DecidableEq κ] (E : RitualEnv) (request : κ → RitualRequest)

def start (server : RitualServer) : RitualRace κ :=
  ⟨server, none, server.rituals.rituals.map Ritual.ritualId, fun _ => .idle⟩

def go (s : RitualRace κ) (k : κ) (p : RitualPhase) : RitualRace κ :=
  { s with phase := Function.update s.phase k p }

/-- A call ends with nothing written. -/
def finish (s : RitualRace κ) (k : κ) (answer : Answer) : RitualRace κ := s.go k (.done answer)

def mint (s : RitualRace κ) : RitualRace κ :=
  { s with server := { s.server with minted := s.server.minted + 1 } }

/-- A call changes a ritual under the lock and keeps it for its `UPDATE`. -/
def change (s : RitualRace κ) (k : κ) (ritual : Ritual) (u : RitualUpdate) (answer : Answer) :
    RitualRace κ :=
  { s.go k (.update ritual.ritualId u answer) with
    server := { s.server with rituals := s.server.rituals.insert ritual }
    lock := some k }

def beginCreate (s : RitualRace κ) (k : κ) (config : RitualConfig) (ensure : Option String) :
    RitualRace κ :=
  match topicName E.disDomain (E.uuid s.server.minted) with
  | .error e => s.mint.finish k (.refused e)
  | .ok topic =>
    match ensure with
    | some text => s.mint.finish k (.refused (.brokerError text))
    | none => s.mint.go k (.insert (E.uuid s.server.minted) config topic)

def beginJoin (s : RitualRace κ) (k : κ) (id : Uuid) (key : Option String) : RitualRace κ :=
  match s.server.rituals.get id with
  | none => s.finish k (.refused (.topicNotFound id.toText))
  | some ritual =>
    if ritual.state ≠ .active then
      s.finish k (.refused (RitualServer.notActive id ritual.state))
    else
      match key with
      | none => s.mint.finish k (.joined ⟨id, E.uuid s.server.minted, E.disDomain⟩)
      | some key =>
        match Fields.get key ritual.participants with
        | some existing => s.finish k (.joined ⟨id, existing, E.disDomain⟩)
        | none =>
          let participants := Fields.insert key (E.uuid s.server.minted) ritual.participants
          s.mint.change k { ritual with participants := participants }
            (.participants (E.codec.participantsToString participants))
            (.joined ⟨id, E.uuid s.server.minted, E.disDomain⟩)

def beginTerminate (s : RitualRace κ) (k : κ) (id : Uuid) : RitualRace κ :=
  match s.server.rituals.get id with
  | none => s.finish k (.refused (.topicNotFound id.toText))
  | some ritual =>
    s.change k { ritual with state := .terminated } (.state RitualState.terminated.asStr)
      .terminated

/-- The first step of a call. A caller waits for the lock, and for an id it can name. -/
def begin (s : RitualRace κ) (k : κ) : RitualRace κ :=
  match request k with
  | .create config ensure => s.beginCreate E k config ensure
  | .join id key => if s.lock.isSome ∨ id ∉ s.shown then s else s.beginJoin E k id key
  | .terminate id => if s.lock.isSome ∨ id ∉ s.shown then s else s.beginTerminate k id
  | .listActive =>
    if s.lock.isSome then s
    else
      { s.go k (.listed s.server.listActive) with
        shown := s.shown ++ s.server.listActive.map RitualSummary.ritualId }

/-- The next step of a call, and the clock reading in case it writes to the store. -/
def step (s : RitualRace κ) (x : κ × Int) : RitualRace κ :=
  match s.phase x.1 with
  | .idle => s.begin E request x.1
  | .insert id config topic =>
    if s.lock.isSome then s
    else
      { s.go x.1 (.upsert id config topic) with
        server := { s.server with
          rituals := s.server.rituals.insert ⟨id, config, .active, topic, []⟩ } }
  | .upsert id config topic =>
    { s.go x.1 (.done (.created id)) with
      server := { s.server with
        table := s.server.table.upsertRitual (RitualServer.createdRow E id config topic x.2) }
      shown := s.shown ++ [id] }
  | .update id u answer =>
    { s.go x.1 (.done answer) with
      server := { s.server with table := u.apply s.server.table id x.2 }
      lock := none }
  | .listed _ => s
  | .done _ => s

/-- The call as one operation. -/
def opOf (now : Int) : RitualRequest → Option RitualServer.Op
  | .create config ensure => some (.create config ensure now)
  | .join id key => some (.join id key now)
  | .terminate id => some (.terminate id now)
  | .listActive => none

/-- The id a caller has to know. -/
def named : RitualRequest → Option Uuid
  | .join id _ => some id
  | .terminate id => some id
  | _ => none

/-- Three steps of a call in a row are the operation in one piece. -/
def DoesAlone (s : RitualRace κ) (k : κ) (now : Int) (op : RitualServer.Op) : Prop :=
  let e := run (step E request) s [(k, now), (k, now), (k, now)]
  e.phase k = .done (RitualServer.exec E s.server op).1 ∧
    e.server = (RitualServer.exec E s.server op).2 ∧ e.lock = none

section Alone
variable {request} {s : RitualRace κ} {k : κ} (now : Int) (hphase : s.phase k = .idle)
  (hlock : s.lock = none)
include hphase hlock

theorem create_alone {config : RitualConfig} {ensure : Option String}
    (hreq : request k = .create config ensure) :
    DoesAlone E request s k now (.create config ensure now) := by
  simp only [DoesAlone, run, RitualServer.exec, RitualServer.create]
  cases htopic : topicName E.disDomain (E.uuid s.server.minted) with
  | error e =>
    simp [step, hphase, begin, hreq, beginCreate, htopic, finish, mint, go, hlock,
      RitualServer.answer]
  | ok topic =>
    cases ensure with
    | some text =>
      simp [step, hphase, begin, hreq, beginCreate, htopic, finish, mint, go, hlock,
        RitualServer.answer]
    | none =>
      simp [step, hphase, begin, hreq, beginCreate, htopic, mint, go, hlock, RitualServer.answer]

theorem join_alone {id : Uuid} {key : Option String} (hreq : request k = .join id key)
    (hid : id ∈ s.shown) : DoesAlone E request s k now (.join id key now) := by
  simp only [DoesAlone, run, RitualServer.exec, RitualServer.join]
  cases hget : s.server.rituals.get id with
  | none =>
    simp [step, hphase, begin, hreq, hid, beginJoin, hget, finish, go, hlock, RitualServer.answer]
  | some r =>
    by_cases hact : r.state = .active
    · cases key with
      | none =>
        simp [step, hphase, begin, hreq, hid, beginJoin, hget, hact, finish, mint, go, hlock,
          RitualServer.answer]
      | some key =>
        cases hkey : Fields.get key r.participants with
        | some p =>
          simp [step, hphase, begin, hreq, hid, beginJoin, hget, hact, hkey, finish, go, hlock,
            RitualServer.answer]
        | none =>
          obtain rfl := RitualServer.ritualId_of_get hget
          simp [step, hphase, begin, hreq, hid, beginJoin, hget, hact, hkey, mint, change, go,
            hlock, RitualUpdate.apply, RitualServer.answer]
    · simp [step, hphase, begin, hreq, hid, beginJoin, hget, hact, finish, go, hlock,
        RitualServer.answer]

theorem terminate_alone {id : Uuid} (hreq : request k = .terminate id) (hid : id ∈ s.shown) :
    DoesAlone E request s k now (.terminate id now) := by
  simp only [DoesAlone, run, RitualServer.exec, RitualServer.terminate]
  cases hget : s.server.rituals.get id with
  | none =>
    simp [step, hphase, begin, hreq, hid, beginTerminate, hget, finish, go, hlock,
      RitualServer.answer]
  | some r =>
    obtain rfl := RitualServer.ritualId_of_get hget
    simp [step, hphase, begin, hreq, hid, beginTerminate, hget, change, go, hlock,
      RitualUpdate.apply, RitualServer.answer]

/-- A call that is not interrupted does what the operation does in one piece. -/
theorem run_alone {op : RitualServer.Op} (hop : opOf now (request k) = some op)
    (hshown : ∀ id, named (request k) = some id → id ∈ s.shown) :
    DoesAlone E request s k now op := by
  cases hreq : request k with
  | create config ensure =>
    rw [hreq] at hop
    cases hop
    exact create_alone E now hphase hlock hreq
  | join id key =>
    rw [hreq] at hop hshown
    cases hop
    exact join_alone E now hphase hlock hreq (hshown id rfl)
  | terminate id =>
    rw [hreq] at hop hshown
    cases hop
    exact terminate_alone E now hphase hlock hreq (hshown id rfl)
  | listActive =>
    rw [hreq] at hop
    cases hop

end Alone

/-- Nothing that callers were told of the rituals is taken back. -/
def Grown (m m' : RitualMap) : Prop :=
  ∀ id r, m.get id = some r → ∃ r', m'.get id = some r' ∧
    (r.state = .terminated → r'.state = .terminated) ∧
    ∀ k p, Fields.get k r.participants = some p → Fields.get k r'.participants = some p

/-- The memory bears an answer out. -/
def Told (m : RitualMap) : RitualRequest → Answer → Prop
  | .terminate id, .terminated => ∃ r, m.get id = some r ∧ r.state = .terminated
  | .join id (some key), .joined handle =>
    ∃ r, m.get id = some r ∧ Fields.get key r.participants = some handle.performanceId
  | _, _ => True

theorem Grown.refl (m : RitualMap) : Grown m m := fun _ r hr => ⟨r, hr, fun h => h, fun _ _ h => h⟩

theorem Grown.told {m m' : RitualMap} (h : Grown m m') {q : RitualRequest} {a : Answer}
    (ht : Told m q a) : Told m' q a := by
  unfold Told at ht ⊢
  split at ht
  · obtain ⟨r, hr, hstate⟩ := ht
    obtain ⟨r', hr', hkeep, -⟩ := h _ r hr
    exact ⟨r', hr', hkeep hstate⟩
  · obtain ⟨r, hr, hkey⟩ := ht
    obtain ⟨r', hr', -, hkeep⟩ := h _ r hr
    exact ⟨r', hr', hkeep _ _ hkey⟩
  · trivial

/-- Everything a step of a call can do. -/
inductive Move (s : RitualRace κ) (x : κ × Int) : RitualRace κ → Prop
  | stay : Move s x s
  | answered (answer : Answer) (n : Nat) (hphase : s.phase x.1 = .idle)
      (hn : s.server.minted ≤ n) (htold : Told s.server.rituals (request x.1) answer) :
    Move s x { s.go x.1 (.done answer) with server := { s.server with minted := n } }
  | listed (rituals : List RitualSummary) (hphase : s.phase x.1 = .idle) :
    Move s x { s.go x.1 (.listed rituals) with
      shown := s.shown ++ rituals.map RitualSummary.ritualId }
  | minted (config : RitualConfig) (topic : String) (hphase : s.phase x.1 = .idle) :
    Move s x (s.mint.go x.1 (.insert (E.uuid s.server.minted) config topic))
  | changed (r r' : Ritual) (u : RitualUpdate) (answer : Answer) (n : Nat)
      (hphase : s.phase x.1 = .idle) (hlock : s.lock = none)
      (hget : s.server.rituals.get r'.ritualId = some r) (hn : s.server.minted ≤ n)
      (hrow : ∀ row : RitualRow, row.Holds E.codec r → (u.on row).Holds E.codec r')
      (hgrown : Grown s.server.rituals (s.server.rituals.insert r'))
      (htold : Told (s.server.rituals.insert r') (request x.1) answer) :
    Move s x { s.go x.1 (.update r'.ritualId u answer) with
      server := { s.server with rituals := s.server.rituals.insert r', minted := n }
      lock := some x.1 }
  | inserted (id : Uuid) (config : RitualConfig) (topic : String)
      (hphase : s.phase x.1 = .insert id config topic) (hlock : s.lock = none) :
    Move s x { s.go x.1 (.upsert id config topic) with
      server := { s.server with
        rituals := s.server.rituals.insert ⟨id, config, .active, topic, []⟩ } }
  | upserted (id : Uuid) (config : RitualConfig) (topic : String)
      (hphase : s.phase x.1 = .upsert id config topic) :
    Move s x { s.go x.1 (.done (.created id)) with
      server := { s.server with
        table := s.server.table.upsertRitual (RitualServer.createdRow E id config topic x.2) }
      shown := s.shown ++ [id] }
  | updated (id : Uuid) (u : RitualUpdate) (answer : Answer)
      (hphase : s.phase x.1 = .update id u answer) :
    Move s x { s.go x.1 (.done answer) with
      server := { s.server with table := u.apply s.server.table id x.2 }
      lock := none }

variable {E request}

theorem grown_insert {m : RitualMap} {r r' : Ritual} (hget : m.get r'.ritualId = some r)
    (hstate : r.state = .terminated → r'.state = .terminated)
    (hkeys : ∀ k p, Fields.get k r.participants = some p → Fields.get k r'.participants = some p) :
    Grown m (m.insert r') := by
  intro id x hx
  rw [RitualMap.get_insert]
  by_cases hid : r'.ritualId = id
  · rw [hid, hx] at hget
    cases hget
    exact ⟨r', if_pos hid, hstate, hkeys⟩
  · exact ⟨x, by rw [if_neg hid, hx], fun h => h, fun _ _ h => h⟩

theorem get_insert_self (m : RitualMap) (r : Ritual) : (m.insert r).get r.ritualId = some r := by
  rw [RitualMap.get_insert, if_pos rfl]

theorem move_join (s : RitualRace κ) (x : κ × Int) (id : Uuid) (key : Option String)
    (hphase : s.phase x.1 = .idle) (hreq : request x.1 = .join id key) (hlock : s.lock = none) :
    Move E request s x (s.beginJoin E x.1 id key) := by
  unfold beginJoin
  cases hget : s.server.rituals.get id with
  | none => exact .answered _ _ hphase le_rfl (by rw [hreq]; cases key <;> trivial)
  | some r =>
    dsimp only
    split
    · exact .answered _ _ hphase le_rfl (by rw [hreq]; cases key <;> trivial)
    · rename_i hact
      rw [ne_eq, not_not] at hact
      cases key with
      | none => exact .answered _ _ hphase (Nat.le_succ _) (by rw [hreq]; trivial)
      | some key =>
        cases hkey : Fields.get key r.participants with
        | some existing =>
          simp only [hkey]
          exact .answered _ _ hphase le_rfl (by rw [hreq]; exact ⟨r, hget, hkey⟩)
        | none =>
          simp only [hkey]
          obtain rfl := RitualServer.ritualId_of_get hget
          refine .changed r _ _ _ _ hphase hlock hget (Nat.le_succ _) (fun row h => ?_) ?_ ?_
          · exact ⟨h.name, h.state, h.topic, h.config, E.codec.participantsFromStr_toString _⟩
          · refine grown_insert hget (fun h => h) fun l p hl => ?_
            have hne : l ≠ key := by
              rintro rfl
              rw [hkey] at hl
              cases hl
            rw [Fields.get_insert_ne hne, hl]
          · rw [hreq]
            exact ⟨_, get_insert_self _ _, Fields.get_insert_self _ _ _⟩

theorem move_terminate (s : RitualRace κ) (x : κ × Int) (id : Uuid)
    (hphase : s.phase x.1 = .idle) (hreq : request x.1 = .terminate id) (hlock : s.lock = none) :
    Move E request s x (s.beginTerminate x.1 id) := by
  unfold beginTerminate
  cases hget : s.server.rituals.get id with
  | none => exact .answered _ _ hphase le_rfl (by rw [hreq]; trivial)
  | some r =>
    obtain rfl := RitualServer.ritualId_of_get hget
    refine .changed r _ _ _ _ hphase hlock hget le_rfl (fun row h => ?_) ?_ ?_
    · exact ⟨h.name, rfl, h.topic, h.config, h.participants⟩
    · exact grown_insert hget (fun _ => rfl) fun _ _ h => h
    · rw [hreq]
      exact ⟨_, get_insert_self _ _, rfl⟩

theorem move_create (s : RitualRace κ) (x : κ × Int) (config : RitualConfig)
    (ensure : Option String) (hphase : s.phase x.1 = .idle)
    (hreq : request x.1 = .create config ensure) :
    Move E request s x (s.beginCreate E x.1 config ensure) := by
  unfold beginCreate
  cases topicName E.disDomain (E.uuid s.server.minted) with
  | error e => exact .answered _ _ hphase (Nat.le_succ _) (by rw [hreq]; trivial)
  | ok topic =>
    cases ensure with
    | some text => exact .answered _ _ hphase (Nat.le_succ _) (by rw [hreq]; trivial)
    | none => exact .minted config topic hphase

theorem step_move (s : RitualRace κ) (x : κ × Int) :
    Move E request s x (step E request s x) := by
  unfold step
  cases hphase : s.phase x.1 with
  | idle =>
    dsimp only
    unfold begin
    cases hreq : request x.1 with
    | create config ensure => exact move_create s x config ensure hphase hreq
    | join id key =>
      dsimp only
      split
      · exact .stay
      · rename_i hfree
        exact move_join s x id key hphase hreq (by simpa using fun h => hfree (.inl h))
    | terminate id =>
      dsimp only
      split
      · exact .stay
      · rename_i hfree
        exact move_terminate s x id hphase hreq (by simpa using fun h => hfree (.inl h))
    | listActive =>
      dsimp only
      split
      · exact .stay
      · exact .listed _ hphase
  | insert id config topic =>
    dsimp only
    split
    · exact .stay
    · rename_i hfree
      exact .inserted id config topic hphase (by simpa using hfree)
  | upsert id config topic => exact .upserted id config topic hphase
  | update id u answer => exact .updated id u answer hphase
  | listed rituals => exact .stay
  | done answer => exact .stay

/-- The ritual a call is creating. -/
def creating : RitualPhase → Option Uuid
  | .insert id _ _ => some id
  | .upsert id _ _ => some id
  | _ => none

/-- The answer a call has, or will have when its `UPDATE` is through. -/
def answerOf : RitualPhase → Option Answer
  | .update _ _ answer => some answer
  | .done answer => some answer
  | _ => none

/-- The row of a ritual, or the row that its `create` is about to write. -/
def Based (E : RitualEnv) (s : RitualRace κ) (id : Uuid) (row : RitualRow) : Prop :=
  s.server.table.get id = some row ∨ (s.server.table.get id = none ∧
    ∃ k config topic now, s.phase k = .upsert id config topic ∧
      row = RitualServer.createdRow E id config topic now)

/-- No call is about to update the row. -/
def Settled (s : RitualRace κ) (id : Uuid) : Prop := ∀ k u a, s.phase k ≠ .update id u a

/-- What the calls have done and what they are still to do gives the memory's rituals. -/
structure Inv (E : RitualEnv) (request : κ → RitualRequest) (s : RitualRace κ) : Prop where
  locked : ∀ k id u a, s.phase k = .update id u a → s.lock = some k
  minted : ∀ id, s.server.rituals.get id ≠ none → ∃ n, n < s.server.minted ∧ id = E.uuid n
  fresh : ∀ k id, creating (s.phase k) = some id → ∃ n, n < s.server.minted ∧ id = E.uuid n
  apart : ∀ k k' id, creating (s.phase k) = some id → creating (s.phase k') = some id → k = k'
  unborn : ∀ k id config topic, s.phase k = .insert id config topic →
    s.server.rituals.get id = none
  born : ∀ k id config topic, s.phase k = .upsert id config topic →
    s.server.rituals.get id ≠ none
  rowless : ∀ k id config topic, s.phase k = .upsert id config topic →
    s.server.table.get id = none
  absent : ∀ id, s.server.rituals.get id = none → s.server.table.get id = none
  rows : ∀ id r, s.server.rituals.get id = some r → ∃ row, Based E s id row ∧
    (∀ k u a, s.phase k = .update id u a → (u.on row).Holds E.codec r) ∧
    (s.Settled id → row.Holds E.codec r)
  told : ∀ k a, answerOf (s.phase k) = some a → Told s.server.rituals (request k) a

/-- The statement of a call that updates a row finds it. -/
def RowThere (s : RitualRace κ) (x : κ × Int) : Prop :=
  ∀ id u a, s.phase x.1 = .update id u a → s.server.table.get id ≠ none

/-- `RowThere` as a test. -/
def rowThere (s : RitualRace κ) (x : κ × Int) : Bool :=
  match s.phase x.1 with
  | .update id _ _ => (s.server.table.get id).isSome
  | _ => true

omit [DecidableEq κ] in
theorem rowThere_iff {s : RitualRace κ} {x : κ × Int} : s.rowThere x = true ↔ s.RowThere x := by
  unfold rowThere RowThere
  cases hphase : s.phase x.1 with
  | update id u a =>
    dsimp only
    rw [Option.isSome_iff_ne_none]
    refine ⟨fun h id' u' a' he => ?_, fun h => h id u a rfl⟩
    cases he
    exact h
  | _ => simp

variable {s s' : RitualRace κ} {k : κ} {p : RitualPhase}

/-- The phases after one call has moved. -/
theorem phase_cases (hp : s'.phase = Function.update s.phase k p) (k' : κ) :
    (k' = k ∧ s'.phase k' = p) ∨ (k' ≠ k ∧ s'.phase k' = s.phase k') := by
  by_cases hk : k' = k
  · subst hk
    exact .inl ⟨rfl, by rw [hp, Function.update_self]⟩
  · exact .inr ⟨hk, by rw [hp, Function.update_of_ne hk]⟩

/-- A phase that is not the one the call has moved to was there before. -/
theorem phase_back (hp : s'.phase = Function.update s.phase k p) {k' : κ} {q : RitualPhase}
    (hk' : s'.phase k' = q) (hq : p ≠ q) : k' ≠ k ∧ s.phase k' = q := by
  rcases phase_cases hp k' with ⟨-, he⟩ | ⟨hne, he⟩
  · exact absurd (he.symm.trans hk') hq
  · exact ⟨hne, he.symm.trans hk'⟩

theorem phase_other (hp : s'.phase = Function.update s.phase k p) {k' : κ} {q : RitualPhase}
    (hk' : s.phase k' = q) (hq : s.phase k ≠ q) : s'.phase k' = q := by
  rcases phase_cases hp k' with ⟨rfl, -⟩ | ⟨-, he⟩
  · exact absurd hk' hq
  · rw [he, hk']

theorem Based.other {id : Uuid} {row : RitualRow} (h : Based E s id row)
    (htable : s'.server.table.get id = s.server.table.get id)
    (hp : s'.phase = Function.update s.phase k p) (hk : ∀ c t, s.phase k ≠ .upsert id c t) :
    Based E s' id row := by
  unfold Based
  rw [htable]
  exact h.imp_right fun ⟨hno, k', c, t, now, hk', he⟩ =>
    ⟨hno, k', c, t, now, phase_other hp hk' (hk c t), he⟩

omit [DecidableEq κ] in
/-- No update is under way while the lock is free. -/
theorem Inv.settled (h : Inv E request s) (hlock : s.lock = none) (id : Uuid) : s.Settled id := by
  intro k u a hk
  have hsome := h.locked k id u a hk
  rw [hlock] at hsome
  cases hsome

omit [DecidableEq κ] in
theorem Inv.next_unborn (h : Inv E request s) :
    s.server.rituals.get (E.uuid s.server.minted) = none := by
  by_contra hne
  obtain ⟨n, hn, he⟩ := h.minted _ hne
  exact absurd (E.uuidNew he) (by omega)

/-- What the other callers were told still holds when nothing is taken back. -/
theorem Inv.told_after (h : Inv E request s) (hp : s'.phase = Function.update s.phase k p)
    {m : RitualMap} (hgrown : Grown s.server.rituals m)
    (hself : ∀ a, answerOf p = some a → Told m (request k) a) (k' : κ) (a : Answer)
    (hk' : answerOf (s'.phase k') = some a) : Told m (request k') a := by
  rcases phase_cases hp k' with ⟨rfl, he⟩ | ⟨-, he⟩
  · rw [he] at hk'
    exact hself a hk'
  · rw [he] at hk'
    exact hgrown.told (h.told k' a hk')

/-- An idle call ends, lists, or has minted an id: the rituals and the rows stay. -/
theorem Inv.idle (h : Inv E request s) (hphase : s.phase k = .idle)
    (hp : s'.phase = Function.update s.phase k p)
    (hrituals : s'.server.rituals = s.server.rituals) (htable : s'.server.table = s.server.table)
    (hn : s.server.minted ≤ s'.server.minted) (hlock : s'.lock = s.lock)
    (hupdate : ∀ id u a, p ≠ .update id u a) (hupsert : ∀ id c t, p ≠ .upsert id c t)
    (hnew : ∀ id, creating p = some id →
      id = E.uuid s.server.minted ∧ s.server.minted < s'.server.minted)
    (htold : ∀ a, answerOf p = some a → Told s.server.rituals (request k) a) :
    Inv E request s' := by
  have hup : ∀ k' id u a, s'.phase k' = .update id u a → s.phase k' = .update id u a :=
    fun k' id u a hk' => (phase_back hp hk' (hupdate id u a)).2
  have hups : ∀ k' id c t, s'.phase k' = .upsert id c t → s.phase k' = .upsert id c t :=
    fun k' id c t hk' => (phase_back hp hk' (hupsert id c t)).2
  have hbound : ∀ id, (∃ n, n < s.server.minted ∧ id = E.uuid n) →
      ∃ n, n < s'.server.minted ∧ id = E.uuid n := by
    rintro id ⟨n, hlt, he⟩
    exact ⟨n, hlt.trans_le hn, he⟩
  have hclash : ∀ k' id, creating p = some id → creating (s.phase k') ≠ some id := by
    intro k' id hc hk'
    obtain ⟨n, hlt, he⟩ := h.fresh k' id hk'
    rw [(hnew id hc).1] at he
    exact absurd (E.uuidNew he) (by omega)
  refine
    { locked := fun k' id u a hk' => ?_, minted := fun id hid => ?_, fresh := fun k' id hk' => ?_
      apart := fun k₁ k₂ id h₁ h₂ => ?_, unborn := fun k' id c t hk' => ?_
      born := fun k' id c t hk' => ?_
      rowless := fun k' id c t hk' => ?_, absent := fun id hid => ?_, rows := fun id r hr => ?_
      told := fun k' a hk' => ?_ }
  · rw [hlock]
    exact h.locked k' id u a (hup k' id u a hk')
  · rw [hrituals] at hid
    exact hbound id (h.minted id hid)
  · rcases phase_cases hp k' with ⟨-, he⟩ | ⟨-, he⟩
    · rw [he] at hk'
      obtain ⟨hid, hlt⟩ := hnew id hk'
      exact ⟨_, hlt, hid⟩
    · rw [he] at hk'
      exact hbound id (h.fresh k' id hk')
  · rcases phase_cases hp k₁ with ⟨hk₁, he₁⟩ | ⟨-, he₁⟩
    · rcases phase_cases hp k₂ with ⟨hk₂, -⟩ | ⟨-, he₂⟩
      · exact hk₁.trans hk₂.symm
      · exact absurd (he₂ ▸ h₂) (hclash k₂ id (he₁ ▸ h₁))
    · rcases phase_cases hp k₂ with ⟨-, he₂⟩ | ⟨-, he₂⟩
      · exact absurd (he₁ ▸ h₁) (hclash k₁ id (he₂ ▸ h₂))
      · exact h.apart k₁ k₂ id (he₁ ▸ h₁) (he₂ ▸ h₂)
  · rw [hrituals]
    rcases phase_cases hp k' with ⟨-, he⟩ | ⟨-, he⟩
    · rw [(hnew id (by rw [← he, hk']; rfl)).1]
      exact h.next_unborn
    · exact h.unborn k' id c t (he.symm.trans hk')
  · rw [hrituals]
    exact h.born k' id c t (hups k' id c t hk')
  · rw [htable]
    exact h.rowless k' id c t (hups k' id c t hk')
  · rw [hrituals] at hid
    rw [htable]
    exact h.absent id hid
  · rw [hrituals] at hr
    obtain ⟨row, hbased, hdue, hsettled⟩ := h.rows id r hr
    refine ⟨row, ?_, fun k' u a hk' => hdue k' u a (hup k' id u a hk'), fun hset => ?_⟩
    · exact hbased.other (by rw [htable]) hp (by simp [hphase])
    · refine hsettled fun k' u a hk' => hset k' u a ?_
      exact phase_other hp hk' (by rw [hphase]; simp)
  · rw [hrituals]
    exact h.told_after hp (Grown.refl _) htold k' a hk'

/-- A call moves on without starting a `create`. -/
theorem creating_cases (hp : s'.phase = Function.update s.phase k p)
    (hc : ∀ id, creating p = some id → creating (s.phase k) = some id) {k' : κ} {id : Uuid}
    (h : creating (s'.phase k') = some id) : creating (s.phase k') = some id := by
  rcases phase_cases hp k' with ⟨rfl, he⟩ | ⟨-, he⟩
  · rw [he] at h
    exact hc id h
  · rw [← he]
    exact h

/-- A call changes a ritual under the lock. -/
theorem Inv.changed (h : Inv E request s) {r r' : Ritual} {u : RitualUpdate} {answer : Answer}
    (hphase : s.phase k = .idle) (hfree : s.lock = none)
    (hp : s'.phase = Function.update s.phase k (.update r'.ritualId u answer))
    (hrituals : s'.server.rituals = s.server.rituals.insert r')
    (htable : s'.server.table = s.server.table) (hn : s.server.minted ≤ s'.server.minted)
    (hlock : s'.lock = some k) (hget : s.server.rituals.get r'.ritualId = some r)
    (hrow : ∀ row : RitualRow, row.Holds E.codec r → (u.on row).Holds E.codec r')
    (hgrown : Grown s.server.rituals (s.server.rituals.insert r'))
    (htold : Told (s.server.rituals.insert r') (request k) answer) : Inv E request s' := by
  have hc : ∀ id, creating (.update r'.ritualId u answer) = some id →
      creating (s.phase k) = some id := by simp [creating]
  have hup : ∀ k' id v a, s'.phase k' = .update id v a →
      k' = k ∧ RitualPhase.update r'.ritualId u answer = .update id v a := by
    intro k' id v a hk'
    rcases phase_cases hp k' with ⟨hk, he⟩ | ⟨-, he⟩
    · exact ⟨hk, he.symm.trans hk'⟩
    · exact absurd (he.symm.trans hk') (h.settled hfree id k' v a)
  have hmem : ∀ id, s'.server.rituals.get id = none ↔ s.server.rituals.get id = none := by
    intro id
    rw [hrituals, RitualMap.get_insert]
    by_cases hid : r'.ritualId = id
    · subst hid
      simp [hget]
    · rw [if_neg hid]
  refine
    { locked := fun k' id v a hk' => ?_, minted := fun id hid => ?_, fresh := fun k' id hk' => ?_
      apart := fun k₁ k₂ id h₁ h₂ => ?_, unborn := fun k' id c t hk' => ?_
      born := fun k' id c t hk' => ?_
      rowless := fun k' id c t hk' => ?_, absent := fun id hid => ?_, rows := fun id x hx => ?_
      told := fun k' a hk' => ?_ }
  · rw [hlock, (hup k' id v a hk').1]
  · obtain ⟨n, hlt, he⟩ := h.minted id (mt (hmem id).mpr hid)
    exact ⟨n, hlt.trans_le hn, he⟩
  · obtain ⟨n, hlt, he⟩ := h.fresh k' id (creating_cases hp hc hk')
    exact ⟨n, hlt.trans_le hn, he⟩
  · exact h.apart k₁ k₂ id (creating_cases hp hc h₁) (creating_cases hp hc h₂)
  · exact (hmem id).mpr (h.unborn k' id c t (phase_back hp hk' (by simp)).2)
  · exact mt (hmem id).mp (h.born k' id c t (phase_back hp hk' (by simp)).2)
  · rw [htable]
    exact h.rowless k' id c t (phase_back hp hk' (by simp)).2
  · rw [htable]
    exact h.absent id ((hmem id).mp hid)
  · have hidle : ∀ c t, s.phase k ≠ .upsert id c t := by simp [hphase]
    rw [hrituals, RitualMap.get_insert] at hx
    by_cases hid : r'.ritualId = id
    · rw [if_pos hid] at hx
      cases hx
      subst hid
      obtain ⟨row, hbased, -, hset⟩ := h.rows _ r hget
      have hnow := hrow row (hset (h.settled hfree _))
      refine ⟨row, hbased.other (by rw [htable]) hp hidle, fun k' v a hk' => ?_, fun hno => ?_⟩
      · cases (hup k' _ v a hk').2
        exact hnow
      · exact absurd (by rw [hp, Function.update_self]) (hno k u answer)
    · rw [if_neg hid] at hx
      obtain ⟨row, hbased, -, hset⟩ := h.rows id x hx
      refine ⟨row, hbased.other (by rw [htable]) hp hidle, fun k' v a hk' => ?_,
        fun _ => hset (h.settled hfree id)⟩
      cases (hup k' id v a hk').2
      exact absurd rfl hid
  · rw [hrituals]
    refine h.told_after hp hgrown (fun a ha => ?_) k' a hk'
    cases ha
    exact htold

/-- `create` publishes its ritual. -/
theorem Inv.inserted (h : Inv E request s) {id : Uuid} {config : RitualConfig} {topic : String}
    (hphase : s.phase k = .insert id config topic) (hfree : s.lock = none)
    (hp : s'.phase = Function.update s.phase k (.upsert id config topic))
    (hrituals : s'.server.rituals = s.server.rituals.insert ⟨id, config, .active, topic, []⟩)
    (htable : s'.server.table = s.server.table) (hn : s'.server.minted = s.server.minted) :
    Inv E request s' := by
  have hunborn := h.unborn k id config topic hphase
  have hcreating : creating (s.phase k) = some id := by rw [hphase]; rfl
  have hc : ∀ x, creating (.upsert id config topic) = some x → creating (s.phase k) = some x := by
    rintro x ⟨⟩
    exact hcreating
  have hget : ∀ x, s'.server.rituals.get x =
      if id = x then some ⟨id, config, .active, topic, []⟩ else s.server.rituals.get x :=
    fun x => by rw [hrituals, RitualMap.get_insert]
  have hsettled : ∀ x, s'.Settled x := fun x k' u a hk' =>
    h.settled hfree x k' u a (phase_back hp hk' (by simp)).2
  have hgrown : Grown s.server.rituals s'.server.rituals := by
    intro x r hr
    have hne : id ≠ x := by
      rintro rfl
      rw [hunborn] at hr
      cases hr
    exact ⟨r, by rw [hget, if_neg hne, hr], fun h => h, fun _ _ h => h⟩
  refine
    { locked := fun k' x u a hk' => ?_, minted := fun x hx => ?_, fresh := fun k' x hk' => ?_
      apart := fun k₁ k₂ x h₁ h₂ => ?_, unborn := fun k' x c t hk' => ?_
      born := fun k' x c t hk' => ?_
      rowless := fun k' x c t hk' => ?_, absent := fun x hx => ?_, rows := fun x r hr => ?_
      told := fun k' a hk' => ?_ }
  · exact absurd hk' (hsettled x k' u a)
  · rw [hn]
    by_cases hid : id = x
    · subst hid
      exact h.fresh k id hcreating
    · rw [hget, if_neg hid] at hx
      exact h.minted x hx
  · rw [hn]
    exact h.fresh k' x (creating_cases hp hc hk')
  · exact h.apart k₁ k₂ x (creating_cases hp hc h₁) (creating_cases hp hc h₂)
  · obtain ⟨hne, hk'⟩ := phase_back hp hk' (by simp)
    have hid : id ≠ x := by
      rintro rfl
      exact hne (h.apart k' k id (by rw [hk']; rfl) hcreating)
    rw [hget, if_neg hid]
    exact h.unborn k' x c t hk'
  · rw [hget]
    by_cases hid : id = x
    · simp [hid]
    · rw [if_neg hid]
      obtain ⟨-, hk'⟩ := phase_back hp hk' (by simp [hid])
      exact h.born k' x c t hk'
  · rw [htable]
    by_cases hid : id = x
    · exact hid ▸ h.absent id hunborn
    · obtain ⟨-, hk'⟩ := phase_back hp hk' (by simp [hid])
      exact h.rowless k' x c t hk'
  · rw [htable]
    by_cases hid : id = x
    · exact hid ▸ h.absent id hunborn
    · rw [hget, if_neg hid] at hx
      exact h.absent x hx
  · rw [hget] at hr
    by_cases hid : id = x
    · rw [if_pos hid] at hr
      cases hr
      subst hid
      refine ⟨RitualServer.createdRow E id config topic 0, .inr ⟨?_, k, config, topic, 0, ?_, rfl⟩,
        fun k' u a hk' => absurd hk' (hsettled id k' u a),
        fun _ => RitualServer.holds_created E id config topic 0⟩
      · rw [htable]
        exact h.absent id hunborn
      · rw [hp, Function.update_self]
    · rw [if_neg hid] at hr
      obtain ⟨row, hbased, -, hset⟩ := h.rows x r hr
      exact ⟨row, hbased.other (by rw [htable]) hp (by simp [hphase]),
        fun k' u a hk' => absurd hk' (hsettled x k' u a), fun _ => hset (h.settled hfree x)⟩
  · exact h.told_after hp hgrown (by simp [answerOf]) k' a hk'

theorem told_created (m : RitualMap) (q : RitualRequest) (id : Uuid) : Told m q (.created id) := by
  unfold Told
  split
  · rename_i he
    cases he
  · rename_i he
    cases he
  · trivial

/-- When the row was written says nothing of the ritual. -/
theorem holds_created_now {id : Uuid} {config : RitualConfig} {topic : String} {now : Int}
    {r : Ritual} (h : (RitualServer.createdRow E id config topic now).Holds E.codec r)
    (now' : Int) : (RitualServer.createdRow E id config topic now').Holds E.codec r :=
  ⟨h.name, h.state, h.topic, h.config, h.participants⟩

theorem holds_on_created_now {u : RitualUpdate} {id : Uuid} {config : RitualConfig}
    {topic : String} {now : Int} {r : Ritual}
    (h : (u.on (RitualServer.createdRow E id config topic now)).Holds E.codec r) (now' : Int) :
    (u.on (RitualServer.createdRow E id config topic now')).Holds E.codec r := by
  cases u with
  | state _ => exact ⟨h.name, h.state, h.topic, h.config, h.participants⟩
  | participants _ => exact ⟨h.name, h.state, h.topic, h.config, h.participants⟩

/-- `create` writes its row. -/
theorem Inv.upserted (h : Inv E request s) {id : Uuid} {config : RitualConfig} {topic : String}
    {now : Int} (hphase : s.phase k = .upsert id config topic)
    (hp : s'.phase = Function.update s.phase k (.done (.created id)))
    (hrituals : s'.server.rituals = s.server.rituals)
    (htable : s'.server.table =
      s.server.table.upsertRitual (RitualServer.createdRow E id config topic now))
    (hn : s'.server.minted = s.server.minted) (hlock : s'.lock = s.lock) : Inv E request s' := by
  have hcreating : creating (s.phase k) = some id := by rw [hphase]; rfl
  have hc : ∀ x, creating (.done (.created id)) = some x → creating (s.phase k) = some x := by
    simp [creating]
  have hget : ∀ x, s'.server.table.get x =
      if id = x then some (RitualServer.createdRow E id config topic now)
      else s.server.table.get x := fun x => by rw [htable]; exact RitualTable.get_upsertRitual _ _ x
  refine
    { locked := fun k' x u a hk' => ?_, minted := fun x hx => ?_, fresh := fun k' x hk' => ?_
      apart := fun k₁ k₂ x h₁ h₂ => ?_, unborn := fun k' x c t hk' => ?_
      born := fun k' x c t hk' => ?_
      rowless := fun k' x c t hk' => ?_, absent := fun x hx => ?_, rows := fun x r hr => ?_
      told := fun k' a hk' => ?_ }
  · rw [hlock]
    exact h.locked k' x u a (phase_back hp hk' (by simp)).2
  · rw [hn]
    rw [hrituals] at hx
    exact h.minted x hx
  · rw [hn]
    exact h.fresh k' x (creating_cases hp hc hk')
  · exact h.apart k₁ k₂ x (creating_cases hp hc h₁) (creating_cases hp hc h₂)
  · rw [hrituals]
    exact h.unborn k' x c t (phase_back hp hk' (by simp)).2
  · rw [hrituals]
    exact h.born k' x c t (phase_back hp hk' (by simp)).2
  · obtain ⟨hne, hk'⟩ := phase_back hp hk' (by simp)
    have hid : id ≠ x := by
      rintro rfl
      exact hne (h.apart k' k id (by rw [hk']; rfl) hcreating)
    rw [hget, if_neg hid]
    exact h.rowless k' x c t hk'
  · rw [hrituals] at hx
    have hid : id ≠ x := by
      rintro rfl
      exact h.born k id config topic hphase hx
    rw [hget, if_neg hid]
    exact h.absent x hx
  · rw [hrituals] at hr
    obtain ⟨row, hbased, hdue, hset⟩ := h.rows x r hr
    have hset' : s'.Settled x → s.Settled x := fun hno k' u a hk' =>
      hno k' u a (phase_other hp hk' (by simp [hphase]))
    by_cases hid : id = x
    · subst hid
      obtain ⟨k', c, t, now', hk', rfl⟩ : ∃ k' c t now', s.phase k' = .upsert id c t ∧
          row = RitualServer.createdRow E id c t now' := by
        rcases hbased with hrow | ⟨-, hup⟩
        · rw [h.rowless k id config topic hphase] at hrow
          cases hrow
        · exact hup
      obtain rfl := h.apart k' k id (by rw [hk']; rfl) hcreating
      rw [hphase] at hk'
      cases hk'
      refine ⟨_, .inl (by rw [hget, if_pos rfl]), fun k' u a hk' => ?_, fun hno => ?_⟩
      · exact holds_on_created_now (hdue k' u a (phase_back hp hk' (by simp)).2) now
      · exact holds_created_now (hset (hset' hno)) now
    · exact ⟨row, hbased.other (by rw [hget, if_neg hid]) hp (by simp [hphase, hid]),
        fun k' u a hk' => hdue k' u a (phase_back hp hk' (by simp)).2,
        fun hno => hset (hset' hno)⟩
  · rw [hrituals]
    refine h.told_after hp (Grown.refl _) (fun a ha => ?_) k' a hk'
    cases ha
    exact told_created _ _ _

/-- An `UPDATE` that finds its row. -/
theorem Inv.updated (h : Inv E request s) {id : Uuid} {u : RitualUpdate} {answer : Answer}
    {now : Int} (hphase : s.phase k = .update id u answer)
    (hthere : s.server.table.get id ≠ none)
    (hp : s'.phase = Function.update s.phase k (.done answer))
    (hrituals : s'.server.rituals = s.server.rituals)
    (htable : s'.server.table = u.apply s.server.table id now)
    (hn : s'.server.minted = s.server.minted) : Inv E request s' := by
  obtain ⟨row, hrow⟩ := Option.ne_none_iff_exists'.mp hthere
  have hc : ∀ x, creating (.done answer) = some x → creating (s.phase k) = some x := by
    simp [creating]
  have hget : ∀ x, s'.server.table.get x =
      if id = x then some { u.on row with updatedAtMs := now } else s.server.table.get x :=
    fun x => by rw [htable]; exact RitualUpdate.get_apply hrow now u x
  have hother : ∀ x, s.server.table.get x = none → s'.server.table.get x = none := by
    intro x hx
    have hid : id ≠ x := by
      rintro rfl
      exact hthere hx
    rw [hget, if_neg hid, hx]
  have hsettled : ∀ x, s'.Settled x := by
    intro x k' v a hk'
    obtain ⟨hne, hk'⟩ := phase_back hp hk' (by simp)
    have hboth := (h.locked k' x v a hk').symm.trans (h.locked k id u answer hphase)
    exact hne (Option.some.inj hboth)
  refine
    { locked := fun k' x v a hk' => ?_, minted := fun x hx => ?_, fresh := fun k' x hk' => ?_
      apart := fun k₁ k₂ x h₁ h₂ => ?_, unborn := fun k' x c t hk' => ?_
      born := fun k' x c t hk' => ?_
      rowless := fun k' x c t hk' => ?_, absent := fun x hx => ?_, rows := fun x r hr => ?_
      told := fun k' a hk' => ?_ }
  · exact absurd hk' (hsettled x k' v a)
  · rw [hn]
    rw [hrituals] at hx
    exact h.minted x hx
  · rw [hn]
    exact h.fresh k' x (creating_cases hp hc hk')
  · exact h.apart k₁ k₂ x (creating_cases hp hc h₁) (creating_cases hp hc h₂)
  · rw [hrituals]
    exact h.unborn k' x c t (phase_back hp hk' (by simp)).2
  · rw [hrituals]
    exact h.born k' x c t (phase_back hp hk' (by simp)).2
  · exact hother x (h.rowless k' x c t (phase_back hp hk' (by simp)).2)
  · rw [hrituals] at hx
    exact hother x (h.absent x hx)
  · rw [hrituals] at hr
    obtain ⟨base, hbased, hdue, hset⟩ := h.rows x r hr
    by_cases hid : id = x
    · subst hid
      have hbase : base = row := by
        rcases hbased with hb | ⟨hb, -⟩
        · rw [hrow] at hb
          cases hb
          rfl
        · exact absurd hb hthere
      subst hbase
      have hh := hdue k u answer hphase
      exact ⟨{ u.on base with updatedAtMs := now }, .inl (by rw [hget, if_pos rfl]),
        fun k' v a hk' => absurd hk' (hsettled id k' v a),
        fun _ => ⟨hh.name, hh.state, hh.topic, hh.config, hh.participants⟩⟩
    · refine ⟨base, hbased.other (by rw [hget, if_neg hid]) hp (by simp [hphase]),
        fun k' v a hk' => absurd hk' (hsettled x k' v a), fun _ => hset fun k' v a hk' => ?_⟩
      have hboth := (h.locked k' x v a hk').symm.trans (h.locked k id u answer hphase)
      cases Option.some.inj hboth
      rw [hphase] at hk'
      cases hk'
      exact hid rfl
  · rw [hrituals]
    refine h.told_after hp (Grown.refl _) (fun a ha => ?_) k' a hk'
    cases ha
    exact h.told k answer (by rw [hphase]; rfl)

/-- The step lemma. -/
theorem Inv.step (h : Inv E request s) {x : κ × Int} (hthere : s.RowThere x) :
    Inv E request (step E request s x) := by
  generalize hs' : RitualRace.step E request s x = s'
  have hmove : Move E request s x s' := hs' ▸ step_move s x
  cases hmove with
  | stay => exact h
  | answered answer n hphase hn htold =>
    refine h.idle hphase rfl rfl rfl hn rfl (by simp) (by simp) (by simp [creating]) ?_
    rintro a ⟨⟩
    exact htold
  | listed rituals hphase =>
    exact h.idle hphase rfl rfl rfl le_rfl rfl (by simp) (by simp) (by simp [creating])
      (by simp [answerOf])
  | minted config topic hphase =>
    refine h.idle hphase rfl rfl rfl (Nat.le_succ _) rfl (by simp) (by simp) ?_ (by simp [answerOf])
    rintro id ⟨⟩
    exact ⟨rfl, Nat.lt_succ_self _⟩
  | changed r r' u answer n hphase hlock hget hn hrow hgrown htold =>
    exact h.changed hphase hlock rfl rfl rfl hn rfl hget hrow hgrown htold
  | inserted id config topic hphase hlock => exact h.inserted hphase hlock rfl rfl rfl rfl
  | upserted id config topic hphase => exact h.upserted hphase rfl rfl rfl rfl rfl
  | updated id u answer hphase => exact h.updated hphase (hthere id u answer hphase) rfl rfl rfl rfl

omit [DecidableEq κ] in
theorem inv_start {server : RitualServer} {hist : List (RitualServer.Op × Answer)}
    (hm : RitualServer.Mirrors E.codec server.rituals server.table)
    (hl : RitualServer.Ledger E server.book hist) :
    Inv E request (start server : RitualRace κ) := by
  refine
    { locked := by simp [start], minted := fun id hid => ?_, fresh := by simp [start, creating]
      apart := by simp [start, creating], unborn := by simp [start], born := by simp [start]
      rowless := by simp [start], absent := fun id hid => ?_, rows := fun id r hr => ?_
      told := by simp [start, answerOf] }
  · refine hl.minted id ?_
    obtain ⟨r, hr⟩ := Option.ne_none_iff_exists'.mp hid
    rw [RitualServer.record_of_get (s := server) hr]
    simp
  · rcases hm id with ⟨-, hno⟩ | ⟨r, _, hr, -⟩
    · exact hno
    · rw [show server.rituals.get id = none from hid] at hr
      cases hr
  · obtain ⟨row, hrow, hh⟩ := hm.row hr
    exact ⟨row, .inl hrow, by simp [start], fun _ => hh⟩

/-- A call has begun and not ended. -/
def InProgress : RitualPhase → Bool
  | .insert _ _ _ => true
  | .upsert _ _ _ => true
  | .update _ _ _ => true
  | _ => false

def Quiet (s : RitualRace κ) : Prop := ∀ k, InProgress (s.phase k) = false

omit [DecidableEq κ] in
theorem Inv.mirrors (h : Inv E request s) (hq : s.Quiet) :
    RitualServer.Mirrors E.codec s.server.rituals s.server.table := by
  intro id
  have hsettled : s.Settled id := fun k u a hk => by
    have hk' := hq k
    rw [hk] at hk'
    cases hk'
  cases hr : s.server.rituals.get id with
  | none => exact .inl ⟨rfl, h.absent id hr⟩
  | some r =>
    obtain ⟨row, hbased, -, hset⟩ := h.rows id r hr
    rcases hbased with hrow | ⟨-, k, c, t, now, hk, -⟩
    · exact .inr ⟨r, row, rfl, hrow, hset hsettled⟩
    · have hk' := hq k
      rw [hk] at hk'
      cases hk'

/-- Memory and store agree, and what callers were told holds after a restart: a ritual is
still terminated, a participant key still has its performance id. -/
structure Agreed (E : RitualEnv) (request : κ → RitualRequest) (s : RitualRace κ) : Prop where
  mirrors : RitualServer.Mirrors E.codec s.server.rituals s.server.table
  restored : (s.server.restart E).2.rituals.record = s.server.rituals.record
  terminated : ∀ k id, request k = .terminate id → s.phase k = .done .terminated →
    (s.server.restart E).2.getStatus id = some .terminated
  rejoined : ∀ k id key handle now, request k = .join id (some key) →
    s.phase k = .done (.joined handle) → (s.server.restart E).2.getStatus id = some .active →
    ∃ handle', ((s.server.restart E).2.join E id (some key) now).1 = .ok handle' ∧
      handle'.performanceId = handle.performanceId

omit [DecidableEq κ] in
theorem Agreed.status (h : Agreed E request s) (id : Uuid) :
    (s.server.restart E).2.getStatus id = s.server.getStatus id := by
  rw [RitualServer.getStatus_eq, RitualServer.getStatus_eq]
  exact congrArg (Option.map (·.state)) (congrFun h.restored id)

/-- A join of an active ritual under a key that has its performance id. -/
theorem join_of_performance (E : RitualEnv) {server : RitualServer} {id p : Uuid} {key : String}
    (hact : server.getStatus id = some .active) (hp : server.book.performance (id, key) = some p)
    (now : Int) : ∃ handle, (server.join E id (some key) now).1 = .ok handle ∧
      handle.performanceId = p := by
  obtain ⟨r, hget, hr⟩ := Option.map_eq_some_iff.mp hact
  have hkey : Fields.get key r.participants = some p := by
    simpa [RitualBook.performance, RitualServer.record_of_get hget, Ritual.record] using hp
  rcases RitualServer.join_active E hget hr (some key) now with
    ⟨hno, -⟩ | ⟨k, p', hk, hp', he⟩ | ⟨k, hk, hp', -⟩
  · cases hno
  · cases hk
    rw [hkey] at hp'
    cases hp'
    exact ⟨_, by rw [he], rfl⟩
  · cases hk
    rw [hkey] at hp'
    cases hp'

omit [DecidableEq κ] in
theorem Inv.agreed (h : Inv E request s) (hq : s.Quiet) : Agreed E request s := by
  have hmirrors := h.mirrors hq
  have hbook := hmirrors.restart.1
  refine ⟨hmirrors, congrArg RitualBook.record hbook, fun k id hreq hk => ?_,
    fun k id key handle now hreq hk hact => ?_⟩
  · obtain ⟨r, hr, hstate⟩ : ∃ r, s.server.rituals.get id = some r ∧ r.state = .terminated := by
      have htold := h.told k .terminated (by rw [hk]; rfl)
      rw [hreq] at htold
      exact htold
    rw [RitualServer.getStatus_eq, hbook, RitualServer.record_of_get hr, Option.map_some]
    exact congrArg some hstate
  · obtain ⟨r, hr, hkey⟩ : ∃ r, s.server.rituals.get id = some r ∧
        Fields.get key r.participants = some handle.performanceId := by
      have htold := h.told k (.joined handle) (by rw [hk]; rfl)
      rw [hreq] at htold
      exact htold
    refine join_of_performance E hact ?_ now
    rw [hbook, RitualBook.performance, RitualServer.record_of_get hr]
    exact hkey

/-- From any state that calls and restarts one after the other have led to: in every run of
concurrent calls in which no `UPDATE` comes before the row it updates, memory and store agree
whenever no call is in progress. -/
theorem concurrent_calls_agree (E : RitualEnv) (ops : List RitualServer.Op)
    (request : κ → RitualRequest) (schedule : List (κ × Int)) :
    let s₀ := start (run (RitualServer.step E) RitualServer.new ops)
    (∀ v ∈ visits (step E request) s₀ schedule, v.1.RowThere v.2) →
      (run (step E request) s₀ schedule).Quiet →
        Agreed E request (run (step E request) s₀ schedule) := by
  intro s₀ hthere hq
  obtain ⟨hmirrors, hledger⟩ := RitualServer.run_ledger E ops
  refine Inv.agreed ?_ hq
  exact run_invariant (fun s x hx h => h.step hx) hthere (inv_start hmirrors hledger)

/-- A registry of the domain `dis.test` that mints 0, 1, 2, and so on. -/
def testEnv : RitualEnv where
  disDomain := "dis.test"
  codec := .json
  uuid n := ⟨n⟩
  uuidNew _ _ h := Uuid.mk.inj h
  loadOrder := OrderBy.stable _

/-- A `create`, a caller that lists, and two that use the id it has listed. -/
def testRequest : Fin 4 → RitualRequest
  | 0 => .create ⟨"rite", []⟩ none
  | 1 => .listActive
  | 2 => .join ⟨0⟩ (some "node")
  | 3 => .terminate ⟨0⟩

/-- The four calls on a new registry, in some order. -/
def testRun (schedule : List (Fin 4 × Int)) : RitualRace (Fin 4) :=
  run (step testEnv testRequest)
    (start (run (RitualServer.step testEnv) RitualServer.new [])) schedule

theorem concurrent_calls_agree_four : Agreed testEnv testRequest
    (testRun [(0, 1), (0, 2), (1, 3), (2, 4), (0, 5), (2, 6), (3, 7), (3, 8)]) := by
  have hthere : ∀ v ∈ visits (step testEnv testRequest)
      (start (run (RitualServer.step testEnv) RitualServer.new []))
      [(0, 1), (0, 2), (1, 3), (2, 4), (0, 5), (2, 6), (3, 7), (3, 8)],
      v.1.rowThere v.2 = true := by decide +kernel
  have hquiet : (testRun
      [(0, 1), (0, 2), (1, 3), (2, 4), (0, 5), (2, 6), (3, 7), (3, 8)]).Quiet := by
    unfold Quiet
    decide +kernel
  unfold testRun at hquiet ⊢
  exact concurrent_calls_agree testEnv [] testRequest _
    (fun v hv => rowThere_iff.mp (hthere v hv)) hquiet

/-- The ritual is listed, joined and terminated before its row is written: the row then says
that it is active and has no participants. -/
theorem update_before_row_lost :
    let s := testRun [(0, 1), (0, 2), (1, 3), (2, 4), (2, 5), (3, 6), (3, 7), (0, 8)]
    s.Quiet ∧ s.server.getStatus ⟨0⟩ = some .terminated ∧
      (s.server.restart testEnv).2.getStatus ⟨0⟩ = some .active ∧
      s.server.book.performance (⟨0⟩, "node") = some ⟨1⟩ ∧
      (s.server.restart testEnv).2.book.performance (⟨0⟩, "node") = none ∧
      ¬Agreed testEnv testRequest s := by
  have hquiet :
      (testRun [(0, 1), (0, 2), (1, 3), (2, 4), (2, 5), (3, 6), (3, 7), (0, 8)]).Quiet := by
    unfold Quiet
    decide +kernel
  have hbefore : (testRun
      [(0, 1), (0, 2), (1, 3), (2, 4), (2, 5), (3, 6), (3, 7), (0, 8)]).server.getStatus ⟨0⟩ =
        some .terminated := by decide +kernel
  have hafter : ((testRun
      [(0, 1), (0, 2), (1, 3), (2, 4), (2, 5), (3, 6), (3, 7), (0, 8)]).server.restart
        testEnv).2.getStatus ⟨0⟩ = some .active := by decide +kernel
  refine ⟨hquiet, hbefore, hafter, by decide +kernel, by decide +kernel, fun h => ?_⟩
  rw [h.status, hbefore] at hafter
  cases hafter

end RitualRace

end Cerebellum
