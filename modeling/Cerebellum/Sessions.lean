import Cerebellum.Lib.Keyed
import Cerebellum.Lib.Transition
import Mathlib.Logic.Function.Basic

/-! `SessionManager`: the sessions of all users, the engine of each of them, and the limits on
their number, called one operation after the other. -/
namespace Cerebellum
open Transition

abbrev SessionId := String

structure ResourceUsage where
  facts : Nat := 0
  rules : Nat := 0
  objects : Nat := 0
  memoryBytes : Nat := 0
  deriving DecidableEq

structure ResourceLimits where
  maxFacts : Nat := 1000
  maxRules : Nat := 500
  maxMemoryMb : Nat := 128
  deriving DecidableEq

inductive SessionType where
  | clips
  | prolog
  deriving DecidableEq, Repr

def SessionType.display : SessionType → String
  | clips => "clips"
  | prolog => "prolog"

inductive SessionStatus where
  | active
  | initializing
  | idle
  | evaluating
  | paused
  | suspended
  | terminated
  deriving DecidableEq, Repr

structure SessionStats where
  rulesFiredTotal : Nat := 0
  evaluationsTotal : Nat := 0
  lastActivity : Nat
  deriving DecidableEq

structure Session where
  sessionId : SessionId
  userId : String
  name : Option String
  sessionType : SessionType
  createdAt : Nat
  touchedAt : Nat
  status : SessionStatus
  resources : ResourceUsage
  limits : ResourceLimits
  stats : SessionStats
  metadata : List (String × String)
  loadedFiles : List String
  deriving DecidableEq

namespace Session

/-- The clock is read for the session and once more for its statistics. -/
def newTypedWithName (sessionId : SessionId) (userId : String) (sessionType : SessionType)
    (name : Option String) (limits : Option ResourceLimits) (now statsNow : Nat) : Session :=
  { sessionId, userId, name, sessionType
    createdAt := now
    touchedAt := now
    status := .initializing
    resources := {}
    limits := limits.getD {}
    stats := { lastActivity := statsNow }
    metadata := []
    loadedFiles := [] }

def touch (s : Session) (now : Nat) : Session :=
  { s with touchedAt := now, stats := { s.stats with lastActivity := now } }

def activate (s : Session) (now : Nat) : Session := { s with status := .active }.touch now

def terminate (s : Session) (now : Nat) : Session := { s with status := .terminated }.touch now

/-- Is the session not terminated? -/
def live (s : Session) : Bool := s.status != .terminated

@[simp] theorem touch_sessionId (s : Session) (now : Nat) :
    (s.touch now).sessionId = s.sessionId := rfl
@[simp] theorem touch_userId (s : Session) (now : Nat) : (s.touch now).userId = s.userId := rfl
@[simp] theorem touch_sessionType (s : Session) (now : Nat) :
    (s.touch now).sessionType = s.sessionType := rfl
@[simp] theorem touch_live (s : Session) (now : Nat) : (s.touch now).live = s.live := rfl
@[simp] theorem activate_sessionId (s : Session) (now : Nat) :
    (s.activate now).sessionId = s.sessionId := rfl
@[simp] theorem activate_userId (s : Session) (now : Nat) :
    (s.activate now).userId = s.userId := rfl
@[simp] theorem activate_sessionType (s : Session) (now : Nat) :
    (s.activate now).sessionType = s.sessionType := rfl
@[simp] theorem activate_live (s : Session) (now : Nat) : (s.activate now).live = true := rfl
@[simp] theorem terminate_sessionId (s : Session) (now : Nat) :
    (s.terminate now).sessionId = s.sessionId := rfl
@[simp] theorem terminate_userId (s : Session) (now : Nat) :
    (s.terminate now).userId = s.userId := rfl
@[simp] theorem terminate_sessionType (s : Session) (now : Nat) :
    (s.terminate now).sessionType = s.sessionType := rfl
@[simp] theorem terminate_live (s : Session) (now : Nat) : (s.terminate now).live = false := rfl

end Session

inductive StoreError where
  | notFound (id : SessionId)
  | alreadyExists (id : SessionId)
  | invalidState
  deriving DecidableEq

inductive ManagerError where
  | store (e : StoreError)
  | userSessionLimitExceeded
  | globalSessionLimitExceeded
  | sessionTerminated
  | sessionNotFound
  | wrongSessionType (expected actual : String)
  | environmentError (text : String)
  | prologError (text : String)
  deriving DecidableEq

/-- The map of sessions; a session is its own key. -/
structure SessionStore where
  sessions : List Session
  keys : (sessions.map Session.sessionId).Nodup

namespace SessionStore

def new : SessionStore := ⟨[], List.nodup_nil⟩

/-- The session under an id. -/
def find (t : SessionStore) (id : SessionId) : Option Session :=
  Keyed.find Session.sessionId t.sessions id

/-- `HashMap::insert`. -/
def put (t : SessionStore) (s : Session) : SessionStore where
  sessions := Keyed.upsert Session.sessionId Keyed.overwrite t.sessions s
  keys := Keyed.nodup_upsert (fun _ _ h => h.symm) t.keys s

def insert (t : SessionStore) (s : Session) : Except StoreError SessionStore :=
  if (t.find s.sessionId).isSome then .error (.alreadyExists s.sessionId) else .ok (t.put s)

def get (t : SessionStore) (id : SessionId) : Except StoreError Session :=
  match t.find id with
  | some s => .ok s
  | none => .error (.notFound id)

def update (t : SessionStore) (s : Session) : Except StoreError SessionStore :=
  if (t.find s.sessionId).isSome then .ok (t.put s) else .error (.notFound s.sessionId)

def getUserSessions (t : SessionStore) (userId : String) : List SessionId :=
  (t.sessions.filter fun s => s.userId == userId).map Session.sessionId

/-- `sessions.len()`. -/
def countActive (t : SessionStore) : Nat := t.sessions.length

def countUserSessions (t : SessionStore) (userId : String) : Nat :=
  t.sessions.countP fun s => s.userId == userId

/-- Is a session of this type stored under the id and not terminated? -/
def holdsLive (t : SessionStore) (sessionType : SessionType) (id : SessionId) : Bool :=
  (t.find id).any fun s => s.sessionType == sessionType && s.live

theorem find_put (t : SessionStore) (s : Session) (id : SessionId) :
    (t.put s).find id = if s.sessionId = id then some s else t.find id :=
  Keyed.find_overwrite t.sessions s id

theorem holdsLive_put (t : SessionStore) (s : Session) (sessionType : SessionType)
    (id : SessionId) : (t.put s).holdsLive sessionType id =
      if s.sessionId = id then s.sessionType == sessionType && s.live
      else t.holdsLive sessionType id := by
  unfold holdsLive
  rw [find_put]
  split <;> rfl

theorem holdsLive_of_find {t : SessionStore} {id : SessionId} {s : Session}
    (h : t.find id = some s) (sessionType : SessionType) :
    t.holdsLive sessionType id = (s.sessionType == sessionType && s.live) := by
  unfold holdsLive
  rw [h]
  rfl

theorem holdsLive_of_none {t : SessionStore} {id : SessionId} (h : t.find id = none)
    (sessionType : SessionType) : t.holdsLive sessionType id = false := by
  rw [holdsLive, h]
  rfl

theorem find_put_self (t : SessionStore) (s : Session) : (t.put s).find s.sessionId = some s := by
  rw [find_put, if_pos rfl]

theorem insert_ok {t t' : SessionStore} {s : Session} (h : t.insert s = .ok t') :
    t.find s.sessionId = none ∧ t' = t.put s := by
  unfold insert at h
  cases hfind : t.find s.sessionId with
  | none =>
    rw [hfind] at h
    exact ⟨rfl, (Except.ok.inj h).symm⟩
  | some s' =>
    rw [hfind] at h
    cases h

theorem update_ok {t : SessionStore} {s s' : Session} (h : t.find s.sessionId = some s') :
    t.update s = .ok (t.put s) := by
  rw [update, h]
  rfl

theorem get_ok {t : SessionStore} {id : SessionId} {s : Session} (h : t.get id = .ok s) :
    t.find id = some s := by
  unfold get at h
  cases hfind : t.find id with
  | none =>
    rw [hfind] at h
    cases h
  | some s' =>
    rw [hfind] at h
    rw [Except.ok.inj h]

theorem put_of_none {t : SessionStore} {s : Session} (h : t.find s.sessionId = none) :
    (t.put s).sessions = t.sessions ++ [s] := if_neg (Keyed.find_eq_none_iff.mp h)

theorem put_of_some {t : SessionStore} {s s₀ : Session} (h : t.find s.sessionId = some s₀) :
    (t.put s).sessions = t.sessions.map fun r => if r.sessionId = s.sessionId then s else r := by
  obtain ⟨hmem, hid⟩ := Keyed.mem_of_find h
  exact if_pos (hid ▸ List.mem_map_of_mem hmem)

/-- A new session is counted, for its user and for all. -/
theorem count_put_of_none {t : SessionStore} {s : Session} (h : t.find s.sessionId = none) :
    (t.put s).countActive = t.countActive + 1 ∧ ∀ userId, (t.put s).countUserSessions userId =
      t.countUserSessions userId + (s.userId == userId).toNat := by
  unfold countActive countUserSessions
  rw [put_of_none h]
  refine ⟨by simp, fun userId => ?_⟩
  rw [List.countP_append, List.countP_singleton]
  cases s.userId == userId <;> rfl

/-- A session that is written over is not counted twice. -/
theorem count_put_of_some {t : SessionStore} {s s₀ : Session} (h : t.find s.sessionId = some s₀)
    (huser : s₀.userId = s.userId) :
    (t.put s).countActive = t.countActive ∧
      ∀ userId, (t.put s).countUserSessions userId = t.countUserSessions userId := by
  unfold countActive countUserSessions
  rw [put_of_some h]
  refine ⟨List.length_map _, fun userId => ?_⟩
  rw [List.countP_map]
  refine List.countP_congr fun r hr => ?_
  by_cases hid : r.sessionId = s.sessionId
  · have hsame : t.find s.sessionId = some r :=
      (Keyed.find_eq_some_iff t.keys).mpr ⟨hr, hid⟩
    rw [h] at hsame
    cases hsame
    simp [hid, huser]
  · simp [hid]

theorem sessionId_of_find {t : SessionStore} {id : SessionId} {s : Session}
    (h : t.find id = some s) : s.sessionId = id := (Keyed.mem_of_find h).2

end SessionStore

structure ManagerConfig where
  maxConcurrentSessions : Nat := 100
  maxSessionsPerUser : Nat := 10

/-- `C` and `P` are the environments of the two engines. -/
structure SessionManager (C P : Type) where
  store : SessionStore
  config : ManagerConfig
  clipsEnvs : SessionId → Option C
  prologEnvs : SessionId → Option P

/-- A call of one of the creators. It reads the id it makes up, the clock three times, and what
the engine's constructor gives back. -/
structure CreateCall (Env : Type) where
  userId : String
  name : Option String
  limits : Option ResourceLimits
  sessionId : SessionId
  now : Nat
  statsNow : Nat
  activatedAt : Nat
  engine : Option Env

/-- The session a creator inserts. -/
def CreateCall.session {Env : Type} (c : CreateCall Env) (sessionType : SessionType) : Session :=
  Session.newTypedWithName c.sessionId c.userId sessionType c.name c.limits c.now c.statsNow

namespace SessionManager
variable {C P : Type}

def new (config : ManagerConfig) : SessionManager C P :=
  ⟨SessionStore.new, config, fun _ => none, fun _ => none⟩

def insertClipsEnv (m : SessionManager C P) (id : SessionId) (env : C) : SessionManager C P :=
  { m with clipsEnvs := Function.update m.clipsEnvs id (some env) }

def insertPrologEnv (m : SessionManager C P) (id : SessionId) (env : P) : SessionManager C P :=
  { m with prologEnvs := Function.update m.prologEnvs id (some env) }

/-- What the two creators share: they differ in the type of the session and in the map that
takes the environment. -/
def createWith {Env : Type} (sessionType : SessionType)
    (insertEnv : SessionManager C P → SessionId → Env → SessionManager C P)
    (m : SessionManager C P) (c : CreateCall Env) :
    Except ManagerError Session × SessionManager C P :=
  if m.config.maxConcurrentSessions ≤ m.store.countActive then
    (.error .globalSessionLimitExceeded, m)
  else if m.config.maxSessionsPerUser ≤ m.store.countUserSessions c.userId then
    (.error .userSessionLimitExceeded, m)
  else
    match c.engine with
    | none => (.error (.store .invalidState), m)
    | some env =>
      let session := c.session sessionType
      match m.store.insert session with
      | .error e => (.error (.store e), m)
      | .ok store =>
        let m := insertEnv { m with store } session.sessionId env
        let session := session.activate c.activatedAt
        match m.store.update session with
        | .error e => (.error (.store e), m)
        | .ok store => (.ok session, { m with store })

def createSessionWithName (m : SessionManager C P) (c : CreateCall C) :
    Except ManagerError Session × SessionManager C P := m.createWith .clips insertClipsEnv c

def createPrologSessionWithName (m : SessionManager C P) (c : CreateCall P) :
    Except ManagerError Session × SessionManager C P := m.createWith .prolog insertPrologEnv c

/-- Write a session back, and answer with `ok`. -/
def writeBack {α : Type} (m : SessionManager C P) (s : Session) (ok : α) :
    Except ManagerError α × SessionManager C P :=
  match m.store.update s with
  | .error e => (.error (.store e), m)
  | .ok store => (.ok ok, { m with store })

/-- Read a session, refuse a terminated one, and write what `g` makes of it. -/
def rewrite (m : SessionManager C P) (id : SessionId) (g : Session → Session) :
    Except ManagerError Unit × SessionManager C P :=
  match m.store.get id with
  | .error e => (.error (.store e), m)
  | .ok s =>
    if s.status = .terminated then (.error .sessionTerminated, m) else m.writeBack (g s) ()

def saveSession (m : SessionManager C P) (id : SessionId) :
    Except ManagerError Unit × SessionManager C P := m.rewrite id fun s => s

def touchSession (m : SessionManager C P) (id : SessionId) (now : Nat) :
    Except ManagerError Unit × SessionManager C P := m.rewrite id fun s => s.touch now

def getSession (m : SessionManager C P) (id : SessionId) : Except ManagerError Session :=
  match m.store.get id with
  | .error e => .error (.store e)
  | .ok s => if s.status = .terminated then .error .sessionTerminated else .ok s

def updateSession (m : SessionManager C P) (s : Session) :
    Except ManagerError Unit × SessionManager C P :=
  if s.status = .terminated then (.error .sessionTerminated, m) else m.writeBack s ()

def removeClipsEnv (m : SessionManager C P) (id : SessionId) : SessionManager C P :=
  { m with clipsEnvs := Function.update m.clipsEnvs id none }

def removePrologEnv (m : SessionManager C P) (id : SessionId) : SessionManager C P :=
  { m with prologEnvs := Function.update m.prologEnvs id none }

/-- The type of the session is not looked at. -/
def terminateSession (m : SessionManager C P) (id : SessionId) (now : Nat) :
    Except ManagerError Session × SessionManager C P :=
  match m.store.get id with
  | .error e => (.error (.store e), m)
  | .ok s =>
    match m.store.update (s.terminate now) with
    | .error e => (.error (.store e), m)
    | .ok store => (.ok (s.terminate now), { m with store }.removeClipsEnv id)

def terminatePrologSession (m : SessionManager C P) (id : SessionId) (now : Nat) :
    Except ManagerError Session × SessionManager C P :=
  match m.store.get id with
  | .error e => (.error (.store e), m)
  | .ok s =>
    if s.sessionType ≠ .prolog then
      (.error (.wrongSessionType "prolog" s.sessionType.display), m)
    else
      match m.store.update (s.terminate now) with
      | .error e => (.error (.store e), m)
      | .ok store => (.ok (s.terminate now), { m with store }.removePrologEnv id)

/-- The closure may change the environment it is given. -/
def withClipsEnv {R : Type} (m : SessionManager C P) (id : SessionId)
    (f : C → Except String R × C) : Except ManagerError R × SessionManager C P :=
  match m.clipsEnvs id with
  | none => (.error .sessionNotFound, m)
  | some env => ((f env).1.mapError .environmentError, m.insertClipsEnv id (f env).2)

def withPrologEnv {R : Type} (m : SessionManager C P) (id : SessionId)
    (f : P → Except String R × P) : Except ManagerError R × SessionManager C P :=
  match m.prologEnvs id with
  | none => (.error .sessionNotFound, m)
  | some env => ((f env).1.mapError .prologError, m.insertPrologEnv id (f env).2)

/-- The filter that the limits do not apply. -/
def countUserActiveSessions (m : SessionManager C P) (userId : String) : Nat :=
  ((m.store.getUserSessions userId).filterMap m.store.find).countP Session.live

inductive Op (C P : Type) where
  | createSession (c : CreateCall C)
  | createPrologSession (c : CreateCall P)
  | saveSession (id : SessionId)
  | touchSession (id : SessionId) (now : Nat)
  | terminateSession (id : SessionId) (now : Nat)
  | terminatePrologSession (id : SessionId) (now : Nat)

def step (m : SessionManager C P) : Op C P → SessionManager C P
  | .createSession c => (m.createSessionWithName c).2
  | .createPrologSession c => (m.createPrologSessionWithName c).2
  | .saveSession id => (m.saveSession id).2
  | .touchSession id now => (m.touchSession id now).2
  | .terminateSession id now => (m.terminateSession id now).2
  | .terminatePrologSession id now => (m.terminatePrologSession id now).2

/-- The limits as the code checks them. -/
def globalFull (m : SessionManager C P) : Prop :=
  m.config.maxConcurrentSessions ≤ m.store.countActive

def userFull (m : SessionManager C P) (userId : String) : Prop :=
  m.config.maxSessionsPerUser ≤ m.store.countUserSessions userId

/-- A creator is refused, fails, or leaves an activated session with its environment. -/
theorem createWith_cases {Env : Type} (t : SessionType)
    (insertEnv : SessionManager C P → SessionId → Env → SessionManager C P)
    (hstore : ∀ m id env, (insertEnv m id env).store = m.store) (m : SessionManager C P)
    (c : CreateCall Env) :
    (m.globalFull ∧ m.createWith t insertEnv c = (.error .globalSessionLimitExceeded, m)) ∨
    (¬ m.globalFull ∧ m.userFull c.userId ∧
      m.createWith t insertEnv c = (.error .userSessionLimitExceeded, m)) ∨
    (¬ m.globalFull ∧ ¬ m.userFull c.userId ∧ c.engine = none ∧
      m.createWith t insertEnv c = (.error (.store .invalidState), m)) ∨
    (¬ m.globalFull ∧ ¬ m.userFull c.userId ∧ c.engine ≠ none ∧
      ∃ e, m.store.insert (c.session t) = .error e ∧
        m.createWith t insertEnv c = (.error (.store e), m)) ∨
    (¬ m.globalFull ∧ ¬ m.userFull c.userId ∧ m.store.find c.sessionId = none ∧
      ∃ env, c.engine = some env ∧
        m.createWith t insertEnv c = (.ok ((c.session t).activate c.activatedAt),
          { insertEnv { m with store := m.store.put (c.session t) } c.sessionId env with
            store := (m.store.put (c.session t)).put ((c.session t).activate c.activatedAt) })) := by
  by_cases hglobal : m.globalFull
  · exact .inl ⟨hglobal, if_pos hglobal⟩
  by_cases huser : m.userFull c.userId
  · exact .inr (.inl ⟨hglobal, huser, (if_neg hglobal).trans (if_pos huser)⟩)
  refine .inr (.inr ?_)
  have hg : ¬ m.config.maxConcurrentSessions ≤ m.store.countActive := hglobal
  have hu : ¬ m.config.maxSessionsPerUser ≤ m.store.countUserSessions c.userId := huser
  cases hengine : c.engine with
  | none =>
    exact .inl ⟨hglobal, huser, rfl, by simp only [createWith, hg, hu, hengine, if_false]⟩
  | some env =>
    refine .inr ?_
    cases hinsert : m.store.insert (c.session t) with
    | error e =>
      exact .inl ⟨hglobal, huser, by simp, e, rfl, by
        simp only [createWith, hg, hu, hengine, hinsert, if_false]⟩
    | ok store =>
      obtain ⟨hfind, rfl⟩ := SessionStore.insert_ok hinsert
      have hupdate : (m.store.put (c.session t)).update ((c.session t).activate c.activatedAt) =
          .ok ((m.store.put (c.session t)).put ((c.session t).activate c.activatedAt)) :=
        SessionStore.update_ok (SessionStore.find_put_self ..)
      refine .inr ⟨hglobal, huser, hfind, env, rfl, ?_⟩
      simp only [createWith, hg, hu, hengine, hinsert, if_false, hstore, hupdate]
      rfl

/-- Everything one call can do to the sessions and the environments. -/
inductive Move (m : SessionManager C P) : Op C P → SessionManager C P → Prop
  | same (op : Op C P) : Move m op m
  | created (c : CreateCall C) (env : C) (hnew : m.store.find c.sessionId = none) :
    Move m (.createSession c) { m.insertClipsEnv c.sessionId env with
      store := (m.store.put (c.session .clips)).put ((c.session .clips).activate c.activatedAt) }
  | createdProlog (c : CreateCall P) (env : P) (hnew : m.store.find c.sessionId = none) :
    Move m (.createPrologSession c) { m.insertPrologEnv c.sessionId env with
      store := (m.store.put (c.session .prolog)).put ((c.session .prolog).activate c.activatedAt) }
  | rewritten (op : Op C P) (s s' : Session) (hfind : m.store.find s.sessionId = some s)
      (hid : s'.sessionId = s.sessionId) (htype : s'.sessionType = s.sessionType)
      (hlive : s'.live = s.live) :
    Move m op { m with store := m.store.put s' }
  | terminated (s : Session) (now : Nat) (hfind : m.store.find s.sessionId = some s) :
    Move m (.terminateSession s.sessionId now)
      ({ m with store := m.store.put (s.terminate now) }.removeClipsEnv s.sessionId)
  | terminatedProlog (s : Session) (now : Nat) (hfind : m.store.find s.sessionId = some s)
      (htype : s.sessionType = .prolog) :
    Move m (.terminatePrologSession s.sessionId now)
      ({ m with store := m.store.put (s.terminate now) }.removePrologEnv s.sessionId)

theorem writeBack_eq {α : Type} {m : SessionManager C P} {s s' : Session} (ok : α)
    (h : m.store.find s.sessionId = some s') :
    m.writeBack s ok = (.ok ok, { m with store := m.store.put s }) := by
  rw [writeBack, SessionStore.update_ok h]

theorem rewrite_cases (m : SessionManager C P) (id : SessionId) {g : Session → Session}
    (hg : ∀ s, (g s).sessionId = s.sessionId) :
    (∃ e, m.rewrite id g = (.error e, m)) ∨
    ∃ s, m.store.find id = some s ∧ s.live = true ∧
      m.rewrite id g = (.ok (), { m with store := m.store.put (g s) }) := by
  unfold rewrite
  cases hget : m.store.get id with
  | error e => exact .inl ⟨_, rfl⟩
  | ok s =>
    have hfind := SessionStore.get_ok hget
    by_cases hstatus : s.status = .terminated
    · exact .inl ⟨_, if_pos hstatus⟩
    · have hid : (g s).sessionId = id := (hg s).trans (SessionStore.sessionId_of_find hfind)
      refine .inr ⟨s, hfind, bne_iff_ne.mpr hstatus, (if_neg hstatus).trans ?_⟩
      exact writeBack_eq () ((congrArg _ hid).trans hfind)

theorem terminateSession_cases (m : SessionManager C P) (id : SessionId) (now : Nat) :
    (m.store.find id = none ∧ m.terminateSession id now = (.error (.store (.notFound id)), m)) ∨
    ∃ s, m.store.find id = some s ∧ m.terminateSession id now = (.ok (s.terminate now),
      { m with store := m.store.put (s.terminate now) }.removeClipsEnv id) := by
  unfold terminateSession SessionStore.get
  cases hfind : m.store.find id with
  | none => exact .inl ⟨rfl, rfl⟩
  | some s =>
    have hid : (s.terminate now).sessionId = id := by
      rw [Session.terminate_sessionId, SessionStore.sessionId_of_find hfind]
    have hupdate := SessionStore.update_ok (s := s.terminate now) ((congrArg _ hid).trans hfind)
    exact .inr ⟨s, rfl, by simp only [hupdate]⟩

theorem terminatePrologSession_cases (m : SessionManager C P) (id : SessionId) (now : Nat) :
    (∃ e, m.terminatePrologSession id now = (.error e, m)) ∨
    ∃ s, m.store.find id = some s ∧ s.sessionType = .prolog ∧
      m.terminatePrologSession id now = (.ok (s.terminate now),
        { m with store := m.store.put (s.terminate now) }.removePrologEnv id) := by
  unfold terminatePrologSession SessionStore.get
  cases hfind : m.store.find id with
  | none => exact .inl ⟨_, rfl⟩
  | some s =>
    have hid : (s.terminate now).sessionId = id := by
      rw [Session.terminate_sessionId, SessionStore.sessionId_of_find hfind]
    have hupdate := SessionStore.update_ok (s := s.terminate now) ((congrArg _ hid).trans hfind)
    by_cases htype : s.sessionType = .prolog
    · refine .inr ⟨s, rfl, htype, ?_⟩
      simp only [htype, ne_eq, not_true, if_false, hupdate]
    · exact .inl ⟨_, if_pos htype⟩

theorem step_move (m : SessionManager C P) (op : Op C P) : Move m op (m.step op) := by
  cases op with
  | createSession c =>
    rcases createWith_cases .clips insertClipsEnv (fun _ _ _ => rfl) m c with
      ⟨-, he⟩ | ⟨-, -, he⟩ | ⟨-, -, -, he⟩ | ⟨-, -, -, e, -, he⟩ | ⟨-, -, hnew, env, -, he⟩
    all_goals rw [step, createSessionWithName, he]
    · exact .same _
    · exact .same _
    · exact .same _
    · exact .same _
    · exact .created c env hnew
  | createPrologSession c =>
    rcases createWith_cases .prolog insertPrologEnv (fun _ _ _ => rfl) m c with
      ⟨-, he⟩ | ⟨-, -, he⟩ | ⟨-, -, -, he⟩ | ⟨-, -, -, e, -, he⟩ | ⟨-, -, hnew, env, -, he⟩
    all_goals rw [step, createPrologSessionWithName, he]
    · exact .same _
    · exact .same _
    · exact .same _
    · exact .same _
    · exact .createdProlog c env hnew
  | saveSession id =>
    rcases m.rewrite_cases id (g := fun s => s) (fun _ => rfl) with ⟨e, he⟩ | ⟨s, hfind, -, he⟩
    · rw [step, saveSession, he]
      exact .same _
    · rw [step, saveSession, he]
      obtain rfl := SessionStore.sessionId_of_find hfind
      exact .rewritten _ s s hfind rfl rfl rfl
  | touchSession id now =>
    rcases m.rewrite_cases id (g := fun s => s.touch now) (fun _ => rfl) with ⟨e, he⟩ | ⟨s, hfind, -, he⟩
    · rw [step, touchSession, he]
      exact .same _
    · rw [step, touchSession, he]
      obtain rfl := SessionStore.sessionId_of_find hfind
      exact .rewritten _ s (s.touch now) hfind rfl rfl rfl
  | terminateSession id now =>
    rcases m.terminateSession_cases id now with ⟨-, he⟩ | ⟨s, hfind, he⟩
    · rw [step, he]
      exact .same _
    · rw [step, he]
      obtain rfl := SessionStore.sessionId_of_find hfind
      exact .terminated s now hfind
  | terminatePrologSession id now =>
    rcases m.terminatePrologSession_cases id now with ⟨e, he⟩ | ⟨s, hfind, htype, he⟩
    · rw [step, he]
      exact .same _
    · rw [step, he]
      obtain rfl := SessionStore.sessionId_of_find hfind
      exact .terminatedProlog s now hfind htype

/-- Engines exist exactly for live sessions of their type, and only those are reached. -/
structure EnginesMatch (m : SessionManager C P) : Prop where
  clips : ∀ id, (m.clipsEnvs id).isSome = m.store.holdsLive .clips id
  prolog : ∀ id, (m.prologEnvs id).isSome = m.store.holdsLive .prolog id
  withClips : ∀ (R : Type) (f : C → Except String R × C) id,
    (m.withClipsEnv id f).1 ≠ .error .sessionNotFound ↔ m.store.holdsLive .clips id = true
  withProlog : ∀ (R : Type) (f : P → Except String R × P) id,
    (m.withPrologEnv id f).1 ≠ .error .sessionNotFound ↔ m.store.holdsLive .prolog id = true

theorem EnginesMatch.of_envs {m : SessionManager C P}
    (hclips : ∀ id, (m.clipsEnvs id).isSome = m.store.holdsLive .clips id)
    (hprolog : ∀ id, (m.prologEnvs id).isSome = m.store.holdsLive .prolog id) : EnginesMatch m := by
  refine ⟨hclips, hprolog, fun R f id => ?_, fun R f id => ?_⟩
  · rw [← hclips, withClipsEnv]
    cases m.clipsEnvs id with
    | none => simp
    | some env => cases hf : (f env).1 <;> simp [hf, Except.mapError]
  · rw [← hprolog, withPrologEnv]
    cases m.prologEnvs id with
    | none => simp
    | some env => cases hf : (f env).1 <;> simp [hf, Except.mapError]

theorem enginesMatch_new (config : ManagerConfig) :
    EnginesMatch (new config : SessionManager C P) :=
  .of_envs (fun _ => rfl) fun _ => rfl

/-- `terminate_session` is not called with the id of a Prolog session that is not terminated. -/
def TypedTermination (m : SessionManager C P) : Op C P → Prop
  | .terminateSession id _ => m.store.holdsLive .prolog id = false
  | _ => True

theorem isSome_update {A : Type} (envs : SessionId → Option A) (id x : SessionId) (o : Option A) :
    (Function.update envs id o x).isSome = if id = x then o.isSome else (envs x).isSome := by
  by_cases h : id = x
  · subst h
    simp
  · rw [if_neg h, Function.update_of_ne (Ne.symm h)]

theorem holdsLive_created {Env : Type} (t : SessionStore) (c : CreateCall Env)
    (sessionType type' : SessionType) (id : SessionId) :
    ((t.put (c.session sessionType)).put
        ((c.session sessionType).activate c.activatedAt)).holdsLive type' id =
      if c.sessionId = id then sessionType == type' else t.holdsLive type' id := by
  have hid : (c.session sessionType).sessionId = c.sessionId := rfl
  have htype : (c.session sessionType).sessionType = sessionType := rfl
  rw [SessionStore.holdsLive_put, SessionStore.holdsLive_put]
  by_cases h : c.sessionId = id
  · simp [hid, htype, h]
  · simp [hid, h]

theorem holdsLive_terminated (t : SessionStore) (s : Session) (now : Nat) (type' : SessionType)
    (id : SessionId) : (t.put (s.terminate now)).holdsLive type' id =
      if s.sessionId = id then false else t.holdsLive type' id := by
  rw [SessionStore.holdsLive_put]
  simp

theorem Move.enginesMatch {m m' : SessionManager C P} {op : Op C P} (hm : Move m op m')
    (h : EnginesMatch m) (hop : m.TypedTermination op) : EnginesMatch m' := by
  cases hm with
  | same => exact h
  | created c env hnew =>
    refine .of_envs (fun id => ?_) fun id => ?_
    · refine (isSome_update m.clipsEnvs c.sessionId id _).trans ?_
      rw [h.clips]
      exact (holdsLive_created m.store c .clips .clips id).symm
    · refine (h.prolog id).trans (.trans ?_ (holdsLive_created m.store c .clips .prolog id).symm)
      by_cases hid : c.sessionId = id
      · rw [if_pos hid, ← hid, SessionStore.holdsLive_of_none hnew]
        rfl
      · rw [if_neg hid]
  | createdProlog c env hnew =>
    refine .of_envs (fun id => ?_) fun id => ?_
    · refine (h.clips id).trans (.trans ?_ (holdsLive_created m.store c .prolog .clips id).symm)
      by_cases hid : c.sessionId = id
      · rw [if_pos hid, ← hid, SessionStore.holdsLive_of_none hnew]
        rfl
      · rw [if_neg hid]
    · refine (isSome_update m.prologEnvs c.sessionId id _).trans ?_
      rw [h.prolog]
      exact (holdsLive_created m.store c .prolog .prolog id).symm
  | rewritten _ s s' hfind hid htype hlive =>
    have hsame : ∀ t id, (m.store.put s').holdsLive t id = m.store.holdsLive t id := by
      intro t id
      rw [SessionStore.holdsLive_put]
      by_cases hx : s'.sessionId = id
      · rw [if_pos hx, ← hx, hid, SessionStore.holdsLive_of_find hfind, htype, hlive]
      · rw [if_neg hx]
    exact .of_envs (fun id => (h.clips id).trans (hsame _ _).symm)
      fun id => (h.prolog id).trans (hsame _ _).symm
  | terminated s now hfind =>
    refine .of_envs (fun id => ?_) fun id => ?_
    · refine (isSome_update m.clipsEnvs s.sessionId id _).trans ?_
      rw [h.clips]
      exact (holdsLive_terminated m.store s now .clips id).symm
    · refine (h.prolog id).trans (.trans ?_ (holdsLive_terminated m.store s now .prolog id).symm)
      by_cases hid : s.sessionId = id
      · rw [if_pos hid, ← hid]
        exact hop
      · rw [if_neg hid]
  | terminatedProlog s now hfind htype =>
    refine .of_envs (fun id => ?_) fun id => ?_
    · refine (h.clips id).trans (.trans ?_ (holdsLive_terminated m.store s now .clips id).symm)
      by_cases hid : s.sessionId = id
      · rw [if_pos hid, ← hid, SessionStore.holdsLive_of_find hfind, htype]
        rfl
      · rw [if_neg hid]
    · refine (isSome_update m.prologEnvs s.sessionId id _).trans ?_
      rw [h.prolog]
      exact (holdsLive_terminated m.store s now .prolog id).symm

/-- Terminating a live Prolog session as if it were a CLIPS session leaves its environment. -/
theorem mistyped_termination {m : SessionManager C P} (h : EnginesMatch m) {id : SessionId}
    {now : Nat} (hlive : m.store.holdsLive .prolog id = true) :
    ¬ EnginesMatch (m.step (.terminateSession id now)) := by
  intro h'
  have hafter := h'.prolog id
  rcases m.terminateSession_cases id now with ⟨hnone, -⟩ | ⟨s, hfind, he⟩
  · rw [SessionStore.holdsLive_of_none hnone] at hlive
    cases hlive
  · rw [step, he] at hafter
    have henv := (h.prolog id).trans hlive
    have hgone := holdsLive_terminated m.store s now .prolog id
    rw [if_pos (SessionStore.sessionId_of_find hfind)] at hgone
    have := henv.symm.trans (hafter.trans hgone)
    cases this

/-- Along every sequence of calls the engines match the live sessions in every state reached,
exactly when no `terminate_session` is given a live Prolog session. -/
theorem engines_match_iff (config : ManagerConfig) (ops : List (Op C P)) :
    (∀ n, EnginesMatch (run step (new config : SessionManager C P) (ops.take n))) ↔
      ∀ v ∈ visits step (new config) ops, v.1.TypedTermination v.2 := by
  constructor
  · intro h v hv
    obtain ⟨u, w, hops, hstate⟩ := mem_visits hv
    have hbefore := h u.length
    have hafter := h (u.length + 1)
    have htake : ops.take (u.length + 1) = u ++ [v.2] := by
      rw [hops, List.append_cons]
      exact List.take_left' (by simp)
    rw [hops, List.take_left, ← hstate] at hbefore
    rw [htake, run_append, ← hstate] at hafter
    cases hop : v.2 with
    | terminateSession id now =>
      rw [hop] at hafter
      refine Bool.eq_false_iff.mpr fun hlive => mistyped_termination hbefore hlive hafter
    | _ => exact trivial
  · intro h n
    refine run_invariant (P := EnginesMatch) (C := fun m op => m.TypedTermination op)
      (fun m op hop hm => (step_move m op).enginesMatch hm hop) (fun v hv => h v ?_)
      (enginesMatch_new config)
    rw [← List.take_append_drop n ops, visits_append]
    exact List.mem_append_left _ hv

/-- A call by one user, whose engine starts. -/
def testCall (sessionId : SessionId) : CreateCall Unit :=
  ⟨"user-1", none, none, sessionId, 0, 0, 0, some ()⟩

def testMistyped : SessionManager Unit Unit :=
  run step (new {}) [.createPrologSession (testCall "sess-1"), .terminateSession "sess-1" 1]

theorem testMistyped_keeps_engine :
    (testMistyped.prologEnvs "sess-1").isSome = true ∧
    testMistyped.store.holdsLive .prolog "sess-1" = false ∧ ¬ EnginesMatch testMistyped := by
  have henv : (testMistyped.prologEnvs "sess-1").isSome = true := by decide
  have hdead : testMistyped.store.holdsLive .prolog "sess-1" = false := by decide
  refine ⟨henv, hdead, fun h => ?_⟩
  rw [h.prolog, hdead] at henv
  cases henv

section Limits

/-- The sessions that are not terminated, of everybody and of one user. -/
def liveSessions (m : SessionManager C P) : Nat := m.store.sessions.countP Session.live

def liveUserSessions (m : SessionManager C P) (userId : String) : Nat :=
  m.store.sessions.countP fun s => s.userId == userId && s.live

/-- The terminated sessions whose records are still stored. -/
def deadSessions (m : SessionManager C P) : Nat := m.store.sessions.countP fun s => !s.live

def deadUserSessions (m : SessionManager C P) (userId : String) : Nat :=
  m.store.sessions.countP fun s => s.userId == userId && !s.live

/-- A creator is refused by the limits on live sessions and by nothing else. -/
def RefusedByLive (m : SessionManager C P) (userId : String)
    (answer : Except ManagerError Session) : Prop :=
  (answer = .error .globalSessionLimitExceeded ↔
    m.config.maxConcurrentSessions ≤ m.liveSessions) ∧
  (answer = .error .userSessionLimitExceeded ↔
    ¬ m.config.maxConcurrentSessions ≤ m.liveSessions ∧
      m.config.maxSessionsPerUser ≤ m.liveUserSessions userId)

/-- Terminated sessions do not use up a limit that the live ones leave open. -/
def RoomLeft (m : SessionManager C P) (userId : String) : Prop :=
  (m.liveSessions < m.config.maxConcurrentSessions →
    m.liveSessions + m.deadSessions < m.config.maxConcurrentSessions) ∧
  (m.liveSessions < m.config.maxConcurrentSessions →
    m.liveUserSessions userId < m.config.maxSessionsPerUser →
      m.liveUserSessions userId + m.deadUserSessions userId < m.config.maxSessionsPerUser)

theorem countActive_eq (m : SessionManager C P) :
    m.store.countActive = m.liveSessions + m.deadSessions := by
  rw [SessionStore.countActive, List.length_eq_countP_add_countP Session.live, liveSessions,
    deadSessions]
  simp

theorem countUserSessions_eq (m : SessionManager C P) (userId : String) :
    m.store.countUserSessions userId = m.liveUserSessions userId + m.deadUserSessions userId := by
  unfold SessionStore.countUserSessions liveUserSessions deadUserSessions
  induction m.store.sessions with
  | nil => rfl
  | cons s l ih =>
    simp only [List.countP_cons, ih]
    cases s.userId == userId <;> cases s.live <;> simp <;> omega

/-- The count that is reported to callers is one of live sessions. -/
theorem countUserActiveSessions_eq (m : SessionManager C P) (userId : String) :
    m.countUserActiveSessions userId = m.liveUserSessions userId := by
  unfold countUserActiveSessions liveUserSessions SessionStore.getUserSessions
  have hfind : ∀ s ∈ m.store.sessions, m.store.find s.sessionId = some s := fun s hs =>
    (Keyed.find_eq_some_iff m.store.keys).mpr ⟨hs, rfl⟩
  generalize m.store.sessions = l at hfind
  induction l with
  | nil => rfl
  | cons s l ih =>
    have hl := ih fun x hx => hfind x (List.mem_cons_of_mem _ hx)
    by_cases hu : s.userId = userId
    · simp [hu, hfind s (by simp), List.countP_cons, ← hl]
    · simp [hu, ← hl]

/-- The refusals of a creator, from the two counts it makes. -/
theorem createWith_refused {Env : Type} (t : SessionType)
    (insertEnv : SessionManager C P → SessionId → Env → SessionManager C P)
    (hstore : ∀ m id env, (insertEnv m id env).store = m.store) (m : SessionManager C P)
    (c : CreateCall Env) :
    ((m.createWith t insertEnv c).1 = .error .globalSessionLimitExceeded ↔ m.globalFull) ∧
    ((m.createWith t insertEnv c).1 = .error .userSessionLimitExceeded ↔
      ¬ m.globalFull ∧ m.userFull c.userId) := by
  rcases createWith_cases t insertEnv hstore m c with
    ⟨hg, he⟩ | ⟨hg, hu, he⟩ | ⟨hg, hu, -, he⟩ | ⟨hg, hu, -, e, -, he⟩ | ⟨hg, hu, -, env, -, he⟩
  · simp [he, hg]
  · simp [he, hg, hu]
  · simp [he, hg, hu]
  · simp [he, hg, hu]
  · simp [he, hg, hu]

theorem refusedByLive_iff {m : SessionManager C P} {userId : String}
    {answer : Except ManagerError Session}
    (hglobal : answer = .error .globalSessionLimitExceeded ↔ m.globalFull)
    (huser : answer = .error .userSessionLimitExceeded ↔ ¬ m.globalFull ∧ m.userFull userId) :
    m.RefusedByLive userId answer ↔ m.RoomLeft userId := by
  unfold RefusedByLive RoomLeft
  rw [hglobal, huser, globalFull, userFull, countActive_eq, countUserSessions_eq]
  omega

/-- After every history, a creator of either kind refuses by the live sessions exactly when the
records of terminated ones do not fill a limit. -/
theorem limits_count_live_iff (config : ManagerConfig) (ops : List (Op C P)) (c : CreateCall C)
    (p : CreateCall P) :
    let m := run step (new config : SessionManager C P) ops
    (m.RefusedByLive c.userId (m.createSessionWithName c).1 ↔ m.RoomLeft c.userId) ∧
    (m.RefusedByLive p.userId (m.createPrologSessionWithName p).1 ↔ m.RoomLeft p.userId) := by
  intro m
  obtain ⟨hc, hc'⟩ := createWith_refused .clips insertClipsEnv (fun _ _ _ => rfl) m c
  obtain ⟨hp, hp'⟩ := createWith_refused .prolog insertPrologEnv (fun _ _ _ => rfl) m p
  exact ⟨refusedByLive_iff hc hc', refusedByLive_iff hp hp'⟩

def testTerminated : SessionManager Unit Unit :=
  run step (new ⟨1, 1⟩) [.createSession (testCall "sess-1"), .terminateSession "sess-1" 1]

theorem testTerminated_makes_no_room :
    testTerminated.liveSessions = 0 ∧
    (testTerminated.createSessionWithName (testCall "sess-2")).1 =
      .error .globalSessionLimitExceeded ∧
    ¬ testTerminated.RefusedByLive "user-1"
      (testTerminated.createSessionWithName (testCall "sess-2")).1 := by
  have hlive : testTerminated.liveSessions = 0 := by decide
  have hrefused : (testTerminated.createSessionWithName (testCall "sess-2")).1 =
      .error .globalSessionLimitExceeded := by rfl
  refine ⟨hlive, hrefused, fun h => ?_⟩
  have hfull := h.1.mp hrefused
  rw [hlive] at hfull
  exact absurd hfull (by decide)

end Limits

end SessionManager
end Cerebellum
