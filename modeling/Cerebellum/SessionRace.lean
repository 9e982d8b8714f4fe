import Cerebellum.Sessions
import Cerebellum.Lib.Pool

/-! Concurrent calls on one `SessionManager`. Each access to the store or to a map of
environments takes its lock and gives it back, so that it is a step of its own; between them a
call works on the copy it has read. -/
namespace Cerebellum
open Transition

/-- A creator of either kind. -/
inductive Creator (C P : Type) where
  | clips (c : CreateCall C)
  | prolog (c : CreateCall P)

namespace Creator
variable {C P : Type}

def userId : Creator C P → String
  | clips c => c.userId
  | prolog c => c.userId

def sessionId : Creator C P → SessionId
  | clips c => c.sessionId
  | prolog c => c.sessionId

def session : Creator C P → Session
  | clips c => c.session .clips
  | prolog c => c.session .prolog

def activated : Creator C P → Session
  | clips c => (c.session .clips).activate c.activatedAt
  | prolog c => (c.session .prolog).activate c.activatedAt

/-- Has the constructor of the engine succeeded? -/
def engineUp : Creator C P → Bool
  | clips c => c.engine.isSome
  | prolog c => c.engine.isSome

def insertEnv (m : SessionManager C P) : Creator C P → SessionManager C P
  | clips c => c.engine.elim m (m.insertClipsEnv c.sessionId)
  | prolog c => c.engine.elim m (m.insertPrologEnv c.sessionId)

/-- The operation the creator is a call of. -/
def create (m : SessionManager C P) :
    Creator C P → Except ManagerError Session × SessionManager C P
  | clips c => m.createSessionWithName c
  | prolog c => m.createPrologSessionWithName c

@[simp] theorem session_sessionId (c : Creator C P) : c.session.sessionId = c.sessionId := by
  cases c <;> rfl

@[simp] theorem session_userId (c : Creator C P) : c.session.userId = c.userId := by
  cases c <;> rfl

@[simp] theorem session_live (c : Creator C P) : c.session.live = true := by
  cases c <;> rfl

@[simp] theorem activated_sessionId (c : Creator C P) : c.activated.sessionId = c.sessionId := by
  cases c <;> rfl

@[simp] theorem activated_userId (c : Creator C P) : c.activated.userId = c.userId := by
  cases c <;> rfl

@[simp] theorem activated_live (c : Creator C P) : c.activated.live = true := by
  cases c <;> rfl

@[simp] theorem insertEnv_store (m : SessionManager C P) (c : Creator C P) :
    (c.insertEnv m).store = m.store := by
  rcases c with ⟨⟨-, -, -, -, -, -, -, _ | _⟩⟩ | ⟨⟨-, -, -, -, -, -, -, _ | _⟩⟩ <;> rfl

@[simp] theorem insertEnv_config (m : SessionManager C P) (c : Creator C P) :
    (c.insertEnv m).config = m.config := by
  rcases c with ⟨⟨-, -, -, -, -, -, -, _ | _⟩⟩ | ⟨⟨-, -, -, -, -, -, -, _ | _⟩⟩ <;> rfl

theorem create_cases (m : SessionManager C P) (c : Creator C P) :
    (m.globalFull ∧ c.create m = (.error .globalSessionLimitExceeded, m)) ∨
    (¬ m.globalFull ∧ m.userFull c.userId ∧
      c.create m = (.error .userSessionLimitExceeded, m)) ∨
    (¬ m.globalFull ∧ ¬ m.userFull c.userId ∧ c.engineUp = false ∧
      c.create m = (.error (.store .invalidState), m)) ∨
    (¬ m.globalFull ∧ ¬ m.userFull c.userId ∧ c.engineUp = true ∧
      ∃ e, m.store.insert c.session = .error e ∧ c.create m = (.error (.store e), m)) ∨
    (¬ m.globalFull ∧ ¬ m.userFull c.userId ∧ c.engineUp = true ∧
      m.store.find c.sessionId = none ∧
      c.create m = (.ok c.activated, { c.insertEnv { m with store := m.store.put c.session } with
        store := (m.store.put c.session).put c.activated })) := by
  cases c with
  | clips c =>
    rcases SessionManager.createWith_cases .clips SessionManager.insertClipsEnv (fun _ _ _ => rfl)
      m c with h | h | ⟨hg, hu, hno, he⟩ | ⟨hg, hu, hup, he⟩ | ⟨hg, hu, hfind, env, henv, he⟩
    · exact .inl h
    · exact .inr (.inl h)
    · exact .inr (.inr (.inl ⟨hg, hu, by simp [engineUp, hno], he⟩))
    · exact .inr (.inr (.inr (.inl ⟨hg, hu, Option.isSome_iff_ne_none.mpr hup, he⟩)))
    · refine .inr (.inr (.inr (.inr ⟨hg, hu, by simp [engineUp, henv], hfind, he.trans ?_⟩)))
      simp only [insertEnv, henv, Option.elim_some]
      rfl
  | prolog c =>
    rcases SessionManager.createWith_cases .prolog SessionManager.insertPrologEnv
      (fun _ _ _ => rfl) m c with
      h | h | ⟨hg, hu, hno, he⟩ | ⟨hg, hu, hup, he⟩ | ⟨hg, hu, hfind, env, henv, he⟩
    · exact .inl h
    · exact .inr (.inl h)
    · exact .inr (.inr (.inl ⟨hg, hu, by simp [engineUp, hno], he⟩))
    · exact .inr (.inr (.inr (.inl ⟨hg, hu, Option.isSome_iff_ne_none.mpr hup, he⟩)))
    · refine .inr (.inr (.inr (.inr ⟨hg, hu, by simp [engineUp, henv], hfind, he.trans ?_⟩)))
      simp only [insertEnv, henv, Option.elim_some]
      rfl

end Creator

inductive SessionRequest (C P : Type) where
  | create (c : Creator C P)
  | getSession (id : SessionId)
  | updateSession (s : Session)
  | saveSession (id : SessionId)
  | touchSession (id : SessionId) (now : Nat)
  | terminateSession (id : SessionId) (now : Nat)
  | terminatePrologSession (id : SessionId) (now : Nat)

inductive SessionAnswer where
  | session (s : Session)
  | done
  | refused (e : ManagerError)

/-- Where a call stands: the access it makes next. -/
inductive SessionPhase (C P : Type) where
  | call (r : SessionRequest C P)
  | countUser (c : Creator C P)
  | insert (c : Creator C P)
  | insertEnv (c : Creator C P)
  | activate (c : Creator C P)
  | rewrite (s : Session)
  | terminate (id : SessionId) (s : Session) (removeFrom : SessionType)
  | removeEnv (id : SessionId) (s : Session) (removeFrom : SessionType)
  | answered (a : SessionAnswer)

namespace SessionPhase
variable {C P : Type}

/-- The read of `save_session` and `touch_session`, and the check on what it gives. -/
def readLive (m : SessionManager C P) (id : SessionId) (g : Session → Session) :
    SessionPhase C P :=
  match m.store.get id with
  | .error e => .answered (.refused (.store e))
  | .ok s =>
    if s.status = .terminated then .answered (.refused .sessionTerminated) else .rewrite (g s)

/-- `store.update`; `ok` is where the call goes on. -/
def update (m : SessionManager C P) (s : Session) (ok : SessionPhase C P) :
    SessionManager C P × SessionPhase C P :=
  match m.store.update s with
  | .error e => (m, .answered (.refused (.store e)))
  | .ok store => ({ m with store }, ok)

/-- The first access of a call. -/
def begin (m : SessionManager C P) : SessionRequest C P → SessionManager C P × SessionPhase C P
  | .create c =>
    if m.config.maxConcurrentSessions ≤ m.store.countActive then
      (m, .answered (.refused .globalSessionLimitExceeded))
    else (m, .countUser c)
  | .getSession id =>
    (m, .answered (match m.getSession id with
      | .error e => .refused e
      | .ok s => .session s))
  | .updateSession s =>
    if s.status = .terminated then (m, .answered (.refused .sessionTerminated))
    else update m s (.answered .done)
  | .saveSession id => (m, readLive m id fun s => s)
  | .touchSession id now => (m, readLive m id fun s => s.touch now)
  | .terminateSession id now =>
    match m.store.get id with
    | .error e => (m, .answered (.refused (.store e)))
    | .ok s => (m, .terminate id (s.terminate now) .clips)
  | .terminatePrologSession id now =>
    match m.store.get id with
    | .error e => (m, .answered (.refused (.store e)))
    | .ok s =>
      if s.sessionType ≠ .prolog then
        (m, .answered (.refused (.wrongSessionType "prolog" s.sessionType.display)))
      else (m, .terminate id (s.terminate now) .prolog)

/-- One access to what the calls share. The engine is constructed between the count and the
insert, with no lock. -/
def next (m : SessionManager C P) : SessionPhase C P → SessionManager C P × SessionPhase C P
  | .call r => begin m r
  | .countUser c =>
    if m.config.maxSessionsPerUser ≤ m.store.countUserSessions c.userId then
      (m, .answered (.refused .userSessionLimitExceeded))
    else if c.engineUp then (m, .insert c)
    else (m, .answered (.refused (.store .invalidState)))
  | .insert c =>
    match m.store.insert c.session with
    | .error e => (m, .answered (.refused (.store e)))
    | .ok store => ({ m with store }, .insertEnv c)
  | .insertEnv c => (c.insertEnv m, .activate c)
  | .activate c => update m c.activated (.answered (.session c.activated))
  | .rewrite s => update m s (.answered .done)
  | .terminate id s t => update m s (.removeEnv id s t)
  | .removeEnv id s t =>
    (match t with
      | .clips => m.removeClipsEnv id
      | .prolog => m.removePrologEnv id, .answered (.session s))
  | .answered a => (m, .answered a)

/-- A call with the manager to itself is the operation. -/
def exec (m : SessionManager C P) : SessionRequest C P → SessionManager C P × SessionAnswer
  | .create (.clips c) => answer .session (m.createSessionWithName c)
  | .create (.prolog c) => answer .session (m.createPrologSessionWithName c)
  | .getSession id => answer .session (m.getSession id, m)
  | .updateSession s => answer (fun _ => .done) (m.updateSession s)
  | .saveSession id => answer (fun _ => .done) (m.saveSession id)
  | .touchSession id now => answer (fun _ => .done) (m.touchSession id now)
  | .terminateSession id now => answer .session (m.terminateSession id now)
  | .terminatePrologSession id now => answer .session (m.terminatePrologSession id now)
where
  answer {α : Type} (ok : α → SessionAnswer) (r : Except ManagerError α × SessionManager C P) :
      SessionManager C P × SessionAnswer :=
    (r.2, match r.1 with
      | .ok a => ok a
      | .error e => .refused e)

theorem exec_create (m : SessionManager C P) (c : Creator C P) :
    exec m (.create c) = exec.answer .session (c.create m) := by
  cases c <;> rfl

theorem alone_answered (n : Nat) (m : SessionManager C P) (a : SessionAnswer) :
    Pool.alone next n m (.answered a) = (m, .answered a) :=
  Function.iterate_fixed rfl n

theorem alone_succ (n : Nat) (m : SessionManager C P) (p : SessionPhase C P) :
    Pool.alone next (n + 1) m p = Pool.alone next n (next m p).1 (next m p).2 :=
  Function.iterate_succ_apply ..

theorem alone_create (m : SessionManager C P) (c : Creator C P) :
    Pool.alone next 5 m (.call (.create c)) =
      ((exec m (.create c)).1, .answered (exec m (.create c)).2) := by
  rcases c.create_cases m with
    ⟨hg, he⟩ | ⟨hg, hu, he⟩ | ⟨hg, hu, hup, he⟩ | ⟨hg, hu, hup, e, hinsert, he⟩ |
      ⟨hg, hu, hup, hfind, he⟩
  · have hcount : next m (.call (.create c)) =
        (m, .answered (.refused .globalSessionLimitExceeded)) := if_pos hg
    rw [exec_create, he, alone_succ, hcount, alone_answered]
    rfl
  all_goals
    have hcount : next m (.call (.create c)) = (m, .countUser c) := if_neg hg
    rw [exec_create, he, alone_succ, hcount, alone_succ]
  · have huser : next m (.countUser c) = (m, .answered (.refused .userSessionLimitExceeded)) :=
      if_pos hu
    rw [huser, alone_answered]
    rfl
  · have huser : next m (.countUser c) = (m, .answered (.refused (.store .invalidState))) :=
      (if_neg hu).trans (if_neg (by simp [hup]))
    rw [huser, alone_answered]
    rfl
  · have huser : next m (.countUser c) = (m, .insert c) := (if_neg hu).trans (if_pos hup)
    rw [huser, alone_succ, next, hinsert, alone_answered]
    rfl
  · have huser : next m (.countUser c) = (m, .insert c) := (if_neg hu).trans (if_pos hup)
    have hinsert : m.store.insert c.session = .ok (m.store.put c.session) :=
      if_neg (by simp [hfind])
    have hfound : (m.store.put c.session).find c.activated.sessionId = some c.session := by
      simp [SessionStore.find_put]
    have hupdate : (m.store.put c.session).update c.activated =
        .ok ((m.store.put c.session).put c.activated) := SessionStore.update_ok hfound
    rw [huser, alone_succ, next, hinsert, alone_succ, next, alone_succ, next, update,
      Creator.insertEnv_store, hupdate]
    rfl

theorem alone_rewrite (m : SessionManager C P) (id : SessionId) (g : Session → Session) :
    Pool.alone next 4 m (readLive m id g) = ((exec.answer (fun _ => .done) (m.rewrite id g)).1,
      .answered (exec.answer (fun _ => .done) (m.rewrite id g)).2) := by
  unfold readLive SessionManager.rewrite
  cases m.store.get id with
  | error e => exact alone_answered 4 m _
  | ok s =>
    dsimp only
    by_cases hs : s.status = .terminated
    · rw [if_pos hs, if_pos hs]
      exact alone_answered 4 m _
    · rw [if_neg hs, if_neg hs, alone_succ, next, update, SessionManager.writeBack]
      cases m.store.update (g s) <;> exact alone_answered 3 _ _

/-- A call that nothing comes between does what the operation does. -/
theorem alone_exec (m : SessionManager C P) (r : SessionRequest C P) :
    Pool.alone next 5 m (.call r) = ((exec m r).1, .answered (exec m r).2) := by
  cases r with
  | create c => exact alone_create m c
  | getSession id =>
    rw [alone_succ, next, begin, alone_answered, exec]
    cases m.getSession id <;> rfl
  | updateSession s =>
    rw [alone_succ, next, begin, exec, SessionManager.updateSession]
    by_cases hs : s.status = .terminated
    · rw [if_pos hs, if_pos hs]
      exact alone_answered 4 m _
    · rw [if_neg hs, if_neg hs, update, SessionManager.writeBack]
      cases m.store.update s <;> exact alone_answered 4 _ _
  | saveSession id => exact alone_rewrite m id fun s => s
  | touchSession id now => exact alone_rewrite m id fun s => s.touch now
  | terminateSession id now =>
    rw [alone_succ, next, begin, exec, SessionManager.terminateSession]
    cases m.store.get id with
    | error e => exact alone_answered 4 m _
    | ok s =>
      dsimp only
      rw [alone_succ, next, update]
      cases m.store.update (s.terminate now) with
      | error e => exact alone_answered 3 m _
      | ok store => rfl
  | terminatePrologSession id now =>
    rw [alone_succ, next, begin, exec, SessionManager.terminatePrologSession]
    cases m.store.get id with
    | error e => exact alone_answered 4 m _
    | ok s =>
      dsimp only
      by_cases ht : s.sessionType ≠ .prolog
      · rw [if_pos ht, if_pos ht]
        exact alone_answered 4 m _
      · rw [if_neg ht, if_neg ht, alone_succ, next, update]
        cases m.store.update (s.terminate now) with
        | error e => exact alone_answered 3 m _
        | ok store => rfl

/-- The session a call has a copy of that it will write back as not terminated. -/
def holds : SessionPhase C P → Option SessionId
  | .insertEnv c | .activate c => some c.sessionId
  | .rewrite s => some s.sessionId
  | _ => none

/-- Has the call passed the check of the global limit, and not inserted its session yet? -/
def counted : SessionPhase C P → Bool
  | .countUser _ | .insert _ => true
  | _ => false

/-- The same for the limit of one user. -/
def countedFor (userId : String) : SessionPhase C P → Bool
  | .insert c => c.userId == userId
  | _ => false

/-- Everything one access can do to the store, and where its call goes on. -/
inductive Move (m : SessionManager C P) :
    SessionPhase C P → SessionManager C P → SessionPhase C P → Prop
  | answer (p : SessionPhase C P) (a : SessionAnswer) (m' : SessionManager C P)
      (hstore : m'.store = m.store) (hconfig : m'.config = m.config) : Move m p m' (.answered a)
  | countGlobal (c : Creator C P) (h : ¬ m.globalFull) : Move m (.call (.create c)) m (.countUser c)
  | countUser (c : Creator C P) (h : ¬ m.userFull c.userId) : Move m (.countUser c) m (.insert c)
  | insert (c : Creator C P) (h : m.store.find c.sessionId = none) :
    Move m (.insert c) { m with store := m.store.put c.session } (.insertEnv c)
  | insertEnv (c : Creator C P) : Move m (.insertEnv c) (c.insertEnv m) (.activate c)
  | activate (c : Creator C P) (s : Session) (h : m.store.find c.sessionId = some s) :
    Move m (.activate c) { m with store := m.store.put c.activated }
      (.answered (.session c.activated))
  | readLive (r : SessionRequest C P) (s s' : Session) (hr : ∀ c, r ≠ .create c)
      (h : m.store.find s'.sessionId = some s) (hlive : s.live = true) (hlive' : s'.live = true) :
    Move m (.call r) m (.rewrite s')
  | rewrite (s s₀ : Session) (h : m.store.find s.sessionId = some s₀) :
    Move m (.rewrite s) { m with store := m.store.put s } (.answered .done)
  | update (s s₀ : Session) (hlive : s.live = true) (h : m.store.find s.sessionId = some s₀) :
    Move m (.call (.updateSession s)) { m with store := m.store.put s } (.answered .done)
  | readTerminate (r : SessionRequest C P) (hr : ∀ c, r ≠ .create c) (id : SessionId) (s : Session)
      (t : SessionType) (hdead : s.live = false) : Move m (.call r) m (.terminate id s t)
  | terminate (id : SessionId) (s s₀ : Session) (t : SessionType)
      (h : m.store.find s.sessionId = some s₀) :
    Move m (.terminate id s t) { m with store := m.store.put s } (.removeEnv id s t)

/-- A call that ends here, with nothing written. -/
theorem Move.refused (m : SessionManager C P) (p : SessionPhase C P) (a : SessionAnswer) :
    Move m p m (.answered a) := .answer p a m rfl rfl

/-- `store.update` finds the session or leaves everything as it is. -/
theorem update_cases (m : SessionManager C P) (s : Session) (ok : SessionPhase C P) :
    (∃ e, update m s ok = (m, .answered (.refused (.store e)))) ∨
    ∃ s₀, m.store.find s.sessionId = some s₀ ∧
      update m s ok = ({ m with store := m.store.put s }, ok) := by
  unfold update
  cases hfind : m.store.find s.sessionId with
  | none =>
    have hupdate : m.store.update s = .error (.notFound s.sessionId) := if_neg (by simp [hfind])
    exact .inl ⟨_, by rw [hupdate]⟩
  | some s₀ => exact .inr ⟨s₀, rfl, by rw [SessionStore.update_ok hfind]⟩

theorem readLive_move (m : SessionManager C P) (id : SessionId) {g : Session → Session}
    (hg : ∀ s, (g s).sessionId = s.sessionId ∧ (g s).live = s.live) (r : SessionRequest C P)
    (hr : ∀ c, r ≠ .create c) : Move m (.call r) m (readLive m id g) := by
  unfold SessionPhase.readLive
  cases hget : m.store.get id with
  | error e => exact .refused m _ _
  | ok s =>
    dsimp only
    have hfind := SessionStore.get_ok hget
    by_cases hs : s.status = .terminated
    · rw [if_pos hs]
      exact .refused m _ _
    · rw [if_neg hs]
      have hlive : s.live = true := bne_iff_ne.mpr hs
      refine .readLive r s (g s) hr ?_ hlive ((hg s).2.trans hlive)
      rw [(hg s).1, SessionStore.sessionId_of_find hfind]
      exact hfind

theorem begin_move (m : SessionManager C P) (r : SessionRequest C P) :
    Move m (.call r) (begin m r).1 (begin m r).2 := by
  cases r with
  | create c =>
    by_cases hg : m.globalFull
    · have hcount : begin m (.create c) =
          (m, .answered (.refused .globalSessionLimitExceeded)) := if_pos hg
      rw [hcount]
      exact .refused m _ _
    · have hcount : begin m (.create c) = (m, .countUser c) := if_neg hg
      rw [hcount]
      exact .countGlobal c hg
  | getSession id => exact .refused m _ _
  | updateSession s =>
    rw [begin]
    by_cases hs : s.status = .terminated
    · rw [if_pos hs]
      exact .refused m _ _
    · rw [if_neg hs]
      rcases update_cases m s (.answered .done) with ⟨e, he⟩ | ⟨s₀, hfind, he⟩
      · rw [he]
        exact .refused m _ _
      · rw [he]
        exact .update s s₀ (bne_iff_ne.mpr hs) hfind
  | saveSession id => exact readLive_move m id (fun _ => ⟨rfl, rfl⟩) (.saveSession id) (by simp)
  | touchSession id now =>
    exact readLive_move m id (g := fun s => s.touch now) (fun _ => ⟨rfl, rfl⟩)
      (.touchSession id now) (by simp)
  | terminateSession id now =>
    rw [begin]
    cases m.store.get id with
    | error e => exact .refused m _ _
    | ok s => exact .readTerminate _ (by simp) id (s.terminate now) .clips rfl
  | terminatePrologSession id now =>
    rw [begin]
    cases m.store.get id with
    | error e => exact .refused m _ _
    | ok s =>
      dsimp only
      by_cases ht : s.sessionType ≠ .prolog
      · rw [if_pos ht]
        exact .refused m _ _
      · rw [if_neg ht]
        exact .readTerminate _ (by simp) id (s.terminate now) .prolog rfl

theorem next_move (m : SessionManager C P) (p : SessionPhase C P) :
    Move m p (next m p).1 (next m p).2 := by
  cases p with
  | call r => exact begin_move m r
  | countUser c =>
    by_cases hu : m.userFull c.userId
    · have hcount : next m (.countUser c) =
          (m, .answered (.refused .userSessionLimitExceeded)) := if_pos hu
      rw [hcount]
      exact .refused m _ _
    · have hcount : next m (.countUser c) = if c.engineUp then (m, .insert c)
          else (m, .answered (.refused (.store .invalidState))) := if_neg hu
      rw [hcount]
      cases c.engineUp with
      | true => exact .countUser c hu
      | false => exact .refused m _ _
  | insert c =>
    rw [next]
    cases hins : m.store.insert c.session with
    | error e => exact .refused m _ _
    | ok store =>
      obtain ⟨hfind, rfl⟩ := SessionStore.insert_ok hins
      exact .insert c (by simpa using hfind)
  | insertEnv c => exact .insertEnv c
  | activate c =>
    rw [next]
    rcases update_cases m c.activated (.answered (.session c.activated)) with
      ⟨e, he⟩ | ⟨s, hfind, he⟩
    · rw [he]
      exact .refused m _ _
    · rw [he]
      exact .activate c s (by simpa using hfind)
  | rewrite s =>
    rw [next]
    rcases update_cases m s (.answered .done) with ⟨e, he⟩ | ⟨s₀, hfind, he⟩
    · rw [he]
      exact .refused m _ _
    · rw [he]
      exact .rewrite s s₀ hfind
  | terminate id s t =>
    rw [next]
    rcases update_cases m s (.removeEnv id s t) with ⟨e, he⟩ | ⟨s₀, hfind, he⟩
    · rw [he]
      exact .refused m _ _
    · rw [he]
      exact .terminate id s s₀ t hfind
  | removeEnv id s t =>
    cases t <;> exact .answer _ _ _ rfl rfl
  | answered a => exact .refused m _ _

end SessionPhase

/-- A manager and the calls that have begun on it. -/
abbrev SessionRace (C P : Type) := Pool (SessionManager C P) (SessionPhase C P)

namespace SessionRace
open SessionPhase
variable {C P : Type}

abbrev Act (C P : Type) := Pool.Act (SessionRequest C P)

def start (config : ManagerConfig) : SessionRace C P := ⟨SessionManager.new config, []⟩

def step (w : SessionRace C P) (a : Act C P) : SessionRace C P :=
  Pool.step SessionPhase.call SessionPhase.next w a

/-- Is the session stored, and terminated? -/
def terminatedAt (t : SessionStore) (id : SessionId) : Bool :=
  (t.find id).any fun s => !s.live

theorem terminatedAt_put (t : SessionStore) (s : Session) (id : SessionId) :
    terminatedAt (t.put s) id = if s.sessionId = id then !s.live else terminatedAt t id := by
  unfold terminatedAt
  rw [SessionStore.find_put]
  split <;> rfl

theorem terminatedAt_of_find {t : SessionStore} {id : SessionId} {s : Session}
    (h : t.find id = some s) : terminatedAt t id = !s.live := by
  rw [terminatedAt, h]
  rfl

theorem terminatedAt_of_none {t : SessionStore} {id : SessionId} (h : t.find id = none) :
    terminatedAt t id = false := by
  rw [terminatedAt, h]
  rfl

/-- No call comes between a termination and a copy: when a termination writes, no `create`,
`save` or `touch` is in flight that holds a copy of the session, and `update_session` is not
given a copy of a session that has been terminated. -/
def apart (w : SessionRace C P) : Act C P → Bool
  | .enter _ => true
  | .step i =>
    match w.calls[i]? with
    | some (.terminate _ s _) => w.calls.all fun q => q.holds != some s.sessionId
    | some (.call (.updateSession s)) => !terminatedAt w.shared.store s.sessionId
    | _ => true

/-- What a call in flight relies on: the session it holds a copy of is not terminated. -/
structure Backed (m : SessionManager C P) (p : SessionPhase C P) : Prop where
  stored : ∀ id, p.holds = some id → terminatedAt m.store id = false
  copy : ∀ s, p = .rewrite s → s.live = true
  dead : ∀ id s t, p = .terminate id s t → s.live = false

/-- A phase with no copy in it relies on nothing. -/
theorem Backed.of_free {m : SessionManager C P} {p : SessionPhase C P} (hh : p.holds = none)
    (ht : ∀ id s t, p ≠ .terminate id s t) : Backed m p := by
  refine ⟨fun id h => ?_, fun s h => ?_, fun id s t h => absurd h (ht id s t)⟩
  · rw [hh] at h
    cases h
  · rw [h] at hh
    cases hh

/-- A step that writes a live session, or another one, keeps what a call relies on. -/
theorem Backed.put {m : SessionManager C P} {q : SessionPhase C P} (h : Backed m q) {s : Session}
    (hs : s.live = true ∨ q.holds ≠ some s.sessionId) :
    Backed { m with store := m.store.put s } q := by
  refine ⟨fun id hq => ?_, h.copy, h.dead⟩
  dsimp only
  rw [terminatedAt_put]
  by_cases hid : s.sessionId = id
  · rw [if_pos hid]
    rcases hs with hs | hs
    · rw [hs]
      rfl
    · rw [hid] at hs
      exact absurd hq hs
  · rw [if_neg hid]
    exact h.stored id hq

/-- What is known of the call that takes a step. -/
structure Fair (w : SessionRace C P) (p : SessionPhase C P) : Prop where
  terminate : ∀ id s t, p = .terminate id s t → ∀ q ∈ w.calls, q.holds ≠ some s.sessionId
  update : ∀ s, p = .call (.updateSession s) → terminatedAt w.shared.store s.sessionId = false

theorem fair_of_apart {w : SessionRace C P} {i : Nat} {p : SessionPhase C P}
    (h : w.apart (.step i) = true) (hi : w.calls[i]? = some p) : w.Fair p := by
  constructor
  · rintro id s t rfl
    simpa only [apart, hi, List.all_eq_true, bne_iff_ne] using h
  · rintro s rfl
    simpa only [apart, hi, Bool.not_eq_true'] using h

theorem Backed.self {m m' : SessionManager C P} {p p' : SessionPhase C P} (hm : Move m p m' p')
    (h : Backed m p) : Backed m' p' := by
  cases hm with
  | answer _ a _ hstore hconfig => exact .of_free rfl (by simp)
  | countGlobal c hg => exact .of_free rfl (by simp)
  | countUser c hu => exact .of_free rfl (by simp)
  | insert c hfind =>
    refine ⟨fun id hid => ?_, fun s hs => (by cases hs), fun _ _ _ ht => (by cases ht)⟩
    dsimp only
    rw [terminatedAt_put, if_pos (by simpa [holds] using hid), Creator.session_live]
    rfl
  | insertEnv c =>
    refine ⟨fun id hid => ?_, fun s hs => (by cases hs), fun _ _ _ ht => (by cases ht)⟩
    rw [Creator.insertEnv_store]
    exact h.stored id hid
  | activate c s hfind => exact .of_free rfl (by simp)
  | readLive r s s' hr hfind hlive hlive' =>
    refine ⟨fun id hid => ?_, fun s hs => ?_, fun _ _ _ ht => (by cases ht)⟩
    · cases hid
      rw [terminatedAt_of_find hfind, hlive]
      rfl
    · cases hs
      exact hlive'
  | rewrite s s₀ hfind => exact .of_free rfl (by simp)
  | update s s₀ hlive hfind => exact .of_free rfl (by simp)
  | readTerminate r hr id s t hdead =>
    refine ⟨fun id hid => (by cases hid), fun s hs => (by cases hs), fun _ _ _ ht => ?_⟩
    cases ht
    exact hdead
  | terminate id s s₀ t hfind => exact .of_free rfl (by simp)

theorem Backed.other {w : SessionRace C P} {m' : SessionManager C P} {p p' q : SessionPhase C P}
    (hm : Move w.shared p m' p') (hp : Backed w.shared p) (hfair : w.Fair p) (hq : q ∈ w.calls)
    (h : Backed w.shared q) : Backed m' q := by
  cases hm with
  | answer _ a _ hstore hconfig => exact ⟨fun id hid => hstore ▸ h.stored id hid, h.copy, h.dead⟩
  | countGlobal c hg => exact h
  | countUser c hu => exact h
  | insert c hfind => exact h.put (.inl c.session_live)
  | insertEnv c =>
    exact ⟨fun id hid => (Creator.insertEnv_store w.shared c) ▸ h.stored id hid, h.copy, h.dead⟩
  | activate c s hfind => exact h.put (.inl c.activated_live)
  | readLive r s s' hr hfind hlive hlive' => exact h
  | rewrite s s₀ hfind => exact h.put (.inl (hp.copy s rfl))
  | update s s₀ hlive hfind => exact h.put (.inl hlive)
  | readTerminate r hr id s t hdead => exact h
  | terminate id s s₀ t hfind => exact h.put (.inr (hfair.terminate id s t rfl q hq))

/-- A terminated session stays terminated through one access. -/
theorem terminatedAt_next {w : SessionRace C P} {m' : SessionManager C P}
    {p p' : SessionPhase C P} (hm : Move w.shared p m' p') (hp : Backed w.shared p)
    (hfair : w.Fair p) {id : SessionId} (h : terminatedAt w.shared.store id = true) :
    terminatedAt m'.store id = true := by
  -- a session that is written over is not this one, or is written as terminated
  have hput : ∀ s : Session, (s.sessionId = id → terminatedAt w.shared.store s.sessionId = false ∨
      s.live = false) → terminatedAt (w.shared.store.put s) id = true := by
    intro s hs
    rw [terminatedAt_put]
    by_cases hid : s.sessionId = id
    · rw [if_pos hid]
      rcases hs hid with hs | hs
      · rw [hid, h] at hs
        cases hs
      · rw [hs]
        rfl
    · rw [if_neg hid]
      exact h
  cases hm with
  | answer _ a _ hstore hconfig => exact hstore ▸ h
  | countGlobal c hg => exact h
  | countUser c hu => exact h
  | insert c hfind =>
    exact hput _ fun _ => .inl (by rw [Creator.session_sessionId]; exact terminatedAt_of_none hfind)
  | insertEnv c => exact (Creator.insertEnv_store w.shared c) ▸ h
  | activate c s hfind =>
    exact hput _ fun _ => .inl (by rw [Creator.activated_sessionId]; exact hp.stored _ rfl)
  | readLive r s s' hr hfind hlive hlive' => exact h
  | rewrite s s₀ hfind => exact hput s fun _ => .inl (hp.stored _ rfl)
  | update s s₀ hlive hfind => exact hput s fun _ => .inl (hfair.update s rfl)
  | readTerminate r hr id s t hdead => exact h
  | terminate id s s₀ t hfind => exact hput s fun _ => .inr (hp.dead id s t rfl)

theorem backed_step {w : SessionRace C P} {a : Act C P} (ha : w.apart a = true)
    (h : ∀ q ∈ w.calls, Backed w.shared q) :
    ∀ q ∈ (w.step a).calls, Backed (w.step a).shared q := by
  refine Pool.forall_calls_step h (fun r => .of_free rfl (by simp)) ?_ ?_
  · rintro i p rfl hi hp
    exact hp.self (next_move w.shared p)
  · rintro i p rfl hi hp q hq hqb
    exact Backed.other (next_move w.shared p) hp (fair_of_apart ha hi) hq hqb

theorem terminatedAt_step {w : SessionRace C P} {a : Act C P} (ha : w.apart a = true)
    (h : ∀ q ∈ w.calls, Backed w.shared q) {id : SessionId}
    (ht : terminatedAt w.shared.store id = true) :
    terminatedAt (w.step a).shared.store id = true := by
  rcases Pool.step_cases SessionPhase.call next w a with
    ⟨r, -, he⟩ | ⟨i, -, -, he⟩ | ⟨i, p, rfl, hi, he⟩
  · rw [step, he]
    exact ht
  · rw [step, he]
    exact ht
  · rw [step, he]
    exact terminatedAt_next (next_move w.shared p) (h p (List.mem_of_getElem? hi)) (fair_of_apart ha hi) ht

open SessionManager (testCall)

/-- The first call begins and runs to its end. -/
def testCreated : List (Act Unit Unit) :=
  .enter (.create (.clips (testCall "sess-1"))) :: List.replicate 5 (.step 0)

def testActs : List (Act Unit Unit) :=
  testCreated ++ [.enter (.terminateSession "sess-1" 1), .step 1, .step 1, .step 1]

/-- The caller of `create` writes its copy back after another has terminated the session. -/
def testStale : List (Act Unit Unit) :=
  [.enter (.updateSession ((testCall "sess-1").session .clips |>.activate 0)), .step 2]

section Limits

/-- Only creators begin. -/
def creates : Act C P → Bool
  | .enter (.create _) => true
  | .enter _ => false
  | .step _ => true

/-- A creator passes a limit only when there is room for it beside the creators in flight that
have passed the limit and have not inserted yet. -/
def reserved (w : SessionRace C P) : Act C P → Bool
  | .enter _ => true
  | .step i =>
    match w.calls[i]? with
    | some (.call (.create _)) =>
      decide (w.shared.config.maxConcurrentSessions ≤ w.shared.store.countActive) ||
        decide (w.shared.store.countActive + w.calls.countP counted <
          w.shared.config.maxConcurrentSessions)
    | some (.countUser c) =>
      decide (w.shared.config.maxSessionsPerUser ≤ w.shared.store.countUserSessions c.userId) ||
        decide (w.shared.store.countUserSessions c.userId + w.calls.countP (countedFor c.userId) <
          w.shared.config.maxSessionsPerUser)
    | _ => true

/-- A call of a creator, and that what it has inserted is there. -/
def Creating (m : SessionManager C P) : SessionPhase C P → Prop
  | .call (.create _) | .countUser _ | .insert _ | .answered _ => True
  | .insertEnv c | .activate c =>
    ∃ s, m.store.find c.sessionId = some s ∧ s.userId = c.userId
  | _ => False

/-- The sessions stored and those about to be, against the limits. -/
structure Within (config : ManagerConfig) (w : SessionRace C P) : Prop where
  same : w.shared.config = config
  creating : ∀ q ∈ w.calls, Creating w.shared q
  all : w.shared.store.countActive + w.calls.countP counted ≤ config.maxConcurrentSessions
  user : ∀ userId, w.shared.store.countUserSessions userId + w.calls.countP (countedFor userId) ≤
    config.maxSessionsPerUser

theorem within_start (config : ManagerConfig) : Within config (start config : SessionRace C P) :=
  ⟨rfl, fun _ hq => absurd hq List.not_mem_nil, Nat.zero_le _, fun _ => Nat.zero_le _⟩

/-- What a creator has inserted is still there after a session is written that is new, or that
has the user it had. -/
theorem Creating.put {m : SessionManager C P} {s : Session}
    (hs : ∀ s₀, m.store.find s.sessionId = some s₀ → s.userId = s₀.userId)
    {q : SessionPhase C P} (h : Creating m q) : Creating { m with store := m.store.put s } q := by
  have hkeep : ∀ c : Creator C P, (∃ s₀, m.store.find c.sessionId = some s₀ ∧
      s₀.userId = c.userId) → ∃ s₀, (m.store.put s).find c.sessionId = some s₀ ∧
        s₀.userId = c.userId := by
    rintro c ⟨s₀, hfind, huser⟩
    rw [SessionStore.find_put]
    by_cases hid : s.sessionId = c.sessionId
    · rw [if_pos hid]
      exact ⟨s, rfl, (hs s₀ (hid ▸ hfind)).trans huser⟩
    · rw [if_neg hid]
      exact ⟨s₀, hfind, huser⟩
  cases q with
  | insertEnv c => exact hkeep c h
  | activate c => exact hkeep c h
  | call r => cases r <;> exact h
  | _ => exact h

theorem Creating.other {m m' : SessionManager C P} {p p' q : SessionPhase C P}
    (hm : Move m p m' p') (hp : Creating m p) (h : Creating m q) : Creating m' q := by
  have hstore : ∀ {m' : SessionManager C P}, m'.store = m.store → Creating m' q := by
    intro m' he
    unfold Creating at h ⊢
    rw [he]
    exact h
  cases hm with
  | answer _ a _ he _ => exact hstore he
  | countGlobal c hg => exact h
  | countUser c hu => exact h
  | insert c hfind =>
    refine h.put fun s₀ hs₀ => ?_
    rw [Creator.session_sessionId, hfind] at hs₀
    cases hs₀
  | insertEnv c => exact hstore (c.insertEnv_store m)
  | activate c s hfind =>
    obtain ⟨s₁, hs₁, huser⟩ := hp
    refine h.put fun s₀ hs₀ => ?_
    rw [Creator.activated_sessionId, hs₁] at hs₀
    cases hs₀
    exact c.activated_userId.trans huser.symm
  | readLive r s s' hr _ _ _ => exact h
  | rewrite s s₀ hfind => exact hp.elim
  | update s s₀ _ hfind => exact hp.elim
  | readTerminate r hr id s t hdead => exact h
  | terminate id s s₀ t hfind => exact hp.elim

theorem Creating.not_call {m : SessionManager C P} {r : SessionRequest C P}
    (h : Creating m (.call r)) (hr : ∀ c, r ≠ .create c) : False := by
  cases r with
  | create c => exact hr c rfl
  | _ => exact h

theorem Creating.self {m m' : SessionManager C P} {p p' : SessionPhase C P}
    (hm : Move m p m' p') (hp : Creating m p) : Creating m' p' := by
  cases hm with
  | answer _ a _ _ _ => trivial
  | countGlobal c hg => trivial
  | countUser c hu => trivial
  | insert c hfind =>
    exact ⟨c.session, by simp [SessionStore.find_put], c.session_userId⟩
  | insertEnv c =>
    obtain ⟨s, hfind, huser⟩ := hp
    exact ⟨s, by rw [c.insertEnv_store, hfind], huser⟩
  | activate c s hfind => trivial
  | readLive r s s' hr _ _ _ => exact (hp.not_call hr).elim
  | rewrite s s₀ hfind => exact hp.elim
  | update s s₀ _ hfind => exact hp.elim
  | readTerminate r hr id s t hdead => exact (hp.not_call hr).elim
  | terminate id s s₀ t hfind => exact hp.elim

/-- One access of a creator does not raise the sessions stored and about to be inserted, unless
it passes a limit. -/
theorem count_next {m m' : SessionManager C P} {p p' : SessionPhase C P} (hm : Move m p m' p')
    (hp : Creating m p) :
    m'.config = m.config ∧
    ((∃ c, p = .call (.create c) ∧ ¬ m.globalFull ∧ m'.store.countActive = m.store.countActive) ∨
      m'.store.countActive + p'.counted.toNat ≤ m.store.countActive + p.counted.toNat) ∧
    ∀ userId, (∃ c, p = .countUser c ∧ c.userId = userId ∧ ¬ m.userFull userId ∧
        m'.store.countUserSessions userId = m.store.countUserSessions userId) ∨
      m'.store.countUserSessions userId + (p'.countedFor userId).toNat ≤
        m.store.countUserSessions userId + (p.countedFor userId).toNat := by
  cases hm with
  | answer _ a _ hstore hconfig =>
    refine ⟨hconfig, .inr ?_, fun userId => .inr ?_⟩
    · rw [hstore]
      exact Nat.add_le_add_left (Nat.zero_le _) _
    · rw [hstore]
      exact Nat.add_le_add_left (Nat.zero_le _) _
  | countGlobal c hg => exact ⟨rfl, .inl ⟨c, rfl, hg, rfl⟩, fun _ => .inr (Nat.le_refl _)⟩
  | countUser c hu =>
    refine ⟨rfl, .inr (Nat.le_refl _), fun userId => ?_⟩
    by_cases h : c.userId = userId
    · exact .inl ⟨c, rfl, h, h ▸ hu, rfl⟩
    · have hother : (c.userId == userId) = false := beq_eq_false_iff_ne.mpr h
      exact .inr (by simp [countedFor, hother])
  | insert c hfind =>
    obtain ⟨hall, huser⟩ := SessionStore.count_put_of_none (t := m.store) (s := c.session)
      (by simpa using hfind)
    refine ⟨rfl, .inr (Nat.le_of_eq ?_), fun userId => .inr (Nat.le_of_eq ?_)⟩
    · dsimp only
      rw [hall]
      rfl
    · dsimp only
      rw [huser, c.session_userId]
      rfl
  | insertEnv c =>
    rw [c.insertEnv_config, c.insertEnv_store]
    exact ⟨rfl, .inr (Nat.le_refl _), fun _ => .inr (Nat.le_refl _)⟩
  | activate c s hfind =>
    obtain ⟨s₀, hs₀, huser⟩ := hp
    obtain ⟨hall, huser⟩ := SessionStore.count_put_of_some (t := m.store) (s := c.activated)
      (by rw [c.activated_sessionId]; exact hs₀) (huser.trans c.activated_userId.symm)
    refine ⟨rfl, .inr (Nat.le_of_eq ?_), fun userId => .inr (Nat.le_of_eq ?_)⟩
    · dsimp only
      rw [hall]
      rfl
    · dsimp only
      rw [huser]
      rfl
  | readLive r s s' hr _ _ _ => exact (hp.not_call hr).elim
  | rewrite s s₀ hfind => exact hp.elim
  | update s s₀ _ hfind => exact hp.elim
  | readTerminate r hr id s t hdead => exact (hp.not_call hr).elim
  | terminate id s s₀ t hfind => exact hp.elim

/-- The check of a limit leaves room for those that have passed it before. -/
theorem room_of_reserved {w : SessionRace C P} {i : Nat} {p : SessionPhase C P}
    (h : w.reserved (.step i) = true) (hi : w.calls[i]? = some p) :
    (∀ c, p = .call (.create c) → ¬ w.shared.globalFull →
      w.shared.store.countActive + w.calls.countP counted <
        w.shared.config.maxConcurrentSessions) ∧
    ∀ c, p = .countUser c → ¬ w.shared.userFull c.userId →
      w.shared.store.countUserSessions c.userId + w.calls.countP (countedFor c.userId) <
        w.shared.config.maxSessionsPerUser := by
  constructor
  · rintro c rfl hg
    simp only [reserved, hi, Bool.or_eq_true, decide_eq_true_eq] at h
    exact h.resolve_left hg
  · rintro c rfl hu
    simp only [reserved, hi, Bool.or_eq_true, decide_eq_true_eq] at h
    exact h.resolve_left hu

theorem within_step {config : ManagerConfig} {w : SessionRace C P} {a : Act C P}
    (hcreates : creates a = true) (ha : w.reserved a = true) (h : Within config w) :
    Within config (w.step a) := by
  rcases Pool.step_cases SessionPhase.call next w a with
    ⟨r, rfl, he⟩ | ⟨i, -, -, he⟩ | ⟨i, p, rfl, hi, he⟩
  · rw [step, he]
    cases r with
    | create c =>
      refine ⟨h.same, fun q hq => ?_, ?_, fun userId => ?_⟩
      · rcases List.mem_append.mp hq with hq | hq
        · exact h.creating q hq
        · rw [List.mem_singleton.mp hq]
          trivial
      · simpa [List.countP_append, counted] using h.all
      · simpa [List.countP_append, countedFor] using h.user userId
    | _ => cases hcreates
  · rw [step, he]
    exact h
  · have hp := h.creating p (List.mem_of_getElem? hi)
    have hmove := next_move w.shared p
    obtain ⟨hconfig, hall, huser⟩ := count_next hmove hp
    obtain ⟨hroom, hroomUser⟩ := room_of_reserved ha hi
    rw [step, he]
    refine ⟨hconfig.trans h.same, fun q hq => ?_, ?_, fun userId => ?_⟩
    · rcases List.mem_or_eq_of_mem_set hq with hq | rfl
      · exact Creating.other hmove hp (h.creating q hq)
      · exact Creating.self hmove hp
    · have hset := Pool.countP_set (f := counted) hi (next w.shared p).2
      have hold := h.all
      dsimp only
      rcases hall with ⟨c, rfl, hg, hsame⟩ | hle
      · have := hroom c rfl hg
        have hbit := Bool.toNat_le (counted (next w.shared (.call (.create c))).2)
        rw [h.same] at this
        omega
      · omega
    · have hset := Pool.countP_set (f := countedFor userId) hi (next w.shared p).2
      have hold := h.user userId
      dsimp only
      rcases huser userId with ⟨c, rfl, rfl, hu, hsame⟩ | hle
      · have := hroomUser c rfl hu
        have hbit := Bool.toNat_le (countedFor c.userId (next w.shared (.countUser c)).2)
        rw [h.same] at this
        omega
      · omega

/-- In every interleaving of creators in which each passes a limit with room left for those in
flight, the sessions stored never exceed the limits, in any state on the way. -/
theorem limits_hold_concurrently (config : ManagerConfig) (acts : List (Act C P))
    (hcreates : ∀ a ∈ acts, creates a = true)
    (h : ∀ x ∈ visits step (start config) acts, x.1.reserved x.2 = true) (n : Nat) :
    let m := (run step (start config) (acts.take n)).shared
    m.store.countActive ≤ config.maxConcurrentSessions ∧
      ∀ userId, m.store.countUserSessions userId ≤ config.maxSessionsPerUser := by
  intro m
  have hwithin : Within config (run step (start config) (acts.take n)) := by
    refine run_invariant (P := Within config)
      (C := fun w a => creates a = true ∧ w.reserved a = true)
      (fun w a ha hw => within_step ha.1 ha.2 hw) (fun x hx => ?_) (within_start config)
    have hmem : x.2 ∈ acts.take n := by
      rw [← visits_map_snd step (start config) (acts.take n)]
      exact List.mem_map_of_mem hx
    refine ⟨hcreates x.2 (List.mem_of_mem_take hmem), h x ?_⟩
    rw [← List.take_append_drop n acts, visits_append]
    exact List.mem_append_left _ hx
  exact ⟨Nat.le_trans (Nat.le_add_right _ _) hwithin.all,
    fun userId => Nat.le_trans (Nat.le_add_right _ _) (hwithin.user userId)⟩

/-- Two creators of one user, one after the other. -/
def testInTurn : List (Act Unit Unit) :=
  testCreated ++ .enter (.create (.prolog (testCall "sess-2"))) :: List.replicate 5 (.step 1)

theorem limits_hold_in_turn :
    (∀ x ∈ visits step (start ⟨2, 2⟩) testInTurn, x.1.reserved x.2 = true) ∧
    (run step (start ⟨2, 2⟩) (testInTurn.take 12)).shared.store.countActive ≤ 2 := by
  have h : ∀ x ∈ visits step (start ⟨2, 2⟩) testInTurn, x.1.reserved x.2 = true := by
    decide +kernel
  exact ⟨h, (limits_hold_concurrently ⟨2, 2⟩ testInTurn (by decide) h 12).1⟩

/-- The second creator counts before the first inserts. -/
def testTogether : List (Act Unit Unit) :=
  [.enter (.create (.clips (testCall "sess-1"))), .enter (.create (.prolog (testCall "sess-2"))),
    .step 0, .step 1, .step 0, .step 1, .step 0, .step 1]

theorem limits_fail_together :
    (run step (start ⟨1, 1⟩) testTogether).shared.store.countActive = 2 ∧
    (run step (start ⟨1, 1⟩) testTogether).shared.store.countUserSessions "user-1" = 2 := by
  decide +kernel

end Limits

end SessionRace
end Cerebellum
