import Cerebellum.Json
import Cerebellum.Envelope
import Cerebellum.Lib.Keyed
import Cerebellum.Lib.OrderBy
import Cerebellum.Lib.Issue
import Cerebellum.Lib.JsonText
import Cerebellum.Lib.Transition
import Mathlib.Logic.Function.Basic
import Mathlib.Data.List.Induction

/-! `RitualRegistry`: rituals in memory, written through to the `rituals` table, and read back
from it after a restart. -/
namespace Cerebellum
open Transition

structure RitualConfig where
  name : String
  participants : List String
  deriving DecidableEq

inductive RitualState where
  | active
  | terminated
  deriving DecidableEq, Repr

namespace RitualState

def asStr : RitualState → String
  | active => "active"
  | terminated => "terminated"

def fromStr (s : String) : Option RitualState :=
  if s = "active" then some active
  else if s = "terminated" then some terminated
  else none

/-- `Debug` of a state. -/
def debug : RitualState → String
  | active => "Active"
  | terminated => "Terminated"

@[simp] theorem fromStr_asStr (s : RitualState) : fromStr s.asStr = some s := by
  cases s <;> decide

end RitualState

/-- Why Kafka refuses a topic name. -/
inductive TopicFault where
  | reserved
  | tooLong (length : Nat)
  | illegalCharacter (ch : Char)
  deriving DecidableEq

inductive RitualError where
  | invalidTopicName (fault : TopicFault) (name : String)
  | topicNotFound (topic : String)
  | brokerError (text : String)
  deriving DecidableEq

def isTopicChar (ch : Char) : Bool :=
  ('a' ≤ ch && ch ≤ 'z') || ('A' ≤ ch && ch ≤ 'Z') || ('0' ≤ ch && ch ≤ '9') ||
    ch == '.' || ch == '-' || ch == '_'

def validateTopicName (name : String) : Except RitualError Unit :=
  if name = "" ∨ name = "." ∨ name = ".." then .error (.invalidTopicName .reserved name)
  else if 249 < name.utf8ByteSize then
    .error (.invalidTopicName (.tooLong name.utf8ByteSize) name)
  else
    match name.toList.find? fun ch => !isTopicChar ch with
    | some ch => .error (.invalidTopicName (.illegalCharacter ch) name)
    | none => .ok ()

def topicName (disDomain : String) (ritualId : Uuid) : Except RitualError String :=
  let domain := String.ofList (disDomain.toList.map fun ch => if ch = '/' then '.' else ch)
  let name := domain ++ ".ritual." ++ ritualId.toText
  (validateTopicName name).map fun _ => name

/-- Participant keys and the performance ids issued for them. -/
abbrev Participants := List (String × Uuid)

structure Ritual where
  ritualId : Uuid
  config : RitualConfig
  state : RitualState
  topic : String
  participants : Participants

/-- A row of the `rituals` table. -/
structure RitualRow where
  ritualId : Uuid
  name : String
  configJson : String
  state : String
  topic : String
  participantsJson : String
  createdAtMs : Int
  updatedAtMs : Int

/-- `serde_json` on configs and participant maps. A map that is read back has the same entries,
in whatever order. -/
structure RitualCodec where
  configToString : RitualConfig → String
  configFromStr : String → Option RitualConfig
  participantsToString : Participants → String
  participantsFromStr : String → Option Participants
  configFromStr_toString : ∀ c, configFromStr (configToString c) = some c
  participants_nil : participantsToString [] = "{}"
  participantsFromStr_toString : ∀ m, ∃ m', participantsFromStr (participantsToString m) = some m' ∧
    ∀ k, Fields.get k m' = Fields.get k m

/-- The texts `serde_json` writes, and a reader of them. -/
def RitualCodec.json : RitualCodec :=
  let config : JsonText.Format RitualConfig :=
    (JsonText.string.pair ",\"participants\":".toList JsonText.strings
      |>.between "\x7b\"name\":".toList "\x7d".toList).via
      (fun c => (c.name, c.participants)) (fun p => some ⟨p.1, p.2⟩) fun _ => rfl
  let participants : JsonText.Format Participants :=
    JsonText.object (JsonText.string.via Uuid.toText Uuid.parseStr Uuid.parseStr_toText)
  { configToString := config.toText
    configFromStr := config.fromText
    participantsToString := participants.toText
    participantsFromStr := participants.fromText
    configFromStr_toString := config.fromText_toText
    participants_nil := rfl
    participantsFromStr_toString m := ⟨m, participants.fromText_toText m, fun _ => rfl⟩ }

/-- What the registry takes from outside: its domain, the codec, `Uuid::new_v4`, and the order
rows come in that were created in one millisecond. -/
structure RitualEnv where
  disDomain : String
  codec : RitualCodec
  uuid : Nat → Uuid
  uuidNew : Function.Injective uuid
  loadOrder : OrderBy RitualRow.createdAtMs

/-- The map in memory. -/
structure RitualMap where
  rituals : List Ritual
  keys : (rituals.map Ritual.ritualId).Nodup

namespace RitualMap

def new : RitualMap := ⟨[], List.nodup_nil⟩

def get (m : RitualMap) (id : Uuid) : Option Ritual := Keyed.find Ritual.ritualId m.rituals id

def insert (m : RitualMap) (r : Ritual) : RitualMap where
  rituals := Keyed.upsert Ritual.ritualId Keyed.overwrite m.rituals r
  keys := Keyed.nodup_upsert (fun _ _ h => h.symm) m.keys r

theorem get_insert (m : RitualMap) (r : Ritual) (id : Uuid) :
    (m.insert r).get id = if r.ritualId = id then some r else m.get id :=
  Keyed.find_overwrite m.rituals r id

end RitualMap

/-- The `rituals` table. -/
structure RitualTable where
  rows : List RitualRow
  primaryKey : (rows.map RitualRow.ritualId).Nodup

namespace RitualTable

def new : RitualTable := ⟨[], List.nodup_nil⟩

def get (t : RitualTable) (id : Uuid) : Option RitualRow := Keyed.find RitualRow.ritualId t.rows id

/-- `INSERT … ON CONFLICT (ritual_id) DO UPDATE SET` of every column. -/
def upsertRitual (t : RitualTable) (row : RitualRow) : RitualTable where
  rows := Keyed.upsert RitualRow.ritualId Keyed.overwrite t.rows row
  primaryKey := Keyed.nodup_upsert (fun _ _ h => h.symm) t.primaryKey row

/-- `UPDATE rituals SET … WHERE ritual_id = ?`: nothing happens when there is no such row. -/
def update (t : RitualTable) (id : Uuid) (set : RitualRow → RitualRow)
    (hset : ∀ row, (set row).ritualId = row.ritualId) : RitualTable where
  rows := t.rows.map fun row => if row.ritualId = id then set row else row
  primaryKey := by
    have hkeys : (t.rows.map fun row => if row.ritualId = id then set row else row).map
        RitualRow.ritualId = t.rows.map RitualRow.ritualId := by
      rw [List.map_map]
      refine List.map_congr_left fun row _ => ?_
      by_cases h : row.ritualId = id
      · simp [h, hset]
      · simp [h]
    rw [hkeys]
    exact t.primaryKey

def setRitualState (t : RitualTable) (id : Uuid) (state : String) (now : Int) : RitualTable :=
  t.update id (fun row => { row with state := state, updatedAtMs := now }) fun _ => rfl

def setRitualParticipants (t : RitualTable) (id : Uuid) (participantsJson : String) (now : Int) :
    RitualTable :=
  t.update id (fun row => { row with participantsJson := participantsJson, updatedAtMs := now })
    fun _ => rfl

/-- All rows, oldest first. -/
def loadRituals (ord : OrderBy RitualRow.createdAtMs) (t : RitualTable) : List RitualRow :=
  ord.sort t.rows

theorem get_upsertRitual (t : RitualTable) (row : RitualRow) (id : Uuid) :
    (t.upsertRitual row).get id = if row.ritualId = id then some row else t.get id :=
  Keyed.find_overwrite t.rows row id

theorem get_update (t : RitualTable) (id : Uuid) {set : RitualRow → RitualRow}
    (hset : ∀ row, (set row).ritualId = row.ritualId) (x : Uuid) :
    (t.update id set hset).get x = if x = id then (t.get x).map set else t.get x := by
  unfold get Keyed.find update
  have hsame : (fun row => row.ritualId == x) ∘ (fun row => if row.ritualId = id then set row
      else row) = fun row : RitualRow => row.ritualId == x := by
    funext row
    by_cases h : row.ritualId = id
    · simp [h, hset]
    · simp [h]
  rw [List.find?_map, hsame]
  cases hrow : t.rows.find? fun row => row.ritualId == x with
  | none => simp
  | some row =>
    have hid : row.ritualId = x := by simpa using List.find?_some hrow
    by_cases h : x = id
    · simp [hid, h]
    · simp [hid, h]

end RitualTable

/-- The registry and its store; `minted` counts the ids taken so far. -/
structure RitualServer where
  rituals : RitualMap
  table : RitualTable
  minted : Nat

namespace RitualServer

def new : RitualServer := ⟨RitualMap.new, RitualTable.new, 0⟩

variable (E : RitualEnv) (s : RitualServer)

/-- The row `create` writes. -/
def createdRow (ritualId : Uuid) (config : RitualConfig) (topic : String) (now : Int) : RitualRow :=
  { ritualId := ritualId, name := config.name, configJson := E.codec.configToString config
    state := RitualState.active.asStr, topic := topic, participantsJson := "{}"
    createdAtMs := now, updatedAtMs := now }

/-- `ensure` is the error of the broker, if it has one. -/
def create (config : RitualConfig) (ensure : Option String) (now : Int) :
    Except RitualError Uuid × RitualServer :=
  let ritualId := E.uuid s.minted
  let s := { s with minted := s.minted + 1 }
  match topicName E.disDomain ritualId with
  | .error e => (.error e, s)
  | .ok topic =>
    match ensure with
    | some text => (.error (.brokerError text), s)
    | none =>
      (.ok ritualId, { s with
        rituals := s.rituals.insert ⟨ritualId, config, .active, topic, []⟩
        table := s.table.upsertRitual (createdRow E ritualId config topic now) })

def notActive (id : Uuid) (state : RitualState) : RitualError :=
  .brokerError ("ritual " ++ id.toText ++ " is not active (state: " ++ state.debug ++ ")")

def join (id : Uuid) (key : Option String) (now : Int) :
    Except RitualError RitualHandle × RitualServer :=
  match s.rituals.get id with
  | none => (.error (.topicNotFound id.toText), s)
  | some ritual =>
    if ritual.state ≠ .active then (.error (notActive id ritual.state), s)
    else
      match key with
      | none =>
        (.ok ⟨id, E.uuid s.minted, E.disDomain⟩, { s with minted := s.minted + 1 })
      | some key =>
        match Fields.get key ritual.participants with
        | some existing => (.ok ⟨id, existing, E.disDomain⟩, s)
        | none =>
          let fresh := E.uuid s.minted
          let participants := Fields.insert key fresh ritual.participants
          (.ok ⟨id, fresh, E.disDomain⟩,
            { rituals := s.rituals.insert { ritual with participants := participants }
              table := s.table.setRitualParticipants id
                (E.codec.participantsToString participants) now
              minted := s.minted + 1 })

def terminate (id : Uuid) (now : Int) : Except RitualError Unit × RitualServer :=
  match s.rituals.get id with
  | none => (.error (.topicNotFound id.toText), s)
  | some ritual =>
    (.ok (), { s with
      rituals := s.rituals.insert { ritual with state := .terminated }
      table := s.table.setRitualState id RitualState.terminated.asStr now })

def getStatus (id : Uuid) : Option RitualState := (s.rituals.get id).map (·.state)

/-- The ritual a row stands for; a row whose state or config cannot be read is skipped, a
participant map that cannot be read is empty. -/
def restoreRow (c : RitualCodec) (row : RitualRow) : Option Ritual := do
  let state ← RitualState.fromStr row.state
  let config ← c.configFromStr row.configJson
  return ⟨row.ritualId, config, state, row.topic,
    (c.participantsFromStr row.participantsJson).getD []⟩

def restoreOne (c : RitualCodec) (p : Nat × RitualMap) (row : RitualRow) : Nat × RitualMap :=
  match restoreRow c row with
  | none => p
  | some ritual => (p.1 + 1, p.2.insert ritual)

def restoreFromStore : Nat × RitualServer :=
  let (restored, rituals) :=
    (s.table.loadRituals E.loadOrder).foldl (restoreOne E.codec) (0, s.rituals)
  (restored, { s with rituals := rituals })

/-- A fresh registry on the same store. -/
def restart : Nat × RitualServer := restoreFromStore E { s with rituals := RitualMap.new }

end RitualServer

/-- What a ritual is to its callers. -/
structure RitualRecord where
  config : RitualConfig
  state : RitualState
  topic : String
  participants : String → Option Uuid

def Ritual.record (r : Ritual) : RitualRecord :=
  ⟨r.config, r.state, r.topic, fun k => Fields.get k r.participants⟩

/-- The rituals as a map, and the ids taken so far. -/
structure RitualBook where
  record : Uuid → Option RitualRecord
  minted : Nat

def RitualMap.record (m : RitualMap) (id : Uuid) : Option RitualRecord :=
  (m.get id).map Ritual.record

def RitualServer.book (s : RitualServer) : RitualBook := ⟨s.rituals.record, s.minted⟩

theorem RitualMap.record_insert (m : RitualMap) (r : Ritual) :
    (m.insert r).record = Function.update m.record r.ritualId (some r.record) := by
  funext id
  rw [record, get_insert]
  by_cases h : r.ritualId = id
  · subst h
    simp
  · rw [if_neg h, Function.update_of_ne (Ne.symm h)]
    rfl

/-- The row says of a ritual what the memory says. -/
structure RitualRow.Holds (c : RitualCodec) (row : RitualRow) (r : Ritual) : Prop where
  name : row.name = r.config.name
  state : row.state = r.state.asStr
  topic : row.topic = r.topic
  config : c.configFromStr row.configJson = some r.config
  participants : ∃ m, c.participantsFromStr row.participantsJson = some m ∧
    ∀ k, Fields.get k m = Fields.get k r.participants

namespace RitualServer
variable {E : RitualEnv} {s : RitualServer}

/-- The rows of the store and the map in memory hold the same rituals. -/
def Mirrors (c : RitualCodec) (m : RitualMap) (t : RitualTable) : Prop :=
  ∀ id, (m.get id = none ∧ t.get id = none) ∨
    ∃ r row, m.get id = some r ∧ t.get id = some row ∧ row.Holds c r

theorem mirrors_new (c : RitualCodec) : Mirrors c RitualMap.new RitualTable.new :=
  fun _ => .inl ⟨rfl, rfl⟩

theorem Mirrors.row {c : RitualCodec} {m : RitualMap} {t : RitualTable} (h : Mirrors c m t)
    {id : Uuid} {r : Ritual} (hr : m.get id = some r) :
    ∃ row, t.get id = some row ∧ row.Holds c r := by
  rcases h id with ⟨hno, -⟩ | ⟨r', row, hr', hrow, hh⟩
  · rw [hno] at hr
    cases hr
  · rw [hr] at hr'
    cases hr'
    exact ⟨row, hrow, hh⟩

/-- Both sides written for one ritual. -/
theorem Mirrors.write {c : RitualCodec} {m m' : RitualMap} {t t' : RitualTable}
    (h : Mirrors c m t) {id : Uuid} {r : Ritual} {row : RitualRow}
    (hm : ∀ x, m'.get x = if id = x then some r else m.get x)
    (ht : ∀ x, t'.get x = if id = x then some row else t.get x) (hh : row.Holds c r) :
    Mirrors c m' t' := by
  intro x
  rw [hm, ht]
  by_cases hx : id = x
  · rw [if_pos hx, if_pos hx]
    exact .inr ⟨r, row, rfl, rfl, hh⟩
  · rw [if_neg hx, if_neg hx]
    exact h x

theorem ritualId_of_get {m : RitualMap} {id : Uuid} {r : Ritual} (h : m.get id = some r) :
    r.ritualId = id := (Keyed.mem_of_find h).2

/-- An `UPDATE` of a row that is there. -/
theorem get_update_of_row {t : RitualTable} {id : Uuid} {row : RitualRow}
    (hrow : t.get id = some row) {set : RitualRow → RitualRow}
    (hset : ∀ row, (set row).ritualId = row.ritualId) (x : Uuid) :
    (t.update id set hset).get x = if id = x then some (set row) else t.get x := by
  rw [RitualTable.get_update]
  by_cases hx : x = id
  · subst hx
    simp [hrow]
  · simp [hx, Ne.symm hx]

theorem get_setRitualState {t : RitualTable} {id : Uuid} {row : RitualRow}
    (hrow : t.get id = some row) (state : String) (now : Int) (x : Uuid) :
    (t.setRitualState id state now).get x =
      if id = x then some { row with state := state, updatedAtMs := now } else t.get x :=
  get_update_of_row hrow _ x

theorem get_setRitualParticipants {t : RitualTable} {id : Uuid} {row : RitualRow}
    (hrow : t.get id = some row) (json : String) (now : Int) (x : Uuid) :
    (t.setRitualParticipants id json now).get x =
      if id = x then some { row with participantsJson := json, updatedAtMs := now }
      else t.get x :=
  get_update_of_row hrow _ x

theorem holds_created (E : RitualEnv) (id : Uuid) (config : RitualConfig) (topic : String)
    (now : Int) :
    (createdRow E id config topic now).Holds E.codec ⟨id, config, .active, topic, []⟩ := by
  refine ⟨rfl, rfl, rfl, E.codec.configFromStr_toString config, ?_⟩
  obtain ⟨m, hm, hget⟩ := E.codec.participantsFromStr_toString []
  rw [E.codec.participants_nil] at hm
  exact ⟨m, hm, hget⟩

/-- A `create` that is refused has still taken an id. -/
theorem create_cases (E : RitualEnv) (s : RitualServer) (config : RitualConfig)
    (ensure : Option String) (now : Int) :
    (∃ e, s.create E config ensure now = (.error e, { s with minted := s.minted + 1 })) ∨
    ∃ topic, topicName E.disDomain (E.uuid s.minted) = .ok topic ∧
      s.create E config ensure now = (.ok (E.uuid s.minted),
      { rituals := s.rituals.insert ⟨E.uuid s.minted, config, .active, topic, []⟩
        table := s.table.upsertRitual (createdRow E (E.uuid s.minted) config topic now)
        minted := s.minted + 1 }) := by
  cases htopic : topicName E.disDomain (E.uuid s.minted) with
  | error e => exact .inl ⟨e, by simp only [create, htopic]⟩
  | ok topic =>
    cases ensure with
    | some text => exact .inl ⟨.brokerError text, by simp only [create, htopic]⟩
    | none => exact .inr ⟨topic, rfl, by simp only [create, htopic]⟩

theorem join_refused (E : RitualEnv) (s : RitualServer) (id : Uuid) (key : Option String)
    (now : Int) (h : ∀ r, s.rituals.get id = some r → r.state ≠ .active) :
    ∃ e, s.join E id key now = (.error e, s) := by
  unfold join
  cases hget : s.rituals.get id with
  | none => exact ⟨_, rfl⟩
  | some r => exact ⟨notActive id r.state, if_pos (h r hget)⟩

theorem join_active (E : RitualEnv) {s : RitualServer} {id : Uuid} {r : Ritual}
    (hget : s.rituals.get id = some r) (hr : r.state = .active) (key : Option String) (now : Int) :
    (key = none ∧ s.join E id key now =
      (.ok ⟨id, E.uuid s.minted, E.disDomain⟩, { s with minted := s.minted + 1 })) ∨
    (∃ k p, key = some k ∧ Fields.get k r.participants = some p ∧
      s.join E id key now = (.ok ⟨id, p, E.disDomain⟩, s)) ∨
    ∃ k, key = some k ∧ Fields.get k r.participants = none ∧
      s.join E id key now = (.ok ⟨id, E.uuid s.minted, E.disDomain⟩,
        { rituals := s.rituals.insert
            { r with participants := Fields.insert k (E.uuid s.minted) r.participants }
          table := s.table.setRitualParticipants id
            (E.codec.participantsToString (Fields.insert k (E.uuid s.minted) r.participants)) now
          minted := s.minted + 1 }) := by
  cases key with
  | none => exact .inl ⟨rfl, by simp only [join, hget, hr, ne_eq, not_true, if_false]⟩
  | some k =>
    cases hk : Fields.get k r.participants with
    | some p =>
      refine .inr (.inl ⟨k, p, rfl, hk, ?_⟩)
      simp only [join, hget, hr, hk, ne_eq, not_true, if_false]
    | none =>
      refine .inr (.inr ⟨k, rfl, hk, ?_⟩)
      simp only [join, hget, hr, hk, ne_eq, not_true, if_false]

/-- `joined` and `terminated` answer a join and a terminate, `restored` a restart. -/
inductive Answer where
  | created (id : Uuid)
  | joined (handle : RitualHandle)
  | terminated
  | restored (count : Nat)
  | refused (e : RitualError)

inductive Op where
  | create (config : RitualConfig) (ensure : Option String) (now : Int)
  | join (id : Uuid) (key : Option String) (now : Int)
  | terminate (id : Uuid) (now : Int)
  | restart

def answer {α : Type} (ok : α → Answer) (r : Except RitualError α × RitualServer) :
    Answer × RitualServer :=
  (match r.1 with
    | .ok a => ok a
    | .error e => .refused e, r.2)

/-- One call, to its end. -/
def exec (E : RitualEnv) (s : RitualServer) : Op → Answer × RitualServer
  | .create config ensure now => answer .created (s.create E config ensure now)
  | .join id key now => answer .joined (s.join E id key now)
  | .terminate id now => answer (fun _ => .terminated) (s.terminate id now)
  | .restart => (.restored (s.restart E).1, (s.restart E).2)

def step (E : RitualEnv) (s : RitualServer) (op : Op) : RitualServer := (exec E s op).2

/-- The calls of a run with their answers. -/
def history (E : RitualEnv) (s : RitualServer) (ops : List Op) : List (Op × Answer) :=
  (visits (step E) s ops).map fun v => (v.2, (exec E v.1 v.2).1)

theorem restoreRow_holds {c : RitualCodec} {row : RitualRow} {r : Ritual} (h : row.Holds c r) :
    ∃ r', restoreRow c row = some r' ∧ r'.ritualId = row.ritualId ∧ r'.record = r.record ∧
      row.Holds c r' := by
  obtain ⟨m, hm, hget⟩ := h.participants
  have hstate : RitualState.fromStr row.state = some r.state := by
    rw [h.state, RitualState.fromStr_asStr]
  refine ⟨⟨row.ritualId, r.config, r.state, row.topic, m⟩, ?_, rfl, ?_,
    ⟨h.name, h.state, rfl, h.config, ⟨m, hm, fun _ => rfl⟩⟩⟩
  · simp only [restoreRow, hstate, h.config, hm, Option.getD_some]
    rfl
  · simp only [Ritual.record, h.topic, hget]

/-- Rows with different ids that can all be read: each is counted, and found under its id. -/
theorem foldl_restoreOne {c : RitualCodec} {rows : List RitualRow}
    (hkeys : (rows.map RitualRow.ritualId).Nodup)
    (hok : ∀ row ∈ rows, ∃ r, restoreRow c row = some r ∧ r.ritualId = row.ritualId)
    (p : Nat × RitualMap) :
    (rows.foldl (restoreOne c) p).1 = p.1 + rows.length ∧
      ∀ id r, (rows.foldl (restoreOne c) p).2.get id = some r ↔
        (∃ row ∈ rows, row.ritualId = id ∧ restoreRow c row = some r) ∨
          (id ∉ rows.map RitualRow.ritualId ∧ p.2.get id = some r) := by
  induction rows generalizing p with
  | nil => simp
  | cons row rows ih =>
    obtain ⟨r₀, hr₀, hid⟩ := hok row (by simp)
    obtain ⟨hrow, hrows⟩ := List.nodup_cons.mp hkeys
    have hone : restoreOne c p row = (p.1 + 1, p.2.insert r₀) := by
      simp only [restoreOne, hr₀]
    obtain ⟨hcount, hget⟩ := ih hrows (fun x hx => hok x (List.mem_cons_of_mem _ hx))
      (p.1 + 1, p.2.insert r₀)
    rw [List.foldl_cons, hone]
    refine ⟨by rw [hcount, List.length_cons]; omega, fun id r => ?_⟩
    rw [hget, RitualMap.get_insert, hid, List.exists_mem_cons_iff, List.map_cons, List.mem_cons,
      not_or, hr₀]
    by_cases h : row.ritualId = id
    · subst h
      have hno : ¬ ∃ x ∈ rows, x.ritualId = row.ritualId ∧ restoreRow c x = some r :=
        fun ⟨x, hx, he, _⟩ => hrow (he ▸ List.mem_map_of_mem hx)
      simp [hno, hrow]
    · simp [h, Ne.symm h]

theorem mem_loadRituals (ord : OrderBy RitualRow.createdAtMs) {t : RitualTable} {row : RitualRow} :
    row ∈ t.loadRituals ord ↔ t.get row.ritualId = some row := by
  rw [RitualTable.loadRituals, OrderBy.mem_sort, RitualTable.get,
    Keyed.find_eq_some_iff t.primaryKey]
  simp

theorem Mirrors.readable {c : RitualCodec} {m : RitualMap} {t : RitualTable} (h : Mirrors c m t)
    {row : RitualRow} (hrow : t.get row.ritualId = some row) :
    ∃ r r', m.get row.ritualId = some r ∧ restoreRow c row = some r' ∧
      r'.ritualId = row.ritualId ∧ r'.record = r.record ∧ row.Holds c r' := by
  rcases h row.ritualId with ⟨-, hno⟩ | ⟨r, row', hr, hrow', hh⟩
  · rw [hno] at hrow
    cases hrow
  · rw [hrow] at hrow'
    cases hrow'
    obtain ⟨r', hr', hid, hrec, hh'⟩ := restoreRow_holds hh
    exact ⟨r, r', hr, hr', hid, hrec, hh'⟩

/-- Memory after a restart is what the rows say, and all of them are counted. -/
theorem Mirrors.restored (h : Mirrors E.codec s.rituals s.table) :
    (s.restart E).1 = s.table.rows.length ∧
      ∀ id, (s.restart E).2.rituals.get id = (s.table.get id).bind (restoreRow E.codec) := by
  have hload : (s.table.loadRituals E.loadOrder).Perm s.table.rows := E.loadOrder.perm _
  have hkeys : ((s.table.loadRituals E.loadOrder).map RitualRow.ritualId).Nodup :=
    (hload.map _).nodup_iff.mpr s.table.primaryKey
  obtain ⟨hcount, hget⟩ := foldl_restoreOne (c := E.codec) hkeys
    (fun row hrow => by
      obtain ⟨_, r', _, hr', hid, _⟩ := h.readable ((mem_loadRituals _).mp hrow)
      exact ⟨r', hr', hid⟩) (0, RitualMap.new)
  refine ⟨hcount.trans (by rw [hload.length_eq, Nat.zero_add]), fun id => Option.ext fun r => ?_⟩
  refine (hget id r).trans ?_
  rw [Option.bind_eq_some_iff]
  constructor
  · rintro (⟨row, hrow, rfl, hr⟩ | ⟨-, hnew⟩)
    · exact ⟨row, (mem_loadRituals _).mp hrow, hr⟩
    · cases hnew
  · rintro ⟨row, hrow, hr⟩
    obtain rfl : row.ritualId = id := (Keyed.mem_of_find hrow).2
    exact .inl ⟨row, (mem_loadRituals _).mpr hrow, rfl, hr⟩

/-- The rows come back as the rituals they were written for. -/
theorem Mirrors.restart (h : Mirrors E.codec s.rituals s.table) :
    (s.restart E).2.book = s.book ∧ Mirrors E.codec (s.restart E).2.rituals s.table := by
  have hget := h.restored.2
  have hcases : ∀ id, ((s.restart E).2.rituals.record id = s.rituals.record id) ∧
      (((s.restart E).2.rituals.get id = none ∧ s.table.get id = none) ∨ ∃ r row,
        (s.restart E).2.rituals.get id = some r ∧ s.table.get id = some row ∧
          row.Holds E.codec r) := by
    intro id
    unfold RitualMap.record
    rw [hget]
    cases hrow : s.table.get id with
    | none =>
      rcases h id with ⟨hno, -⟩ | ⟨_, row, _, hrow', _⟩
      · exact ⟨by rw [hno]; rfl, .inl ⟨rfl, rfl⟩⟩
      · rw [hrow] at hrow'
        cases hrow'
    | some row =>
      obtain rfl : row.ritualId = id := (Keyed.mem_of_find hrow).2
      obtain ⟨r, r', hr, hr', -, hrec, hh⟩ := h.readable hrow
      rw [hr, Option.bind_some, hr']
      exact ⟨by rw [Option.map_some, Option.map_some, hrec], .inr ⟨r', row, rfl, rfl, hh⟩⟩
  refine ⟨?_, fun id => (hcases id).2⟩
  have hrecord : (s.restart E).2.rituals.record = s.rituals.record :=
    funext fun id => (hcases id).1
  unfold book
  rw [hrecord]
  rfl

/-- Everything one call can do to the rituals, seen as a map. -/
inductive Move (E : RitualEnv) (b : RitualBook) : Op → Answer → RitualBook → Prop
  | created (config : RitualConfig) (ensure : Option String) (now : Int) (topic : String) :
    Move E b (.create config ensure now) (.created (E.uuid b.minted))
      ⟨Function.update b.record (E.uuid b.minted) (some ⟨config, .active, topic, fun _ => none⟩),
        b.minted + 1⟩
  | uncreated (config : RitualConfig) (ensure : Option String) (now : Int) (e : RitualError) :
    Move E b (.create config ensure now) (.refused e) ⟨b.record, b.minted + 1⟩
  | unjoined (id : Uuid) (key : Option String) (now : Int) (e : RitualError)
      (h : ∀ r, b.record id = some r → r.state ≠ .active) :
    Move E b (.join id key now) (.refused e) b
  | unkeyed (id : Uuid) (now : Int) (r : RitualRecord) (h : b.record id = some r)
      (hr : r.state = .active) :
    Move E b (.join id none now) (.joined ⟨id, E.uuid b.minted, E.disDomain⟩)
      ⟨b.record, b.minted + 1⟩
  | rejoined (id : Uuid) (key : String) (now : Int) (r : RitualRecord) (p : Uuid)
      (h : b.record id = some r) (hr : r.state = .active) (hp : r.participants key = some p) :
    Move E b (.join id (some key) now) (.joined ⟨id, p, E.disDomain⟩) b
  | enrolled (id : Uuid) (key : String) (now : Int) (r : RitualRecord)
      (h : b.record id = some r) (hr : r.state = .active) (hp : r.participants key = none) :
    Move E b (.join id (some key) now) (.joined ⟨id, E.uuid b.minted, E.disDomain⟩)
      ⟨Function.update b.record id (some { r with
        participants := Function.update r.participants key (some (E.uuid b.minted)) }),
        b.minted + 1⟩
  | unterminated (id : Uuid) (now : Int) (e : RitualError) (h : b.record id = none) :
    Move E b (.terminate id now) (.refused e) b
  | terminated (id : Uuid) (now : Int) (r : RitualRecord) (h : b.record id = some r) :
    Move E b (.terminate id now) .terminated
      ⟨Function.update b.record id (some { r with state := .terminated }), b.minted⟩
  | restarted (count : Nat) : Move E b .restart (.restored count) b

/-- A call makes a move, and leaves memory and store in agreement. -/
def Refines (E : RitualEnv) (s : RitualServer) (op : Op) (p : Answer × RitualServer) : Prop :=
  Move E s.book op p.1 p.2.book ∧ Mirrors E.codec p.2.rituals p.2.table

theorem record_of_get {id : Uuid} {r : Ritual} (h : s.rituals.get id = some r) :
    s.book.record id = some r.record := by
  simp only [book, RitualMap.record, h, Option.map_some]

theorem get_of_record {id : Uuid} {r : RitualRecord} (h : s.book.record id = some r) :
    ∃ x, s.rituals.get id = some x ∧ x.record = r := Option.map_eq_some_iff.mp h

theorem create_move (h : Mirrors E.codec s.rituals s.table) (config : RitualConfig)
    (ensure : Option String) (now : Int) :
    Refines E s (.create config ensure now) (answer .created (s.create E config ensure now)) := by
  rcases create_cases E s config ensure now with ⟨e, he⟩ | ⟨topic, -, he⟩
  · rw [he]
    exact ⟨.uncreated config ensure now e, h⟩
  · rw [he]
    constructor
    · dsimp only [answer, book]
      rw [RitualMap.record_insert]
      exact .created config ensure now topic
    · exact h.write (RitualMap.get_insert _ _) (RitualTable.get_upsertRitual _ _)
        (holds_created E (E.uuid s.minted) config topic now)

theorem record_enrolled (r : Ritual) (k : String) (p : Uuid) :
    { r with participants := Fields.insert k p r.participants : Ritual }.record =
      { r.record with participants := Function.update r.record.participants k (some p) } := by
  have hget : (fun l => Fields.get l (Fields.insert k p r.participants)) =
      Function.update (fun l => Fields.get l r.participants) k (some p) := by
    funext l
    rw [Fields.get_insert, Function.update_apply]
  simp only [Ritual.record, hget]

theorem join_move (h : Mirrors E.codec s.rituals s.table) (id : Uuid) (key : Option String)
    (now : Int) : Refines E s (.join id key now) (answer .joined (s.join E id key now)) := by
  by_cases hact : ∃ r, s.rituals.get id = some r ∧ r.state = .active
  · obtain ⟨r, hget, hr⟩ := hact
    have hrec := record_of_get hget
    rcases join_active E hget hr key now with ⟨rfl, he⟩ | ⟨k, p, rfl, hp, he⟩ | ⟨k, rfl, hp, he⟩
    · rw [he]
      exact ⟨.unkeyed id now _ hrec hr, h⟩
    · rw [he]
      exact ⟨.rejoined id k now _ p hrec hr hp, h⟩
    · rw [he]
      obtain rfl := ritualId_of_get hget
      constructor
      · dsimp only [answer, book]
        rw [RitualMap.record_insert, record_enrolled]
        exact .enrolled r.ritualId k now _ hrec hr hp
      · obtain ⟨row, hrow, hh⟩ := h.row hget
        exact h.write (RitualMap.get_insert _ _) (get_setRitualParticipants hrow _ now)
          ⟨hh.name, hh.state, hh.topic, hh.config, E.codec.participantsFromStr_toString _⟩
  · obtain ⟨e, he⟩ := join_refused E s id key now
      fun r hget hr => hact ⟨r, hget, hr⟩
    rw [he]
    refine ⟨.unjoined id key now e fun r hrec hr => ?_, h⟩
    obtain ⟨x, hx, rfl⟩ := get_of_record hrec
    exact hact ⟨x, hx, hr⟩

theorem terminate_move (h : Mirrors E.codec s.rituals s.table) (id : Uuid) (now : Int) :
    Refines E s (.terminate id now) (answer (fun _ => .terminated) (s.terminate id now)) := by
  unfold RitualServer.terminate
  cases hget : s.rituals.get id with
  | none =>
    refine ⟨.unterminated id now _ ?_, h⟩
    simp only [book, RitualMap.record, hget, Option.map_none]
  | some r =>
    obtain rfl := ritualId_of_get hget
    constructor
    · dsimp only [answer, book]
      rw [RitualMap.record_insert]
      exact .terminated r.ritualId now _ (record_of_get hget)
    · obtain ⟨row, hrow, hh⟩ := h.row hget
      exact h.write (RitualMap.get_insert _ _) (get_setRitualState hrow _ now)
        ⟨hh.name, rfl, hh.topic, hh.config, hh.participants⟩

theorem exec_refines (h : Mirrors E.codec s.rituals s.table) (op : Op) :
    Refines E s op (exec E s op) := by
  cases op with
  | create config ensure now => exact create_move h config ensure now
  | join id key now => exact join_move h id key now
  | terminate id now => exact terminate_move h id now
  | restart =>
    obtain ⟨hbook, hmirrors⟩ := h.restart
    refine ⟨?_, hmirrors⟩
    dsimp only [exec]
    rw [hbook]
    exact .restarted _

/-- The id a call has handed out to a participant, if it did. -/
def granted : Op × Answer → Option (Issue.Grant (Uuid × String) Uuid)
  | (.join id key _, .joined handle) => some ⟨key.map fun k => (id, k), handle.performanceId⟩
  | _ => none

def grants (hist : List (Op × Answer)) : List (Issue.Grant (Uuid × String) Uuid) :=
  hist.filterMap granted

def createdId : Op × Answer → Option Uuid
  | (_, .created id) => some id
  | _ => none

/-- The rituals created so far. -/
def createdIds (hist : List (Op × Answer)) : List Uuid := hist.filterMap createdId

end RitualServer

/-- The performance id a participant key has. -/
def RitualBook.performance (b : RitualBook) (k : Uuid × String) : Option Uuid :=
  (b.record k.1).bind fun r => r.participants k.2

namespace RitualServer
variable {E : RitualEnv} {s : RitualServer} {b b' : RitualBook} {op : Op} {ans : Answer}
  {hist : List (Op × Answer)}

/-- What a run so far has left in the book. -/
structure Ledger (E : RitualEnv) (b : RitualBook) (hist : List (Op × Answer)) : Prop where
  minted : ∀ id, b.record id ≠ none → ∃ n, n < b.minted ∧ id = E.uuid n
  created : ∀ id, b.record id ≠ none ↔ id ∈ createdIds hist
  once : (createdIds hist).Nodup
  terminated : ∀ id now, (Op.terminate id now, Answer.terminated) ∈ hist →
    ∃ r, b.record id = some r ∧ r.state = .terminated
  issued : Issue.Ledger E.uuid b.performance b.minted (grants hist)

theorem Ledger.record_next (h : Ledger E b hist) : b.record (E.uuid b.minted) = none := by
  by_contra hne
  obtain ⟨n, hn, he⟩ := h.minted _ hne
  exact absurd (E.uuidNew he) (by omega)

theorem Move.minted_le (h : Move E b op ans b') : b.minted ≤ b'.minted := by
  cases h <;> simp

/-- No ritual is forgotten or revived. -/
theorem Move.keeps (h : Move E b op ans b') (hnext : b.record (E.uuid b.minted) = none) {id : Uuid}
    {r : RitualRecord} (hr : b.record id = some r) :
    ∃ r', b'.record id = some r' ∧ (r.state = .terminated → r'.state = .terminated) := by
  cases h with
  | created config ensure now topic =>
    have hne : id ≠ E.uuid b.minted := by
      rintro rfl
      rw [hnext] at hr
      cases hr
    exact ⟨r, (Function.update_of_ne hne _ _).trans hr, fun h => h⟩
  | uncreated | unkeyed => exact ⟨r, hr, fun h => h⟩
  | unjoined | rejoined | unterminated | restarted => exact ⟨r, hr, fun h => h⟩
  | enrolled id' key now r₀ h₀ hact hp =>
    by_cases hid : id = id'
    · subst hid
      rw [hr] at h₀
      cases h₀
      exact ⟨_, Function.update_self _ _ _, fun h => h⟩
    · exact ⟨r, (Function.update_of_ne hid _ _).trans hr, fun h => h⟩
  | terminated id' now r₀ h₀ =>
    by_cases hid : id = id'
    · subst hid
      exact ⟨_, Function.update_self _ _ _, fun _ => rfl⟩
    · exact ⟨r, (Function.update_of_ne hid _ _).trans hr, fun h => h⟩

theorem update_ne_none {f : Uuid → Option RitualRecord} {id : Uuid} (r : RitualRecord)
    (x : Uuid) : Function.update f id (some r) x ≠ none ↔ f x ≠ none ∨ x = id := by
  by_cases hx : x = id
  · subst hx
    simp
  · simp [hx]

theorem Move.created_iff (h : Move E b op ans b') (id : Uuid) :
    b'.record id ≠ none ↔ b.record id ≠ none ∨ createdId (op, ans) = some id := by
  have hold : ∀ id' r, b.record id' = some r → id = id' → b.record id ≠ none := by
    rintro _ r hr rfl
    simp [hr]
  cases h with
  | created config ensure now topic =>
    refine (update_ne_none _ id).trans ?_
    simp [createdId, eq_comm]
  | enrolled id' key now r h₀ hact hp =>
    refine (update_ne_none _ id).trans ?_
    simpa [createdId] using hold id' r h₀
  | terminated id' now r h₀ =>
    refine (update_ne_none _ id).trans ?_
    simpa [createdId] using hold id' r h₀
  | _ => simp [createdId]

theorem Move.creates (h : Move E b op ans b') {id : Uuid} (hc : createdId (op, ans) = some id) :
    id = E.uuid b.minted ∧ b.minted < b'.minted := by
  cases h with
  | created => exact ⟨(Option.some.inj hc).symm, Nat.lt_succ_self _⟩
  | _ => cases hc

theorem performance_update (f : Uuid → Option RitualRecord) (n m : Nat) (id : Uuid)
    (r : RitualRecord) (k : Uuid × String) :
    RitualBook.performance ⟨Function.update f id (some r), n⟩ k =
      if k.1 = id then r.participants k.2 else RitualBook.performance ⟨f, m⟩ k := by
  unfold RitualBook.performance
  by_cases h : k.1 = id
  · simp [h]
  · simp [h]

theorem grants_concat (hist : List (Op × Answer)) (x : Op × Answer) :
    grants (hist ++ [x]) = grants hist ++ (granted x).toList := by
  unfold grants
  rw [List.filterMap_append]
  cases hx : granted x <;> simp [hx]

/-- A call hands out no id, or the one that its key has, or the next one. -/
theorem Move.issued (h : Move E b op ans b') (hnext : b.record (E.uuid b.minted) = none)
    (hl : Issue.Ledger E.uuid b.performance b.minted (grants hist)) :
    Issue.Ledger E.uuid b'.performance b'.minted (grants (hist ++ [(op, ans)])) := by
  rw [grants_concat]
  cases h with
  | created config ensure now topic =>
    have hsame : RitualBook.performance ⟨Function.update b.record (E.uuid b.minted)
        (some ⟨config, .active, topic, fun _ => none⟩), b.minted + 1⟩ = b.performance := by
      funext k
      rw [performance_update b.record _ b.minted]
      by_cases hk : k.1 = E.uuid b.minted
      · simp [RitualBook.performance, hk, hnext]
      · simp [hk]
    rw [hsame]
    simpa [granted] using hl.skip (Nat.le_succ b.minted)
  | uncreated =>
    simp only [granted, Option.toList_none, List.append_nil]
    exact hl.skip (Nat.le_succ b.minted)
  | unjoined | unterminated | restarted => simpa [granted] using hl
  | unkeyed id now r hr hact =>
    exact hl.issue E.uuidNew none (fun k hk => by cases hk) (fun k hk => by cases hk)
      (fun _ _ => rfl) (Nat.lt_succ_self _)
  | rejoined id key now r p hr hact hp =>
    refine hl.reuse (k := (id, key)) ?_
    simp only [RitualBook.performance, hr, Option.bind_some, hp]
  | enrolled id key now r hr hact hp =>
    refine hl.issue E.uuidNew (some (id, key)) ?_ ?_ ?_ (Nat.lt_succ_self _)
    · rintro k ⟨⟩
      simp only [RitualBook.performance, hr, Option.bind_some, hp]
    · rintro k ⟨⟩
      rw [performance_update b.record _ b.minted]
      simp
    · intro k hk
      rw [performance_update b.record _ b.minted]
      by_cases hid : k.1 = id
      · have hkey : k.2 ≠ key := by
          rintro rfl
          exact hk (by rw [← hid])
        simp [RitualBook.performance, hid, hr, Function.update_of_ne hkey]
      · simp [hid]
  | terminated id now r hr =>
    have hsame : RitualBook.performance ⟨Function.update b.record id
        (some { r with state := .terminated }), b.minted⟩ = b.performance := by
      funext k
      rw [performance_update b.record _ b.minted]
      by_cases hk : k.1 = id
      · simp [RitualBook.performance, hk, hr]
      · simp [hk]
    rw [hsame]
    simpa [granted] using hl

/-- The step lemma: a call adds itself to the history. -/
theorem Move.ledger (h : Move E b op ans b') (hl : Ledger E b hist) :
    Ledger E b' (hist ++ [(op, ans)]) := by
  have hnext := hl.record_next
  have hids : createdIds (hist ++ [(op, ans)]) =
      createdIds hist ++ (createdId (op, ans)).toList := by
    unfold createdIds
    rw [List.filterMap_append]
    cases hx : createdId (op, ans) <;> simp [hx]
  refine ⟨fun id hid => ?_, fun id => ?_, ?_, fun id now hmem => ?_, h.issued hnext hl.issued⟩
  · rcases (h.created_iff id).mp hid with hold | hnew
    · obtain ⟨n, hn, he⟩ := hl.minted id hold
      exact ⟨n, hn.trans_le h.minted_le, he⟩
    · obtain ⟨he, hlt⟩ := h.creates hnew
      exact ⟨b.minted, hlt, he⟩
  · rw [h.created_iff, hl.created, hids]
    simp
  · rw [hids]
    cases hx : createdId (op, ans) with
    | none => simpa using hl.once
    | some id =>
      have hno : id ∉ createdIds hist := by
        rw [← hl.created, (h.creates hx).1, not_not]
        exact hnext
      refine List.nodup_append.mpr ⟨hl.once, by simp, fun a ha c hc => ?_⟩
      rw [Option.toList_some, List.mem_singleton] at hc
      subst hc
      exact fun he => hno (he ▸ ha)
  · rcases List.mem_append.mp hmem with hold | hnew
    · obtain ⟨r, hr, hstate⟩ := hl.terminated id now hold
      obtain ⟨r', hr', hkeep⟩ := h.keeps hnext hr
      exact ⟨r', hr', hkeep hstate⟩
    · cases List.mem_singleton.mp hnew
      cases h with
      | terminated _ _ r hr => exact ⟨_, Function.update_self _ _ _, rfl⟩

theorem history_concat (E : RitualEnv) (s : RitualServer) (ops : List Op) (op : Op) :
    history E s (ops ++ [op]) =
      history E s ops ++ [(op, (exec E (run (step E) s ops) op).1)] := by
  unfold history
  rw [visits_append, List.map_append]
  rfl

/-- The run lemma. -/
theorem run_ledger (E : RitualEnv) (ops : List Op) :
    Mirrors E.codec (run (step E) new ops).rituals (run (step E) new ops).table ∧
      Ledger E (run (step E) new ops).book (history E new ops) := by
  induction ops using List.reverseRecOn with
  | nil =>
    refine ⟨mirrors_new E.codec, ⟨?_, ?_, ?_, ?_, ?_⟩⟩
    · exact fun id h => absurd rfl h
    · exact fun id => ⟨fun h => absurd rfl h, fun h => by cases h⟩
    · exact List.nodup_nil
    · exact fun id now h => by cases h
    · exact Issue.Ledger.nil E.uuid fun _ => rfl
  | append_singleton ops op ih =>
    obtain ⟨hmirrors, hledger⟩ := ih
    obtain ⟨hmove, hafter⟩ := exec_refines hmirrors op
    rw [run_append, history_concat]
    exact ⟨hafter, hmove.ledger hledger⟩

theorem getStatus_eq (s : RitualServer) (id : Uuid) :
    s.getStatus id = (s.book.record id).map (·.state) := by
  simp only [getStatus, book, RitualMap.record, Option.map_map]
  rfl

theorem join_of_active (E : RitualEnv) {s : RitualServer} {id : Uuid}
    (h : s.getStatus id = some .active) (key : Option String) (now : Int) :
    ∃ handle, (s.join E id key now).1 = .ok handle ∧ handle.ritualId = id := by
  obtain ⟨r, hget, hr⟩ := Option.map_eq_some_iff.mp h
  rcases join_active E hget hr key now with ⟨-, he⟩ | ⟨_, _, -, -, he⟩ | ⟨_, -, -, he⟩
  · exact ⟨_, by rw [he], rfl⟩
  · exact ⟨_, by rw [he], rfl⟩
  · exact ⟨_, by rw [he], rfl⟩

theorem join_of_terminated (E : RitualEnv) {s : RitualServer} {id : Uuid}
    (h : s.getStatus id = some .terminated) (key : Option String) (now : Int) :
    ∃ e, (s.join E id key now).1 = .error e := by
  obtain ⟨e, he⟩ := join_refused E s id key now fun r hget hact => by
    rw [getStatus, hget, Option.map_some, hact] at h
    cases h
  exact ⟨e, by rw [he]⟩

/-- One row for each ritual created. -/
theorem rows_perm_created (h : Mirrors E.codec s.rituals s.table) (hl : Ledger E s.book hist) :
    (s.table.rows.map RitualRow.ritualId).Perm (createdIds hist) := by
  refine (List.perm_ext_iff_of_nodup s.table.primaryKey hl.once).mpr fun id => ?_
  rw [← hl.created, ← not_iff_not, ← Keyed.find_eq_none_iff, not_not]
  rcases h id with ⟨hno, hrow⟩ | ⟨r, row, hr, hrow, -⟩
  · exact iff_of_true hrow (by simp only [book, RitualMap.record, hno, Option.map_none])
  · refine iff_of_false (fun hno => ?_) (by rw [record_of_get hr]; simp)
    rw [RitualTable.get, hno] at hrow
    cases hrow

/-- Every state the registry can reach, and its history: the rows of the store mirror the
memory; two joins were given one performance id exactly when they named one key of one
ritual, whatever lay between them; an active ritual can be joined; a ritual terminated at
any time is terminated now and cannot be joined; and a restart brings back the rituals that
were created, all of them and each as it was. -/
theorem ritual_identity_survives (E : RitualEnv) (ops : List Op) :
    let s := run (step E) new ops
    let hist := history E new ops
    Mirrors E.codec s.rituals s.table ∧ Issue.Apart (grants hist) ∧
    (∀ id key now, s.getStatus id = some .active →
      ∃ handle, (s.join E id key now).1 = .ok handle ∧ handle.ritualId = id) ∧
    (∀ id now, (Op.terminate id now, Answer.terminated) ∈ hist →
      s.getStatus id = some .terminated ∧
        ∀ key now, ∃ e, (s.join E id key now).1 = .error e) ∧
    (s.restart E).1 = (createdIds hist).length ∧
    (s.restart E).2.rituals.record = s.rituals.record ∧
    ∀ id, (s.restart E).2.getStatus id ≠ none ↔ id ∈ createdIds hist := by
  intro s hist
  obtain ⟨hmirrors, hledger⟩ := run_ledger E ops
  have hbook := hmirrors.restart.1
  refine ⟨hmirrors, hledger.issued.apart, fun id key now hact => join_of_active E hact key now,
    fun id now hmem => ?_, ?_, congrArg RitualBook.record hbook, fun id => ?_⟩
  · obtain ⟨r, hr, hstate⟩ := hledger.terminated id now hmem
    have hget : s.getStatus id = some .terminated := by
      rw [getStatus_eq, hr, Option.map_some, hstate]
    exact ⟨hget, fun key now => join_of_terminated E hget key now⟩
  · rw [hmirrors.restored.1, ← (rows_perm_created hmirrors hledger).length_eq, List.length_map]
  · rw [getStatus_eq, hbook, ← hledger.created]
    simp

end RitualServer

end Cerebellum
