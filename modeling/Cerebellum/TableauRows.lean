import Cerebellum.Tableau
import Cerebellum.Lib.OrderBy
import Cerebellum.Lib.JsonText
import Mathlib.Data.Set.Card
import Mathlib.Data.Set.List
import Mathlib.Data.List.Perm.Basic
import Mathlib.Logic.Function.Basic

/-! The `dagda_predicates` table with its text columns, the typed table it holds, and the map
from predicates to entries that both stand for. -/
namespace Cerebellum

namespace TruthValue

def asStr : TruthValue → String
  | knownTrue => "known_true"
  | knownFalse => "known_false"
  | knownUnresolved => "known_unresolved"
  | unknown => "unknown"

def fromStr (s : String) : Option TruthValue :=
  if s = "known_true" then some knownTrue
  else if s = "known_false" then some knownFalse
  else if s = "known_unresolved" then some knownUnresolved
  else if s = "unknown" then some unknown
  else none

theorem fromStr_asStr (v : TruthValue) : fromStr v.asStr = some v := by
  cases v <;> decide

theorem asStr_inj {v w : TruthValue} : v.asStr = w.asStr ↔ v = w := by
  constructor
  · intro h
    have hv := fromStr_asStr v
    rw [h, fromStr_asStr] at hv
    exact (Option.some.inj hv).symm
  · rintro rfl
    rfl

end TruthValue

namespace Kind

def asStr : Kind → String
  | rule => "rule"
  | predicate => "predicate"
  | condition => "condition"

def fromStr (s : String) : Option Kind :=
  if s = "rule" then some rule
  else if s = "predicate" then some predicate
  else if s = "condition" then some condition
  else none

theorem fromStr_asStr (k : Kind) : fromStr k.asStr = some k := by
  cases k <;> decide

end Kind

/-- `serde_json` on the two column types kept as JSON, and what the uuid parser prints when it
refuses a text. -/
structure TableauCodec where
  argsToString : List String → String
  argsFromStr : String → Option (List String)
  bindingsToString : List Binding → String
  bindingsFromStr : String → Option (List Binding)
  uuidError : String → String
  args_nil : argsToString [] = "[]"
  bindings_nil : bindingsToString [] = "[]"
  argsFromStr_toString : ∀ args, argsFromStr (argsToString args) = some args
  bindingsFromStr_toString : ∀ b, bindingsFromStr (bindingsToString b) = some b

namespace TableauCodec
variable (c : TableauCodec)

/-- `{"var":"X","val":"a"}`. -/
def bindingText : JsonText.Format Binding :=
  (JsonText.string.pair ",\"val\":".toList JsonText.string
    |>.between "\x7b\"var\":".toList "\x7d".toList).via
    (fun b => (b.var, b.val)) (fun p => some ⟨p.1, p.2⟩) fun _ => rfl

theorem bindingText_head (b : Binding) (rest : List Char) :
    (bindingText.print b ++ rest).head? ≠ some ']' := by
  simp [bindingText, JsonText.Format.via, JsonText.Format.between]

/-- The texts `serde_json` writes, and a reader of them. -/
def json (uuidError : String → String) : TableauCodec :=
  let bindings : JsonText.Format (List Binding) := JsonText.array bindingText bindingText_head
  { argsToString := JsonText.strings.toText
    argsFromStr := JsonText.strings.fromText
    bindingsToString := bindings.toText
    bindingsFromStr := bindings.fromText
    uuidError := uuidError
    args_nil := rfl
    bindings_nil := rfl
    argsFromStr_toString := JsonText.strings.fromText_toText
    bindingsFromStr_toString := bindings.fromText_toText }

theorem argsToString_inj {a b : List String} : c.argsToString a = c.argsToString b ↔ a = b := by
  constructor
  · intro h
    have ha := c.argsFromStr_toString a
    rw [h, c.argsFromStr_toString] at ha
    exact (Option.some.inj ha).symm
  · rintro rfl
    rfl

end TableauCodec

inductive DagdaError where
  | json
  | unknownTruthValue (text : String)
  deriving DecidableEq, Repr

/-- A row as it is stored. -/
structure DagdaRow where
  sessionId : String
  entryId : String
  functor : String
  arity : Nat
  argsJson : String
  kind : String
  source : Option String
  boundVars : String
  truthValue : String
  bindingsJson : String
  parentId : Option String
  updatedAtMs : Int
  deriving DecidableEq

namespace DagdaRow

/-- `PRIMARY KEY (session_id, functor, args_json)`. -/
def key (r : DagdaRow) : String × String × String := (r.sessionId, r.functor, r.argsJson)

/-- `ON CONFLICT … DO UPDATE SET` of `set`. -/
def onSet (old new : DagdaRow) : DagdaRow :=
  { old with
    truthValue := new.truthValue
    updatedAtMs := new.updatedAtMs }

/-- `ON CONFLICT … DO UPDATE SET` of `set_entry`. -/
def onSetEntry (old new : DagdaRow) : DagdaRow :=
  { old with
    entryId := new.entryId
    kind := new.kind
    source := new.source
    boundVars := new.boundVars
    truthValue := new.truthValue
    bindingsJson := new.bindingsJson
    parentId := new.parentId
    updatedAtMs := new.updatedAtMs }

/-- `ON CONFLICT … DO UPDATE SET` of `update_truth`. -/
def onUpdateTruth (old new : DagdaRow) : DagdaRow :=
  { old with
    truthValue := new.truthValue
    bindingsJson := new.bindingsJson
    updatedAtMs := new.updatedAtMs }

theorem onSet_key (old new : DagdaRow) : (old.onSet new).key = old.key := rfl

theorem onSetEntry_key (old new : DagdaRow) : (old.onSetEntry new).key = old.key := rfl

theorem onUpdateTruth_key (old new : DagdaRow) : (old.onUpdateTruth new).key = old.key := rfl

end DagdaRow

/-- A column that fails to parse ends the row with this error. -/
def orError {α : Type} (err : DagdaError) : Option α → Except DagdaError α
  | some a => .ok a
  | none => .error err

/-- A text column that holds a uuid. -/
def parseUuid (c : TableauCodec) (what s : String) : Except DagdaError Uuid :=
  orError (.unknownTruthValue (what ++ c.uuidError s)) (Uuid.parseStr s)

def rowToEntry (c : TableauCodec) (r : DagdaRow) : Except DagdaError PredicateEntry := do
  let sessionId ← parseUuid c "bad session uuid: " r.sessionId
  let entryId ← parseUuid c "bad entry uuid: " r.entryId
  let parentId ← r.parentId.mapM (parseUuid c "bad parent uuid: ")
  let args ← orError .json (c.argsFromStr r.argsJson)
  let boundVars ← orError .json (c.argsFromStr r.boundVars)
  let bindings ← orError .json (c.bindingsFromStr r.bindingsJson)
  let truthValue ← orError (.unknownTruthValue r.truthValue) (TruthValue.fromStr r.truthValue)
  let kind ← orError (.unknownTruthValue ("unknown kind: " ++ r.kind)) (Kind.fromStr r.kind)
  return { sessionId := sessionId, entryId := entryId, functor := r.functor, args := args
           kind := kind, source := r.source, boundVars := boundVars, truthValue := truthValue
           bindings := bindings, parentId := parentId, updatedAtMs := r.updatedAtMs }

/-- The columns `set_entry` binds for an entry. -/
def entryToRow (c : TableauCodec) (e : PredicateEntry) : DagdaRow :=
  { sessionId := e.sessionId.toText, entryId := e.entryId.toText, functor := e.functor
    arity := e.arity, argsJson := c.argsToString e.args, kind := e.kind.asStr, source := e.source
    boundVars := c.argsToString e.boundVars, truthValue := e.truthValue.asStr
    bindingsJson := c.bindingsToString e.bindings, parentId := e.parentId.map Uuid.toText
    updatedAtMs := e.updatedAtMs }

/-- What is written can be read back. -/
theorem rowToEntry_entryToRow (c : TableauCodec) (e : PredicateEntry) :
    rowToEntry c (entryToRow c e) = .ok e := by
  have huuid : ∀ what (u : Uuid), parseUuid c what u.toText = .ok u := by
    intro what u
    rw [parseUuid, Uuid.parseStr_toText]
    rfl
  have hparent : (e.parentId.map Uuid.toText).mapM (parseUuid c "bad parent uuid: ") =
      .ok e.parentId := by
    cases e.parentId with
    | none => rfl
    | some p =>
      simp only [Option.map_some, Option.mapM_some, huuid]
      rfl
  simp only [rowToEntry, entryToRow, huuid, hparent, c.argsFromStr_toString,
    c.bindingsFromStr_toString, TruthValue.fromStr_asStr, Kind.fromStr_asStr]
  rfl

theorem key_entryToRow (c : TableauCodec) (a b : PredicateEntry) :
    (entryToRow c a).key = (entryToRow c b).key ↔ a.key = b.key := by
  simp [DagdaRow.key, entryToRow, PredicateEntry.key, c.argsToString_inj]

/-- The table with its primary key. -/
structure DagdaTable where
  rows : List DagdaRow
  primaryKey : (rows.map DagdaRow.key).Nodup

/-- `ORDER BY updated_at_ms`. -/
abbrev DagdaOrder := OrderBy DagdaRow.updatedAtMs

namespace DagdaTable

def new : DagdaTable := ⟨[], List.nodup_nil⟩

def set (c : TableauCodec) (t : DagdaTable) (entryId : Uuid) (now : Int) (sid : Uuid)
    (functor : String) (args : List String) (truth : TruthValue) : DagdaTable where
  rows := Keyed.upsert DagdaRow.key DagdaRow.onSet t.rows
    { sessionId := sid.toText, entryId := entryId.toText, functor := functor
      arity := args.length, argsJson := c.argsToString args, kind := "predicate", source := none
      boundVars := "[]", truthValue := truth.asStr, bindingsJson := "[]", parentId := none
      updatedAtMs := now }
  primaryKey := Keyed.nodup_upsert (fun a b _ => DagdaRow.onSet_key a b) t.primaryKey _

def setEntry (c : TableauCodec) (t : DagdaTable) (e : PredicateEntry) : DagdaTable where
  rows := Keyed.upsert DagdaRow.key DagdaRow.onSetEntry t.rows (entryToRow c e)
  primaryKey := Keyed.nodup_upsert (fun a b _ => DagdaRow.onSetEntry_key a b) t.primaryKey _

def updateTruth (c : TableauCodec) (t : DagdaTable) (entryId : Uuid) (now : Int) (sid : Uuid)
    (functor : String) (args : List String) (truth : TruthValue) (bindings : List Binding) :
    DagdaTable where
  rows := Keyed.upsert DagdaRow.key DagdaRow.onUpdateTruth t.rows
    { sessionId := sid.toText, entryId := entryId.toText, functor := functor
      arity := args.length, argsJson := c.argsToString args, kind := "predicate", source := none
      boundVars := "[]", truthValue := truth.asStr, bindingsJson := c.bindingsToString bindings
      parentId := none, updatedAtMs := now }
  primaryKey := Keyed.nodup_upsert (fun a b _ => DagdaRow.onUpdateTruth_key a b) t.primaryKey _

/-- `WHERE session_id = ? AND functor = ? AND args_json = ?`. -/
def picks (c : TableauCodec) (sid : Uuid) (functor : String) (args : List String)
    (r : DagdaRow) : Bool :=
  r.sessionId == sid.toText && r.functor == functor && r.argsJson == c.argsToString args

/-- `DELETE` of the rows that `p` does not keep. -/
def keep (t : DagdaTable) (p : DagdaRow → Bool) : DagdaTable where
  rows := t.rows.filter p
  primaryKey := t.primaryKey.sublist (List.filter_sublist.map DagdaRow.key)

def delete (c : TableauCodec) (t : DagdaTable) (sid : Uuid) (functor : String)
    (args : List String) : Bool × DagdaTable :=
  (decide (0 < t.rows.countP (picks c sid functor args)),
    t.keep fun r => !picks c sid functor args r)

def clearSession (t : DagdaTable) (sid : Uuid) : Nat × DagdaTable :=
  (t.rows.countP (·.sessionId == sid.toText), t.keep (·.sessionId != sid.toText))

def importSession (c : TableauCodec) (t : DagdaTable) (entries : List PredicateEntry) :
    DagdaTable :=
  entries.foldl (setEntry c) t

def get (c : TableauCodec) (t : DagdaTable) (sid : Uuid) (functor : String) (args : List String) :
    Except DagdaError TruthValue :=
  match t.rows.find? (picks c sid functor args) with
  | some r => orError (.unknownTruthValue r.truthValue) (TruthValue.fromStr r.truthValue)
  | none => .ok .unknown

def getEntry (c : TableauCodec) (t : DagdaTable) (sid : Uuid) (functor : String)
    (args : List String) : Except DagdaError (Option PredicateEntry) :=
  match t.rows.find? (picks c sid functor args) with
  | some r => (rowToEntry c r).map some
  | none => .ok none

def collectEntries (c : TableauCodec) (rows : List DagdaRow) :
    Except DagdaError (List PredicateEntry) :=
  rows.mapM (rowToEntry c)

def listSession (c : TableauCodec) (ord : DagdaOrder) (t : DagdaTable) (sid : Uuid) :
    Except DagdaError (List PredicateEntry) :=
  collectEntries c (ord.sort (t.rows.filter (·.sessionId == sid.toText)))

def listByTruth (c : TableauCodec) (ord : DagdaOrder) (t : DagdaTable) (sid : Uuid)
    (truth : TruthValue) : Except DagdaError (List PredicateEntry) :=
  collectEntries c (ord.sort (t.rows.filter fun r =>
    r.sessionId == sid.toText && r.truthValue == truth.asStr))

def listByFunctor (c : TableauCodec) (ord : DagdaOrder) (t : DagdaTable) (sid : Uuid)
    (functor : String) (arity : Nat) : Except DagdaError (List PredicateEntry) :=
  collectEntries c (ord.sort (t.rows.filter fun r =>
    r.sessionId == sid.toText && r.functor == functor && r.arity == arity))

def countByTruth (t : DagdaTable) (sid : Uuid) (truth : TruthValue) : Nat :=
  t.rows.countP fun r => r.sessionId == sid.toText && r.truthValue == truth.asStr

def exportSession (c : TableauCodec) (ord : DagdaOrder) (t : DagdaTable) (sid : Uuid) :
    Except DagdaError (List PredicateEntry) :=
  t.listSession c ord sid

end DagdaTable

/-- A write on a tableau, with the id it mints and the clock reading it takes. -/
inductive TableauOp where
  | set (entryId : Uuid) (now : Int) (sid : Uuid) (functor : String) (args : List String)
    (truth : TruthValue)
  | setEntry (e : PredicateEntry)
  | updateTruth (entryId : Uuid) (now : Int) (sid : Uuid) (functor : String) (args : List String)
    (truth : TruthValue) (bindings : List Binding)
  | delete (sid : Uuid) (functor : String) (args : List String)
  | clearSession (sid : Uuid)
  | importSession (entries : List PredicateEntry)

/-- The write on the stored table. -/
def DagdaTable.step (c : TableauCodec) (t : DagdaTable) : TableauOp → DagdaTable
  | .set entryId now sid functor args truth => t.set c entryId now sid functor args truth
  | .setEntry e => t.setEntry c e
  | .updateTruth entryId now sid functor args truth bindings =>
    t.updateTruth c entryId now sid functor args truth bindings
  | .delete sid functor args => (t.delete c sid functor args).2
  | .clearSession sid => (t.clearSession sid).2
  | .importSession entries => t.importSession c entries

/-- The write on the typed table. -/
def Dagda.step (t : Dagda) : TableauOp → Dagda
  | .set entryId now sid functor args truth => t.set entryId now sid functor args truth
  | .setEntry e => t.setEntry e
  | .updateTruth entryId now sid functor args truth bindings =>
    t.updateTruth entryId now sid functor args truth bindings
  | .delete sid functor args => (t.delete sid functor args).2
  | .clearSession sid => (t.clearSession sid).2
  | .importSession entries => (t.importSession (fun _ => (none : Option Empty)) entries).2

/-- What a tableau is for: an entry for each predicate of each session that has one. -/
abbrev TableauMap := Uuid × String × List String → Option PredicateEntry

namespace TableauMap

def empty : TableauMap := fun _ => none

/-- Put an entry under its key, merged into what is there. -/
def put (m : TableauMap) (merge : PredicateEntry → PredicateEntry → PredicateEntry)
    (e : PredicateEntry) : TableauMap :=
  Function.update m e.key (some (((m e.key).map fun old => merge old e).getD e))

def step (m : TableauMap) : TableauOp → TableauMap
  | .set entryId now sid functor args truth =>
    m.put PredicateEntry.withTruthOnly (Dagda.minimalEntry entryId now sid functor args truth [])
  | .setEntry e => Function.update m e.key (some e)
  | .updateTruth entryId now sid functor args truth bindings =>
    m.put PredicateEntry.withTruth (Dagda.minimalEntry entryId now sid functor args truth bindings)
  | .delete sid functor args => Function.update m (sid, functor, args) none
  | .clearSession sid => fun k => if k.1 = sid then none else m k
  | .importSession entries => entries.foldl (fun m e => Function.update m e.key (some e)) m

end TableauMap

/-- The keys a write can change. -/
def TableauOp.Touches : TableauOp → Uuid × String × List String → Prop
  | .set _ _ sid functor args _ => fun k => k = (sid, functor, args)
  | .setEntry e => fun k => k = e.key
  | .updateTruth _ _ sid functor args _ _ => fun k => k = (sid, functor, args)
  | .delete sid functor args => fun k => k = (sid, functor, args)
  | .clearSession sid => fun k => k.1 = sid
  | .importSession entries => fun k => ∃ e ∈ entries, k = e.key

theorem TableauMap.step_untouched (m : TableauMap) (op : TableauOp)
    {k : Uuid × String × List String} (h : ¬op.Touches k) : m.step op k = m k := by
  cases op with
  | set _ _ sid functor args truth => exact Function.update_of_ne h _ _
  | setEntry e => exact Function.update_of_ne h _ _
  | updateTruth _ _ sid functor args truth bindings => exact Function.update_of_ne h _ _
  | delete sid functor args => exact Function.update_of_ne h _ _
  | clearSession sid => exact if_neg h
  | importSession entries =>
    simp only [TableauOp.Touches, not_exists, not_and] at h
    simp only [step]
    induction entries generalizing m with
    | nil => rfl
    | cons e entries ih =>
      rw [List.foldl_cons, ih _ fun x hx => h x (List.mem_cons_of_mem _ hx)]
      exact Function.update_of_ne (h e (by simp)) _ _

namespace Dagda

/-- The map a table stands for. -/
def toMap (t : Dagda) : TableauMap := Keyed.find PredicateEntry.key t.rows

theorem toMap_upsert {merge : PredicateEntry → PredicateEntry → PredicateEntry}
    (hm : ∀ a b, (merge a b).key = a.key) (t : Dagda) (e : PredicateEntry) :
    Keyed.find PredicateEntry.key (Keyed.upsert PredicateEntry.key merge t.rows e) =
      t.toMap.put merge e := by
  funext k
  rw [Keyed.find_upsert fun a b _ => hm a b]
  by_cases hk : k = e.key
  · subst hk
    rw [if_pos rfl, TableauMap.put, Function.update_self]
    rfl
  · rw [if_neg hk, TableauMap.put, Function.update_of_ne hk]
    rfl

theorem toMap_setEntry (t : Dagda) (e : PredicateEntry) :
    (t.setEntry e).toMap = Function.update t.toMap e.key (some e) := by
  funext k
  refine (Keyed.find_overwrite t.rows e k).trans ?_
  by_cases hk : k = e.key
  · subst hk
    simp
  · rw [if_neg (Ne.symm hk), Function.update_of_ne hk]
    rfl

theorem toMap_keep (t : Dagda) (p : PredicateEntry → Bool) (k : Uuid × String × List String) :
    (t.keep p).toMap k = (t.toMap k).filter p := Keyed.find_filter t.primaryKey p k

theorem key_of_toMap {t : Dagda} {k : Uuid × String × List String} {e : PredicateEntry}
    (h : t.toMap k = some e) : e.key = k := (Keyed.mem_of_find h).2

/-- Deleting by a test on the key empties the map there. -/
theorem toMap_keep_key (t : Dagda) {p : PredicateEntry → Bool}
    {q : Uuid × String × List String → Prop} [DecidablePred q]
    (hp : ∀ e, p e = true ↔ ¬q e.key) (k : Uuid × String × List String) :
    (t.keep p).toMap k = if q k then none else t.toMap k := by
  rw [toMap_keep]
  cases he : t.toMap k with
  | none => simp
  | some e =>
    have hq := hp e
    rw [key_of_toMap he] at hq
    by_cases hk : q k
    · simp [hk, Option.filter, hq]
    · simp [hk, Option.filter, hq]

/-- The typed table does to its rows what the map does. -/
theorem toMap_step (t : Dagda) (op : TableauOp) : (t.step op).toMap = t.toMap.step op := by
  cases op with
  | set entryId now sid functor args truth =>
    exact toMap_upsert PredicateEntry.withTruthOnly_key t _
  | setEntry e => exact toMap_setEntry t e
  | updateTruth entryId now sid functor args truth bindings =>
    exact toMap_upsert PredicateEntry.withTruth_key t _
  | delete sid functor args =>
    funext k
    refine (toMap_keep_key t (q := fun k => k = (sid, functor, args)) (by simp) k).trans ?_
    simp [TableauMap.step, Function.update_apply]
  | clearSession sid =>
    funext k
    exact toMap_keep_key t (q := fun k => k.1 = sid) (by simp [PredicateEntry.key]) k
  | importSession entries =>
    simp only [step, TableauMap.step, importSession_all]
    induction entries generalizing t with
    | nil => rfl
    | cons e entries ih =>
      rw [List.foldl_cons, List.foldl_cons, ih, toMap_setEntry]

end Dagda

namespace DagdaTable
variable {c : TableauCodec} {T : DagdaTable} {t : Dagda}

/-- The stored rows are the typed ones, column by column. -/
def Stores (c : TableauCodec) (T : DagdaTable) (t : Dagda) : Prop :=
  T.rows = t.rows.map (entryToRow c)

theorem stores_new (c : TableauCodec) : Stores c DagdaTable.new Dagda.new := rfl

theorem Stores.setEntry (h : Stores c T t) (e : PredicateEntry) :
    Stores c (T.setEntry c e) (t.setEntry e) := by
  have hmerge : ∀ a b : PredicateEntry, a.key = b.key →
      (entryToRow c a).onSetEntry (entryToRow c b) = entryToRow c (Keyed.overwrite a b) := by
    intro a b hab
    obtain ⟨hs, hf, ha⟩ : a.sessionId = b.sessionId ∧ a.functor = b.functor ∧ a.args = b.args := by
      simpa [PredicateEntry.key] using hab
    simp [DagdaRow.onSetEntry, entryToRow, Keyed.overwrite, PredicateEntry.arity, hs, hf, ha]
  unfold Stores at h ⊢
  simp only [DagdaTable.setEntry, Dagda.setEntry, h]
  exact Keyed.upsert_map (key_entryToRow c) hmerge t.rows e

theorem Stores.keep (h : Stores c T t) {p : DagdaRow → Bool} {q : PredicateEntry → Bool}
    (hp : ∀ e, p (entryToRow c e) = q e) : Stores c (T.keep p) (t.keep q) := by
  have hcomp : p ∘ entryToRow c = q := funext hp
  unfold Stores at h ⊢
  simp only [DagdaTable.keep, Dagda.keep, h, List.filter_map, hcomp]

theorem picks_entryToRow (c : TableauCodec) (sid : Uuid) (functor : String) (args : List String)
    (e : PredicateEntry) :
    picks c sid functor args (entryToRow c e) = (e.key == (sid, functor, args)) := by
  rw [Bool.eq_iff_iff]
  simp [picks, entryToRow, PredicateEntry.key, c.argsToString_inj, and_assoc]

/-- The stored table does to its rows what the typed one does. -/
theorem Stores.step (h : Stores c T t) (op : TableauOp) : Stores c (T.step c op) (t.step op) := by
  cases op with
  | set entryId now sid functor args truth =>
    unfold Stores at h ⊢
    have hnew : (⟨sid.toText, entryId.toText, functor, args.length, c.argsToString args,
        "predicate", none, "[]", truth.asStr, "[]", none, now⟩ : DagdaRow) =
        entryToRow c (Dagda.minimalEntry entryId now sid functor args truth []) := by
      simp [entryToRow, Dagda.minimalEntry, PredicateEntry.arity, Kind.asStr, c.args_nil,
        c.bindings_nil]
    simp only [DagdaTable.step, DagdaTable.set, Dagda.step, Dagda.set, h, hnew]
    exact Keyed.upsert_map (key_entryToRow c) (fun _ _ _ => rfl) t.rows _
  | setEntry e => exact h.setEntry e
  | updateTruth entryId now sid functor args truth bindings =>
    unfold Stores at h ⊢
    have hnew : (⟨sid.toText, entryId.toText, functor, args.length, c.argsToString args,
        "predicate", none, "[]", truth.asStr, c.bindingsToString bindings, none, now⟩ : DagdaRow) =
        entryToRow c (Dagda.minimalEntry entryId now sid functor args truth bindings) := by
      simp [entryToRow, Dagda.minimalEntry, PredicateEntry.arity, Kind.asStr, c.args_nil]
    simp only [DagdaTable.step, DagdaTable.updateTruth, Dagda.step, Dagda.updateTruth, h, hnew]
    exact Keyed.upsert_map (key_entryToRow c) (fun _ _ _ => rfl) t.rows _
  | delete sid functor args =>
    exact h.keep fun e => by rw [picks_entryToRow]; rfl
  | clearSession sid =>
    exact h.keep fun e => by simp [entryToRow, bne, Bool.beq_eq_decide_eq]
  | importSession entries =>
    simp only [DagdaTable.step, DagdaTable.importSession, Dagda.step, Dagda.importSession_all]
    induction entries generalizing T t with
    | nil => exact h
    | cons e entries ih => exact ih (h.setEntry e)

/-- A lookup by key in the stored table is one in the typed table. -/
theorem Stores.find (h : Stores c T t) (sid : Uuid) (functor : String) (args : List String) :
    T.rows.find? (picks c sid functor args) =
      (t.getEntry sid functor args).map (entryToRow c) := by
  have hcomp : picks c sid functor args ∘ entryToRow c = fun e => e.key == (sid, functor, args) :=
    funext (picks_entryToRow c sid functor args)
  rw [h, List.find?_map, hcomp]
  rfl

theorem Stores.getEntry (h : Stores c T t) (sid : Uuid) (functor : String) (args : List String) :
    T.getEntry c sid functor args = .ok (t.toMap (sid, functor, args)) := by
  rw [DagdaTable.getEntry, h.find, Dagda.getEntry_eq_find]
  cases he : Keyed.find PredicateEntry.key t.rows (sid, functor, args) with
  | none => simp [Dagda.toMap, he]
  | some e => simp [Dagda.toMap, he, rowToEntry_entryToRow, Except.map]

theorem Stores.get (h : Stores c T t) (sid : Uuid) (functor : String) (args : List String) :
    T.get c sid functor args =
      .ok (((t.toMap (sid, functor, args)).map PredicateEntry.truthValue).getD .unknown) := by
  rw [DagdaTable.get, h.find, Dagda.getEntry_eq_find]
  cases he : Keyed.find PredicateEntry.key t.rows (sid, functor, args) with
  | none => simp [Dagda.toMap, he]
  | some e =>
    simp [Dagda.toMap, he, entryToRow, TruthValue.fromStr_asStr, orError]

theorem collectEntries_map (c : TableauCodec) (l : List PredicateEntry) :
    collectEntries c (l.map (entryToRow c)) = .ok l := by
  unfold collectEntries
  induction l with
  | nil => rfl
  | cons e l ih =>
    rw [List.map_cons, List.mapM_cons, ih, rowToEntry_entryToRow]
    rfl

theorem entryToRow_injective (c : TableauCodec) : Function.Injective (entryToRow c) := by
  intro a b h
  have ha := rowToEntry_entryToRow c a
  rw [h, rowToEntry_entryToRow] at ha
  exact (Except.ok.inj ha).symm

/-- A query by columns reads the typed rows that it picks, sorted. -/
theorem Stores.collect (h : Stores c T t) (ord : DagdaOrder) {p : DagdaRow → Bool}
    {q : PredicateEntry → Bool} (hp : ∀ e, p (entryToRow c e) = q e) :
    ∃ l, collectEntries c (ord.sort (T.rows.filter p)) = .ok l ∧ l.Perm (t.rows.filter q) ∧
      l.Pairwise fun a b => a.updatedAtMs ≤ b.updatedAtMs := by
  have hcomp : p ∘ entryToRow c = q := funext hp
  rw [h, List.filter_map, hcomp]
  have hperm := ord.perm ((t.rows.filter q).map (entryToRow c))
  have hsorted := ord.sorted ((t.rows.filter q).map (entryToRow c))
  have hrange : ord.sort ((t.rows.filter q).map (entryToRow c)) ∈
      Set.range (List.map (entryToRow c)) := by
    rw [Set.range_list_map]
    intro r hr
    obtain ⟨e, -, rfl⟩ := List.mem_map.mp (hperm.mem_iff.mp hr)
    exact ⟨e, rfl⟩
  obtain ⟨l, hl⟩ := hrange
  rw [← hl] at hperm hsorted
  rw [List.pairwise_map] at hsorted
  rw [← hl, collectEntries_map]
  exact ⟨l, rfl, (List.map_perm_map_iff (entryToRow_injective c)).mp hperm, hsorted⟩

end DagdaTable

/-- A query answers with the entries of the map that it asks for, sorted by time. -/
def TableauMap.Lists (m : TableauMap) (p : PredicateEntry → Prop)
    (answer : Except DagdaError (List PredicateEntry)) : Prop :=
  ∃ l, answer = .ok l ∧ l.Nodup ∧ (l.Pairwise fun a b => a.updatedAtMs ≤ b.updatedAtMs) ∧
    ∀ e, e ∈ l ↔ m e.key = some e ∧ p e

/-- Every read of the stored table is a read of the map. -/
structure DagdaTable.Refines (c : TableauCodec) (T : DagdaTable) (m : TableauMap) : Prop where
  finite : {k | m k ≠ none}.Finite
  keyed : ∀ k e, m k = some e → e.key = k
  getEntry : ∀ sid functor args, T.getEntry c sid functor args = .ok (m (sid, functor, args))
  get : ∀ sid functor args, T.get c sid functor args =
    .ok (((m (sid, functor, args)).map PredicateEntry.truthValue).getD .unknown)
  listSession : ∀ ord sid, m.Lists (fun e => e.sessionId = sid) (T.listSession c ord sid)
  listByTruth : ∀ ord sid truth, m.Lists (fun e => e.sessionId = sid ∧ e.truthValue = truth)
    (T.listByTruth c ord sid truth)
  listByFunctor : ∀ ord sid functor arity,
    m.Lists (fun e => e.sessionId = sid ∧ e.functor = functor ∧ e.args.length = arity)
      (T.listByFunctor c ord sid functor arity)
  countByTruth : ∀ sid truth, T.countByTruth sid truth =
    {k | k.1 = sid ∧ ∃ e, m k = some e ∧ e.truthValue = truth}.ncard

namespace DagdaTable
variable {c : TableauCodec} {T : DagdaTable} {t : Dagda}

theorem toMap_key_iff {e : PredicateEntry} : t.toMap e.key = some e ↔ e ∈ t.rows := by
  refine (Keyed.find_eq_some_iff t.primaryKey).trans ?_
  simp

/-- A query by columns lists entries of the map. -/
theorem Stores.lists (h : Stores c T t) (ord : DagdaOrder) {p : DagdaRow → Bool}
    {q : PredicateEntry → Prop} [DecidablePred q] (hp : ∀ e, p (entryToRow c e) = true ↔ q e) :
    t.toMap.Lists q (collectEntries c (ord.sort (T.rows.filter p))) := by
  have hdec : ∀ e, p (entryToRow c e) = decide (q e) := fun e =>
    Bool.eq_iff_iff.mpr ((hp e).trans decide_eq_true_iff.symm)
  obtain ⟨l, hl, hperm, hsorted⟩ := h.collect ord hdec
  refine ⟨l, hl, ?_, hsorted, fun e => ?_⟩
  · exact hperm.nodup_iff.mpr (t.primaryKey.of_map.filter _)
  · rw [hperm.mem_iff, List.mem_filter, toMap_key_iff, decide_eq_true_iff]

/-- A count by columns counts keys of the map. -/
theorem Stores.count (h : Stores c T t) {p : DagdaRow → Bool} {q : PredicateEntry → Prop}
    [DecidablePred q] (hp : ∀ e, p (entryToRow c e) = true ↔ q e) :
    T.rows.countP p = {k | ∃ e, t.toMap k = some e ∧ q e}.ncard := by
  have hcomp : p ∘ entryToRow c = fun e => decide (q e) := by
    funext e
    exact Bool.eq_iff_iff.mpr ((hp e).trans decide_eq_true_iff.symm)
  have hset : {k | ∃ e, t.toMap k = some e ∧ q e} =
      (((t.rows.filter fun e => decide (q e)).map PredicateEntry.key).toFinset : Set _) := by
    ext k
    simp only [Set.mem_ofPred_eq, List.coe_toFinset, List.mem_map, List.mem_filter,
      decide_eq_true_iff]
    constructor
    · rintro ⟨e, he, hq⟩
      have hk := Dagda.key_of_toMap he
      subst hk
      exact ⟨e, ⟨toMap_key_iff.mp he, hq⟩, rfl⟩
    · rintro ⟨e, ⟨he, hq⟩, rfl⟩
      exact ⟨e, toMap_key_iff.mpr he, hq⟩
  have hnodup : ((t.rows.filter fun e => decide (q e)).map PredicateEntry.key).Nodup :=
    t.primaryKey.sublist (List.filter_sublist.map _)
  rw [hset, Set.ncard_coe_finset, List.toFinset_card_of_nodup hnodup, List.length_map, h,
    List.countP_map, hcomp, List.countP_eq_length_filter]

theorem Stores.refines (h : Stores c T t) : T.Refines c t.toMap where
  finite := by
    refine (t.rows.map PredicateEntry.key).toFinset.finite_toSet.subset fun k hk => ?_
    rw [List.coe_toFinset]
    by_contra hno
    exact hk (Keyed.find_eq_none_iff.mpr hno)
  keyed _ _ := Dagda.key_of_toMap
  getEntry := h.getEntry
  get := h.get
  listSession ord sid := h.lists ord fun e => by simp [entryToRow]
  listByTruth ord sid truth := h.lists ord fun e => by simp [entryToRow, TruthValue.asStr_inj]
  listByFunctor ord sid functor arity := h.lists ord fun e => by
    simp [entryToRow, PredicateEntry.arity, and_assoc]
  countByTruth sid truth := by
    refine (h.count (q := fun e => e.sessionId = sid ∧ e.truthValue = truth) fun e => by
      simp [entryToRow, TruthValue.asStr_inj]).trans (congrArg Set.ncard ?_)
    ext k
    constructor
    · rintro ⟨e, he, hs, ht⟩
      have hk := Dagda.key_of_toMap he
      exact ⟨hk ▸ hs, e, he, ht⟩
    · rintro ⟨hk, e, he, ht⟩
      have hkey := Dagda.key_of_toMap he
      exact ⟨e, he, (congrArg Prod.fst hkey).trans hk, ht⟩

theorem Stores.run (h : Stores c T t) (ops : List TableauOp) :
    Stores c (ops.foldl (DagdaTable.step c) T) (ops.foldl Dagda.step t) := by
  induction ops generalizing T t with
  | nil => exact h
  | cons op ops ih => exact ih (h.step op)

theorem toMap_run (ops : List TableauOp) (t : Dagda) :
    (ops.foldl Dagda.step t).toMap = ops.foldl TableauMap.step t.toMap := by
  induction ops generalizing t with
  | nil => rfl
  | cons op ops ih => rw [List.foldl_cons, List.foldl_cons, ih, Dagda.toMap_step]

/-- Whatever was written, the stored table holds a typed one that stands for the map. -/
theorem stores_run (c : TableauCodec) (ops : List TableauOp) :
    ∃ t : Dagda, Stores c (ops.foldl (DagdaTable.step c) DagdaTable.new) t ∧
      t.toMap = ops.foldl TableauMap.step TableauMap.empty :=
  ⟨ops.foldl Dagda.step Dagda.new, (stores_new c).run ops, toMap_run ops Dagda.new⟩

/-- One more write is one more step of the map. -/
theorem Stores.getEntry_step (h : Stores c T t) (op : TableauOp) (sid : Uuid) (functor : String)
    (args : List String) :
    (T.step c op).getEntry c sid functor args = .ok (t.toMap.step op (sid, functor, args)) := by
  rw [(h.step op).getEntry, Dagda.toMap_step]

/-- What was exported, imported into an empty tableau, is exported again. -/
theorem Stores.export_import (h : Stores c T t) (ord : DagdaOrder) (sid : Uuid) :
    ∃ l l', T.exportSession c ord sid = .ok l ∧
      (DagdaTable.new.importSession c l).exportSession c ord sid = .ok l' ∧ l'.Perm l := by
  obtain ⟨l, hl, hnodup, -, hmem⟩ := h.refines.listSession ord sid
  have hkeys : (l.map PredicateEntry.key).Nodup := by
    refine List.Nodup.map_on (fun a ha b hb hab => ?_) hnodup
    have hka := ((hmem a).mp ha).1
    rw [hab, ((hmem b).mp hb).1] at hka
    exact (Option.some.inj hka).symm
  have himport : Stores c (DagdaTable.new.importSession c l)
      (Dagda.new.step (.importSession l)) := (stores_new c).step (.importSession l)
  obtain ⟨l', hl', hnodup', -, hmem'⟩ := himport.refines.listSession ord sid
  refine ⟨l, l', hl, hl', (List.perm_ext_iff_of_nodup hnodup' hnodup).mpr fun e => ?_⟩
  rw [hmem', toMap_key_iff, Dagda.step, Dagda.importSession_all, Dagda.foldl_setEntry_rows,
    Keyed.mem_foldl_overwrite hkeys]
  constructor
  · rintro ⟨he | ⟨he, -⟩, -⟩
    · exact he
    · cases he
  · intro he
    exact ⟨.inl he, ((hmem e).mp he).2⟩

end DagdaTable

/-- Whatever was written to the tableau: every read agrees with the map; `set` and
`update_truth` keep the other columns of a row that is there; a write leaves the rows of
other keys; and an export imported into an empty tableau is exported again. -/
theorem dagda_refines_map (c : TableauCodec) (ops : List TableauOp) :
    let T := ops.foldl (DagdaTable.step c) DagdaTable.new
    T.Refines c (ops.foldl TableauMap.step TableauMap.empty) ∧
    (∀ entryId now sid functor args truth e, T.getEntry c sid functor args = .ok (some e) →
      (T.set c entryId now sid functor args truth).getEntry c sid functor args =
        .ok (some { e with truthValue := truth, updatedAtMs := now })) ∧
    (∀ entryId now sid functor args truth bindings e,
      T.getEntry c sid functor args = .ok (some e) →
      (T.updateTruth c entryId now sid functor args truth bindings).getEntry c sid functor args =
        .ok (some { e with truthValue := truth, bindings := bindings, updatedAtMs := now })) ∧
    (∀ op sid functor args, ¬op.Touches (sid, functor, args) →
      (T.step c op).getEntry c sid functor args = T.getEntry c sid functor args) ∧
    ∀ ord sid, ∃ l l', T.exportSession c ord sid = .ok l ∧
      (DagdaTable.new.importSession c l).exportSession c ord sid = .ok l' ∧ l'.Perm l := by
  obtain ⟨t, hstores, hmap⟩ := DagdaTable.stores_run c ops
  intro T
  have hread : ∀ {sid functor args e}, T.getEntry c sid functor args = .ok (some e) →
      t.toMap (sid, functor, args) = some e := by
    intro sid functor args e he
    rw [hstores.getEntry] at he
    exact Except.ok.inj he
  refine ⟨hmap ▸ hstores.refines, ?_, ?_, ?_, hstores.export_import⟩
  · intro entryId now sid functor args truth e he
    refine (hstores.getEntry_step (.set entryId now sid functor args truth) _ _ _).trans ?_
    have hold : t.toMap (Dagda.minimalEntry entryId now sid functor args truth []).key = some e :=
      hread he
    rw [TableauMap.step, TableauMap.put, hold]
    exact congrArg Except.ok (Function.update_self _ _ _)
  · intro entryId now sid functor args truth bindings e he
    refine (hstores.getEntry_step (.updateTruth entryId now sid functor args truth bindings)
      _ _ _).trans ?_
    have hold : t.toMap (Dagda.minimalEntry entryId now sid functor args truth bindings).key =
        some e := hread he
    rw [TableauMap.step, TableauMap.put, hold]
    exact congrArg Except.ok (Function.update_self _ _ _)
  · intro op sid functor args h
    rw [hstores.getEntry_step, hstores.getEntry, TableauMap.step_untouched _ _ h]

end Cerebellum
