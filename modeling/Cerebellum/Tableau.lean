import Cerebellum.Uuid
import Cerebellum.Lib.Batch
import Cerebellum.Lib.Keyed
import Mathlib.Data.List.Sort

/-! The deduction tableau: one row for every predicate a session has seen, with its truth
value and the bindings found so far. -/
namespace Cerebellum
open Batch

inductive TruthValue where
  | knownTrue
  | knownFalse
  | knownUnresolved
  | unknown
  deriving DecidableEq, Repr

inductive Kind where
  | rule
  | predicate
  | condition
  deriving DecidableEq, Repr

structure Binding where
  var : String
  val : String
  deriving DecidableEq, Repr

structure PredicateEntry where
  sessionId : Uuid
  entryId : Uuid
  functor : String
  args : List String
  kind : Kind
  source : Option String
  boundVars : List String
  truthValue : TruthValue
  bindings : List Binding
  parentId : Option Uuid
  updatedAtMs : Int
  deriving DecidableEq

namespace PredicateEntry

/-- Every entry is built with the number of its arguments. -/
def arity (e : PredicateEntry) : Nat := e.args.length

/-- `PRIMARY KEY (session_id, functor, args_json)`. -/
def key (e : PredicateEntry) : Uuid × String × List String := (e.sessionId, e.functor, e.args)

/-- The same predicate with the same outcome, in whichever session. -/
def Same (e e' : PredicateEntry) : Prop :=
  e.functor = e'.functor ∧ e.args = e'.args ∧ e.truthValue = e'.truthValue ∧
    e.bindings = e'.bindings

instance (e e' : PredicateEntry) : Decidable (e.Same e') :=
  inferInstanceAs (Decidable (_ ∧ _ ∧ _ ∧ _))

/-- The columns `update_truth` changes on a conflict. -/
def withTruth (old new : PredicateEntry) : PredicateEntry :=
  { old with
    truthValue := new.truthValue
    bindings := new.bindings
    updatedAtMs := new.updatedAtMs }

theorem withTruth_key (old new : PredicateEntry) : (old.withTruth new).key = old.key := rfl

/-- The columns `set` changes on a conflict. -/
def withTruthOnly (old new : PredicateEntry) : PredicateEntry :=
  { old with
    truthValue := new.truthValue
    updatedAtMs := new.updatedAtMs }

theorem withTruthOnly_key (old new : PredicateEntry) : (old.withTruthOnly new).key = old.key := rfl

end PredicateEntry

/-- The `dagda_predicates` table. -/
@[ext] structure Dagda where
  rows : List PredicateEntry
  primaryKey : (rows.map PredicateEntry.key).Nodup

/-- What `ORDER BY updated_at_ms` promises. -/
structure EntryOrder where
  sort : List PredicateEntry → List PredicateEntry
  perm : ∀ l, (sort l).Perm l
  sorted : ∀ l, (sort l).Pairwise fun a b => a.updatedAtMs ≤ b.updatedAtMs

def EntryOrder.stable : EntryOrder where
  sort := List.insertionSort fun a b => a.updatedAtMs ≤ b.updatedAtMs
  perm := List.perm_insertionSort _
  sorted l :=
    haveI : Std.Total fun a b : PredicateEntry => a.updatedAtMs ≤ b.updatedAtMs :=
      ⟨fun a b => le_total a.updatedAtMs b.updatedAtMs⟩
    haveI : IsTrans PredicateEntry fun a b => a.updatedAtMs ≤ b.updatedAtMs :=
      ⟨fun _ _ _ => le_trans⟩
    List.pairwise_insertionSort _ l

namespace Dagda

def new : Dagda := ⟨[], List.nodup_nil⟩

/-- Insert or replace a complete entry. -/
def setEntry (t : Dagda) (e : PredicateEntry) : Dagda where
  rows := Keyed.upsert PredicateEntry.key Keyed.overwrite t.rows e
  primaryKey := Keyed.nodup_upsert (fun _ _ h => h.symm) t.primaryKey e

/-- The minimal row `update_truth` inserts when the predicate has none. -/
def minimalEntry (entryId : Uuid) (now : Int) (sid : Uuid) (functor : String) (args : List String)
    (truth : TruthValue) (bindings : List Binding) : PredicateEntry :=
  { sessionId := sid, entryId := entryId, functor := functor, args := args, kind := .predicate
    source := none, boundVars := [], truthValue := truth, bindings := bindings, parentId := none
    updatedAtMs := now }

/-- Only the truth value and the bindings of an entry that is already there. -/
def updateTruth (t : Dagda) (entryId : Uuid) (now : Int) (sid : Uuid) (functor : String)
    (args : List String) (truth : TruthValue) (bindings : List Binding) : Dagda where
  rows := Keyed.upsert PredicateEntry.key PredicateEntry.withTruth t.rows
    (minimalEntry entryId now sid functor args truth bindings)
  primaryKey := Keyed.nodup_upsert (fun a b _ => PredicateEntry.withTruth_key a b) t.primaryKey _

/-- The truth value of a predicate; bindings found for it stay. -/
def set (t : Dagda) (entryId : Uuid) (now : Int) (sid : Uuid) (functor : String)
    (args : List String) (truth : TruthValue) : Dagda where
  rows := Keyed.upsert PredicateEntry.key PredicateEntry.withTruthOnly t.rows
    (minimalEntry entryId now sid functor args truth [])
  primaryKey :=
    Keyed.nodup_upsert (fun a b _ => PredicateEntry.withTruthOnly_key a b) t.primaryKey _

/-- `DELETE` of the rows that `p` does not keep. -/
def keep (t : Dagda) (p : PredicateEntry → Bool) : Dagda where
  rows := t.rows.filter p
  primaryKey := t.primaryKey.sublist (List.filter_sublist.map PredicateEntry.key)

/-- Whether a row was deleted, and the table without it. -/
def delete (t : Dagda) (sid : Uuid) (functor : String) (args : List String) : Bool × Dagda :=
  (t.rows.any (·.key == (sid, functor, args)), t.keep (·.key != (sid, functor, args)))

/-- How many rows the session had, and the table without them. -/
def clearSession (t : Dagda) (sid : Uuid) : Nat × Dagda :=
  (t.rows.countP (·.sessionId == sid), t.keep (·.sessionId != sid))

def getEntry (t : Dagda) (sid : Uuid) (functor : String) (args : List String) :
    Option PredicateEntry :=
  t.rows.find? fun e => e.key == (sid, functor, args)

/-- A predicate that is not in the table is unknown. -/
def get (t : Dagda) (sid : Uuid) (functor : String) (args : List String) : TruthValue :=
  ((t.getEntry sid functor args).map PredicateEntry.truthValue).getD .unknown

def listSession (ord : EntryOrder) (t : Dagda) (sid : Uuid) : List PredicateEntry :=
  ord.sort (t.rows.filter (·.sessionId == sid))

def listByTruth (ord : EntryOrder) (t : Dagda) (sid : Uuid) (truth : TruthValue) :
    List PredicateEntry :=
  ord.sort (t.rows.filter fun e => e.sessionId == sid && e.truthValue == truth)

def countByTruth (t : Dagda) (sid : Uuid) (truth : TruthValue) : Nat :=
  t.rows.countP fun e => e.sessionId == sid && e.truthValue == truth

def listByFunctor (ord : EntryOrder) (t : Dagda) (sid : Uuid) (functor : String) (arity : Nat) :
    List PredicateEntry :=
  ord.sort (t.rows.filter fun e =>
    e.sessionId == sid && e.functor == functor && e.arity == arity)

def exportSession (ord : EntryOrder) (t : Dagda) (sid : Uuid) : List PredicateEntry :=
  t.listSession ord sid

def tableauChangedSince (t : Dagda) (sid : Uuid) (sinceMs : Int) : Bool :=
  t.rows.any fun e => e.sessionId == sid && decide (sinceMs < e.updatedAtMs)

/-- Entries go in verbatim, one by one; `fails` is what `set_entry` returns for each. -/
def importSession {ε : Type*} (fails : PredicateEntry → Option ε) (t : Dagda)
    (entries : List PredicateEntry) : Option ε × Dagda :=
  upTo (fun t e => match fails e with
    | some err => (some err, t)
    | none => (none, t.setEntry e)) t entries

variable {t : Dagda} {ord : EntryOrder} {sid : Uuid} {e : PredicateEntry}

theorem mem_exportSession : e ∈ t.exportSession ord sid ↔ e ∈ t.rows ∧ e.sessionId = sid := by
  rw [exportSession, listSession, (ord.perm _).mem_iff, List.mem_filter]
  simp

theorem mem_listByFunctor {functor : String} {arity : Nat} :
    e ∈ t.listByFunctor ord sid functor arity ↔
      e ∈ t.rows ∧ e.sessionId = sid ∧ e.functor = functor ∧ e.arity = arity := by
  rw [listByFunctor, (ord.perm _).mem_iff, List.mem_filter]
  simp [and_assoc]

theorem getEntry_eq_find (t : Dagda) (sid : Uuid) (functor : String) (args : List String) :
    t.getEntry sid functor args = Keyed.find PredicateEntry.key t.rows (sid, functor, args) := by
  unfold getEntry Keyed.find
  congr 1
  funext e
  rw [Bool.eq_iff_iff]
  simp

/-- A row is what its key finds. -/
theorem getEntry_of_mem (h : e ∈ t.rows) : t.getEntry e.sessionId e.functor e.args = some e := by
  rw [getEntry_eq_find]
  exact (Keyed.find_eq_some_iff t.primaryKey).mpr ⟨h, rfl⟩

theorem get_of_mem (h : e ∈ t.rows) : t.get e.sessionId e.functor e.args = e.truthValue := by
  rw [get, getEntry_of_mem h]
  rfl

/-- An import stops at the first entry that cannot be written. -/
theorem importSession_eq {ε : Type*} (fails : PredicateEntry → Option ε) (t : Dagda)
    (entries : List PredicateEntry) : importSession fails t entries =
      (entries.findSome? fails, (entries.takeWhile fun e => (fails e).isNone).foldl setEntry t) := by
  unfold importSession
  induction entries generalizing t with
  | nil => rfl
  | cons e entries ih =>
    cases hf : fails e with
    | none => simp [upTo, hf, ih]
    | some err => simp [upTo, hf]

/-- An import without failures writes every entry. -/
theorem importSession_all (t : Dagda) (entries : List PredicateEntry) :
    (importSession (fun _ => (none : Option Empty)) t entries).2 = entries.foldl setEntry t := by
  unfold importSession
  induction entries generalizing t with
  | nil => rfl
  | cons e entries ih => simpa [upTo] using ih (t.setEntry e)

theorem foldl_setEntry_rows (entries : List PredicateEntry) (t : Dagda) :
    (entries.foldl setEntry t).rows =
      entries.foldl (Keyed.upsert PredicateEntry.key Keyed.overwrite) t.rows := by
  induction entries generalizing t with
  | nil => rfl
  | cons e entries ih => exact ih (t.setEntry e)

/-- Entries of one session written into the table do not touch another session. -/
theorem importSession_filter {ε : Type*} {fails : PredicateEntry → Option ε}
    {entries : List PredicateEntry} (h : ∀ e ∈ entries, e.sessionId ≠ sid) :
    (importSession fails t entries).2.rows.filter (·.sessionId == sid) =
      t.rows.filter (·.sessionId == sid) := by
  have hmine : ∀ e ∈ entries.takeWhile fun e => (fails e).isNone, e.sessionId ≠ sid :=
    fun e he => h e ((List.takeWhile_sublist _).subset he)
  rw [importSession_eq, foldl_setEntry_rows]
  refine Keyed.filter_foldl_overwrite (fun e he => by simpa using hmine e he) ?_
  intro e he r _ hr hkey
  refine hmine e he ?_
  rw [← beq_iff_eq.mp hr]
  exact (congrArg Prod.fst hkey).symm

end Dagda

end Cerebellum
