import Cerebellum.Term
import Cerebellum.Cycle
import Cerebellum.Lib.Batch

/-! `coire_consume/0`: poll the `relay-` events of the engine's mailbox and dispatch each
of them with `maplist/2`. The poll takes the whole batch out of the mailbox before the
first event is dispatched. -/
namespace Cerebellum
open Transition Batch

/-- SWI-Prolog as far as the dispatcher relies on it. The state is the Coire, which goals
write into, and the clause store `τ`; `α` are the terms read from event data and `ε` the
exceptions. -/
structure Dispatch (τ α ε : Type*) where
  /-- `coire_on_event/1`, the hook ahead of the built-in handling: success or failure. -/
  onEvent : World × τ → Term → Except ε Bool × (World × τ)
  /-- `term_to_atom/2` on the event's data. -/
  readTerm : Term → Except ε α
  assertz : World × τ → α → Except ε (World × τ)
  retract : World × τ → α → Except ε (World × τ)
  /-- A goal's failure is swallowed; its effects stay in any case. -/
  call : World × τ → α → Option ε × (World × τ)
  /-- What `get_dict/3` raises on a payload that is no dict. -/
  notDict : Term → ε

namespace Dispatch
variable {τ α ε : Type*} (L : Dispatch τ α ε)

/-- Run a built-in that either raises an error or changes the state. -/
def builtin (s : World × τ) : Except ε (World × τ) → Option ε × (World × τ)
  | .error e => (some e, s)
  | .ok s => (none, s)

/-- Read the data as a term and go on with it. -/
def withTerm (s : World × τ) (data : Term) (k : α → Option ε × (World × τ)) :
    Option ε × (World × τ) :=
  match L.readTerm data with
  | .error e => (some e, s)
  | .ok t => k t

def coireDispatchType (s : World × τ) (type data : Term) : Option ε × (World × τ) :=
  if type = .atom "assert" then L.withTerm s data fun fact => builtin s (L.assertz s fact)
  else if type = .atom "retract" then L.withTerm s data fun fact => builtin s (L.retract s fact)
  else if type = .atom "goal" then L.withTerm s data fun goal => L.call s goal
  else (none, s)

def coireBuiltinHandle (s : World × τ) (payload : Term) : Option ε × (World × τ) :=
  match payload with
  | .dict m =>
    match Fields.get "type" m, Fields.get "data" m with
    | some type, some data => L.coireDispatchType s type.normalize data.normalize
    | _, _ => (none, s)
  | p => (some (L.notDict p), s)

def coireDispatchEvent (s : World × τ) (payload : Json) : Option ε × (World × τ) :=
  match L.onEvent s (Term.ofJson payload) with
  | (.error e, s) => (some e, s)
  | (.ok true, s) => (none, s)
  | (.ok false, s) => L.coireBuiltinHandle s (Term.ofJson payload)

/-- The payloads `coire_poll_inbound/2` hands over, and the state it leaves. -/
def inbound (ord : RowOrder) (sid : Uuid) (s : World × τ) : List Json × (World × τ) :=
  let (events, w) := s.1.poll ord sid (.startsWith "relay-")
  (events.map ClaraEvent.payload, (w, s.2))

def coireConsume (ord : RowOrder) (sid : Uuid) (s : World × τ) : Option ε × (World × τ) :=
  upTo L.coireDispatchEvent (inbound ord sid s).2 (inbound ord sid s).1

/-- The data can be read and the built-in of its type raises no error. -/
def Executable (s : World × τ) (type data : Term) : Prop :=
  (type = .atom "assert" → ∃ t s', L.readTerm data = .ok t ∧ L.assertz s t = .ok s') ∧
  (type = .atom "retract" → ∃ t s', L.readTerm data = .ok t ∧ L.retract s t = .ok s') ∧
  (type = .atom "goal" → ∃ t, L.readTerm data = .ok t ∧ (L.call s t).1 = none)

/-- The event's handler raises no error in the state its turn comes in. -/
def Harmless (s : World × τ) (payload : Json) : Prop :=
  match L.onEvent s (Term.ofJson payload) with
  | (.error _, _) => False
  | (.ok true, _) => True
  | (.ok false, s) =>
    match Term.ofJson payload with
    | .dict m => ∀ type data, Fields.get "type" m = some type → Fields.get "data" m = some data →
        L.Executable s type.normalize data.normalize
    | _ => False

theorem builtin_eq_none {s : World × τ} {r : Except ε (World × τ)} :
    (builtin s r).1 = none ↔ ∃ s', r = .ok s' := by
  cases r <;> simp [builtin]

theorem withTerm_eq_none {s : World × τ} {data : Term} {k : α → Option ε × (World × τ)} :
    (L.withTerm s data k).1 = none ↔ ∃ t, L.readTerm data = .ok t ∧ (k t).1 = none := by
  unfold withTerm
  cases L.readTerm data <;> simp

theorem coireDispatchType_none_iff {s : World × τ} {type data : Term} :
    (L.coireDispatchType s type data).1 = none ↔ L.Executable s type data := by
  unfold coireDispatchType Executable
  by_cases h1 : type = .atom "assert"
  · simp [h1, withTerm_eq_none, builtin_eq_none]
  · by_cases h2 : type = .atom "retract"
    · simp [h2, withTerm_eq_none, builtin_eq_none]
    · by_cases h3 : type = .atom "goal" <;> simp [h1, h2, h3, withTerm_eq_none]

theorem coireDispatchEvent_none_iff {s : World × τ} {payload : Json} :
    (L.coireDispatchEvent s payload).1 = none ↔ L.Harmless s payload := by
  unfold coireDispatchEvent Harmless
  split
  · simp
  · simp
  · simp only [coireBuiltinHandle]
    cases hp : Term.ofJson payload with
    | dict m =>
      cases ht : Fields.get "type" m with
      | none => simp [ht]
      | some type =>
        cases hd : Fields.get "data" m with
        | none => simp [ht, hd]
        | some data => simp [ht, hd, coireDispatchType_none_iff]
    | _ => simp

/-- The batch goes through as if every event of it had been consumed on its own, and the
cycle it is consumed in goes on. -/
structure Undisturbed (ord : RowOrder) (sid : Uuid) (s : World × τ) : Prop where
  everyEvent : (reached L.coireDispatchEvent (inbound ord sid s).2 (inbound ord sid s).1).map
    Prod.snd = (inbound ord sid s).1
  asAlone : (L.coireConsume ord sid s).2 = (inbound ord sid s).1.foldl
    (fun s payload => (upTo L.coireDispatchEvent s [payload]).2) (inbound ord sid s).2
  goesOn : ∀ (c : CycleController) (i : CycleInput),
    i.consumeOk = (L.coireConsume ord sid s).1.isNone → (c.prologPass ord i).1 = true

theorem alone_eq_after (s : World × τ) (payload : Json) :
    (upTo L.coireDispatchEvent s [payload]).2 = after L.coireDispatchEvent s payload := by
  cases h : (L.coireDispatchEvent s payload).1 with
  | none => rw [upTo_cons_ok h]; rfl
  | some e => rw [upTo_cons_error h]

/-- One bad event blocks the others: the batch is dispatched undisturbed exactly when every
event of it is harmless at its turn. -/
theorem consume_undisturbed_iff (ord : RowOrder) (sid : Uuid) (s : World × τ) :
    L.Undisturbed ord sid s ↔
      ∀ v ∈ visits (after L.coireDispatchEvent) (inbound ord sid s).2 (inbound ord sid s).1,
        L.Harmless v.1 v.2 := by
  simp only [← coireDispatchEvent_none_iff]
  constructor
  · intro h
    rw [← upTo_eq_none_iff]
    have hon := h.goesOn CycleController.joined
      { consumeOk := (L.coireConsume ord sid s).1.isNone } rfl
    cases he : (L.coireConsume ord sid s).1 with
    | none => exact he
    | some e => simp [CycleController.prologPass, he] at hon
  · intro h
    obtain ⟨hend, hall⟩ := upTo_of_ok h
    refine ⟨?_, ?_, ?_⟩
    · rw [hall, visits_map_snd]
    · rw [coireConsume, hend]
      simp only [alone_eq_after]
      exact run_eq_foldl _ _ _
    · intro c i hi
      rw [coireConsume, hend] at hi
      simp [CycleController.prologPass, hi]

end Dispatch

/-- A store of facts by their text, in which `foo(` is the one text that does not parse. -/
def factStore : Dispatch (List Term) Term String where
  onEvent s _ := (.ok false, s)
  readTerm t := if t = .atom "foo(" then .error "syntax_error" else .ok t
  assertz s t := .ok (s.1, s.2 ++ [t])
  retract s t := .ok (s.1, s.2.erase t)
  call s _ := (none, s)
  notDict _ := "type_error"

/-- A goal that does not parse is relayed ahead of a fact. -/
def badGoalFirst : World :=
  (World.start.emit ⟨1⟩ "relay-clips:clips" (.obj [("type", .str "goal"), ("data", .str "foo(")])).emit
    ⟨1⟩ "relay-clips:clips" (.obj [("type", .str "assert"), ("data", .str "ok")])

/-- The fact behind it is taken out of the mailbox and never asserted. -/
theorem bad_goal_drops_the_rest :
    (factStore.coireConsume .stable ⟨1⟩ (badGoalFirst, [])).2.2 = [] ∧
      (factStore.coireConsume .stable ⟨1⟩ (badGoalFirst, [])).2.1.coire.countPending ⟨1⟩ = 0 ∧
      ¬ factStore.Undisturbed .stable ⟨1⟩ (badGoalFirst, []) := by
  refine ⟨by decide +kernel, by decide +kernel, fun h => ?_⟩
  have hreached := h.everyEvent
  revert hreached
  decide +kernel

end Cerebellum
