import Cerebellum.Json
import Cerebellum.Uuid
import Cerebellum.Lib.Isolation
import Mathlib.Logic.Function.Basic

/-! The Prolog side of the process: one clause store per predicate shared by all engines,
and one per engine for the predicates declared `thread_local`. Deductions run on engines
of their own; what one of them sees of the others is whatever went into a shared store. -/
namespace Cerebellum
open Transition

structure PredKey where
  module : String
  name : String
  arity : Nat
  deriving DecidableEq

/-- The `thread_local` declarations of `the_coire.pl`. -/
def threadLocals : List PredKey :=
  [⟨"the_coire", "coire_session_id", 1⟩, ⟨"the_coire", "caws_offer_sent", 2⟩,
    ⟨"the_coire", "caws_result", 2⟩, ⟨"the_coire", "caws_failed", 2⟩,
    ⟨"the_coire", "caws_offering", 3⟩, ⟨"the_coire", "caws_piped", 2⟩,
    ⟨"the_coire", "caws_edge_offer", 2⟩, ⟨"the_coire", "caws_edge_replied", 2⟩,
    ⟨"the_coire", "caws_emit_sent", 2⟩, ⟨"the_coire", "caws_emitted", 1⟩,
    ⟨"the_coire", "caws_message", 3⟩, ⟨"the_coire", "caws_teed", 2⟩,
    ⟨"the_coire", "caws_edge_msg_seen", 2⟩, ⟨"user", "edge_result", 3⟩,
    ⟨"user", "edge_message", 3⟩]

def threadLocal (k : PredKey) : Bool := decide (k ∈ threadLocals)

/-- `:- dynamic(deduce_context_json/1)` of `the_rabbit.pl`. -/
def deduceContextJson : PredKey := ⟨"the_rabbit", "deduce_context_json", 1⟩

def coireSessionId : PredKey := ⟨"the_coire", "coire_session_id", 1⟩

structure Clause (α : Type*) where
  pred : PredKey
  content : α

/-- The clauses an engine sees, in order. -/
abbrev View (α : Type*) := PredKey → List (Clause α)

inductive StoreOp (α : Type*) where
  | asserta (c : Clause α)
  | assertz (c : Clause α)
  /-- Remove the first clause that is selected. -/
  | retract (pred : PredKey) (selects : Clause α → Bool)

namespace StoreOp
variable {α : Type*}

def pred : StoreOp α → PredKey
  | .asserta c => c.pred
  | .assertz c => c.pred
  | .retract k _ => k

def edit : StoreOp α → List (Clause α) → List (Clause α)
  | .asserta c, l => c :: l
  | .assertz c, l => l ++ [c]
  | .retract _ selects, l => l.eraseP selects

end StoreOp

/-- SWI-Prolog as far as a deduction relies on it: how a goal runs over the clauses it
sees, when a clause unifies with a pattern, and the text of the two facts written from
Rust. -/
structure Prolog (α γ ρ : Type*) where
  solve : View α → γ → List (StoreOp α) × ρ
  raises : ρ → Bool
  succeeds : ρ → Bool
  unifies : α → α → Bool
  sessionArg : Uuid → α
  contextArg : List Json → α
  /-- `atom_json_dict/3` on the argument; `none` when it raises an error. -/
  readContext : α → Option (List Json)

/-- A term read by `consult_string`: one that is called (a directive, a query, a loading
term) or a clause to assert. -/
inductive SourceTerm (α γ : Type*) where
  | call (g : γ)
  | clause (c : Clause α)

/-- What `coire_dispatch_type/2` makes of a relayed event. -/
inductive Relayed (α γ : Type*) where
  | assert (fact : Clause α)
  | retract (fact : Clause α)
  | goal (g : γ)
  | other

inductive DeductionStep (α γ : Type*) where
  | new (sessionId : Uuid)
  | seedProlog (terms : List (SourceTerm α γ))
  | seedContext (context : List Json)
  /-- `hook` is the call of `coire_on_event/1` ahead of the built-in handling. -/
  | dispatch (hook : γ) (e : Relayed α γ)
  | query (g : γ)

def View.apply {α : Type*} (v : View α) (op : StoreOp α) : View α :=
  Function.update v op.pred (op.edit (v op.pred))

def View.applyAll {α : Type*} (v : View α) (ops : List (StoreOp α)) : View α :=
  ops.foldl View.apply v

namespace Prolog
variable {α γ ρ : Type*} (L : Prolog α γ ρ)

/-- `ignore(call(G))` for the called terms, `assertz` for the rest; an error ends it. -/
def consultString (v : View α) : List (SourceTerm α γ) → List (StoreOp α)
  | [] => []
  | .clause c :: terms => .assertz c :: consultString (v.apply (.assertz c)) terms
  | .call g :: terms =>
    let (ops, result) := L.solve v g
    ops ++ if L.raises result then [] else consultString (v.applyAll ops) terms

def seedContext (context : List Json) : List (StoreOp α) :=
  if context.isEmpty then [] else [.assertz ⟨deduceContextJson, L.contextArg context⟩]

def dispatchType (v : View α) : Relayed α γ → List (StoreOp α)
  | .assert fact => [.assertz fact]
  | .retract fact => [.retract fact.pred fun c => L.unifies fact.content c.content]
  | .goal g => (L.solve v g).1
  | .other => []

/-- What a step of a deduction writes, given the clauses its engine sees. -/
def ops (v : View α) : DeductionStep α γ → List (StoreOp α)
  | .new sessionId => [.assertz ⟨coireSessionId, L.sessionArg sessionId⟩]
  | .seedProlog terms => L.consultString v terms
  | .seedContext context => L.seedContext context
  | .dispatch hook e =>
    let (ops, result) := L.solve v hook
    ops ++ if L.raises result || L.succeeds result then [] else L.dispatchType (v.applyAll ops) e
  | .query g => (L.solve v g).1

/-- `current_context/1`: the first clause decides; none means the empty context. -/
def currentContext (v : View α) : Option (List Json) :=
  match v deduceContextJson with
  | [] => some []
  | c :: _ => L.readContext c.content

/-- The solutions of the goal a step runs. -/
def answer (v : View α) : DeductionStep α γ → Option ρ
  | .query g => some (L.solve v g).2
  | .dispatch hook (.goal g) =>
    let (ops, result) := L.solve v hook
    if L.raises result || L.succeeds result then some result
    else some (L.solve (v.applyAll ops) g).2
  | .dispatch hook _ => some (L.solve v hook).2
  | _ => none

end Prolog

structure Process (α : Type*) where
  shared : View α
  locals : Nat → View α

namespace Process
variable {α γ ρ : Type*}

def view (p : Process α) (e : Nat) : View α := fun k =>
  if threadLocal k then p.locals e k else p.shared k

/-- An engine writes a clause into its own store or into the one all engines share. -/
def apply (e : Nat) (p : Process α) (op : StoreOp α) : Process α :=
  if threadLocal op.pred then
    { p with locals := Function.update p.locals e ((p.locals e).apply op) }
  else { p with shared := p.shared.apply op }

/-- `PL_create_engine`: the thread-local predicates of a new engine are empty. -/
def createEngine (p : Process α) (e : Nat) : Process α :=
  { p with locals := Function.update p.locals e fun _ => [] }

def prepare (p : Process α) (e : Nat) : DeductionStep α γ → Process α
  | .new _ => p.createEngine e
  | _ => p

/-- What one step of the deduction on engine `i.1` writes. -/
def writes (L : Prolog α γ ρ) (p : Process α) (i : Nat × DeductionStep α γ) : List (StoreOp α) :=
  L.ops ((p.prepare i.1 i.2).view i.1) i.2

def step (L : Prolog α γ ρ) (p : Process α) (i : Nat × DeductionStep α γ) : Process α :=
  (p.writes L i).foldl (apply i.1) (p.prepare i.1 i.2)

theorem view_apply_self (e : Nat) (p : Process α) (op : StoreOp α) :
    (p.apply e op).view e = (p.view e).apply op := by
  funext k
  by_cases hk : k = op.pred
  · subst hk
    cases h : threadLocal op.pred <;> simp [view, Process.apply, View.apply, h]
  · cases h : threadLocal op.pred <;> cases h' : threadLocal k <;>
      simp [view, Process.apply, View.apply, h, h', hk]

/-- What another engine writes is seen by `e` exactly when the predicate is shared. -/
theorem view_apply_other {e d : Nat} (hne : d ≠ e) (p : Process α) (op : StoreOp α) :
    (p.apply d op).view e = if threadLocal op.pred then p.view e else (p.view e).apply op := by
  funext k
  cases h : threadLocal op.pred with
  | true => simp [view, Process.apply, h, Function.update_of_ne hne.symm]
  | false =>
    by_cases hk : k = op.pred
    · subst hk
      simp [view, Process.apply, View.apply, h]
    · cases h' : threadLocal k <;> simp [view, Process.apply, View.apply, h, h', hk]

theorem view_applyAll_self (e : Nat) (ops : List (StoreOp α)) (p : Process α) :
    (ops.foldl (apply e) p).view e = (p.view e).applyAll ops := by
  induction ops generalizing p with
  | nil => rfl
  | cons op ops ih => rw [List.foldl_cons, ih, view_apply_self]; rfl

theorem view_applyAll_other {e d : Nat} (hne : d ≠ e) (ops : List (StoreOp α)) (p : Process α)
    (hlocal : ∀ op ∈ ops, threadLocal op.pred = true) :
    (ops.foldl (apply d) p).view e = p.view e := by
  induction ops generalizing p with
  | nil => rfl
  | cons op ops ih =>
    rw [List.foldl_cons, ih _ fun o ho => hlocal o (List.mem_cons_of_mem _ ho),
      view_apply_other hne, if_pos (hlocal op (by simp))]

/-- The clauses a deduction sees once its engine is ready for the step. -/
def prepared (v : View α) : DeductionStep α γ → View α
  | .new _ => fun k => if threadLocal k then [] else v k
  | _ => v

/-- The clauses a deduction sees after a step of its own, from those it saw before. -/
def alone (L : Prolog α γ ρ) (v : View α) (i : Nat × DeductionStep α γ) : View α :=
  (prepared v i.2).applyAll (L.ops (prepared v i.2) i.2)

theorem view_prepare_self (p : Process α) (e : Nat) (s : DeductionStep α γ) :
    (p.prepare e s).view e = prepared (p.view e) s := by
  cases s with
  | new sessionId =>
    funext k
    cases h : threadLocal k <;> simp [prepare, prepared, createEngine, view, h]
  | _ => rfl

theorem view_prepare_other {e d : Nat} (hne : d ≠ e) (p : Process α) (s : DeductionStep α γ) :
    (p.prepare d s).view e = p.view e := by
  cases s with
  | new sessionId =>
    funext k
    simp [prepare, createEngine, view, Function.update_of_ne hne.symm]
  | _ => rfl

theorem view_step_self (L : Prolog α γ ρ) (p : Process α) (i : Nat × DeductionStep α γ) :
    (p.step L i).view i.1 = alone L (p.view i.1) i := by
  rw [step, view_applyAll_self, writes, view_prepare_self]
  rfl

theorem view_step_other (L : Prolog α γ ρ) (p : Process α) {i : Nat × DeductionStep α γ} {e : Nat}
    (hne : i.1 ≠ e) (hlocal : ∀ op ∈ p.writes L i, threadLocal op.pred = true) :
    (p.step L i).view e = p.view e := by
  rw [step, view_applyAll_other hne _ _ hlocal, view_prepare_other hne]

/-- What a deduction gets to see at one of its steps. -/
structure Seen (α ρ : Type*) where
  clauses : View α
  context : Option (List Json)
  answer : Option ρ

/-- What the deduction on engine `d` sees along a history of the process. -/
def sees (L : Prolog α γ ρ) (d : Nat) (p : Process α) (history : List (Nat × DeductionStep α γ)) :
    List (Seen α ρ) :=
  (observations (step L) (view · d) (fun i => i.1 == d) p history).map fun o =>
    ⟨o.1, L.currentContext o.1, L.answer o.1 o.2.2⟩

/-- Two histories with the same deduction look the same to it as long as all the others
write thread-local predicates only. -/
theorem deductions_isolated (L : Prolog α γ ρ) (d : Nat) (p : Process α)
    {h₁ h₂ : List (Nat × DeductionStep α γ)}
    (hsame : h₁.filter (fun i => i.1 == d) = h₂.filter (fun i => i.1 == d))
    (hl₁ : ∀ v ∈ visits (step L) p h₁, v.2.1 ≠ d → ∀ op ∈ v.1.writes L v.2, threadLocal op.pred = true)
    (hl₂ : ∀ v ∈ visits (step L) p h₂, v.2.1 ≠ d → ∀ op ∈ v.1.writes L v.2, threadLocal op.pred = true) :
    p.sees L d h₁ = p.sees L d h₂ := by
  have hown : ∀ (q : Process α) (i : Nat × DeductionStep α γ), (i.1 == d) = true →
      (q.step L i).view d = alone L (q.view d) i := by
    intro q i hi
    rw [beq_iff_eq] at hi
    subst hi
    exact q.view_step_self L i
  have hothers : ∀ h : List (Nat × DeductionStep α γ),
      (∀ v ∈ visits (step L) p h, v.2.1 ≠ d → ∀ op ∈ v.1.writes L v.2, threadLocal op.pred = true) →
      ∀ v ∈ visits (step L) p h, (v.2.1 == d) = false → (v.1.step L v.2).view d = v.1.view d := by
    intro h hl v hv hne
    rw [beq_eq_false_iff_ne] at hne
    exact v.1.view_step_other L hne (hl v hv hne)
  unfold sees
  rw [observations_congr hown rfl hsame (hothers h₁ hl₁) (hothers h₂ hl₂)]

/-- A Prolog whose only goal is `current_context(C)`. -/
def contextReader : Prolog (List Json) Unit (Option (List Json)) where
  solve v _ := ([], match v deduceContextJson with
    | [] => some []
    | c :: _ => some c.content)
  raises r := r.isNone
  succeeds r := r.isSome
  unifies a b := decide (a = b)
  sessionArg u := [.str u.toText]
  contextArg := id
  readContext := some

def empty : Process (List Json) := ⟨fun _ => [], fun _ _ => []⟩

/-- A deduction without a context that asks for it. -/
def asking : List (Nat × DeductionStep (List Json) Unit) := [(1, .new ⟨1⟩), (1, .query ())]

theorem deductions_isolated_idle :
    empty.sees contextReader 1 asking =
      empty.sees contextReader 1 ([(2, .new ⟨2⟩), (2, .query ())] ++ asking) := by
  refine deductions_isolated contextReader 1 empty rfl ?_ ?_
  · decide +kernel
  · decide +kernel

/-- Another visitor's deduction is seeded with its conversation first. -/
def conversing : List (Nat × DeductionStep (List Json) Unit) :=
  [(2, .new ⟨2⟩), (2, .seedContext [.str "secret"])] ++ asking

theorem context_leaks :
    asking.filter (fun i => i.1 == 1) = conversing.filter (fun i => i.1 == 1) ∧
      (empty.sees contextReader 1 asking).map Seen.context = [some [], some []] ∧
      (empty.sees contextReader 1 conversing).map Seen.context =
        [some [.str "secret"], some [.str "secret"]] ∧
      empty.sees contextReader 1 asking ≠ empty.sees contextReader 1 conversing := by
  have h1 : (empty.sees contextReader 1 asking).map Seen.context = [some [], some []] := by
    decide +kernel
  have h2 : (empty.sees contextReader 1 conversing).map Seen.context =
      [some [.str "secret"], some [.str "secret"]] := by decide +kernel
  refine ⟨rfl, h1, h2, fun h => ?_⟩
  rw [h, h2] at h1
  revert h1
  decide

end Process

end Cerebellum
