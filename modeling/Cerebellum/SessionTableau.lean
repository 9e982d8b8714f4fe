import Cerebellum.Tableau
import Cerebellum.TransduceSpec

/-! The tableau of a deduction session: what `seed_tableau_from_source` writes into it from the
Prolog source, and what `record_event_in_tableau` makes of a relayed event. -/
namespace Cerebellum
open Transpile

/-- `uuid n` and `clock n` are what the `n`-th entry built takes from `Uuid::new_v4` and from the
system clock. -/
structure Mint where
  uuid : Nat → Uuid
  clock : Nat → Int
  uuidNew : Function.Injective uuid

/-- The tableau of a session, and how many entries were built for it. -/
structure LiveTableau where
  tableau : Dagda
  minted : Nat

def LiveTableau.new : LiveTableau := ⟨Dagda.new, 0⟩

section Terms
variable {φ : Type} (F : FloatText φ)

/-- `term_functor`: the name of an atom or a compound, and the value of anything else. -/
def termFunctor : Transpile.Term φ → Text
  | .atom s | .str s | .var s => s
  | .integer n => i64Text n
  | .float f => F.display f
  | .compound functor _ => functor

/-- `extract_ground_args`. -/
def extractGroundArgs : Transpile.Term φ → List Text
  | .compound _ args => args.map (renderPrologTerm F)
  | _ => []

/-- The loop of `term_args_pattern`: a variable is a star in the pattern. -/
def argsPattern : List (Transpile.Term φ) → List Text → List Text × List Text
  | [], vars => ([], vars)
  | .var v :: args, vars =>
    let (pattern, vars) := argsPattern args (if vars.contains v then vars else vars ++ [v])
    (['*'] :: pattern, vars)
  | arg :: args, vars =>
    let (pattern, vars) := argsPattern args vars
    (renderPrologTerm F arg :: pattern, vars)

def termArgsPattern : Transpile.Term φ → List Text × List Text
  | .compound _ args => argsPattern F args []
  | _ => ([], [])

/-- Nothing is recorded of the arguments of a fact yet. -/
def concreteBindings (_ : Transpile.Term φ) : List Binding := []

def conditionGoals : List String :=
  ["==", "\\=", "=", "\\==", "<", ">", ">=", "=<", "=:=", "=\\=", "is", "@<", "@>", "@=<", "@>="]

def isConditionGoal (functor : Text) : Bool :=
  (conditionGoals.map String.toList).contains functor

/-- What names a row within its session: the functor and the pattern of the arguments. -/
def rowKey (t : Transpile.Term φ) : String × List String :=
  (String.ofList (termFunctor F t), (termArgsPattern F t).1.map String.ofList)

end Terms

/-! ### Seeding -/

section Seeding
variable {φ : Type} (F : FloatText φ) (m : Mint) (sid : Uuid)

/-- The columns that every seeded row takes from its term. -/
def seedEntry (n : Nat) (t : Transpile.Term φ) (kind : Kind) (truth : TruthValue)
    (bindings : List Binding) (source : Option String) (parent : Option Uuid) :
    PredicateEntry where
  sessionId := sid
  entryId := m.uuid n
  functor := (rowKey F t).1
  args := (rowKey F t).2
  kind := kind
  source := source
  boundVars := (termArgsPattern F t).2.map String.ofList
  truthValue := truth
  bindings := bindings
  parentId := parent
  updatedAtMs := m.clock n

/-- A bare fact is known to be true from the start. -/
def factEntry (n : Nat) (head : Transpile.Term φ) : PredicateEntry :=
  seedEntry F m sid n head .predicate .knownTrue (concreteBindings head) none none

def headEntry (n : Nat) (head : Transpile.Term φ) : PredicateEntry :=
  seedEntry F m sid n head .rule .unknown [] none none

def goalEntry (n : Nat) (head : Transpile.Term φ) (parent : Uuid) (goal : BodyGoal φ) :
    PredicateEntry :=
  seedEntry F m sid n goal.term
    (if isConditionGoal (termFunctor F goal.term) then .condition else .predicate) .unknown []
    (some (String.ofList (termFunctor F head))) (some parent)

def goalEntries (head : Transpile.Term φ) (parent : Uuid) :
    Nat → List (BodyGoal φ) → List PredicateEntry
  | _, [] => []
  | n, goal :: goals =>
    goalEntry F m sid n head parent goal :: goalEntries head parent (n + 1) goals

/-- The entries of one clause, in the order they are set. -/
def ruleEntries (n : Nat) (rule : PrologRule φ) : List PredicateEntry :=
  if rule.body.isEmpty then [factEntry F m sid n rule.head]
  else
    headEntry F m sid n rule.head ::
      goalEntries F m sid rule.head (m.uuid n) (n + 1) rule.body

def seedEntries : Nat → List (PrologRule φ) → List PredicateEntry
  | _, [] => []
  | n, rule :: rules =>
    ruleEntries F m sid n rule ++ seedEntries (n + (ruleEntries F m sid n rule).length) rules

/-- `seed_tableau_from_source`. -/
def seedTableauFromSource (s : LiveTableau) (source : String) : LiveTableau :=
  let entries := seedEntries F m sid s.minted (parsePrologRules F source.toList)
  ⟨entries.foldl Dagda.setEntry s.tableau, s.minted + entries.length⟩

end Seeding

/-! ### Relayed events -/

section Recording
variable {φ : Type} (F : FloatText φ) (m : Mint) (sid : Uuid)

/-- What an event of this type says about its predicate. -/
def eventTruth (evType : String) : Option TruthValue :=
  if evType = "assert" then some .knownTrue
  else if evType = "retract" then some .knownFalse
  else none

/-- One `update_truth`, with the id and the time it takes. -/
def LiveTableau.updateTruth (s : LiveTableau) (functor : String) (args : List String)
    (truth : TruthValue) (bindings : List Binding) : LiveTableau :=
  ⟨s.tableau.updateTruth (m.uuid s.minted) (m.clock s.minted) sid functor args truth bindings,
    s.minted + 1⟩

/-- The row of the term itself, and the row seeded with a star for each argument if there is one. -/
def recordTerm (truth : TruthValue) (t : Transpile.Term φ) (s : LiveTableau) : LiveTableau :=
  let functor := String.ofList (termFunctor F t)
  let groundArgs := (extractGroundArgs F t).map String.ofList
  let s := s.updateTruth m sid functor groundArgs truth []
  let wildcard := groundArgs.map fun _ => "*"
  match s.tableau.getEntry sid functor wildcard with
  | some seed =>
    s.updateTruth m sid functor wildcard truth (List.zipWith Binding.mk seed.boundVars groundArgs)
  | none => s

/-- `record_event_in_tableau`: only asserts and retracts of texts that parse are recorded. -/
def recordEventInTableau (s : LiveTableau) (payload : Json) : LiveTableau :=
  match payload.strField "type", payload.strField "data" with
  | some evType, some data =>
    match eventTruth evType, parsePrologTerm F data.toList with
    | some truth, .ok t => recordTerm F m sid truth t s
    | _, _ => s
  | _, _ => s

/-- The session has updated one row. -/
def Updates (m : Mint) (sid : Uuid) (s s' : LiveTableau) : Prop :=
  ∃ functor args truth bindings, s' = s.updateTruth m sid functor args truth bindings

variable {F m sid}

theorem recordTerm_updates (truth : TruthValue) (t : Transpile.Term φ) (s : LiveTableau) :
    Relation.ReflTransGen (Updates m sid) s (recordTerm F m sid truth t s) := by
  have hone : ∀ (s : LiveTableau) functor args bindings,
      Updates m sid s (s.updateTruth m sid functor args truth bindings) :=
    fun s functor args bindings => ⟨functor, args, truth, bindings, rfl⟩
  unfold recordTerm
  dsimp only
  split
  · exact .tail (.single (hone s _ _ _)) (hone _ _ _ _)
  · exact .single (hone s _ _ _)

theorem recordEvent_updates (s : LiveTableau) (payload : Json) :
    Relation.ReflTransGen (Updates m sid) s (recordEventInTableau F m sid s payload) := by
  unfold recordEventInTableau
  split
  · split
    · exact recordTerm_updates _ _ s
    · exact .refl
  · exact .refl

/-- Recording events only ever updates rows. -/
theorem recordEvents_updates (s : LiveTableau) (events : List Json) :
    Relation.ReflTransGen (Updates m sid) s (events.foldl (recordEventInTableau F m sid) s) := by
  induction events generalizing s with
  | nil => exact .refl
  | cons event events ih => exact (recordEvent_updates s event).trans (ih _)

end Recording

/-! ### The seeded rows -/

section SeededRows
variable {φ : Type} {F : FloatText φ} {m : Mint} {sid : Uuid}

/-- The keys that a clause writes. -/
def ruleKeys (F : FloatText φ) (rule : PrologRule φ) : List (String × List String) :=
  rowKey F rule.head :: rule.body.map fun g => rowKey F g.term

@[simp] theorem seedEntry_key (n : Nat) (t : Transpile.Term φ) (kind : Kind) (truth : TruthValue)
    (bindings : List Binding) (source : Option String) (parent : Option Uuid) :
    (seedEntry F m sid n t kind truth bindings source parent).key = (sid, rowKey F t) := rfl

theorem goalEntries_append (head : Transpile.Term φ) (parent : Uuid) (n : Nat)
    (gs gs' : List (BodyGoal φ)) : goalEntries F m sid head parent n (gs ++ gs') =
      goalEntries F m sid head parent n gs ++
        goalEntries F m sid head parent (n + gs.length) gs' := by
  induction gs generalizing n with
  | nil => rfl
  | cons g gs ih =>
    rw [List.cons_append, goalEntries, goalEntries, ih, List.length_cons, List.cons_append,
      Nat.add_assoc, Nat.add_comm 1]

theorem goalEntries_keys (head : Transpile.Term φ) (parent : Uuid) (n : Nat)
    (gs : List (BodyGoal φ)) : (goalEntries F m sid head parent n gs).map PredicateEntry.key =
      gs.map fun g => (sid, rowKey F g.term) := by
  induction gs generalizing n with
  | nil => rfl
  | cons g gs ih =>
    rw [goalEntries, List.map_cons, List.map_cons, ih]
    rfl

variable (F m sid) in
theorem ruleEntries_keys (n : Nat) (rule : PrologRule φ) :
    (ruleEntries F m sid n rule).map PredicateEntry.key = (ruleKeys F rule).map (sid, ·) := by
  unfold ruleEntries
  split
  next hbody =>
    rw [ruleKeys, List.isEmpty_iff.mp hbody]
    rfl
  next =>
    rw [List.map_cons, goalEntries_keys, ruleKeys, List.map_cons, List.map_map]
    rfl

theorem seedEntries_keys (n : Nat) (rules : List (PrologRule φ)) :
    (seedEntries F m sid n rules).map PredicateEntry.key =
      (rules.flatMap (ruleKeys F)).map (sid, ·) := by
  induction rules generalizing n with
  | nil => rfl
  | cons rule rules ih =>
    rw [seedEntries, List.map_append, ih, ruleEntries_keys, List.flatMap_cons, List.map_append]

theorem length_ruleEntries (n : Nat) (rule : PrologRule φ) :
    (ruleEntries F m sid n rule).length = (ruleKeys F rule).length := by
  simpa using congrArg List.length (ruleEntries_keys F m sid n rule)

theorem ruleEntries_of_body {rule : PrologRule φ} (h : rule.body ≠ []) (n : Nat) :
    ruleEntries F m sid n rule = headEntry F m sid n rule.head ::
      goalEntries F m sid rule.head (m.uuid n) (n + 1) rule.body := by
  rw [ruleEntries, if_neg (by simpa using h)]

theorem seedEntries_append (n : Nat) (rules rules' : List (PrologRule φ)) :
    seedEntries F m sid n (rules ++ rules') = seedEntries F m sid n rules ++
      seedEntries F m sid (n + (rules.flatMap (ruleKeys F)).length) rules' := by
  induction rules generalizing n with
  | nil => rfl
  | cons rule rules ih =>
    rw [List.cons_append, seedEntries, ih, seedEntries, List.append_assoc, length_ruleEntries,
      List.flatMap_cons, List.length_append, Nat.add_assoc]

end SeededRows

/-! ### Facts stay true

The rows of a key overwrite each other, so the last clause that has it decides. -/

section Facts
variable {φ : Type} {F : FloatText φ} {m : Mint} {sid : Uuid}

/-- What a clause says last about a key. -/
def ruleTruth (F : FloatText φ) (k : String × List String) (rule : PrologRule φ) :
    Option TruthValue :=
  if k ∈ ruleKeys F rule then some (if rule.body.isEmpty then .knownTrue else .unknown) else none

theorem find_truth {l : List PredicateEntry} {v : TruthValue} (h : ∀ e ∈ l, e.truthValue = v)
    (k : Uuid × String × List String) :
    (Keyed.find PredicateEntry.key l k).map PredicateEntry.truthValue =
      if k ∈ l.map PredicateEntry.key then some v else none := by
  cases hfind : Keyed.find PredicateEntry.key l k with
  | none => rw [if_neg (Keyed.find_eq_none_iff.mp hfind), Option.map_none]
  | some e =>
    obtain ⟨he, hk⟩ := Keyed.mem_of_find hfind
    rw [if_pos (hk ▸ List.mem_map_of_mem he), Option.map_some, h e he]

theorem ruleEntries_truth (n : Nat) (rule : PrologRule φ) : ∀ e ∈ ruleEntries F m sid n rule,
    e.truthValue = if rule.body.isEmpty then .knownTrue else .unknown := by
  unfold ruleEntries
  have hgoals : ∀ parent n (gs : List (BodyGoal φ)),
      ∀ e ∈ goalEntries F m sid rule.head parent n gs, e.truthValue = .unknown := by
    intro parent n gs
    induction gs generalizing n with
    | nil => simp [goalEntries]
    | cons g gs ih => exact List.forall_mem_cons.mpr ⟨rfl, ih (n + 1)⟩
  split
  next hbody => simp [factEntry, seedEntry]
  next hbody => exact List.forall_mem_cons.mpr ⟨rfl, hgoals _ _ _⟩

theorem find_seedEntries (n : Nat) (rules : List (PrologRule φ)) (k : String × List String) :
    (Keyed.find PredicateEntry.key (seedEntries F m sid n rules).reverse (sid, k)).map
      PredicateEntry.truthValue = rules.reverse.findSome? (ruleTruth F k) := by
  induction rules generalizing n with
  | nil => rfl
  | cons rule rules ih =>
    have hrule : (Keyed.find PredicateEntry.key (ruleEntries F m sid n rule).reverse (sid, k)).map
        PredicateEntry.truthValue = ruleTruth F k rule := by
      rw [find_truth fun e he => ruleEntries_truth n rule e (List.mem_reverse.mp he)]
      simp only [List.map_reverse, List.mem_reverse, ruleEntries_keys]
      simp [ruleTruth]
    have hrest := ih (n + (ruleEntries F m sid n rule).length)
    rw [seedEntries, List.reverse_append, List.reverse_cons, List.findSome?_append, ← hrest]
    unfold Keyed.find at hrule hrest ⊢
    rw [List.find?_append, Option.map_or, hrule]
    simp

variable (F m sid) in
/-- The truth value a key has after seeding, if a clause has the key. -/
theorem getEntry_seeded (s : LiveTableau) (source : String) (k : String × List String) :
    ((seedTableauFromSource F m sid s source).tableau.getEntry sid k.1 k.2).map
        PredicateEntry.truthValue =
      ((parsePrologRules F source.toList).reverse.findSome? (ruleTruth F k)).or
        ((s.tableau.getEntry sid k.1 k.2).map PredicateEntry.truthValue) := by
  rw [Dagda.getEntry_eq_find, Dagda.getEntry_eq_find, seedTableauFromSource,
    Dagda.foldl_setEntry_rows, Keyed.find_log, Option.map_or]
  exact congrArg (Option.or · _) (find_seedEntries s.minted _ k)

/-- Behind one of the facts with the same key as this one, no rule has that key as its head or as
one of its goals. -/
def StaysLast (F : FloatText φ) (rules : List (PrologRule φ)) (fact : PrologRule φ) : Prop :=
  ∃ pre again post, rules = pre ++ again :: post ∧ again.body = [] ∧
    rowKey F again.head = rowKey F fact.head ∧
    ∀ rule ∈ post, rule.body ≠ [] → rowKey F fact.head ∉ ruleKeys F rule

theorem findSome_known_iff {rules : List (PrologRule φ)} {fact : PrologRule φ} :
    rules.reverse.findSome? (ruleTruth F (rowKey F fact.head)) = some .knownTrue ↔
      StaysLast F rules fact := by
  -- what a fact behind `again` says is the same
  constructor
  · intro h
    obtain ⟨post, again, pre, hsplit, hagain, hpost⟩ := List.findSome?_eq_some_iff.mp h
    have hrules : rules = pre.reverse ++ again :: post.reverse := by
      rw [← List.reverse_reverse rules, hsplit]
      simp
    unfold ruleTruth at hagain
    split at hagain
    next hmem =>
      have hbody : again.body = [] := by
        by_contra hne
        simp [hne] at hagain
      refine ⟨pre.reverse, again, post.reverse, hrules, hbody, ?_, fun rule hrule _ hk => ?_⟩
      · simpa [ruleKeys, hbody, eq_comm] using hmem
      · have hnone := hpost rule (List.mem_reverse.mp hrule)
        simp [ruleTruth, hk] at hnone
    next => cases hagain
  · rintro ⟨pre, again, post, rfl, hbody, hkey, hpost⟩
    have htruth : ruleTruth F (rowKey F fact.head) again = some .knownTrue := by
      simp [ruleTruth, ruleKeys, hbody, hkey]
    rw [List.reverse_append, List.reverse_cons, List.findSome?_append, List.findSome?_append]
    cases hlater : post.reverse.findSome? (ruleTruth F (rowKey F fact.head)) with
    | none => simp [htruth]
    | some v =>
      obtain ⟨rule, hrule, hv⟩ := List.exists_of_findSome?_eq_some hlater
      unfold ruleTruth at hv
      split at hv
      next hk =>
        have hfact : rule.body = [] := by
          by_contra hne
          exact hpost rule (List.mem_reverse.mp hrule) hne hk
        rw [hfact] at hv
        simpa using hv.symm
      next => cases hv

/-- Every bare fact of the source has a row under its own key, and it is known to be true. -/
def FactsTrue (F : FloatText φ) (sid : Uuid) (rules : List (PrologRule φ)) (t : Dagda) : Prop :=
  ∀ fact ∈ rules, fact.body = [] →
    ∃ e, t.getEntry sid (rowKey F fact.head).1 (rowKey F fact.head).2 = some e ∧
      e.truthValue = .knownTrue

/-- The facts are true after seeding exactly when no rule that has the key of a fact, as its head
or as one of its goals, comes behind the last fact with that key. -/
theorem seeded_facts_true_iff (F : FloatText φ) (m : Mint) (sid : Uuid) (s : LiveTableau)
    (source : String) :
    FactsTrue F sid (parsePrologRules F source.toList)
        (seedTableauFromSource F m sid s source).tableau ↔
      ∀ fact ∈ parsePrologRules F source.toList, fact.body = [] →
        StaysLast F (parsePrologRules F source.toList) fact := by
  refine forall₂_congr fun fact hfact => forall_congr' fun hbody => ?_
  have hrow := getEntry_seeded F m sid s source (rowKey F fact.head)
  -- some clause has the key, so what was there before does not count
  have hsome : ((parsePrologRules F source.toList).reverse.findSome?
      (ruleTruth F (rowKey F fact.head))).isSome := by
    rw [List.findSome?_isSome_iff]
    exact ⟨fact, List.mem_reverse.mpr hfact, by simp [ruleTruth, ruleKeys]⟩
  obtain ⟨v, hv⟩ := Option.isSome_iff_exists.mp hsome
  rw [hv, Option.some_or, Option.map_eq_some_iff] at hrow
  rw [← findSome_known_iff, hv]
  constructor
  · rintro ⟨e, he, htrue⟩
    obtain ⟨e', he', rfl⟩ := hrow
    rw [he] at he'
    rw [← Option.some.inj he', htrue]
  · intro htrue
    obtain ⟨e, he, hev⟩ := hrow
    exact ⟨e, he, hev.trans (Option.some.inj htrue)⟩

/-- A mint that counts. -/
def Mint.counting : Mint := ⟨Uuid.mk, fun _ => 0, fun _ _ h => Uuid.mk.inj h⟩

/-- A rule with the fact as its goal, behind the fact, makes it unknown again. -/
theorem fact_forgotten_by_goal : ¬∀ (m : Mint) (sid : Uuid) (s : LiveTableau) (source : String),
    FactsTrue noFloats sid (parsePrologRules noFloats source.toList)
      (seedTableauFromSource noFloats m sid s source).tableau := by
  intro h
  let fact : PrologRule Empty := ⟨.compound ['p'] [.atom ['a']], []⟩
  have hfact : fact ∈ parsePrologRules noFloats "p(a). q :- p(a).".toList := by decide +kernel
  obtain ⟨e, he, htrue⟩ := h .counting ⟨0⟩ .new "p(a). q :- p(a)." fact hfact rfl
  have hrow : ((seedTableauFromSource noFloats .counting ⟨0⟩ .new "p(a). q :- p(a).").tableau.getEntry
      ⟨0⟩ "p" ["a"]).map PredicateEntry.truthValue = some .unknown := by decide +kernel
  have hsame : some e.truthValue = some TruthValue.unknown := by
    rw [← hrow]
    exact congrArg (Option.map PredicateEntry.truthValue) he.symm
  rw [htrue] at hsame
  cases hsame

end Facts

/-! ### Parent links

A body goal links to the row of its rule's head by the id that row was written with. -/

section Links
variable {φ : Type} {F : FloatText φ} {m : Mint} {sid : Uuid}

theorem goalEntries_ids (head : Transpile.Term φ) (parent : Uuid) (n : Nat)
    (gs : List (BodyGoal φ)) :
    (goalEntries F m sid head parent n gs).map PredicateEntry.entryId =
      (List.range' n gs.length).map m.uuid := by
  induction gs generalizing n with
  | nil => rfl
  | cons g gs ih =>
    rw [goalEntries, List.map_cons, ih, List.length_cons, List.range'_succ, List.map_cons]
    rfl

theorem ruleEntries_ids (n : Nat) (rule : PrologRule φ) :
    (ruleEntries F m sid n rule).map PredicateEntry.entryId =
      (List.range' n (ruleKeys F rule).length).map m.uuid := by
  unfold ruleEntries
  split
  next hbody =>
    rw [ruleKeys, List.isEmpty_iff.mp hbody]
    rfl
  next =>
    rw [List.map_cons, goalEntries_ids, ruleKeys, List.length_cons, List.length_map,
      List.range'_succ, List.map_cons]
    rfl

theorem seedEntries_ids (n : Nat) (rules : List (PrologRule φ)) :
    (seedEntries F m sid n rules).map PredicateEntry.entryId =
      (List.range' n (rules.flatMap (ruleKeys F)).length).map m.uuid := by
  induction rules generalizing n with
  | nil => rfl
  | cons rule rules ih =>
    rw [seedEntries, List.map_append, ih, ruleEntries_ids, length_ruleEntries, List.flatMap_cons,
      List.length_append, ← List.map_append, List.range'_append_1]

theorem seedEntries_ids_nodup (n : Nat) (rules : List (PrologRule φ)) :
    ((seedEntries F m sid n rules).map PredicateEntry.entryId).Nodup := by
  rw [seedEntries_ids]
  exact List.Nodup.map m.uuidNew List.nodup_range'

/-- A body goal of the source, with what stands around it. -/
structure GoalPlace (rules : List (PrologRule φ)) where
  pre : List (PrologRule φ)
  rule : PrologRule φ
  post : List (PrologRule φ)
  before : List (BodyGoal φ)
  goal : BodyGoal φ
  behind : List (BodyGoal φ)
  split : rules = pre ++ rule :: post
  body : rule.body = before ++ goal :: behind

namespace GoalPlace
variable {rules : List (PrologRule φ)} (p : GoalPlace rules)

/-- The number of the head's entry. -/
def index (F : FloatText φ) (n : Nat) : Nat := n + (p.pre.flatMap (ruleKeys F)).length

def entry (F : FloatText φ) (m : Mint) (sid : Uuid) (n : Nat) : PredicateEntry :=
  goalEntry F m sid (p.index F n + 1 + p.before.length) p.rule.head (m.uuid (p.index F n)) p.goal

/-- No goal and no clause behind this goal writes its row again. -/
def Last (F : FloatText φ) : Prop :=
  rowKey F p.goal.term ∉ (p.behind.map fun g => rowKey F g.term) ++ p.post.flatMap (ruleKeys F)

/-- No goal of the rule and no clause behind it writes the row of the head again. -/
def HeadLast (F : FloatText φ) : Prop :=
  rowKey F p.rule.head ∉ (p.rule.body.map fun g => rowKey F g.term) ++ p.post.flatMap (ruleKeys F)

theorem body_ne : p.rule.body ≠ [] := by simp [p.body]

variable (F m sid) in
theorem entries (n : Nat) : seedEntries F m sid n rules =
    seedEntries F m sid n p.pre ++ headEntry F m sid (p.index F n) p.rule.head ::
      (goalEntries F m sid p.rule.head (m.uuid (p.index F n)) (p.index F n + 1) p.rule.body ++
        seedEntries F m sid (p.index F n + (ruleKeys F p.rule).length) p.post) := by
  conv_lhs => rw [p.split]
  rw [seedEntries_append, seedEntries, length_ruleEntries, ruleEntries_of_body p.body_ne,
    List.cons_append]
  rfl

theorem goalEntries_split (n : Nat) :
    goalEntries F m sid p.rule.head (m.uuid (p.index F n)) (p.index F n + 1) p.rule.body =
      goalEntries F m sid p.rule.head (m.uuid (p.index F n)) (p.index F n + 1) p.before ++
        p.entry F m sid n :: goalEntries F m sid p.rule.head (m.uuid (p.index F n))
          (p.index F n + 1 + p.before.length + 1) p.behind := by
  rw [p.body, goalEntries_append, goalEntries]
  rfl

/-- The rows that seeding an empty tableau leaves. -/
theorem entry_kept (n : Nat) :
    p.entry F m sid n ∈ (seedEntries F m sid n rules).foldl
      (Keyed.upsert PredicateEntry.key Keyed.overwrite) [] ↔ p.Last F := by
  have hsplit := p.entries F m sid n
  rw [p.goalEntries_split, List.append_assoc, List.cons_append, ← List.cons_append,
    ← List.append_assoc] at hsplit
  rw [Keyed.mem_log (List.Nodup.of_map _ (seedEntries_ids_nodup n rules)) hsplit, List.map_append,
    goalEntries_keys, seedEntries_keys, Last]
  change (sid, rowKey F p.goal.term) ∉ _ ↔ _
  simp

theorem head_kept (n : Nat) :
    headEntry F m sid (p.index F n) p.rule.head ∈ (seedEntries F m sid n rules).foldl
      (Keyed.upsert PredicateEntry.key Keyed.overwrite) [] ↔ p.HeadLast F := by
  rw [Keyed.mem_log (List.Nodup.of_map _ (seedEntries_ids_nodup n rules)) (p.entries F m sid n),
    List.map_append, goalEntries_keys, seedEntries_keys, HeadLast]
  change (sid, rowKey F p.rule.head) ∉ _ ↔ _
  simp

end GoalPlace

theorem mem_goalEntries {head : Transpile.Term φ} {parent : Uuid} {n : Nat}
    {gs : List (BodyGoal φ)} {e : PredicateEntry} (he : e ∈ goalEntries F m sid head parent n gs) :
    ∃ before g behind, gs = before ++ g :: behind ∧
      e = goalEntry F m sid (n + before.length) head parent g := by
  induction gs generalizing n with
  | nil => cases he
  | cons g gs ih =>
    rcases List.mem_cons.mp he with rfl | he
    · exact ⟨[], g, gs, rfl, rfl⟩
    · obtain ⟨before, g', behind, rfl, rfl⟩ := ih he
      refine ⟨g :: before, g', behind, rfl, ?_⟩
      rw [List.length_cons, Nat.add_assoc, Nat.add_comm 1]

/-- A row with a parent is a body goal's. -/
theorem exists_place {n : Nat} {rules : List (PrologRule φ)} {e : PredicateEntry}
    (he : e ∈ seedEntries F m sid n rules) {parent : Uuid} (hparent : e.parentId = some parent) :
    ∃ p : GoalPlace rules, e = p.entry F m sid n := by
  induction rules generalizing n with
  | nil => cases he
  | cons rule rules ih =>
    rw [seedEntries, List.mem_append] at he
    rcases he with he | he
    · by_cases hbody : rule.body = []
      · rw [ruleEntries, hbody, List.isEmpty_nil, if_pos rfl, List.mem_singleton] at he
        rw [he] at hparent
        cases hparent
      · rw [ruleEntries_of_body hbody] at he
        rcases List.mem_cons.mp he with rfl | he
        · cases hparent
        · obtain ⟨before, g, behind, hsplit, rfl⟩ := mem_goalEntries he
          exact ⟨⟨[], rule, rules, before, g, behind, rfl, hsplit⟩, rfl⟩
    · obtain ⟨p, rfl⟩ := ih he
      refine ⟨{ p with pre := rule :: p.pre, split := congrArg (rule :: ·) p.split }, ?_⟩
      simp [GoalPlace.entry, GoalPlace.index, length_ruleEntries, Nat.add_assoc]

/-- Every row with a parent id has the row of that id in its session, and it is the row of the
predicate the row names as its source. -/
def Linked (sid : Uuid) (rows : List PredicateEntry) : Prop :=
  ∀ r ∈ rows, r.sessionId = sid → ∀ parent, r.parentId = some parent →
    ∃ h ∈ rows, h.sessionId = sid ∧ h.entryId = parent ∧ r.source = some h.functor

/-- A rule whose goals still have their rows has the row of its head as well. -/
def KeepsHeads (F : FloatText φ) (rules : List (PrologRule φ)) : Prop :=
  ∀ p : GoalPlace rules, p.Last F → p.HeadLast F

theorem linked_seeded_iff (n : Nat) (rules : List (PrologRule φ)) :
    Linked sid ((seedEntries F m sid n rules).foldl
      (Keyed.upsert PredicateEntry.key Keyed.overwrite) []) ↔ KeepsHeads F rules := by
  have hentry : ∀ r ∈ (seedEntries F m sid n rules).foldl
      (Keyed.upsert PredicateEntry.key Keyed.overwrite) [], r ∈ seedEntries F m sid n rules :=
    fun r hr => Keyed.mem_of_log hr
  constructor
  · intro hlinked p hlast
    obtain ⟨h, hrow, -, hid, -⟩ := hlinked _ ((p.entry_kept n).mpr hlast) rfl _ rfl
    -- the row with the head's id is the one the head was written with
    have hhead : headEntry F m sid (p.index F n) p.rule.head ∈ seedEntries F m sid n rules := by
      rw [p.entries]
      simp
    have hsame : h = headEntry F m sid (p.index F n) p.rule.head :=
      List.inj_on_of_nodup_map (seedEntries_ids_nodup n rules) (hentry h hrow) hhead hid
    exact (p.head_kept n).mp (hsame ▸ hrow)
  · intro hkeeps r hr _ parent hparent
    obtain ⟨p, rfl⟩ := exists_place (hentry r hr) hparent
    refine ⟨_, (p.head_kept n).mpr (hkeeps p ((p.entry_kept n).mp hr)), rfl, ?_, rfl⟩
    exact Option.some.inj hparent

/-- What `Linked` reads of a row. -/
def link (e : PredicateEntry) : Uuid × Uuid × String × Option String × Option Uuid :=
  (e.sessionId, e.entryId, e.functor, e.source, e.parentId)

theorem linked_iff_map {rows : List PredicateEntry} : Linked sid rows ↔
    ∀ l ∈ rows.map link, l.1 = sid → ∀ parent, l.2.2.2.2 = some parent →
      ∃ h ∈ rows.map link, h.1 = sid ∧ h.2.1 = parent ∧ l.2.2.2.1 = some h.2.2.1 := by
  simp [Linked, link]

/-- The parents of a tableau were built before it. -/
def ParentsMinted (m : Mint) (s : LiveTableau) : Prop :=
  ∀ r ∈ s.tableau.rows, ∀ parent, r.parentId = some parent → ∃ i < s.minted, parent = m.uuid i

theorem parentsMinted_iff_map {s : LiveTableau} : ParentsMinted m s ↔
    ∀ l ∈ s.tableau.rows.map link, ∀ parent, l.2.2.2.2 = some parent →
      ∃ i < s.minted, parent = m.uuid i := by
  simp [ParentsMinted, link]

variable (m sid) in
/-- An `update_truth` leaves the links of the rows and adds at most a row without a parent. -/
theorem updateTruth_links (s : LiveTableau) (functor : String) (args : List String)
    (truth : TruthValue) (bindings : List Binding) :
    (s.updateTruth m sid functor args truth bindings).tableau.rows.map link =
        s.tableau.rows.map link ∨
      (s.updateTruth m sid functor args truth bindings).tableau.rows.map link =
        s.tableau.rows.map link ++ [(sid, m.uuid s.minted, functor, none, none)] := by
  change (Keyed.upsert _ _ _ _).map link = _ ∨ (Keyed.upsert _ _ _ _).map link = _
  unfold Keyed.upsert
  split
  · left
    rw [List.map_map]
    refine List.map_congr_left fun r _ => ?_
    dsimp only [Function.comp_apply]
    split <;> rfl
  · right
    rw [List.map_append]
    rfl

theorem updateTruth_minted {s : LiveTableau} (h : ParentsMinted m s) (functor : String)
    (args : List String) (truth : TruthValue) (bindings : List Binding) :
    ParentsMinted m (s.updateTruth m sid functor args truth bindings) := by
  intro r hr parent hparent
  have hl := List.mem_map_of_mem (f := link) hr
  have hold : ∃ i < s.minted, parent = m.uuid i := by
    rcases updateTruth_links m sid s functor args truth bindings with heq | heq
    · exact parentsMinted_iff_map.mp h _ (heq ▸ hl) parent hparent
    · rw [heq, List.mem_append, List.mem_singleton] at hl
      rcases hl with hl | hl
      · exact parentsMinted_iff_map.mp h _ hl parent hparent
      · rw [link, hparent] at hl
        simp at hl
  obtain ⟨i, hi, rfl⟩ := hold
  exact ⟨i, Nat.lt_succ_of_lt hi, rfl⟩

theorem updateTruth_linked {s : LiveTableau} (h : ParentsMinted m s) (functor : String)
    (args : List String) (truth : TruthValue) (bindings : List Binding) :
    Linked sid (s.updateTruth m sid functor args truth bindings).tableau.rows ↔
      Linked sid s.tableau.rows := by
  rw [linked_iff_map, linked_iff_map]
  rcases updateTruth_links m sid s functor args truth bindings with heq | heq
  · rw [heq]
  · rw [heq]
    constructor
    · -- the new row has an id of its own, so it is nobody's parent
      intro hlinked l hl hsid parent hparent
      obtain ⟨x, hx, hxsid, hid, hsource⟩ :=
        hlinked l (List.mem_append_left _ hl) hsid parent hparent
      rcases List.mem_append.mp hx with hx | hx
      · exact ⟨x, hx, hxsid, hid, hsource⟩
      · obtain ⟨i, hi, rfl⟩ := parentsMinted_iff_map.mp h l hl parent hparent
        rw [List.mem_singleton.mp hx] at hid
        exact absurd (m.uuidNew hid) (by omega)
    · intro hlinked l hl hsid parent hparent
      rcases List.mem_append.mp hl with hl | hl
      · obtain ⟨x, hx, hrest⟩ := hlinked l hl hsid parent hparent
        exact ⟨x, List.mem_append_left _ hx, hrest⟩
      · rw [List.mem_singleton.mp hl] at hparent
        cases hparent

/-- Whatever is updated in a tableau, no link is made and none is lost. -/
theorem updates_linked {s s' : LiveTableau} (hupdates : Relation.ReflTransGen (Updates m sid) s s')
    (h : ParentsMinted m s) :
    ParentsMinted m s' ∧ (Linked sid s'.tableau.rows ↔ Linked sid s.tableau.rows) := by
  induction hupdates with
  | refl => exact ⟨h, Iff.rfl⟩
  | tail _ hstep ih =>
    obtain ⟨functor, args, truth, bindings, rfl⟩ := hstep
    exact ⟨updateTruth_minted ih.1 _ _ _ _, (updateTruth_linked ih.1 ..).trans ih.2⟩

/-- Seeding builds the head of a rule before it links a goal to it. -/
theorem parentsMinted_seeded (source : String) :
    ParentsMinted m (seedTableauFromSource F m sid .new source) := by
  intro r hr parent hparent
  rw [seedTableauFromSource, Dagda.foldl_setEntry_rows] at hr
  obtain ⟨p, rfl⟩ := exists_place (Keyed.mem_of_log hr) hparent
  refine ⟨p.index F 0, ?_, (Option.some.inj hparent).symm⟩
  change p.index F 0 < 0 + (seedEntries F m sid 0 _).length
  rw [p.entries, List.length_append, ← List.length_map PredicateEntry.key, seedEntries_keys,
    List.length_map, List.length_cons, GoalPlace.index]
  omega

/-- No link of a tableau dangles, whatever events were recorded in it, exactly when the source
keeps the head of every rule whose goals it keeps. -/
theorem parents_linked_iff (F : FloatText φ) (m : Mint) (sid : Uuid) (source : String)
    (events : List Json) :
    Linked sid (events.foldl (recordEventInTableau F m sid)
        (seedTableauFromSource F m sid .new source)).tableau.rows ↔
      KeepsHeads F (parsePrologRules F source.toList) := by
  rw [(updates_linked (recordEvents_updates _ events) (parentsMinted_seeded source)).2,
    seedTableauFromSource, Dagda.foldl_setEntry_rows]
  exact linked_seeded_iff 0 _

/-- A clause behind a rule that writes the row of its head again leaves the rule's goal without
its parent. -/
theorem parent_written_again : ¬∀ (m : Mint) (sid : Uuid) (source : String) (events : List Json),
    Linked sid (events.foldl (recordEventInTableau noFloats m sid)
      (seedTableauFromSource noFloats m sid .new source)).tableau.rows := by
  intro h
  have hlinked := h .counting ⟨0⟩ "p(X) :- q(X). p(X) :- r(X)." []
  have hrows : (seedTableauFromSource noFloats .counting ⟨0⟩ .new
      "p(X) :- q(X). p(X) :- r(X).").tableau.rows.map link =
        [(⟨0⟩, ⟨2⟩, "p", none, none), (⟨0⟩, ⟨1⟩, "q", some "p", some ⟨0⟩),
          (⟨0⟩, ⟨3⟩, "r", some "p", some ⟨2⟩)] := by decide +kernel
  rw [linked_iff_map, List.foldl_nil, hrows] at hlinked
  simpa using hlinked (⟨0⟩, ⟨1⟩, "q", some "p", some ⟨0⟩) (by simp) rfl ⟨0⟩ rfl

end Links

end Cerebellum
