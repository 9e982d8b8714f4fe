import Cerebellum.Deduction

/-! What the result of a deduction says about its root goal: the truth of the goal's row of stars,
and the bindings that go with the solutions. -/
namespace Cerebellum
open Transpile

section Writes
variable {φ : Type} (F : FloatText φ)

/-- What an event says, and the term it is about. -/
def recorded (payload : Json) : Option (TruthValue × Transpile.Term φ) :=
  match payload.strField "type", payload.strField "data" with
  | some evType, some data =>
    match eventTruth evType, parsePrologTerm F data.toList with
    | some truth, .ok t => some (truth, t)
    | _, _ => none
  | _, _ => none

/-- The row of stars for the predicate of a term. -/
def starsOf (t : Transpile.Term φ) : String × List String :=
  ((eventKey F t).1, (eventKey F t).2.map fun _ => "*")

/-- What is said of the row of stars of the goal. A query that is answered again marks the row of
the solution, which is this one for a goal without arguments. -/
def saysOf (goal : String) : Observation → Option Bool
  | .answered solutions => some !solutions.isEmpty
  | .relayed payload =>
    match recorded F payload with
    | some (truth, t) => if starsOf F t = starRow goal then some (truth == .knownTrue) else none
    | none => none
  | .requeried (some (sol :: _)) =>
    match parsePrologTerm F goal.toList with
    | .ok t =>
      if rootKey F (sol.asObject.getD []) t = some (starRow goal) then some true else none
    | .error _ => none
  | .requeried _ => none

/-- The last word on the row. -/
def lastWord (goal : String) (b : Bool) (seen : List Observation) : Bool :=
  seen.foldl (fun b o => (saysOf F goal o).getD b) b

def verdict (goal : String) (seen : List Observation) : Bool := lastWord F goal false seen

variable {F} {m : Mint} {sid : Uuid}

theorem recordEvent_recorded (s : LiveTableau) (payload : Json) :
    recordEventInTableau F m sid s payload =
      match recorded F payload with
      | some (truth, t) => recordTerm F m sid truth t s
      | none => s := by
  unfold recordEventInTableau recorded
  cases payload.strField "type" with
  | none => rfl
  | some evType =>
    cases payload.strField "data" with
    | none => rfl
    | some data =>
      dsimp only
      cases eventTruth evType <;> cases parsePrologTerm F data.toList <;> rfl

/-- An event is an assert or a retract. -/
theorem recorded_truth {payload : Json} {truth : TruthValue} {t : Transpile.Term φ}
    (h : recorded F payload = some (truth, t)) : truth = .knownTrue ∨ truth = .knownFalse := by
  unfold recorded at h
  split at h
  · split at h
    · next truth' t' htruth _ =>
      obtain ⟨rfl, -⟩ := Prod.mk.inj (Option.some.inj h)
      simp only [eventTruth] at htruth
      split at htruth
      · exact .inl (Option.some.inj htruth).symm
      · split at htruth
        · exact .inr (Option.some.inj htruth).symm
        · cases htruth
    · cases h
  · cases h

/-- The columns of a row that an update writes. -/
def rowAt (sid : Uuid) (k : String × List String) (s : LiveTableau) :
    Option (TruthValue × List Binding) :=
  (s.tableau.getEntry sid k.1 k.2).map fun e => (e.truthValue, e.bindings)

variable (m sid) in
theorem rowAt_updateTruth (s : LiveTableau) (functor : String) (args : List String)
    (truth : TruthValue) (bindings : List Binding) (k : String × List String) :
    rowAt sid k (s.updateTruth m sid functor args truth bindings) =
      if k = (functor, args) then some (truth, bindings) else rowAt sid k s := by
  unfold rowAt
  rw [getEntry_updateTruth]
  split
  · cases s.tableau.getEntry sid k.1 k.2 <;> rfl
  · rfl

/-- A row with a star for each argument. -/
def IsStarRow (k : String × List String) : Prop := k.2 = k.2.map fun _ => "*"

theorem isStarRow_starRow (goal : String) : IsStarRow (starRow goal) := by
  simp [IsStarRow, starRow]

/-- An event about the predicate of a row of stars writes the row, and no other event does. -/
theorem rowAt_recordTerm {k : String × List String} (hk : IsStarRow k) {s : LiveTableau}
    (hrow : rowAt sid k s ≠ none) (truth : TruthValue) (t : Transpile.Term φ) :
    (starsOf F t ≠ k → rowAt sid k (recordTerm F m sid truth t s) = rowAt sid k s) ∧
      (starsOf F t = k →
        (rowAt sid k (recordTerm F m sid truth t s)).map Prod.fst = some truth) := by
  have hexact : eventKey F t = k → starsOf F t = k := by
    rintro rfl
    exact Prod.ext rfl hk.symm
  have hfirst := rowAt_updateTruth m sid s (eventKey F t).1 (eventKey F t).2 truth [] k
  unfold recordTerm
  dsimp only
  refine ⟨fun hne => ?_, ?_⟩
  · have hkey : ¬k = eventKey F t := fun h => hne (hexact h.symm)
    have hstars : ¬k = starsOf F t := fun h => hne h.symm
    rw [if_neg hkey] at hfirst
    split
    · rw [rowAt_updateTruth]
      exact (if_neg hstars).trans hfirst
    · exact hfirst
  · rintro rfl
    split
    · rw [rowAt_updateTruth]
      exact congrArg (Option.map Prod.fst) (if_pos rfl)
    · next hnone =>
      -- the row of stars is there already
      refine absurd ?_ hrow
      have hgone : rowAt sid (starsOf F t) (s.updateTruth m sid (eventKey F t).1 (eventKey F t).2
          truth []) = none := congrArg (Option.map _) hnone
      rw [hgone] at hfirst
      split at hfirst
      · cases hfirst
      · exact hfirst.symm

/-- What the re-query makes of a list of solutions. -/
theorem reEvaluateRootGoal_unread {goal : String} {e : String}
    (hread : parsePrologTerm F goal.toList = .error e) (answer : Option Json) (s : RootGoal) :
    reEvaluateRootGoal F m sid (some goal) answer s = s := by
  simp only [reEvaluateRootGoal, hread]

theorem reEvaluateRootGoal_unanswered {goal : String} {answer : Option (List Json)}
    (h : ∀ sol sols, answer ≠ some (sol :: sols)) (s : RootGoal) :
    reEvaluateRootGoal F m sid (some goal) (answer.map Json.arr) s = s := by
  cases hread : parsePrologTerm F goal.toList with
  | error e => exact reEvaluateRootGoal_unread hread _ s
  | ok t =>
    simp only [reEvaluateRootGoal, hread]
    rcases answer with _ | _ | ⟨sol, sols⟩
    · rfl
    · rfl
    · exact absurd rfl (h sol sols)

def truthOf (b : Bool) : TruthValue := if b then .knownTrue else .knownFalse

/-- The bindings that an answer brings. -/
def firstBindings : List Json → List Binding
  | [] => []
  | first :: _ => solutionBindings (first.asObject.getD [])

variable (m sid) in
theorem rowAt_answered (goal : String) (solutions : List Json) (s : LiveTableau) :
    rowAt sid (starRow goal)
        (updateTableauFromSolutions m sid (some goal) (some (.arr solutions)) s) =
      some (truthOf !solutions.isEmpty, firstBindings solutions) := by
  cases solutions with
  | nil =>
    simp only [updateTableauFromSolutions, Option.bind_some, Json.asArray]
    rw [rowAt_updateTruth, if_pos rfl]
    rfl
  | cons sol sols =>
    simp only [updateTableauFromSolutions, Option.bind_some, Json.asArray]
    rw [rowAt_updateTruth, if_pos rfl]
    rfl

/-- One observation: the row of stars of the goal has the truth that is said of it. -/
theorem rowAt_observe {goal : String} {s : RootGoal}
    (hrow : rowAt sid (starRow goal) s.tableau ≠ none) (o : Observation) :
    (rowAt sid (starRow goal) (observe F m sid (some goal) s o).tableau).map Prod.fst =
      match saysOf F goal o with
      | some b => some (truthOf b)
      | none => (rowAt sid (starRow goal) s.tableau).map Prod.fst := by
  cases o with
  | answered solutions => exact congrArg (Option.map Prod.fst) (rowAt_answered m sid goal solutions _)
  | relayed payload =>
    simp only [observe, saysOf, recordEvent_recorded]
    cases hrec : recorded F payload with
    | none => rfl
    | some p =>
      obtain ⟨truth, t⟩ := p
      obtain ⟨hother, hsame⟩ := rowAt_recordTerm (m := m) (isStarRow_starRow goal) hrow truth t
      by_cases hstars : starsOf F t = starRow goal
      · rcases recorded_truth hrec with rfl | rfl
        · simpa [hstars, truthOf] using hsame hstars
        · simpa [hstars, truthOf] using hsame hstars
      · simp [hstars, hother hstars]
  | requeried solutions =>
    match solutions with
    | none => rw [observe, reEvaluateRootGoal_unanswered (by simp)]; rfl
    | some [] => rw [observe, reEvaluateRootGoal_unanswered (by simp)]; rfl
    | some (sol :: sols) =>
      simp only [observe, saysOf, Option.map_some]
      cases hread : parsePrologTerm F goal.toList with
      | error e => rw [reEvaluateRootGoal_unread hread]
      | ok t =>
        rw [reEvaluateRootGoal_read hread]
        cases hkey : rootKey F (sol.asObject.getD []) t with
        | none => simp [hkey]
        | some key =>
          simp only [hkey]
          rw [rowAt_updateTruth]
          by_cases hstars : starRow goal = key
          · simp [hstars, truthOf]
          · have hne : ¬key = starRow goal := fun h => hstars h.symm
            simp [hstars, hne]

variable (F m sid) in
/-- Over a run the row has the truth of the last word on it. -/
theorem rowAt_observed (goal : String) (seen : List Observation) {s : RootGoal} {b : Bool}
    (hrow : (rowAt sid (starRow goal) s.tableau).map Prod.fst = some (truthOf b)) :
    (rowAt sid (starRow goal) (seen.foldl (observe F m sid (some goal)) s).tableau).map Prod.fst =
      some (truthOf (lastWord F goal b seen)) := by
  induction seen generalizing s b with
  | nil => exact hrow
  | cons o seen ih =>
    have hsome : rowAt sid (starRow goal) s.tableau ≠ none := by
      intro hnone
      rw [hnone] at hrow
      cases hrow
    have hstep := rowAt_observe (F := F) (m := m) hsome o
    rw [hrow] at hstep
    have hword : (rowAt sid (starRow goal) (observe F m sid (some goal) s o).tableau).map Prod.fst =
        some (truthOf ((saysOf F goal o).getD b)) := by
      rw [hstep]
      cases saysOf F goal o <;> rfl
    exact ih hword

end Writes

/-! ### The truth of the root goal -/

section Truth
variable {φ : Type}

/-- Functor and arity of the goal are read off its text as the parser reads them. -/
def GoalRead (F : FloatText φ) (goal : String) (t : Transpile.Term φ) : Prop :=
  parsePrologTerm F goal.toList = .ok t ∧ GoalAgrees goal t

/-- The tableau of the result has a true row for the predicate of the goal, and its row of stars is
not false. -/
structure Consistent (t : Transpile.Term φ) (r : DeductionResult) : Prop where
  notFalse : ∀ e ∈ r.tableau, e.functor = String.ofList (termFunctorName t) →
    e.args = List.replicate (arguments t).length "*" → e.truthValue ≠ .knownFalse
  knownTrue : ∃ e ∈ r.tableau, e.functor = String.ofList (termFunctorName t) ∧
    e.arity = (arguments t).length ∧ e.truthValue = .knownTrue

variable {F : FloatText φ} {m : Mint} {ord : RowOrder} {iter : HashOrder} {rows : EntryOrder}
  {tr : Translators}

/-- A row of stars with a truth decides. -/
theorem consistent_iff_truth {t : Transpile.Term φ} {r : DeductionResult} {sid : Uuid}
    {s : LiveTableau} (htableau : r.tableau = s.tableau.exportSession rows sid) {b : Bool}
    (hrow : (rowAt sid (String.ofList (termFunctorName t),
      List.replicate (arguments t).length "*") s).map Prod.fst = some (truthOf b)) :
    Consistent t r ↔ b = true := by
  obtain ⟨p, hp, htruth⟩ := Option.map_eq_some_iff.mp hrow
  obtain ⟨e, he, rfl⟩ := Option.map_eq_some_iff.mp hp
  have hfind := he
  rw [Dagda.getEntry_eq_find] at hfind
  obtain ⟨hmem, hkey⟩ := Keyed.mem_of_find hfind
  have hsid : e.sessionId = sid := congrArg (·.1) hkey
  have hfunctor : e.functor = String.ofList (termFunctorName t) := congrArg (·.2.1) hkey
  have hargs : e.args = List.replicate (arguments t).length "*" := congrArg (·.2.2) hkey
  have hin : e ∈ r.tableau := by
    rw [htableau]
    exact Dagda.mem_exportSession.mpr ⟨hmem, hsid⟩
  constructor
  · intro h
    by_contra hb
    have hfalse : b = false := by simpa using hb
    refine h.notFalse e hin hfunctor hargs ?_
    rw [hfalse] at htruth
    exact htruth
  · rintro rfl
    refine ⟨fun e' he' hfunctor' hargs' => ?_, e, hin, hfunctor, ?_, htruth⟩
    · -- the session has one row with this key
      rw [htableau] at he'
      obtain ⟨hmem', hsid'⟩ := Dagda.mem_exportSession.mp he'
      have hentry := Dagda.getEntry_of_mem hmem'
      rw [hsid', hfunctor', hargs', he] at hentry
      obtain rfl := Option.some.inj hentry
      have hknown : e.truthValue = .knownTrue := htruth
      rw [hknown]
      decide
    · rw [PredicateEntry.arity, hargs, List.length_replicate]

namespace Deduction

theorem not_answered_checked {initialGoal : Option String} {i : DeductionInput}
    {later : Deduction → List Observation} {solutions : List Json}
    (h : ∀ d, .answered solutions ∉ later d) (p : Bool × Deduction) :
    .answered solutions ∉ checked F m initialGoal ord iter rows i later p := by
  obtain ⟨ok, d⟩ := p
  cases ok with
  | false => simp [checked]
  | true =>
    rw [checked, List.mem_append]
    rintro (hmem | hmem)
    · split at hmem <;> simp at hmem
    · split at hmem
      · cases hmem
      · split at hmem
        · cases hmem
        · exact h _ hmem

/-- Only the first cycle has an answer. -/
theorem not_answered_later {initialGoal : Option String} (inputs : Nat → DeductionInput)
    (remaining cycle : Nat) (d : Deduction) (solutions : List Json) :
    .answered solutions ∉
      d.observations F m initialGoal ord iter rows tr inputs remaining (cycle + 1) := by
  induction remaining generalizing cycle d with
  | zero => simp [observations]
  | succ remaining ih =>
    unfold observations passed
    rw [if_neg (Nat.succ_ne_zero cycle), List.nil_append, List.mem_append]
    rintro (hmem | hmem)
    · simp at hmem
    · exact not_answered_checked (ih (cycle + 1)) _ hmem

/-- The first thing the tableau is told is the answer of the first cycle. -/
theorem runObservations_ok {initialGoal : Option String} {inputs : Nat → DeductionInput}
    {maxCycles : Nat} {now : Int} {c : CycleController} {s : LiveTableau} {r : DeductionResult}
    (h : run F m initialGoal ord iter rows tr inputs maxCycles now c s = .ok r) :
    ∃ seen, runObservations F m initialGoal ord iter rows tr inputs maxCycles now c s =
      .answered (inputs 0).solutions :: seen ∧ ∀ solutions, .answered solutions ∉ seen := by
  cases maxCycles with
  | zero => cases h
  | succ maxCycles =>
    unfold runObservations observations passed
    rw [if_pos rfl, List.append_assoc, List.singleton_append]
    refine ⟨_, rfl, fun solutions => ?_⟩
    rw [List.mem_append]
    rintro (hmem | hmem)
    · simp at hmem
    · exact not_answered_checked (not_answered_later inputs maxCycles 0 · solutions) _ hmem

/-- The result of a run does not contradict itself about the root goal exactly when the last word
on its row of stars is positive: the answer of the first cycle, or behind it the last assert or
retract with the functor and the arity of the goal that a relay has taken. -/
theorem result_consistent_iff {goal : String} {t : Transpile.Term φ} (hread : GoalRead F goal t)
    {inputs : Nat → DeductionInput} {maxCycles : Nat} {now : Int} {c : CycleController}
    {s : LiveTableau} {r : DeductionResult}
    (h : run F m (some goal) ord iter rows tr inputs maxCycles now c s = .ok r) :
    Consistent t r ↔ verdict F goal
      (runObservations F m (some goal) ord iter rows tr inputs maxCycles now c s) = true := by
  obtain ⟨d', hended, -⟩ := runLoop_ok h
  obtain ⟨seen, hseen, -⟩ := runObservations_ok h
  obtain ⟨status, cycles, rfl⟩ := hended.result
  have hstars : starRow goal =
      (String.ofList (termFunctorName t), List.replicate (arguments t).length "*") := by
    rw [starRow, hread.2.1, hread.2.2]
  have hfirst := congrArg (Option.map Prod.fst) (rowAt_answered m
    (start (some goal) now c s).controller.prologId goal (inputs 0).solutions s)
  have hlast := rowAt_observed F m (start (some goal) now c s).controller.prologId goal seen
    (s := observe F m (start (some goal) now c s).controller.prologId (some goal) ⟨s, none⟩
      (.answered (inputs 0).solutions)) hfirst
  have hroot := hended.root
  unfold runObservations at hseen ⊢
  rw [hseen, List.foldl_cons] at hroot
  rw [hseen]
  rw [hstars] at hlast
  have htableau : (d'.result rows status cycles).tableau =
      d'.root.tableau.tableau.exportSession rows d'.controller.prologId := rfl
  refine consistent_iff_truth htableau ?_
  rw [hroot, hended.prologId]
  exact hlast

/-- A fact comes from CLIPS in the first cycle, with which the goal can be proved in the second. -/
def provedLater : Nat → DeductionInput
  | 0 => { cycle := { clips :=
      [.emit ⟨2⟩ "clips" (.obj [("data", .str "q(a)"), ("type", .str "assert")])] } }
  | _ => { requeried := some [.obj [("X", .str "a")]] }

/-- The goal can be proved from the start. -/
def provedAtOnce : Nat → DeductionInput := fun _ =>
  { solutions := [.obj [("X", .str "a")]], requeried := some [.obj [("X", .str "a")]] }

/-- A deduction with an empty tableau. -/
def runGoal (goal : String) (inputs : Nat → DeductionInput) : DeductionEnd :=
  run noFloats .counting (some goal) .stable .listed .stable
    ⟨translatePrologToClips noFloats, id⟩ inputs 5 0 .joined .new

theorem goalRead : GoalRead noFloats "p(X)" (.compound ['p'] [.var ['X']]) := by
  have hread : ReadsWhole noFloats "p(X)".toList (.compound ['p'] [.var ['X']]) := by
    unfold ReadsWhole
    decide +kernel
  exact ⟨parse_of_whole (by decide +kernel) hread, by decide +kernel, by decide +kernel⟩

theorem result_consistent_at_once : ∃ r, runGoal "p(X)" provedAtOnce = .ok r ∧
    Consistent (.compound ['p'] [.var ['X']] : Transpile.Term Empty) r := by
  have hend : (runGoal "p(X)" provedAtOnce).toRunEnd = .converged 1 := by decide +kernel
  cases hr : runGoal "p(X)" provedAtOnce with
  | ok r => exact ⟨r, rfl, (result_consistent_iff goalRead hr).mpr (by decide +kernel)⟩
  | maxCyclesExceeded n => rw [hr] at hend; cases hend
  | failed => rw [hr] at hend; cases hend

/-- The row of stars still says that the goal is false when the instance is known to be true. -/
theorem proved_later_contradicts : ¬∀ (inputs : Nat → DeductionInput) (r : DeductionResult),
    runGoal "p(X)" inputs = .ok r → r.prologSolutions = some (.arr [.obj [("X", .str "a")]]) →
      Consistent (.compound ['p'] [.var ['X']] : Transpile.Term Empty) r := by
  intro h
  have hend : (runGoal "p(X)" provedLater).toRunEnd = .converged 2 := by decide +kernel
  have hsolved : (match runGoal "p(X)" provedLater with
    | .ok r => r.prologSolutions
    | _ => none) = some (.arr [.obj [("X", .str "a")]]) := by decide +kernel
  have hfalse : (match runGoal "p(X)" provedLater with
    | .ok r => r.tableau.any fun e => e.functor == "p" && e.args == ["*"] &&
        e.truthValue == .knownFalse
    | _ => false) = true := by decide +kernel
  cases hr : runGoal "p(X)" provedLater with
  | ok r =>
    rw [hr] at hsolved hfalse
    obtain ⟨e, he, hrow⟩ := List.any_eq_true.mp hfalse
    simp only [Bool.and_eq_true, beq_iff_eq] at hrow
    exact (h provedLater r hr hsolved).notFalse e he hrow.1.1 hrow.1.2 hrow.2
  | maxCyclesExceeded n => rw [hr] at hend; cases hend
  | failed => rw [hr] at hend; cases hend

end Deduction

end Truth

/-! ### The bindings of the root goal -/

section Bindings
variable {φ : Type} (F : FloatText φ)

/-- The controller parses the goal, and so queries it again. -/
def asksAgain (goal : String) : Prop :=
  ∃ t, parsePrologTerm F goal.toList = .ok t ∧ isCallable t

/-- The bindings that the run returns are those of the solutions: a re-query has captured them, or
the goal has one argument and no event about its predicate has written over them. -/
def BindingsKept (goal : String) (seen : List Observation) : Prop :=
  (asksAgain F goal ∧ ∃ sol sols, .requeried (some (sol :: sols)) ∈ seen) ∨
    extractArityFromGoal goal = 1 ∧ ∀ payload, .relayed payload ∈ seen →
      ∀ p ∈ recorded F payload, starsOf F p.2 ≠ starRow goal

variable {F} {m : Mint} {sid : Uuid}

theorem rootKey_isSome {t : Transpile.Term φ} (h : isCallable t) (bindings : Fields) :
    ∃ key, rootKey F bindings t = some key := by
  cases t with
  | atom s => exact ⟨_, rfl⟩
  | compound functor args => exact ⟨_, rfl⟩
  | _ => cases h

variable (F m sid) in
theorem observe_final (goal : String) (s : RootGoal) (o : Observation) :
    (observe F m sid (some goal) s o).finalSolutions = s.finalSolutions ∨
      ∃ sol sols, o = .requeried (some (sol :: sols)) ∧
        (observe F m sid (some goal) s o).finalSolutions = some (.arr (sol :: sols)) := by
  match o with
  | .answered solutions => exact .inl rfl
  | .relayed payload => exact .inl rfl
  | .requeried none => rw [observe, reEvaluateRootGoal_unanswered (by simp)]; exact .inl rfl
  | .requeried (some []) => rw [observe, reEvaluateRootGoal_unanswered (by simp)]; exact .inl rfl
  | .requeried (some (sol :: sols)) =>
    rw [observe, Option.map_some]
    cases hread : parsePrologTerm F goal.toList with
    | error e => exact .inl (congrArg _ (reEvaluateRootGoal_unread hread _ s))
    | ok t =>
      rw [reEvaluateRootGoal_read hread]
      cases rootKey F (sol.asObject.getD []) t with
      | none => exact .inl rfl
      | some key => exact .inr ⟨sol, sols, rfl, rfl⟩

/-- Captured solutions are only replaced by others. -/
theorem final_some {goal : String} (seen : List Observation) {s : RootGoal}
    (h : s.finalSolutions ≠ none) :
    (seen.foldl (observe F m sid (some goal)) s).finalSolutions ≠ none := by
  induction seen generalizing s with
  | nil => exact h
  | cons o seen ih =>
    refine ih ?_
    rcases observe_final F m sid goal s o with hsame | ⟨sol, sols, -, hnew⟩
    · rw [hsame]
      exact h
    · rw [hnew]
      simp

/-- A re-query with a solution captures it. -/
theorem final_captured {goal : String} (hask : asksAgain F goal) {sol : Json} {sols : List Json}
    {seen : List Observation} (h : .requeried (some (sol :: sols)) ∈ seen) (s : RootGoal) :
    (seen.foldl (observe F m sid (some goal)) s).finalSolutions ≠ none := by
  obtain ⟨t, hread, hc⟩ := hask
  induction seen generalizing s with
  | nil => cases h
  | cons o seen ih =>
    rcases List.mem_cons.mp h with rfl | h
    · refine final_some seen ?_
      obtain ⟨key, hkey⟩ := rootKey_isSome (F := F) hc (sol.asObject.getD [])
      rw [observe, Option.map_some, reEvaluateRootGoal_read hread, hkey]
      simp
    · exact ih h _

/-- Without a captured solution an observation that is not about the row leaves it alone. -/
theorem rowAt_observe_of_kept {goal : String} {s : RootGoal}
    (hrow : rowAt sid (starRow goal) s.tableau ≠ none) {o : Observation}
    (hanswer : ∀ solutions, o ≠ .answered solutions)
    (hevent : ∀ payload, o = .relayed payload → ∀ p ∈ recorded F payload,
      starsOf F p.2 ≠ starRow goal)
    (hfinal : (observe F m sid (some goal) s o).finalSolutions = none) :
    rowAt sid (starRow goal) (observe F m sid (some goal) s o).tableau =
      rowAt sid (starRow goal) s.tableau := by
  match o with
  | .answered solutions => exact absurd rfl (hanswer solutions)
  | .relayed payload =>
    rw [observe, recordEvent_recorded]
    cases hrec : recorded F payload with
    | none => rfl
    | some p =>
      exact (rowAt_recordTerm (isStarRow_starRow goal) hrow p.1 p.2).1 (hevent payload rfl p hrec)
  | .requeried none => rw [observe, reEvaluateRootGoal_unanswered (by simp)]
  | .requeried (some []) => rw [observe, reEvaluateRootGoal_unanswered (by simp)]
  | .requeried (some (sol :: sols)) =>
    rw [observe, Option.map_some] at hfinal ⊢
    cases hread : parsePrologTerm F goal.toList with
    | error e => rw [reEvaluateRootGoal_unread hread]
    | ok t =>
      rw [reEvaluateRootGoal_read hread] at hfinal ⊢
      cases hkey : rootKey F (sol.asObject.getD []) t with
      | none => rfl
      | some key =>
        rw [hkey] at hfinal
        cases hfinal

theorem rowAt_observed_of_kept {goal : String} (seen : List Observation) {s : RootGoal}
    {p : TruthValue × List Binding} (hrow : rowAt sid (starRow goal) s.tableau = some p)
    (hanswer : ∀ solutions, .answered solutions ∉ seen)
    (hevent : ∀ payload, .relayed payload ∈ seen → ∀ p ∈ recorded F payload,
      starsOf F p.2 ≠ starRow goal)
    (hfinal : (seen.foldl (observe F m sid (some goal)) s).finalSolutions = none) :
    rowAt sid (starRow goal) (seen.foldl (observe F m sid (some goal)) s).tableau = some p := by
  induction seen generalizing s with
  | nil => exact hrow
  | cons o seen ih =>
    have hnone : (observe F m sid (some goal) s o).finalSolutions = none := by
      by_contra hsome
      exact final_some seen hsome hfinal
    have hkept := rowAt_observe_of_kept (F := F) (m := m) (o := o) (by rw [hrow]; simp)
      (fun solutions h => hanswer solutions (h ▸ List.mem_cons_self))
      (fun payload h => hevent payload (h ▸ List.mem_cons_self)) hnone
    exact ih (hkept.trans hrow) (fun solutions h => hanswer solutions (List.mem_cons_of_mem _ h))
      (fun payload h => hevent payload (List.mem_cons_of_mem _ h)) hfinal

end Bindings

namespace Deduction
variable {φ : Type} {F : FloatText φ} {m : Mint} {ord : RowOrder} {iter : HashOrder}
  {rows : EntryOrder} {tr : Translators}

/-- The bindings of a run's result are those of its first solution, wherever the solutions come
from, when a re-query has captured them or the row with one star has kept them. -/
theorem result_bindings {goal : String} {inputs : Nat → DeductionInput} {maxCycles : Nat}
    {now : Int} {c : CycleController} {s : LiveTableau} {r : DeductionResult}
    (h : run F m (some goal) ord iter rows tr inputs maxCycles now c s = .ok r)
    {bindings : Fields} {sols : List Json}
    (hsol : r.prologSolutions = some (.arr (.obj bindings :: sols)))
    (hvars : ∀ e ∈ bindings, isPrologVariable e.1.toList) (hne : bindings ≠ [])
    (hkept : BindingsKept F goal
      (runObservations F m (some goal) ord iter rows tr inputs maxCycles now c s)) :
    r.goalBindings = some (solutionBindings bindings) := by
  have hsome : solutionBindings bindings ≠ [] := by simpa [solutionBindings] using hne
  obtain ⟨d', hended, hinitial⟩ := runLoop_ok h
  obtain ⟨seen, hseen, hanswer⟩ := runObservations_ok h
  obtain ⟨status, cycles, rfl⟩ := hended.result
  have hroot := hended.root
  rw [if_pos rfl] at hinitial
  unfold runObservations at hseen hkept
  rw [hseen] at hroot hkept
  change d'.root.finalSolutions.or d'.initialSolutions = _ at hsol
  change rootGoalBindings d'.controller.prologId d'.agenda d'.root = _
  unfold rootGoalBindings
  cases hfinal : d'.root.finalSolutions with
  | some solutions =>
    -- captured bindings go first
    rw [hfinal, Option.some_or] at hsol
    obtain rfl := Option.some.inj hsol
    have hfilter : bindings.filter (fun e => isPrologVariable e.1.toList) = bindings :=
      List.filter_eq_self.mpr hvars
    simp only [capturedBindings, hfilter]
    rw [if_pos hsome]
  | none =>
    rw [hfinal, Option.none_or, hinitial] at hsol
    have hsolutions : (inputs 0).solutions = .obj bindings :: sols :=
      Json.arr.inj (Option.some.inj hsol)
    rw [hroot] at hfinal
    rcases hkept with ⟨hask, sol, sols', hmem⟩ | ⟨hone, hevents⟩
    · exact absurd hfinal (final_captured hask hmem _)
    · have hfirst := rowAt_answered m (start (some goal) now c s).controller.prologId goal
        (inputs 0).solutions s
      have hrow := rowAt_observed_of_kept (F := F) (m := m) seen
        (s := observe F m (start (some goal) now c s).controller.prologId (some goal)
          (start (some goal) now c s).root (.answered (inputs 0).solutions)) hfirst hanswer
        (fun payload hmem => hevents payload (List.mem_cons_of_mem _ hmem)) hfinal
      have hstar : starRow goal = (extractFunctorFromGoal goal, ["*"]) := by
        rw [starRow, hone]
        rfl
      have hfunctor : d'.agenda.rootFunctor = some (extractFunctorFromGoal goal) :=
        hended.rootFunctor
      rw [List.foldl_cons] at hroot
      rw [← hroot, ← hended.prologId, hstar, hsolutions] at hrow
      obtain ⟨e, he, hcolumns⟩ := Option.map_eq_some_iff.mp hrow
      have hbindings : e.bindings = solutionBindings bindings := congrArg Prod.snd hcolumns
      simp only [capturedBindings, ne_eq, not_true_eq_false, if_false, hfunctor,
        Option.bind_some, he, hbindings]
      rw [if_neg (by simpa using hsome)]

theorem result_bindings_at_once : ∃ r, runGoal "p(X)" provedAtOnce = .ok r ∧
    r.goalBindings = some [⟨"X", "a"⟩] := by
  have hend : (runGoal "p(X)" provedAtOnce).toRunEnd = .converged 1 := by decide +kernel
  have hsolved : (match runGoal "p(X)" provedAtOnce with
    | .ok r => r.prologSolutions
    | _ => none) = some (.arr [.obj [("X", .str "a")]]) := by decide +kernel
  cases hr : runGoal "p(X)" provedAtOnce with
  | ok r =>
    rw [hr] at hsolved
    have hmem : Observation.requeried (some [.obj [("X", .str "a")]]) ∈
        runObservations noFloats .counting (some "p(X)") .stable .listed .stable
          ⟨translatePrologToClips noFloats, id⟩ provedAtOnce 5 0 .joined .new := by decide +kernel
    exact ⟨r, rfl, result_bindings hr hsolved (by decide +kernel) (by simp)
      (.inl ⟨⟨_, goalRead.1, rfl⟩, _, _, hmem⟩)⟩
  | maxCyclesExceeded n => rw [hr] at hend; cases hend
  | failed => rw [hr] at hend; cases hend

/-- The run is interrupted while a fact is still on its way. -/
def interruptedEarly : Nat → DeductionInput := fun _ =>
  { solutions := [.obj [("X", .str "a"), ("Y", .str "b")]]
    cycle :=
      { clips := [.emit ⟨2⟩ "clips" (.obj [("data", .str "q(a)"), ("type", .str "assert")])]
        interrupted := true } }

/-- The bindings of two arguments are not in the row with one star. -/
theorem two_arguments_lost : ¬∀ (goal : String) (inputs : Nat → DeductionInput)
    (r : DeductionResult) (bindings : Fields) (sols : List Json), runGoal goal inputs = .ok r →
      r.prologSolutions = some (.arr (.obj bindings :: sols)) →
      (∀ e ∈ bindings, isPrologVariable e.1.toList) → bindings ≠ [] →
      r.goalBindings = some (solutionBindings bindings) := by
  intro h
  have hend : (runGoal "p(X,Y)" interruptedEarly).toRunEnd = .interrupted 1 := by decide +kernel
  have hsolved : (match runGoal "p(X,Y)" interruptedEarly with
    | .ok r => r.prologSolutions
    | _ => none) = some (.arr [.obj [("X", .str "a"), ("Y", .str "b")]]) := by decide +kernel
  have hnone : (match runGoal "p(X,Y)" interruptedEarly with
    | .ok r => r.goalBindings
    | _ => some []) = none := by decide +kernel
  cases hr : runGoal "p(X,Y)" interruptedEarly with
  | ok r =>
    rw [hr] at hsolved hnone
    have hbindings := h _ _ r _ _ hr hsolved (by decide +kernel) (by simp)
    have hgone : r.goalBindings = none := hnone
    rw [hgone] at hbindings
    cases hbindings
  | maxCyclesExceeded n => rw [hr] at hend; cases hend
  | failed => rw [hr] at hend; cases hend

end Deduction

end Cerebellum
