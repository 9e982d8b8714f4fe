import Cerebellum.RelayedFacts

/-! The row that is seeded with a star for each argument: the variables whose bindings it holds,
and what it says about the facts that events were relayed about. -/
namespace Cerebellum
open Transpile

section Relayed
variable {φ : Type} (F : FloatText φ)

/-- The term that an event asserts or retracts, if it is one that is recorded. -/
def relayedTerm (payload : Json) : Option (TruthValue × Transpile.Term φ) :=
  match payload.strField "type", payload.strField "data" with
  | some evType, some data =>
    match eventTruth evType, parsePrologTerm F data.toList with
    | some truth, .ok t => some (truth, t)
    | _, _ => none
  | _, _ => none

variable (m : Mint) (sid : Uuid)

theorem recordEvent_eq (s : LiveTableau) (payload : Json) :
    recordEventInTableau F m sid s payload =
      match relayedTerm F payload with
      | some (truth, t) => recordTerm F m sid truth t s
      | none => s := by
  unfold recordEventInTableau relayedTerm
  rcases payload.strField "type" with - | evType <;> rcases payload.strField "data" with - | data
  any_goals rfl
  dsimp only
  rcases eventTruth evType with - | truth <;>
    rcases parsePrologTerm F data.toList with err | t <;> rfl

theorem relayedTerm_truth {F : FloatText φ} {payload : Json} {truth : TruthValue}
    {t : Transpile.Term φ} (h : relayedTerm F payload = some (truth, t)) :
    truth = .knownTrue ∨ truth = .knownFalse := by
  unfold relayedTerm at h
  split at h
  · split at h
    · next htruth _ =>
      obtain ⟨rfl, -⟩ := Prod.mk.inj (Option.some.inj h)
      unfold eventTruth at htruth
      split at htruth
      · exact .inl (Option.some.inj htruth).symm
      · split at htruth
        · exact .inr (Option.some.inj htruth).symm
        · cases htruth
    · cases h
  · cases h

/-- The key of the row with a star for each of `n` arguments. -/
def starKey (functor : String) (n : Nat) : String × List String :=
  (functor, List.replicate n "*")

theorem starKey_args (args : List String) : (args.map fun _ => "*") =
    List.replicate args.length "*" := by
  rw [List.map_const']

end Relayed

section Duplicates
variable {α β : Type} [BEq α] [LawfulBEq α] [BEq β] [LawfulBEq β]

theorem nodup_eraseDups : (l : List α) → l.eraseDups.Nodup
  | [] => List.nodup_nil
  | a :: l => by
    rw [List.eraseDups_cons, List.nodup_cons, List.mem_eraseDups]
    exact ⟨by simp, nodup_eraseDups _⟩
termination_by l => l.length
decreasing_by exact Nat.lt_succ_of_le (List.length_filter_le _ _)

theorem eraseDups_map {f : α → β} (hf : Function.Injective f) :
    (l : List α) → (l.map f).eraseDups = l.eraseDups.map f
  | [] => rfl
  | a :: l => by
    have hfilter : (l.map f).filter (fun b => !b == f a) = (l.filter fun b => !b == a).map f := by
      rw [List.filter_map]
      refine congrArg _ (List.filter_congr fun b _ => ?_)
      have hbeq : (f b == f a) = (b == a) := by
        rw [Bool.eq_iff_iff, beq_iff_eq, beq_iff_eq, hf.eq_iff]
      exact congrArg not hbeq
    rw [List.map_cons, List.eraseDups_cons, hfilter, eraseDups_map hf, List.eraseDups_cons,
      List.map_cons]
termination_by l => l.length
decreasing_by exact Nat.lt_succ_of_le (List.length_filter_le _ _)

end Duplicates

/-! ### The variables of the row -/

section Variables
variable {φ : Type} {F : FloatText φ} {m : Mint} {sid : Uuid}

/-- The arguments that are variables. -/
def argVars : Transpile.Term φ → List Text
  | .compound _ args => args.filterMap fun | .var v => some v | _ => none
  | _ => []

theorem argsPattern_vars (args : List (Transpile.Term φ)) (vars : List Text) :
    (argsPattern F args vars).2 = vars ++
      ((args.filterMap fun | .var v => some v | _ => none).filter fun v =>
        !vars.contains v).eraseDups := by
  induction args generalizing vars with
  | nil => simp [argsPattern]
  | cons arg args ih =>
    cases arg with
    | var v =>
      by_cases hv : vars.contains v
      · simp only [argsPattern, ih, hv, if_true, List.filterMap_cons, List.filter_cons,
          Bool.not_true, Bool.false_eq_true, if_false]
      · have hfilter : ∀ l : List Text, (l.filter fun x => !(vars ++ [v]).contains x) =
            (l.filter fun x => !vars.contains x).filter fun x => !x == v := by
          intro l
          rw [List.filter_filter]
          refine List.filter_congr fun x _ => ?_
          by_cases hx : x = v <;> simp [hx]
        simp only [argsPattern, ih, hv, Bool.false_eq_true, if_false, List.filterMap_cons,
          List.filter_cons, Bool.not_false, if_true, List.eraseDups_cons, hfilter,
          List.append_assoc, List.singleton_append]
    | _ => simp only [argsPattern, ih, List.filterMap_cons]

/-- What is stored of a term's variables: each of them once, by its first place. -/
theorem termArgsPattern_vars (t : Transpile.Term φ) :
    (termArgsPattern F t).2 = (argVars t).eraseDups := by
  cases t with
  | compound functor args => simp [termArgsPattern, argVars, argsPattern_vars]
  | _ => rfl

/-- The terms that get a row, in the order they are written. -/
def rowTerms (rules : List (PrologRule φ)) : List (Transpile.Term φ) :=
  rules.flatMap fun rule => rule.head :: rule.body.map BodyGoal.term

/-- The different variables of a term, by their first places. -/
def boundNames (t : Transpile.Term φ) : List String :=
  ((argVars t).map String.ofList).eraseDups

theorem ofList_injective : Function.Injective String.ofList := fun _ _ => String.ofList_injective

theorem seedEntry_column (n : Nat) (t : Transpile.Term φ) (kind : Kind) (truth : TruthValue)
    (bindings : List Binding) (source : Option String) (parent : Option Uuid) :
    ((seedEntry F m sid n t kind truth bindings source parent).key,
      (seedEntry F m sid n t kind truth bindings source parent).boundVars) =
        ((sid, rowKey F t), boundNames t) := by
  rw [boundNames, eraseDups_map ofList_injective, ← termArgsPattern_vars (F := F)]
  rfl

variable (F m sid) in
theorem seedEntries_bound (n : Nat) (rules : List (PrologRule φ)) :
    (seedEntries F m sid n rules).map (fun e => (e.key, e.boundVars)) =
      (rowTerms rules).map fun t => ((sid, rowKey F t), boundNames t) := by
  have hgoals : ∀ head parent n (gs : List (BodyGoal φ)),
      (goalEntries F m sid head parent n gs).map (fun e => (e.key, e.boundVars)) =
        (gs.map BodyGoal.term).map fun t => ((sid, rowKey F t), boundNames t) := by
    intro head parent n gs
    induction gs generalizing n with
    | nil => rfl
    | cons g gs ih =>
      rw [goalEntries, List.map_cons, ih, goalEntry, seedEntry_column]
      rfl
  have hrule : ∀ n (rule : PrologRule φ),
      (ruleEntries F m sid n rule).map (fun e => (e.key, e.boundVars)) =
        (rule.head :: rule.body.map BodyGoal.term).map fun t =>
          ((sid, rowKey F t), boundNames t) := by
    intro n rule
    unfold ruleEntries
    split
    next hbody =>
      rw [List.isEmpty_iff.mp hbody, List.map_singleton, factEntry, seedEntry_column]
      rfl
    next =>
      rw [List.map_cons, hgoals, headEntry, seedEntry_column]
      rfl
  induction rules generalizing n with
  | nil => rfl
  | cons rule rules ih =>
    rw [seedEntries, List.map_append, ih, hrule, ← List.map_append]
    rfl

/-- The last term that writes the row of `t`. -/
def lastWriter (F : FloatText φ) (rules : List (PrologRule φ)) (t : Transpile.Term φ) :
    Transpile.Term φ :=
  ((rowTerms rules).reverse.find? fun u => rowKey F u == rowKey F t).getD t

/-- The session has a row under this key, with these variables. -/
def BoundTo (sid : Uuid) (k : String × List String) (vars : List String) (t : Dagda) : Prop :=
  ∃ e, t.getEntry sid k.1 k.2 = some e ∧ e.boundVars = vars

/-- A seeded row has the variables of its last writer. -/
theorem getEntry_boundVars (s : LiveTableau) (source : String) {t : Transpile.Term φ}
    (ht : t ∈ rowTerms (parsePrologRules F source.toList)) :
    BoundTo sid (rowKey F t) (boundNames (lastWriter F (parsePrologRules F source.toList) t))
      (seedTableauFromSource F m sid s source).tableau := by
  have hentries := congrArg List.reverse
    (seedEntries_bound F m sid s.minted (parsePrologRules F source.toList))
  rw [← List.map_reverse, ← List.map_reverse] at hentries
  have hcolumn := Keyed.find_column hentries (sid, rowKey F t)
  obtain ⟨u, hu⟩ : ∃ u, (rowTerms (parsePrologRules F source.toList)).reverse.find?
      (fun u => rowKey F u == rowKey F t) = some u := by
    refine Option.isSome_iff_exists.mp (List.find?_isSome.mpr ⟨t, List.mem_reverse.mpr ht, ?_⟩)
    exact beq_self_eq_true _
  have hfound : Keyed.find (fun t => (sid, rowKey F t))
      (rowTerms (parsePrologRules F source.toList)).reverse (sid, rowKey F t) = some u := by
    rw [Keyed.find, ← hu]
    congr 1
    funext v
    simp
  rw [hfound, Option.map_some, Option.map_eq_some_iff] at hcolumn
  obtain ⟨e, he, hbound⟩ := hcolumn
  refine ⟨e, ?_, ?_⟩
  · rw [Dagda.getEntry_eq_find, seedTableauFromSource, Dagda.foldl_setEntry_rows,
      Keyed.find_log, he, Option.some_or]
  · rw [hbound, lastWriter, hu, Option.getD_some]

theorem updateTruth_boundTo {s : LiveTableau} {k : String × List String} {vars : List String}
    (h : BoundTo sid k vars s.tableau) (functor : String) (args : List String)
    (truth : TruthValue) (bindings : List Binding) :
    BoundTo sid k vars (s.updateTruth m sid functor args truth bindings).tableau :=
  updateTruth_keeps (fun _ _ => rfl) h functor args truth bindings

theorem updates_boundTo {s s' : LiveTableau}
    (hupdates : Relation.ReflTransGen (Updates m sid) s s') {k : String × List String}
    {vars : List String} (h : BoundTo sid k vars s.tableau) : BoundTo sid k vars s'.tableau :=
  updates_keeps (fun _ _ => rfl) hupdates h

/-- An event about a term updates its row, and the row of the stars if there is one. -/
theorem recordTerm_of_star {s : LiveTableau} {t : Transpile.Term φ} {truth : TruthValue}
    {e : PredicateEntry}
    (he : (s.updateTruth m sid (eventKey F t).1 (eventKey F t).2 truth []).tableau.getEntry sid
      (eventKey F t).1 (List.replicate (eventKey F t).2.length "*") = some e) :
    recordTerm F m sid truth t s =
      (s.updateTruth m sid (eventKey F t).1 (eventKey F t).2 truth []).updateTruth m sid
        (eventKey F t).1 (List.replicate (eventKey F t).2.length "*") truth
        (List.zipWith Binding.mk e.boundVars (eventKey F t).2) := by
  unfold recordTerm
  simp only [eventKey] at he ⊢
  rw [starKey_args, he]

variable (m) in
theorem recordTerm_bindings {s : LiveTableau} {t : Transpile.Term φ} {vars : List String}
    (h : BoundTo sid (starKey (eventKey F t).1 (eventKey F t).2.length) vars s.tableau)
    (truth : TruthValue) :
    ∃ e, (recordTerm F m sid truth t s).tableau.getEntry sid (eventKey F t).1
        (List.replicate (eventKey F t).2.length "*") = some e ∧
      e.bindings = List.zipWith Binding.mk vars (eventKey F t).2 := by
  obtain ⟨e, he, rfl⟩ :=
    updateTruth_boundTo (m := m) h (eventKey F t).1 (eventKey F t).2 truth []
  rw [recordTerm_of_star he]
  refine ⟨_, (getEntry_updateTruth _ _ _ _ _ (starKey (eventKey F t).1 _)).trans
    (if_pos rfl), ?_⟩
  rw [he]
  rfl

/-! ### Bindings that are a match -/

/-- Each variable has the argument at one of its places, and one binding only. -/
structure Matches (vars args : List String) (bindings : List Binding) : Prop where
  assigned : ∀ v ∈ vars, ∃ i : Nat, vars[i]? = some v ∧ ∃ a, args[i]? = some a ∧ ⟨v, a⟩ ∈ bindings
  once : (bindings.map Binding.var).Nodup

/-- Among the `different` variables of the row each one has a place, and the argument at that
place is the one at a place of the variable. -/
def ArgsFit (different vars args : List String) : Prop :=
  ∀ v ∈ vars, ∃ i j : Nat, vars[i]? = some v ∧ different[j]? = some v ∧
    ∃ a, args[i]? = some a ∧ args[j]? = some a

theorem mem_zipBindings {different args : List String} {v a : String} :
    ⟨v, a⟩ ∈ List.zipWith Binding.mk different args ↔
      ∃ j : Nat, different[j]? = some v ∧ args[j]? = some a := by
  rw [List.mem_iff_getElem?]
  refine exists_congr fun j => ?_
  rw [List.getElem?_zipWith_eq_some]
  simp [Binding.mk.injEq]

theorem vars_zipBindings (different args : List String) :
    (List.zipWith Binding.mk different args).map Binding.var <+: different := by
  induction different generalizing args with
  | nil => exact List.nil_prefix
  | cons v different ih =>
    cases args with
    | nil => exact List.nil_prefix
    | cons a args => exact List.cons_prefix_cons.mpr ⟨rfl, ih args⟩

theorem matches_iff {different vars args : List String} (h : different.Nodup) :
    Matches vars args (List.zipWith Binding.mk different args) ↔ ArgsFit different vars args := by
  constructor
  · intro hmatch v hv
    obtain ⟨i, hi, a, ha, hmem⟩ := hmatch.assigned v hv
    obtain ⟨j, hj, ha'⟩ := mem_zipBindings.mp hmem
    exact ⟨i, j, hi, hj, a, ha, ha'⟩
  · intro hfits
    constructor
    case assigned =>
      intro v hv
      obtain ⟨i, j, hi, hj, a, ha, ha'⟩ := hfits v hv
      exact ⟨i, hi, a, ha, mem_zipBindings.mpr ⟨j, hj, ha'⟩⟩
    case once => exact h.sublist (vars_zipBindings different args).sublist

/-- The variables of the goal stand at the places they have among the different ones of the
row. -/
def InPlace (different vars : List String) : Prop :=
  ∀ v ∈ vars, ∃ j : Nat, different[j]? = some v ∧ vars[j]? = some v

/-- No argument is told from another by a text of its own. -/
theorem argsFit_all_iff {different vars : List String} :
    (∀ args : List String, args.length = vars.length → ArgsFit different vars args) ↔
      InPlace different vars := by
  constructor
  · intro h v hv
    -- arguments that are all different
    let args := (List.range vars.length).map fun i => String.ofList (List.replicate i 'a')
    obtain ⟨i, j, hi, hj, a, ha, ha'⟩ := h args (by simp [args]) v hv
    have hargs : ∀ k : Nat, args[k]? = some a → (String.toList a).length = k := by
      intro k hk
      rw [List.getElem?_map, Option.map_eq_some_iff] at hk
      obtain ⟨i, hi, rfl⟩ := hk
      obtain ⟨-, rfl⟩ := List.getElem?_eq_some_iff.mp hi
      simp
    have hij : i = j := (hargs i ha).symm.trans (hargs j ha')
    exact ⟨j, hj, hij ▸ hi⟩
  · intro h args hlength v hv
    obtain ⟨j, hj, hj'⟩ := h v hv
    have hlt : j < args.length := by
      rw [hlength]
      exact (List.getElem?_eq_some_iff.mp hj').1
    exact ⟨j, j, hj', hj, args[j], List.getElem?_eq_getElem hlt, List.getElem?_eq_getElem hlt⟩

/-- For the variables of the row itself: a variable comes again only behind the first places of
all of them. -/
theorem inPlace_self_iff {vars : List String} :
    InPlace vars.eraseDups vars ↔ vars.eraseDups <+: vars := by
  rw [List.prefix_iff_getElem?]
  constructor
  · intro h j hj
    obtain ⟨j', hfirst, hplace⟩ := h vars.eraseDups[j] (List.mem_eraseDups.mp (List.getElem_mem hj))
    have hj' := (List.getElem?_eq_some_iff.mp hfirst).1
    have hsame : j' = j := (nodup_eraseDups vars).getElem_inj_iff.mp
      (List.getElem?_eq_some_iff.mp hfirst).2
    subst hsame
    exact hplace
  · intro h v hv
    obtain ⟨j, hj, rfl⟩ := List.mem_iff_getElem.mp (List.mem_eraseDups.mpr hv)
    exact ⟨j, List.getElem?_eq_getElem hj, h j hj⟩

theorem boundNames_vars (functor : Text) (vs : List Text) :
    boundNames (.compound functor (vs.map .var) : Transpile.Term φ) =
      (vs.map String.ofList).eraseDups := by
  have hvars : argVars (.compound functor (vs.map .var) : Transpile.Term φ) = vs := by
    rw [argVars, List.filterMap_map]
    exact List.filterMap_some
  rw [boundNames, hvars]

theorem rowKey_vars (functor : Text) (vs : List Text) :
    rowKey F (.compound functor (vs.map .var)) =
      starKey (String.ofList functor) vs.length := by
  have hpattern : ∀ seen, (argsPattern F (vs.map .var) seen).1 =
      List.replicate vs.length ['*'] := by
    induction vs with
    | nil => exact fun _ => rfl
    | cons v vs ih =>
      intro seen
      rw [List.map_cons, argsPattern, List.length_cons, List.replicate_succ, ← ih]
  rw [rowKey, termArgsPattern, hpattern, List.map_replicate]
  rfl

/-- For a goal whose arguments are variables, and any event about a term with its functor and as
many arguments, whatever was recorded before: the bindings on the row of the stars are a match
exactly when the arguments fit the variables of the row's last writer. They do so for all
arguments when each variable of the goal has the place it has among those variables. -/
theorem bindings_exact (F : FloatText φ) (m : Mint) (sid : Uuid) (s : LiveTableau)
    (source : String) {functor : Text} {vs : List Text}
    (hgoal : .compound functor (vs.map .var) ∈ rowTerms (parsePrologRules F source.toList)) :
    let vars := vs.map String.ofList
    let different := boundNames (lastWriter F (parsePrologRules F source.toList)
      (.compound functor (vs.map .var)))
    (∀ (events : List Json) payload truth args,
      relayedTerm F payload = some (truth, .compound functor args) → args.length = vs.length →
      let after := recordEventInTableau F m sid (events.foldl (recordEventInTableau F m sid)
        (seedTableauFromSource F m sid s source)) payload
      ∃ e, after.tableau.getEntry sid (String.ofList functor) (List.replicate vs.length "*") =
          some e ∧
        (Matches vars (args.map fun t => String.ofList (renderPrologTerm F t)) e.bindings ↔
          ArgsFit different vars (args.map fun t => String.ofList (renderPrologTerm F t)))) ∧
    ((∀ args : List String, args.length = vars.length → ArgsFit different vars args) ↔
      InPlace different vars) := by
  intro vars different
  refine ⟨?_, argsFit_all_iff⟩
  intro events payload truth args hrelayed hlength after
  have hseeded : BoundTo sid _ _ (seedTableauFromSource F m sid s source).tableau :=
    getEntry_boundVars s source hgoal
  rw [rowKey_vars] at hseeded
  have hbefore : BoundTo sid (starKey (String.ofList functor) vs.length) different
      (events.foldl (recordEventInTableau F m sid)
        (seedTableauFromSource F m sid s source)).tableau :=
    updates_boundTo (recordEvents_updates _ events) hseeded
  have hkey : eventKey F (.compound functor args) =
      (String.ofList functor, args.map fun t => String.ofList (renderPrologTerm F t)) := by
    simp [eventKey, termFunctor, extractGroundArgs]
  have harity : (eventKey F (.compound functor args)).2.length = vs.length := by
    rw [hkey, List.length_map, hlength]
  have hstar : BoundTo sid (starKey (eventKey F (.compound functor args)).1
      (eventKey F (.compound functor args)).2.length) different
      (events.foldl (recordEventInTableau F m sid)
        (seedTableauFromSource F m sid s source)).tableau := by
    rw [harity]
    exact hbefore
  obtain ⟨e, he, hbindings⟩ := recordTerm_bindings m hstar truth
  rw [harity] at he
  rw [hkey] at hbindings
  refine ⟨e, ?_, ?_⟩
  · rw [← he]
    simp only [after, recordEvent_eq, hrelayed]
    rfl
  · rw [hbindings]
    exact matches_iff (nodup_eraseDups _)

/-- A goal that writes its row last has matches for all facts when no variable comes again before
the first place of another. -/
theorem argsFit_own_iff {rules : List (PrologRule φ)} {functor : Text} {vs : List Text}
    (hown : lastWriter F rules (.compound functor (vs.map .var)) =
      .compound functor (vs.map .var)) :
    (∀ args : List String, args.length = (vs.map String.ofList).length →
      ArgsFit (boundNames (lastWriter F rules (.compound functor (vs.map .var))))
        (vs.map String.ofList) args) ↔
      (vs.map String.ofList).eraseDups <+: vs.map String.ofList := by
  rw [hown, boundNames_vars]
  exact argsFit_all_iff.trans inPlace_self_iff

/-- The variables of `q(X,Y)` are two, so an answer is bound to them as it is. -/
theorem bindings_of_answer :
    let payload : Json := .obj [("data", .str "q(a,b)"), ("type", .str "assert")]
    let seeded := seedTableauFromSource noFloats .counting ⟨0⟩ .new "h(X) :- q(X,Y)."
    ∃ e, (recordEventInTableau noFloats .counting ⟨0⟩ seeded payload).tableau.getEntry ⟨0⟩ "q"
        ["*", "*"] = some e ∧ Matches ["X", "Y"] ["a", "b"] e.bindings := by
  intro payload seeded
  have hgoal : .compound ['q'] ([['X'], ['Y']].map .var) ∈
      rowTerms (parsePrologRules noFloats "h(X) :- q(X,Y).".toList) := by decide +kernel
  obtain ⟨e, he, hmatch⟩ := (bindings_exact noFloats .counting ⟨0⟩ .new _ hgoal).1 [] payload
    .knownTrue [.atom ['a'], .atom ['b']] (by decide +kernel) rfl
  refine ⟨e, he, hmatch.mpr ?_⟩
  have hdifferent : boundNames (lastWriter noFloats
      (parsePrologRules noFloats "h(X) :- q(X,Y).".toList)
      (.compound ['q'] ([['X'], ['Y']].map .var))) = ["X", "Y"] := by decide +kernel
  rw [hdifferent]
  refine argsFit_all_iff.mpr (fun v hv => ?_) _ rfl
  rcases List.mem_pair.mp hv with rfl | rfl
  · exact ⟨0, rfl, rfl⟩
  · exact ⟨1, rfl, rfl⟩

/-- The answer `p(a,a,b)` is an instance of `p(X,X,Y)`, but `Y` is bound to `a`. -/
theorem repeated_variable : ¬ ∀ (m : Mint) (sid : Uuid) (source : String) (functor : Text)
    (vs : List Text),
    .compound functor (vs.map .var) ∈ rowTerms (parsePrologRules noFloats source.toList) →
    ∀ (payload : Json) truth args, relayedTerm noFloats payload =
      some (truth, .compound functor args) → termsAreGround args → args.length = vs.length →
    ∃ e, (recordEventInTableau noFloats m sid (seedTableauFromSource noFloats m sid .new source)
        payload).tableau.getEntry sid (String.ofList functor) (List.replicate vs.length "*") =
          some e ∧
      Matches (vs.map String.ofList)
        (args.map fun t => String.ofList (renderPrologTerm noFloats t)) e.bindings := by
  intro h
  obtain ⟨e, he, hmatch⟩ := h .counting ⟨0⟩ "h(Y) :- p(X,X,Y)." ['p'] [['X'], ['X'], ['Y']]
    (by decide +kernel) (.obj [("data", .str "p(a,a,b)"), ("type", .str "assert")]) .knownTrue
    [.atom ['a'], .atom ['a'], .atom ['b']] (by decide +kernel) rfl rfl
  have hstored : ((recordEventInTableau noFloats .counting ⟨0⟩
      (seedTableauFromSource noFloats .counting ⟨0⟩ .new "h(Y) :- p(X,X,Y).")
      (.obj [("data", .str "p(a,a,b)"), ("type", .str "assert")])).tableau.getEntry ⟨0⟩
        "p" ["*", "*", "*"]).map PredicateEntry.bindings = some [⟨"X", "a"⟩, ⟨"Y", "a"⟩] := by
    decide +kernel
  have hbindings : e.bindings = [⟨"X", "a"⟩, ⟨"Y", "a"⟩] :=
    Option.some.inj ((congrArg (Option.map PredicateEntry.bindings) he).symm.trans hstored)
  obtain ⟨i, hi, a, ha, hmem⟩ := hmatch.assigned "Y" (by decide +kernel)
  rw [hbindings] at hmem
  have haa : a = "a" := by simpa using hmem
  subst haa
  match i with
  | 0 | 1 => exact absurd hi (by decide +kernel)
  | 2 => exact absurd ha (by decide +kernel)
  | i + 3 => exact absurd hi (by simp)

end Variables
/-! ### The row as a summary of its facts -/

section Summary
variable {φ : Type} (F : FloatText φ)

/-- The key of the row that an event is recorded in, and what it says there. -/
def relayedKey (payload : Json) : Option (TruthValue × String × List String) :=
  (relayedTerm F payload).map fun p => (p.1, eventKey F p.2)

/-- What the latest event about a key said. -/
def latest (events : List Json) (k : String × List String) : Option TruthValue :=
  events.reverse.findSome? fun payload =>
    match relayedKey F payload with
    | some (truth, k') => if k' = k then some truth else none
    | none => none

/-- The latest event about some fact of this functor and arity was an assert. -/
def SomeAsserted (events : List Json) (functor : String) (n : Nat) : Prop :=
  ∃ args : List String, args.length = n ∧ latest F events (functor, args) = some .knownTrue

/-- The row of the stars says what holds of the facts together. -/
structure Summarises (sid : Uuid) (functor : String) (n : Nat) (events : List Json)
    (t : Dagda) : Prop where
  some_true : SomeAsserted F events functor n →
    (t.getEntry sid functor (List.replicate n "*")).map PredicateEntry.truthValue =
      some .knownTrue
  all_false : (t.getEntry sid functor (List.replicate n "*")).map PredicateEntry.truthValue =
    some .knownFalse → ¬ SomeAsserted F events functor n

/-- The event retracts a fact of this functor and arity while another one is asserted. -/
def RetractsOneOfMany (functor : String) (n : Nat) (before : List Json) (payload : Json) : Prop :=
  ∃ args others : List String, args.length = n ∧ others.length = n ∧ others ≠ args ∧
    relayedKey F payload = some (.knownFalse, functor, args) ∧
    latest F before (functor, others) = some .knownTrue

variable {F} {m : Mint} {sid : Uuid}

theorem latest_append (events : List Json) (payload : Json) (k : String × List String) :
    latest F (events ++ [payload]) k =
      match relayedKey F payload with
      | some (truth, k') => if k' = k then some truth else latest F events k
      | none => latest F events k := by
  rw [latest, List.reverse_append, List.reverse_singleton, List.singleton_append,
    List.findSome?_cons]
  cases relayedKey F payload with
  | none => rfl
  | some p => by_cases h : p.2 = k <;> simp [h, latest]

/-- An event about other terms than those of the row leaves its truth value. -/
theorem truth_recordTerm_other {s : LiveTableau} {functor : String} {n : Nat}
    {t : Transpile.Term φ} (h : ¬ ((eventKey F t).1 = functor ∧ (eventKey F t).2.length = n))
    (truth : TruthValue) :
    ((recordTerm F m sid truth t s).tableau.getEntry sid functor
      (List.replicate n "*")).map PredicateEntry.truthValue =
        (s.tableau.getEntry sid functor (List.replicate n "*")).map
          PredicateEntry.truthValue := by
  have hground : starKey functor n ≠ ((eventKey F t).1, (eventKey F t).2) := by
    intro heq
    obtain ⟨hfunctor, hargs⟩ := Prod.mk.inj heq
    exact h ⟨hfunctor.symm, by rw [← hargs, List.length_replicate]⟩
  have hstars : starKey functor n ≠
      ((eventKey F t).1, (eventKey F t).2.map fun _ => "*") := by
    intro heq
    obtain ⟨hfunctor, hargs⟩ := Prod.mk.inj heq
    have hlength := congrArg List.length hargs
    rw [List.length_replicate, List.length_map] at hlength
    exact h ⟨hfunctor.symm, hlength.symm⟩
  have hfirst := truth_updateTruth m sid s (eventKey F t).1 (eventKey F t).2 truth []
    (starKey functor n)
  rw [if_neg hground] at hfirst
  unfold recordTerm
  dsimp only
  split
  · next seed _ =>
    have hsecond := truth_updateTruth m sid
      (s.updateTruth m sid (eventKey F t).1 (eventKey F t).2 truth []) (eventKey F t).1
      ((eventKey F t).2.map fun _ => "*") truth
      (List.zipWith Binding.mk seed.boundVars (eventKey F t).2) (starKey functor n)
    rw [if_neg hstars] at hsecond
    exact hsecond.trans hfirst
  · exact hfirst

/-- The truth value of the row of the stars after an event. -/
theorem truth_recordEvent {s : LiveTableau} {functor : String} {n : Nat} {id : Uuid}
    (h : HasRow sid (starKey functor n) id s.tableau) (payload : Json) :
    ((recordEventInTableau F m sid s payload).tableau.getEntry sid functor
      (List.replicate n "*")).map PredicateEntry.truthValue =
        match relayedKey F payload with
        | some (truth, k) => if k.1 = functor ∧ k.2.length = n then some truth
          else (s.tableau.getEntry sid functor (List.replicate n "*")).map
            PredicateEntry.truthValue
        | none => (s.tableau.getEntry sid functor (List.replicate n "*")).map
            PredicateEntry.truthValue := by
  rw [recordEvent_eq, relayedKey]
  rcases relayedTerm F payload with - | ⟨truth, t⟩
  · rfl
  · dsimp only [Option.map_some]
    split
    next hk =>
      obtain ⟨rfl, rfl⟩ := hk
      obtain ⟨e, he, -⟩ :=
        updateTruth_hasRow (m := m) h (eventKey F t).1 (eventKey F t).2 truth []
      rw [recordTerm_of_star he]
      exact (truth_updateTruth m sid _ _ _ truth _ (starKey _ _)).trans (if_pos rfl)
    next hk => exact truth_recordTerm_other hk truth

/-- The facts that are asserted after an event. -/
theorem someAsserted_append {events : List Json} {payload : Json} {functor : String} {n : Nat}
    {truth : TruthValue} {k : String × List String}
    (h : relayedKey F payload = some (truth, k)) :
    SomeAsserted F (events ++ [payload]) functor n ↔
      (truth = .knownTrue ∧ k.1 = functor ∧ k.2.length = n) ∨
      ∃ args : List String, args.length = n ∧ (functor, args) ≠ k ∧
        latest F events (functor, args) = some .knownTrue := by
  unfold SomeAsserted
  simp only [latest_append, h]
  constructor
  · rintro ⟨args, hlength, hlatest⟩
    split at hlatest
    next hk =>
      subst hk
      exact .inl ⟨Option.some.inj hlatest, rfl, hlength⟩
    next hk => exact .inr ⟨args, hlength, fun hk' => hk hk'.symm, hlatest⟩
  · rintro (⟨rfl, rfl, rfl⟩ | ⟨args, hlength, hk, hlatest⟩)
    · exact ⟨k.2, rfl, if_pos rfl⟩
    · exact ⟨args, hlength, by rw [if_neg (Ne.symm hk), hlatest]⟩

theorem relayedKey_truth {payload : Json} {truth : TruthValue} {k : String × List String}
    (h : relayedKey F payload = some (truth, k)) : truth = .knownTrue ∨ truth = .knownFalse := by
  obtain ⟨⟨truth', t⟩, ht, heq⟩ := Option.map_eq_some_iff.mp h
  obtain ⟨rfl, -⟩ := Prod.mk.inj heq
  exact relayedTerm_truth ht

/-- An event about other terms leaves a summary as it is. -/
theorem Summarises.other {s : LiveTableau} {events : List Json} {functor : String} {n : Nat}
    {id : Uuid} (hrow : HasRow sid (starKey functor n) id s.tableau)
    (h : Summarises F sid functor n events s.tableau) {payload : Json}
    (hother : ∀ truth k, relayedKey F payload = some (truth, k) →
      ¬ (k.1 = functor ∧ k.2.length = n)) :
    Summarises F sid functor n (events ++ [payload])
      (recordEventInTableau F m sid s payload).tableau := by
  have htruth := truth_recordEvent (F := F) (m := m) hrow payload
  have hsame : SomeAsserted F (events ++ [payload]) functor n ↔
      SomeAsserted F events functor n := by
    cases hkey : relayedKey F payload with
    | none => simp only [SomeAsserted, latest_append, hkey]
    | some p =>
      have hno := hother p.1 p.2 hkey
      rw [someAsserted_append hkey]
      constructor
      · rintro (⟨-, hk⟩ | ⟨args, hlength, -, hlatest⟩)
        · exact absurd hk hno
        · exact ⟨args, hlength, hlatest⟩
      · rintro ⟨args, hlength, hlatest⟩
        refine .inr ⟨args, hlength, ?_, hlatest⟩
        intro hk
        exact hno ⟨(congrArg Prod.fst hk).symm, hk ▸ hlength⟩
  have hrest : ((recordEventInTableau F m sid s payload).tableau.getEntry sid functor
      (List.replicate n "*")).map PredicateEntry.truthValue =
      (s.tableau.getEntry sid functor (List.replicate n "*")).map PredicateEntry.truthValue := by
    rw [htruth]
    cases hkey : relayedKey F payload with
    | none => rfl
    | some p => exact if_neg (hother p.1 p.2 hkey)
  exact ⟨fun hs => hrest.trans (h.some_true (hsame.mp hs)),
    fun hf => fun hs => h.all_false (hrest.symm.trans hf) (hsame.mp hs)⟩

/-- One event keeps the row a summary exactly when it does not retract one of several facts. -/
theorem summarises_append {s : LiveTableau} {events : List Json} {functor : String} {n : Nat}
    {id : Uuid} (hrow : HasRow sid (starKey functor n) id s.tableau)
    (h : Summarises F sid functor n events s.tableau) (payload : Json) :
    Summarises F sid functor n (events ++ [payload])
        (recordEventInTableau F m sid s payload).tableau ↔
      ¬ RetractsOneOfMany F functor n events payload := by
  by_cases hkey : ∃ truth args, args.length = n ∧
      relayedKey F payload = some (truth, functor, args)
  · obtain ⟨truth, args, hlength, hkey⟩ := hkey
    have htruth := truth_recordEvent (F := F) (m := m) hrow payload
    have hasserted : SomeAsserted F (events ++ [payload]) functor n ↔ _ :=
      someAsserted_append hkey
    rw [hkey] at htruth
    dsimp only at htruth
    rw [if_pos ⟨rfl, hlength⟩] at htruth
    constructor
    · rintro hsum ⟨args', others, hlength', hothers, hne, hkey', hlatest⟩
      -- the row is false although another fact is asserted
      rw [hkey] at hkey'
      cases hkey'
      refine hsum.all_false htruth (hasserted.mpr (.inr ⟨others, hothers, ?_, hlatest⟩))
      exact fun heq => hne (Prod.mk.inj heq).2
    · intro hno
      rcases relayedKey_truth hkey with rfl | rfl
      · exact ⟨fun _ => htruth, fun hf => by rw [htruth] at hf; cases hf⟩
      · have hnone : ¬ SomeAsserted F (events ++ [payload]) functor n := by
          rw [hasserted]
          rintro (⟨hf, -⟩ | ⟨others, hothers, hne, hlatest⟩)
          · cases hf
          · exact hno ⟨args, others, hlength, hothers, fun heq => hne (by rw [heq]), hkey, hlatest⟩
        exact ⟨fun hs => absurd hs hnone, fun _ => hnone⟩
  · refine iff_of_true (h.other hrow ?_) ?_
    · rintro truth ⟨functor', args⟩ hk ⟨rfl, hlength⟩
      exact hkey ⟨truth, args, hlength, hk⟩
    · rintro ⟨args, -, hlength, -, -, hk, -⟩
      exact hkey ⟨_, args, hlength, hk⟩

/-- Whatever events are relayed, the row of the stars is a summary of its facts after each of
them exactly when none of them retracts one of several facts. -/
theorem summary_exact (F : FloatText φ) (m : Mint) (sid : Uuid) {s : LiveTableau}
    {functor : String} {n : Nat} {id : Uuid}
    (hrow : HasRow sid (starKey functor n) id s.tableau) (events : List Json) :
    (∀ before, before <+: events → Summarises F sid functor n before
        (before.foldl (recordEventInTableau F m sid) s).tableau) ↔
      ∀ before payload, before ++ [payload] <+: events →
        ¬ RetractsOneOfMany F functor n before payload := by
  have hkeeps : ∀ before : List Json, HasRow sid (starKey functor n) id
      (before.foldl (recordEventInTableau F m sid) s).tableau := fun before =>
    updates_hasRow (recordEvents_updates s before) hrow
  constructor
  · intro h before payload hprefix
    have hbefore := h before ((List.prefix_append before [payload]).trans hprefix)
    have hafter := h _ hprefix
    rw [List.foldl_append] at hafter
    exact (summarises_append (hkeeps before) hbefore payload).mp hafter
  · intro h before hprefix
    induction before using List.reverseRecOn with
    | nil =>
      have hnone : ¬ SomeAsserted F [] functor n := by
        rintro ⟨args, -, hlatest⟩
        cases hlatest
      exact ⟨fun hs => absurd hs hnone, fun _ => hnone⟩
    | append_singleton before payload ih =>
      have hbefore := ih ((List.prefix_append before [payload]).trans hprefix)
      rw [List.foldl_append]
      exact (summarises_append (hkeeps before) hbefore payload).mpr (h before payload hprefix)

theorem one_fact_summarised :
    let seeded := seedTableauFromSource noFloats .counting ⟨0⟩ .new "h(X) :- p(X)."
    let payload : Json := .obj [("data", .str "p(a)"), ("type", .str "assert")]
    ∀ before, before <+: [payload] → Summarises noFloats ⟨0⟩ "p" 1 before
      (before.foldl (recordEventInTableau noFloats .counting ⟨0⟩) seeded).tableau := by
  intro seeded payload
  have hid : (seeded.tableau.getEntry ⟨0⟩ "p" ["*"]).map PredicateEntry.entryId = some ⟨1⟩ := by
    decide +kernel
  have hrow : HasRow ⟨0⟩ (starKey "p" 1) ⟨1⟩ seeded.tableau := Option.map_eq_some_iff.mp hid
  have hassert : relayedKey noFloats payload = some (.knownTrue, "p", ["a"]) := by decide +kernel
  refine (summary_exact noFloats .counting ⟨0⟩ hrow [payload]).mpr ?_
  rintro before payload' ⟨rest, hrest⟩ ⟨args, others, -, -, -, hkey, -⟩
  cases before with
  | nil =>
    cases hrest
    rw [hassert] at hkey
    cases hkey
  | cons e before => simp at hrest

/-- Another fact is retracted while `p(a)` is asserted. -/
theorem retract_of_another : ¬ ∀ (m : Mint) (sid : Uuid) (source functor : String) (n : Nat)
    (events : List Json),
    starKey functor n ∈ (parsePrologRules noFloats source.toList).flatMap (ruleKeys noFloats) →
    1 ≤ n →
    (∀ payload ∈ events, ∃ truth t, relayedTerm noFloats payload = some (truth, t) ∧
      termIsGround t ∧ (eventKey noFloats t).1 = functor ∧
      (eventKey noFloats t).2.length = n) →
    Summarises noFloats sid functor n events (events.foldl (recordEventInTableau noFloats m sid)
      (seedTableauFromSource noFloats m sid .new source)).tableau := by
  intro h
  have hsum := h .counting ⟨0⟩ "h(X) :- p(X)." "p" 1
    [.obj [("data", .str "p(a)"), ("type", .str "assert")],
      .obj [("data", .str "p(b)"), ("type", .str "retract")]] (by decide +kernel) Nat.le.refl
    (by
      intro payload hpayload
      rcases List.mem_pair.mp hpayload with rfl | rfl
      · exact ⟨.knownTrue, .compound ['p'] [.atom ['a']], by decide +kernel⟩
      · exact ⟨.knownFalse, .compound ['p'] [.atom ['b']], by decide +kernel⟩)
  exact hsum.all_false (by decide +kernel) ⟨["a"], rfl, by decide +kernel⟩

end Summary
end Cerebellum
