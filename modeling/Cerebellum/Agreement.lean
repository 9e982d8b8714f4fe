import Cerebellum.ClipsFields

/-! Transduction against the relay: when the defrule made for a goal fires on the relayed
instance of the goal and hands the instantiated head back to Prolog. -/
namespace Cerebellum.Transpile
open Clips

/-! ### The text the right-hand side builds -/

section RightHandSide
variable {φ : Type} {F : FloatText φ} {σ : Text → Value}

theorem scanString_plain {s : Text} (h : Plain s) (u : Text) :
    scanString (s ++ ['"'] ++ u) = some (s, u) := by
  induction s with
  | nil =>
    exact scanString_quote u
  | cons c s ih =>
    obtain ⟨-, hq, hb⟩ := h c (by simp)
    rw [List.cons_append, List.cons_append, scanString_char hq hb,
      ih fun d hd => h d (by simp [hd])]
    rfl

theorem isField_quoted {s : Text} (h : Plain s) : IsField (quoted s) (.string s) :=
  isField_string (scanString_plain h)

/-- Segments that CLIPS reads, with the text they stand for under the bindings. -/
structure Builds (b : Bindings) (s : Segments) (text : Text) : Prop where
  reads : ∃ ts p, List.Forall₂ IsField s.parts ts ∧ (∀ t ∈ ts, t.isArgument) ∧
    concatTexts b ts = some p ∧ p ++ s.cur = text
  plain : Plain s.cur

theorem concatTexts_append {b : Bindings} {ts us : List Token} {p q : Text}
    (h : concatTexts b ts = some p) (hu : concatTexts b us = some q) :
    concatTexts b (ts ++ us) = some (p ++ q) := by
  induction ts generalizing p with
  | nil =>
    obtain rfl : [] = p := by simpa [concatTexts] using h
    simpa using hu
  | cons t ts ih =>
    rw [concatTexts] at h
    split at h
    · next s r hs hr =>
      obtain rfl := Option.some.inj h
      rw [List.cons_append, concatTexts, hs, ih hr]
      simp
    · cases h

theorem Builds.extend {b : Bindings} {s : Segments} {text l : Text} (h : Builds b s text)
    (hl : Plain l) : Builds b { s with cur := s.cur ++ l } (text ++ l) := by
  obtain ⟨⟨ts, p, hts, harg, hp, rfl⟩, hplain⟩ := h
  exact ⟨⟨ts, p, hts, harg, hp, by simp⟩, hplain.append hl⟩

/-- A variable closes the segment in progress. -/
theorem Builds.flush {b : Bindings} {s : Segments} {text value x : Text} (h : Builds b s text)
    (hx : IsField ('?' :: x) (.var x)) (hvalue : argumentText b (.var x) = some value) :
    Builds b { parts := s.parts ++ (if s.cur.isEmpty then [] else [quoted s.cur]) ++ ['?' :: x],
               cur := [] } (text ++ value) := by
  obtain ⟨⟨ts, p, hts, harg, hp, rfl⟩, hplain⟩ := h
  have hvar : concatTexts b [.var x] = some value := by simp [concatTexts, hvalue]
  -- the segment, when there is one
  obtain ⟨us, hus, husArg, husText⟩ : ∃ us,
      List.Forall₂ IsField (if s.cur.isEmpty then [] else [quoted s.cur]) us ∧
        (∀ t ∈ us, t.isArgument) ∧ concatTexts b us = some s.cur := by
    cases hcur : s.cur with
    | nil => exact ⟨[], .nil, by simp, rfl⟩
    | cons c r =>
      rw [hcur] at hplain
      exact ⟨[.string (c :: r)], .cons (isField_quoted hplain) .nil, by simp [Token.isArgument,
        Token.isConstant], by simp [concatTexts, argumentText, Token.text]⟩
  refine ⟨⟨ts ++ us ++ [.var x], p ++ s.cur ++ value, ?_, ?_, ?_, by simp⟩, by simp [Plain]⟩
  · exact List.rel_append (List.rel_append hts hus) (.cons hx .nil)
  · intro t ht
    simp only [List.mem_append, List.mem_singleton] at ht
    rcases ht with (ht | ht) | rfl
    · exact harg t ht
    · exact husArg t ht
    · rfl
  · exact concatTexts_append (concatTexts_append hp husText) hvar

variable (F σ)

/-- An argument of the head that the expression can take up. -/
structure Taken (b : Bindings) (bound : List Text) (a : Term φ) : Prop where
  ofVar : ∀ x, a = .var x → x ∈ bound ∧ IsVarName x ∧ x.head? ≠ some '_' ∧
    b.lookup x = some (fieldToken F (σ x).term)
  ofLiteral : (∀ x, a ≠ .var x) → Plain (renderPrologTerm F a)

variable {F σ}

theorem Taken.isField {b : Bindings} {bound : List Text} {x : Text}
    (h : Taken F σ b bound (.var x)) : IsField ('?' :: x) (.var x) := by
  obtain ⟨-, hname, hunder, -⟩ := h.ofVar x rfl
  have hf := isField_renderClipsField (F := F) (.var x) fun y hy => by cases hy; exact hname
  rwa [renderClipsField, fieldToken, if_neg hunder, if_neg hunder] at hf

theorem Builds.push {b : Bindings} {bound : List Text} {s : Segments} {text : Text}
    (h : Builds b s text) {a : Term φ} (ha : Taken F σ b bound a) (first : Bool) :
    Builds b (s.push F bound first a)
      (text ++ (if first then [] else [',']) ++ argText F σ a) := by
  -- behind the comma
  have hcomma : Builds b { s with cur := if first then s.cur else s.cur ++ [','] }
      (text ++ (if first then [] else [','])) := by
    cases first with
    | true => simpa using h
    | false => exact h.extend (plain_singleton (by decide))
  cases a with
  | var x =>
    obtain ⟨hbound, -, -, hlook⟩ := ha.ofVar x rfl
    have hvalue : argumentText b (.var x) = some (σ x).chars := by
      rw [argumentText, hlook, Option.map_some, fieldToken_value_text]
    simp only [Segments.push, List.contains_iff_mem.mpr hbound, if_true]
    exact hcomma.flush ha.isField hvalue
  | _ => exact hcomma.extend (ha.ofLiteral (by simp))

/-- Texts behind each other, with a comma between them and, unless they are first, before. -/
def joined (first : Bool) : List Text → Text
  | [] => []
  | r :: rs => (if first then [] else [',']) ++ r ++ joined false rs

theorem joined_true (rs : List Text) : joined true rs = Text.join [','] rs := by
  cases rs with
  | nil => rfl
  | cons r rs =>
    induction rs generalizing r with
    | nil => simp [joined]
    | cons r' rs ih =>
      rw [Text.join_cons, ← ih r']
      simp [joined]

theorem Builds.pushAll {b : Bindings} {bound : List Text} {s : Segments} {text : Text}
    (h : Builds b s text) {args : List (Term φ)} (hargs : ∀ a ∈ args, Taken F σ b bound a)
    (first : Bool) :
    Builds b (s.pushAll F bound first args) (text ++ joined first (args.map (argText F σ))) := by
  induction args generalizing s text first with
  | nil => simpa [joined, Segments.pushAll] using h
  | cons a args ih =>
    have hpush := h.push (hargs a (by simp)) first
    have hrest := ih hpush (fun a' ha' => hargs a' (by simp [ha'])) false
    simpa [Segments.pushAll, joined] using hrest

theorem readExpr_quoted {s : Text} (h : Plain s) : readExpr (quoted s) = some (.literal s) := by
  have hscan : scan (quoted s) = [.string s] := by
    have hget : getToken (quoted s) = some (.string s, []) := by
      have hs := scanString_plain h []
      rw [List.append_nil] at hs
      exact getToken_quote hs
    rw [scan_of_getToken hget, scan_nil]
  rw [readExpr, hscan]

theorem readExpr_strCat {parts : List Text} {ts : List Token} (h : List.Forall₂ IsField parts ts)
    (harg : ∀ t ∈ ts, t.isArgument) :
    readExpr ("(str-cat ".toList ++ Text.join [' '] parts ++ [')']) = some (.strCat ts) := by
  have hscan := scan_form (isField_symbol (s := "str-cat".toList) (by decide)) h
  have htext : "(str-cat ".toList ++ Text.join [' '] parts ++ [')'] =
      '(' :: "str-cat".toList ++ ' ' :: Text.join [' '] parts ++ [')'] := by simp
  rw [readExpr, htext, hscan]
  simp only [List.cons_append, if_true, closed_append harg]
  rfl

/-- With a variable among the arguments the text is built from segments. -/
theorem strCat_builds {functor : Text} {args : List (Term φ)} {b : Bindings} {bound : List Text}
    (hfunctor : plainName functor) (hargs : ∀ a ∈ args, Taken F σ b bound a) :
    let s := ({ cur := functor ++ ['('] } : Segments).pushAll F bound true args
    (readExpr ("(str-cat ".toList ++
      Text.join [' '] (s.parts ++ [quoted (s.cur ++ [')'])]) ++ [')'])).bind (Expr.eval b) =
        some (headText F σ (.compound functor args)) := by
  have hstart : Builds b { cur := functor ++ ['('] } (functor ++ ['(']) :=
    ⟨⟨[], [], .nil, by simp, rfl, rfl⟩,
      (plain_of_name hfunctor).append (plain_singleton (by decide))⟩
  obtain ⟨⟨ts, p, hts, harg, hp, htext⟩, hcur⟩ := hstart.pushAll hargs true
  have hlast := isField_quoted (hcur.append (plain_singleton (c := ')') (by decide)))
  intro s
  rw [readExpr_strCat (List.rel_append hts (.cons hlast .nil))]
  · change concatTexts b _ = _
    rw [concatTexts_append hp (by simp [concatTexts, argumentText, Token.text]; rfl),
      ← List.append_assoc, htext, joined_true]
    simp [headText]
  · intro t ht
    simp only [List.mem_append, List.mem_singleton] at ht
    rcases ht with ht | rfl
    · exact harg t ht
    · rfl

/-- Without one it is a literal. -/
theorem literal_builds {functor : Text} {args : List (Term φ)} {b : Bindings} {bound : List Text}
    (hfunctor : plainName functor) (hargs : ∀ a ∈ args, Taken F σ b bound a)
    (hnone : ∀ a ∈ args, ∀ x, a ≠ .var x) :
    (readExpr (quoted (functor ++ '(' :: Text.join [','] (args.map (renderArgAsLiteral F)) ++
      [')']))).bind (Expr.eval b) = some (headText F σ (.compound functor args)) := by
  have hmap : args.map (renderArgAsLiteral F) = args.map (argText F σ) := by
    refine List.map_congr_left fun a ha => ?_
    cases a with
    | var x => exact absurd rfl (hnone _ ha x)
    | _ => rfl
  have htexts : ∀ u ∈ args.map (argText F σ), Plain u := by
    intro u hu
    obtain ⟨a, ha, rfl⟩ := List.mem_map.mp hu
    cases a with
    | var x => exact absurd rfl (hnone _ ha x)
    | _ => exact (hargs _ ha).ofLiteral (hnone _ ha)
  have hopen := (plain_of_name hfunctor).append
    (Plain.cons (c := '(') (by decide) (plain_join htexts))
  rw [hmap, readExpr_quoted (hopen.append (plain_singleton (by decide)))]
  rfl

/-- The expression builds the goal text of the head. -/
theorem renderHeadGoalExpr_builds {head : Term φ} {b : Bindings} {bound : List Text}
    (hplain : plainTerm head)
    (hvars : ∀ x ∈ collectVars head, x ∈ bound ∧ IsVarName x ∧ x.head? ≠ some '_' ∧
      b.lookup x = some (fieldToken F (σ x).term)) :
    (readExpr (renderHeadGoalExpr F head bound)).bind (Expr.eval b) = some (headText F σ head) := by
  have hnames : ∀ x ∈ collectVars head, IsVarName x := fun x hx => (hvars x hx).2.1
  cases head with
  | atom s =>
    have hs : plainName s := by simpa [plainTerm] using hplain
    rw [renderHeadGoalExpr, readExpr_quoted (plain_of_name hs)]
    rfl
  | compound functor args =>
    simp only [plainTerm, Bool.and_eq_true] at hplain
    have hmem : ∀ a ∈ args, ∀ x ∈ collectVars a, x ∈ collectVars (.compound functor args) := by
      intro a ha x hx
      rw [collectVars]
      exact mem_collectVarsList.mpr ⟨a, ha, hx⟩
    have htaken : ∀ a ∈ args, Taken F σ b bound a := fun a ha =>
      ⟨fun x hx => hvars x (hmem a ha x (by simp [hx, collectVars])),
        fun _ => plain_render a (plainTerms_mem hplain.2 ha) fun x hx => hnames x (hmem a ha x hx)⟩
    rw [renderHeadGoalExpr]
    split
    · exact strCat_builds hplain.1 htaken
    · next hany =>
      refine literal_builds hplain.1 htaken ?_
      rintro a ha x rfl
      have hx := ((htaken _ ha).ofVar x rfl).1
      exact hany (List.any_eq_true.mpr ⟨_, ha, by simpa [isBoundVar] using hx⟩)
  | str s => simp [plainTerm] at hplain
  | _ =>
    rw [renderHeadGoalExpr, readExpr_quoted (plain_render _ hplain hnames)]
    · rfl
    all_goals simp

end RightHandSide

/-! ### Instances of goals -/

section Instances
variable {φ : Type} (F : FloatText φ)

/-- What Prolog publishes for an instance of the goal: a negative one under its `not_` name. -/
def published (σ : Text → Value) : BodyGoal φ → Option (Term φ)
  | .positive t => some (subst σ t)
  | .negative t =>
    match subst σ t with
    | .atom s => some (.atom ("not_".toList ++ s))
    | .compound functor args => some (.compound ("not_".toList ++ functor) args)
    | _ => none

/-- The payload of `coire_publish_assert/1`. -/
def assertPayload (data : Text) : Json :=
  .obj [("data", .str (String.ofList data)), ("type", .str "assert")]

/-- The data of the payload once it is relayed. -/
def relayedData (data : Text) : Option Text :=
  ((translatePrologToClips F (assertPayload data)).strField "data").map String.toList

/-- A goal with the defrule that is emitted for it, values for its variables, and the text that
Prolog publishes for the instance. -/
structure GoalInstance where
  source : Text
  rule : PrologRule φ
  goal : BodyGoal φ
  defrule : Defrule
  emitted : (rule, goal, some defrule) ∈ transduceRules F 0 (parsePrologRules F source)
  values : Text → Value
  accepted : ∀ x ∈ collectVars goal.term, ∃ s, parsePrologTerm F s = .ok (values x).term
  data : Text
  reads : ∃ t, published values goal = some t ∧ parsePrologTerm F data = .ok t

variable {F}

/-- The relayed fact matches the pattern of the defrule, every variable is bound to the field of
its argument, and the goal text built from the fields is the instantiated head. -/
def GoalInstance.Agrees (I : GoalInstance F) : Prop :=
  ∃ relation fields pattern b text,
    (relayedData F I.data).bind readFact = some (relation, fields) ∧
    readPattern I.defrule.lhs = some (relation, pattern) ∧
    matchFields pattern fields [] = some b ∧
    (∀ x ∈ collectVars I.goal.term, ∃ (i : Nat) (f : Token),
      (arguments I.goal.term)[i]? = some (.var x) ∧ fields[i]? = some f ∧ b.lookup x = some f) ∧
    (readExpr I.defrule.rhs).bind (Expr.eval b) = some text ∧
    parsePrologTerm F text = .ok (subst I.values I.rule.head)

/-- The functor of the published goal. -/
def BodyGoal.functor : BodyGoal φ → Text
  | .positive t => termFunctorName t
  | .negative t => "not_".toList ++ termFunctorName t

/-- The functor of the goal is one token for CLIPS once its spaces are replaced, and nothing in
the head needs to be escaped. -/
structure GoalInstance.PlainNames (I : GoalInstance F) : Prop where
  functor : isBare (clipsSymbolForFunctor I.goal.functor)
  head : plainTerm I.rule.head

/-- What the three renderers and the parser can hand over. -/
structure GoalInstance.HandsOver (I : GoalInstance F) : Prop where
  callable : isCallable I.goal.term
  relation : isRelationName (clipsSymbolForFunctor I.goal.functor)
  spaces : ∀ t, I.goal = .negative t → ' ' ∉ termFunctorName t
  flat : ∀ a ∈ arguments I.goal.term, Flat a
  head : HeadOk F I.values I.rule.head

/-! ### What is emitted and what is relayed -/

theorem mem_transduceGoals {rule : PrologRule φ} {n : Nat} {gs : List (BodyGoal φ)}
    {e : BodyGoal φ × Option Defrule} (h : e ∈ (transduceGoals F rule n gs).1) :
    e.1 ∈ gs ∧ ∃ k, (transduceGoal F rule k e.1).1 = e.2 := by
  induction gs generalizing n with
  | nil => simp [transduceGoals] at h
  | cons g gs ih =>
    simp only [transduceGoals, List.mem_cons] at h
    rcases h with rfl | h
    · exact ⟨by simp, n, rfl⟩
    · obtain ⟨hmem, hk⟩ := ih h
      exact ⟨by simp [hmem], hk⟩

theorem mem_transduceRules {n : Nat} {rules : List (PrologRule φ)}
    {e : PrologRule φ × BodyGoal φ × Option Defrule} (h : e ∈ transduceRules F n rules) :
    e.1 ∈ rules ∧ e.2.1 ∈ e.1.body ∧ ∃ k, (transduceGoal F e.1 k e.2.1).1 = e.2.2 := by
  induction rules generalizing n with
  | nil => simp [transduceRules] at h
  | cons rule rules ih =>
    simp only [transduceRules, List.mem_append, List.mem_map] at h
    rcases h with ⟨e', he', rfl⟩ | h
    · obtain ⟨hmem, hk⟩ := mem_transduceGoals he'
      exact ⟨by simp, hmem, hk⟩
    · obtain ⟨hmem, hrest⟩ := ih h
      exact ⟨by simp [hmem], hrest⟩

/-- The pattern that `transduce` writes for a goal. -/
def patternOf (F : FloatText φ) : BodyGoal φ → Text
  | .positive t => renderClipsFact F t
  | .negative t => renderNotClipsPattern F t

theorem defruleOn_eq {rule : PrologRule φ} {n : Nat} {kind lhs : Text} {t : Term φ} {d : Defrule}
    (h : defruleOn F rule n kind t lhs = some d) : d.lhs = lhs ∧
      d.rhs = renderHeadGoalExpr F rule.head (collectVars t) ∧
      ∀ x ∈ collectVars rule.head, x ∈ collectVars t := by
  simp only [defruleOn] at h
  split at h
  · next hall =>
    obtain rfl := Option.some.inj h
    exact ⟨rfl, rfl, by simpa using hall⟩
  · cases h

/-- A goal that triggers does so as it is. -/
theorem effectiveTrigger_eq {t t' : Term φ} (h : effectiveTrigger t = some t') :
    t' = t ∧ ∀ x, t ≠ .var x := by
  cases t with
  | compound functor args =>
    rw [effectiveTrigger] at h
    split at h
    · cases h
    · exact ⟨(Option.some.inj h).symm, by simp⟩
  | atom s =>
    rw [effectiveTrigger] at h
    split at h
    · cases h
    · exact ⟨(Option.some.inj h).symm, by simp⟩
  | var x => cases h
  | _ => exact ⟨(Option.some.inj h).symm, by simp⟩

theorem transduceGoal_eq {rule : PrologRule φ} {n : Nat} {g : BodyGoal φ} {d : Defrule}
    (h : (transduceGoal F rule n g).1 = some d) : d.lhs = patternOf F g ∧
      d.rhs = renderHeadGoalExpr F rule.head (collectVars g.term) ∧
      (∀ x ∈ collectVars rule.head, x ∈ collectVars g.term) ∧
      ∀ x, g ≠ .positive (.var x) := by
  cases g with
  | negative t =>
    obtain ⟨hl, hr, hv⟩ := defruleOn_eq h
    exact ⟨hl, hr, hv, by simp⟩
  | positive t =>
    rw [transduceGoal] at h
    split at h
    · cases h
    · next t' htrig =>
      obtain ⟨rfl, hvar⟩ := effectiveTrigger_eq htrig
      obtain ⟨hl, hr, hv⟩ := defruleOn_eq h
      exact ⟨hl, hr, hv, fun x hx => hvar x (by simpa using hx)⟩

theorem relayedData_eq {data : Text} {t : Term φ} (h : parsePrologTerm F data = .ok t) :
    relayedData F data = some (renderClipsFact F t) := by
  have hfact : prologToClipsFact F data = .ok (renderClipsFact F t) := by
    rw [prologToClipsFact, h]
    rfl
  have htype : (assertPayload data).strField "type" = some "assert" := by
    simp [assertPayload, Json.strField, Fields.get, Json.asStr]
  have hdata : (assertPayload data).strField "data" = some (String.ofList data) := by
    simp [assertPayload, Json.strField, Fields.get, Json.asStr]
  rw [relayedData, translatePrologToClips, htype, hdata]
  simp only [String.toList_ofList, hfact]
  simp [assertPayload, setField, Fields.insert, Json.strField, Fields.get, Json.asStr]

/-! ### Patterns that are not those of a fact -/

theorem readPattern_simple {s : Text} (hne : s ≠ []) (h : ∀ c ∈ s, isSimpleChar c) :
    readPattern s = none := by
  cases s with
  | nil => exact absurd rfl hne
  | cons c s =>
    have hc := h c (by simp)
    have hget := getToken_bare (s := s) (u := []) (simpleChar_symbolChar hc)
      (by rintro rfl; exact absurd hc (by decide)) (by rintro rfl; exact absurd hc (by decide))
      (fun d hd => simpleChar_symbolChar (h d (by simp [hd]))) (by simp)
    rw [List.append_nil] at hget
    have hconst := bareToken_isConstant c (c :: s)
    by_contra hsome
    obtain ⟨⟨r, ts⟩, hr⟩ := Option.ne_none_iff_exists'.mp hsome
    obtain ⟨-, ts', hscan⟩ := readPattern_scan hr
    rw [scan_of_getToken hget] at hscan
    rw [(List.cons.inj hscan).1] at hconst
    cases hconst

theorem readPattern_clipsString (s : Text) : readPattern (clipsString s) = none := by
  have hget : getToken (clipsString s) = some (.string s, []) := by
    have hs := scanString_escape s []
    rw [List.append_nil] at hs
    exact getToken_quote hs
  by_contra hsome
  obtain ⟨⟨r, ts⟩, hr⟩ := Option.ne_none_iff_exists'.mp hsome
  obtain ⟨-, ts', hscan⟩ := readPattern_scan hr
  rw [scan_of_getToken hget] at hscan
  cases (List.cons.inj hscan).1

/-- Only an atom or a compound is written as a pattern. -/
theorem readPattern_scalar {t : Term φ} (hc : isCallable t = false) (hv : ∀ x, t ≠ .var x) :
    readPattern (renderClipsFact F t) = none := by
  cases t with
  | integer k => exact readPattern_simple (i64Text_ne k) (simple_i64Text k)
  | float f => exact readPattern_simple (F.display_ne f) (simple_display f)
  | str s => exact readPattern_clipsString s
  | var x => exact absurd rfl (hv x)
  | _ => cases hc

/-- The relation of a negative pattern ends at the first space. -/
theorem readPattern_not_spaces {t : Term φ} (hc : isCallable t) (hspace : ' ' ∈ termFunctorName t)
    {r : Text} {ts : List Token} (h : readPattern (renderNotClipsPattern F t) = some (r, ts)) :
    r ≠ clipsSymbolForFunctor ("not_".toList ++ termFunctorName t) := by
  obtain ⟨-, ts', hscan⟩ := readPattern_scan h
  obtain ⟨rest, htext⟩ : ∃ rest, renderNotClipsPattern F t =
      '(' :: ('n' :: ("ot_".toList ++ termFunctorName t ++ rest)) := by
    cases t with
    | atom s => exact ⟨[')'], by simp [renderNotClipsPattern, termFunctorName]⟩
    | compound functor args =>
      exact ⟨' ' :: Text.join [' '] (renderClipsFields F args) ++ [')'],
        by simp [renderNotClipsPattern, termFunctorName, orderedFact]⟩
    | _ => cases hc
  obtain ⟨p, q, hf⟩ := List.append_of_mem hspace
  have hspan : ("ot_".toList ++ termFunctorName t ++ rest).takeWhile isSymbolChar =
      ("ot_".toList ++ p).takeWhile isSymbolChar := by
    rw [hf, ← List.append_assoc, List.append_assoc, List.cons_append]
    exact Span.takeWhile_append_cons (by decide) _ _
  have hget : getToken ('n' :: ("ot_".toList ++ termFunctorName t ++ rest)) =
      some (.symbol ('n' :: ("ot_".toList ++ p).takeWhile isSymbolChar),
        ("ot_".toList ++ termFunctorName t ++ rest).dropWhile isSymbolChar) := by
    rw [← hspan]
    generalize "ot_".toList ++ termFunctorName t ++ rest = v
    have hget := getToken_bare (c := 'n') (s := v.takeWhile isSymbolChar)
      (u := v.dropWhile isSymbolChar) (by decide) (by decide) (by decide)
      (fun d hd => List.mem_takeWhile_imp hd) (dropWhile_head v)
    rw [List.cons_append, List.takeWhile_append_dropWhile] at hget
    exact hget
  rw [htext, scan_lparen, scan_of_getToken hget] at hscan
  have hr : r = 'n' :: ("ot_".toList ++ p).takeWhile isSymbolChar := by
    have := (List.cons.inj (List.cons.inj hscan).2).1
    exact (Token.symbol.inj this).symm
  intro heq
  have hlen := congrArg List.length (hr.symm.trans heq)
  have hle := (List.takeWhile_prefix (l := "ot_".toList ++ p) isSymbolChar).length_le
  simp [clipsSymbolForFunctor, hf] at hlen hle
  omega

/-! ### Fact and pattern of one goal -/

theorem published_shape {σ : Text → Value} {g : BodyGoal φ} {t : Term φ} (hc : isCallable g.term)
    (h : published σ g = some t) : isCallable t ∧ termFunctorName t = g.functor ∧
      arguments t = (arguments g.term).map (subst σ) ∧ termIsGround t := by
  have hground := subst_isGround σ g.term
  cases g with
  | positive u =>
    simp only [published, Option.some.injEq] at h
    subst h
    cases u with
    | atom s => exact ⟨rfl, rfl, rfl, rfl⟩
    | compound functor args => exact ⟨rfl, rfl, substList_eq_map σ args, hground⟩
    | _ => cases hc
  | negative u =>
    cases u with
    | atom s =>
      simp only [published, subst, Option.some.injEq] at h
      subst h
      exact ⟨rfl, rfl, rfl, rfl⟩
    | compound functor args =>
      simp only [published, subst, Option.some.injEq] at h
      subst h
      exact ⟨rfl, rfl, substList_eq_map σ args, hground⟩
    | _ => cases hc

theorem readFact_published {σ : Text → Value} {g : BodyGoal φ} {t : Term φ} (hc : isCallable g.term)
    (hr : isRelationName (clipsSymbolForFunctor g.functor)) (h : published σ g = some t) :
    readFact (renderClipsFact F t) = some (clipsSymbolForFunctor g.functor,
      (arguments g.term).map fun a => fieldToken F (subst σ a)) := by
  obtain ⟨hct, hname, hargs, hground⟩ := published_shape hc h
  rw [readFact_renderClipsFact hct (by rwa [hname]) hground, hname, hargs, List.map_map]
  rfl

theorem readPattern_of_goal {g : BodyGoal φ} (hc : isCallable g.term) (hnamed : Named g.term)
    (hr : isRelationName (clipsSymbolForFunctor g.functor))
    (hspace : ∀ t, g = .negative t → ' ' ∉ termFunctorName t) :
    readPattern (patternOf F g) =
      some (clipsSymbolForFunctor g.functor, (arguments g.term).map (fieldToken F)) := by
  have hconstraint : ∀ f ∈ (arguments g.term).map (fieldToken F), f.isConstraint := by
    intro f hf
    obtain ⟨a, -, rfl⟩ := List.mem_map.mp hf
    exact fieldToken_isConstraint a
  cases g with
  | positive t =>
    exact readPattern_of_scan (scan_renderClipsFact hc hr (named_args hnamed)) hr hconstraint
  | negative t =>
    have hfree : ' ' ∉ "not_".toList ++ termFunctorName t := by
      rw [List.mem_append, not_or]
      exact ⟨by decide, hspace t rfl⟩
    have hsame : clipsSymbolForFunctor (BodyGoal.functor (.negative t)) =
        "not_".toList ++ termFunctorName t := clipsSymbol_no_space hfree
    rw [hsame] at hr ⊢
    exact readPattern_of_scan (scan_renderNotClipsPattern hc hr (named_args hnamed)) hr hconstraint

theorem renderClipsFact_opens {t : Term φ} (hc : isCallable t) : ∃ d u, IsEnd d ∧
    renderClipsFact F t = '(' :: (clipsSymbolForFunctor (termFunctorName t) ++ d :: u) := by
  cases t with
  | atom s => exact ⟨')', [], .inr rfl, rfl⟩
  | compound functor args =>
    exact ⟨' ', Text.join [' '] (renderClipsFields F args) ++ [')'], .inl rfl,
      by simp [renderClipsFact, termFunctorName, orderedFact]⟩
  | _ => cases hc

namespace GoalInstance
variable {I : GoalInstance F}

/-- No other goal has a pattern that binds its variables. -/
theorem Agrees.callable (h : I.Agrees) : isCallable I.goal.term := by
  obtain ⟨-, -, k, hd⟩ := mem_transduceRules I.emitted
  have hlhs : I.defrule.lhs = patternOf F I.goal := (transduceGoal_eq hd).1
  have hpos : ∀ x, I.goal ≠ .positive (.var x) := (transduceGoal_eq hd).2.2.2
  obtain ⟨t, hpub, -⟩ := I.reads
  obtain ⟨relation, fields, pattern, b, text, -, hpat, -, hbind, -, -⟩ := h
  rw [hlhs] at hpat
  by_contra hc
  simp only [Bool.not_eq_true] at hc
  cases hg : I.goal with
  | positive u =>
    rw [hg] at hpat hc hpos
    have hnone : readPattern (patternOf F (.positive u)) = none :=
      readPattern_scalar hc fun x hx => hpos x (by rw [← hx])
    rw [hnone] at hpat
    cases hpat
  | negative u =>
    rw [hg] at hpub hc hbind
    cases u with
    | var x =>
      obtain ⟨i, f, hi, -⟩ := hbind x (by simp [BodyGoal.term, collectVars])
      simp [BodyGoal.term, arguments] at hi
    | atom s => cases hc
    | compound functor args => cases hc
    | _ => simp [published, subst] at hpub

theorem Agrees.relation (hplain : I.PlainNames) (h : I.Agrees) :
    isRelationName (clipsSymbolForFunctor I.goal.functor) := by
  obtain ⟨t, hpub, hread⟩ := I.reads
  obtain ⟨hct, hname, -, -⟩ := published_shape h.callable hpub
  obtain ⟨relation, fields, pattern, b, text, hfact, hpat, -, -, -, -⟩ := h
  rw [relayedData_eq hread, Option.bind_some] at hfact
  obtain ⟨hrel, ts, hscan⟩ := readFact_scan hfact
  obtain ⟨d, u, hd, htext⟩ := renderClipsFact_opens (F := F) hct
  rw [htext, hname] at hscan
  obtain ⟨hsym, rfl⟩ := scan_symbol hplain.functor hd hscan
  have hdeclare := (readPattern_scan hpat).1
  simp only [isRelationName, Bool.and_eq_true, bne_iff_ne]
  exact ⟨⟨hsym, hrel⟩, hdeclare⟩

theorem Agrees.spaces (hplain : I.PlainNames) (h : I.Agrees) :
    ∀ t, I.goal = .negative t → ' ' ∉ termFunctorName t := by
  have hc := h.callable
  have hrel := h.relation hplain
  obtain ⟨-, -, k, hd⟩ := mem_transduceRules I.emitted
  have hlhs : I.defrule.lhs = patternOf F I.goal := (transduceGoal_eq hd).1
  obtain ⟨t, hpub, hread⟩ := I.reads
  obtain ⟨relation, fields, pattern, b, text, hfact, hpat, -⟩ := h
  rw [relayedData_eq hread, Option.bind_some, readFact_published hc hrel hpub] at hfact
  intro u hu hspace
  rw [hlhs, hu] at hpat
  rw [hu] at hc hfact
  refine readPattern_not_spaces hc hspace hpat ?_
  exact (Prod.mk.inj (Option.some.inj hfact)).1.symm

end GoalInstance

mutual
theorem ground_no_vars : (t : Term φ) → termIsGround t → collectVars t = []
  | .var _, h => by simp [termIsGround] at h
  | .compound functor args, h => by
    rw [collectVars]
    exact grounds_no_vars args (by simpa [termIsGround] using h)
  | .atom _, _ | .integer _, _ | .float _, _ | .str _, _ => by simp [collectVars]
theorem grounds_no_vars : (ts : List (Term φ)) → termsAreGround ts → collectVarsList ts = []
  | [], _ => rfl
  | t :: ts, h => by
    simp only [termsAreGround, Bool.and_eq_true] at h
    rw [collectVarsList, ground_no_vars t h.1, grounds_no_vars ts h.2]
    rfl
end

theorem collectVars_args {t : Term φ} (hc : isCallable t) {x : Text} :
    x ∈ collectVars t ↔ ∃ a ∈ arguments t, x ∈ collectVars a := by
  cases t with
  | atom s => simp [collectVars, arguments]
  | compound functor args => exact mem_collectVarsList
  | _ => cases hc

namespace GoalInstance
variable {I : GoalInstance F}

theorem named (I : GoalInstance F) : NamedRule I.rule ∧ Named I.goal.term := by
  obtain ⟨hrule, hgoal, -⟩ := mem_transduceRules I.emitted
  have hnamed : NamedRule I.rule := parsePrologRules_named hrule
  exact ⟨hnamed, hnamed.body _ hgoal⟩

theorem readFact_relayed (hc : isCallable I.goal.term)
    (hrel : isRelationName (clipsSymbolForFunctor I.goal.functor)) :
    (relayedData F I.data).bind readFact = some (clipsSymbolForFunctor I.goal.functor,
      (arguments I.goal.term).map fun a => fieldToken F (subst I.values a)) := by
  obtain ⟨t, hpub, hread⟩ := I.reads
  rw [relayedData_eq hread, Option.bind_some]
  exact readFact_published hc hrel hpub

theorem readPattern_lhs (hc : isCallable I.goal.term)
    (hrel : isRelationName (clipsSymbolForFunctor I.goal.functor))
    (hspace : ∀ t, I.goal = .negative t → ' ' ∉ termFunctorName t) :
    readPattern I.defrule.lhs =
      some (clipsSymbolForFunctor I.goal.functor, (arguments I.goal.term).map (fieldToken F)) := by
  obtain ⟨-, -, k, hd⟩ := mem_transduceRules I.emitted
  rw [(transduceGoal_eq hd).1]
  exact readPattern_of_goal hc I.named.2 hrel hspace

/-- The bindings of a match give the head its text. -/
theorem builds_head (hplain : I.PlainNames) {b : Bindings}
    (hb : ∀ x ∈ collectVars I.goal.term, x.head? ≠ some '_' ∧
      b.lookup x = some (fieldToken F (I.values x).term)) :
    (readExpr I.defrule.rhs).bind (Expr.eval b) = some (headText F I.values I.rule.head) := by
  obtain ⟨-, -, k, hd⟩ := mem_transduceRules I.emitted
  obtain ⟨-, hrhs, hsub, -⟩ := transduceGoal_eq hd
  rw [hrhs]
  refine renderHeadGoalExpr_builds hplain.head fun x hx => ?_
  exact ⟨hsub x hx, I.named.1.head x hx, hb x (hsub x hx)⟩

theorem Agrees.handsOver (hplain : I.PlainNames) (h : I.Agrees) : I.HandsOver := by
  have hc := h.callable
  have hrel := h.relation hplain
  have hspace := h.spaces hplain
  obtain ⟨relation, fields, pattern, b, text, hfact, hpat, hmatch, hbind, hexpr, hparse⟩ := h
  rw [readFact_relayed hc hrel] at hfact
  rw [readPattern_lhs hc hrel hspace] at hpat
  obtain ⟨-, rfl⟩ := Prod.mk.inj (Option.some.inj hfact)
  obtain ⟨-, rfl⟩ := Prod.mk.inj (Option.some.inj hpat)
  obtain ⟨hargs, rfl⟩ := matchFields_args.mp hmatch
  have hbound : ∀ x ∈ collectVars I.goal.term, x.head? ≠ some '_' ∧
      List.lookup x (bindAll (fun x => fieldToken F (I.values x).term)
        ((arguments I.goal.term).map (fieldToken F)) []) =
          some (fieldToken F (I.values x).term) := by
    intro x hx
    obtain ⟨i, f, -, -, hf⟩ := hbind x hx
    obtain ⟨⟨-, hname⟩, rfl⟩ := lookup_bindings.mp hf
    exact ⟨hname, hf⟩
  refine ⟨hc, hrel, hspace, fun a ha => ?_, ?_⟩
  · rcases hargs a ha with ⟨x, rfl⟩ | hground
    · refine .inl ⟨x, rfl, (hbound x ?_).1⟩
      exact (collectVars_args hc).mpr ⟨_, ha, by simp [collectVars]⟩
    · exact .inr hground
  · rw [builds_head hplain hbound] at hexpr
    obtain rfl := Option.some.inj hexpr
    exact (head_reads hplain.head I.named.1.head).mp hparse

/-- A variable of the goal is one of its arguments, and has a name. -/
theorem HandsOver.vars (h : I.HandsOver) {x : Text} (hx : x ∈ collectVars I.goal.term) :
    .var x ∈ arguments I.goal.term ∧ x.head? ≠ some '_' := by
  obtain ⟨a, ha, hxa⟩ := (collectVars_args h.callable).mp hx
  rcases h.flat a ha with ⟨y, rfl, hy⟩ | hground
  · obtain rfl : x = y := by simpa [collectVars] using hxa
    exact ⟨ha, hy⟩
  · simp [ground_no_vars a hground] at hxa

theorem HandsOver.agrees (hplain : I.PlainNames) (h : I.HandsOver) : I.Agrees := by
  have hargs : ∀ a ∈ arguments I.goal.term, (∃ x, a = .var x) ∨ termIsGround a := fun a ha =>
    (h.flat a ha).imp_left fun ⟨x, hx, _⟩ => ⟨x, hx⟩
  have hlook : ∀ x ∈ collectVars I.goal.term,
      List.lookup x (bindAll (fun x => fieldToken F (I.values x).term)
        ((arguments I.goal.term).map (fieldToken F)) []) =
          some (fieldToken F (I.values x).term) :=
    fun x hx => lookup_bindings.mpr ⟨h.vars hx, rfl⟩
  refine ⟨_, _, _, _, _, readFact_relayed h.callable h.relation,
    readPattern_lhs h.callable h.relation h.spaces, matchFields_args.mpr ⟨hargs, rfl⟩, ?_,
    builds_head hplain fun x hx => ⟨(h.vars hx).2, hlook x hx⟩,
    (head_reads hplain.head I.named.1.head).mpr h.head⟩
  intro x hx
  obtain ⟨i, hi⟩ := List.mem_iff_getElem?.mp (h.vars hx).1
  exact ⟨i, fieldToken F (I.values x).term, hi, by simp [hi, subst], hlook x hx⟩

/-- Among the instances with plain names, exactly these are handed over. -/
theorem agrees_iff (hplain : I.PlainNames) : I.Agrees ↔ I.HandsOver :=
  ⟨Agrees.handsOver hplain, HandsOver.agrees hplain⟩

/-- Plain names and a head that is handed over are enough; and among the instances with plain
names no others agree. -/
theorem transduction_agrees (I : GoalInstance F) :
    (I.PlainNames ∧ I.HandsOver → I.Agrees) ∧ (I.PlainNames → I.Agrees → I.HandsOver) :=
  ⟨fun h => (agrees_iff h.1).mpr h.2, fun h => (agrees_iff h).mp⟩

end GoalInstance

end Instances

/-! ### One rule -/

/-- `fire(W) :- smoke(W).` with a value for `W`. -/
def smokeInstance (v : Value) (value data : Text)
    (hvalue : parsePrologTerm noFloats value = .ok v.term)
    (hdata : parsePrologTerm noFloats data = .ok (.compound "smoke".toList [v.term])) :
    GoalInstance noFloats where
  source := "fire(W) :- smoke(W).".toList
  rule := { head := .compound "fire".toList [.var ['W']],
            body := [.positive (.compound "smoke".toList [.var ['W']])] }
  goal := .positive (.compound "smoke".toList [.var ['W']])
  defrule := { comment := "fire(W) :- smoke(W).".toList,
               name := "transduced-fire-on-smoke-0".toList,
               lhs := "(smoke ?W)".toList,
               rhs := "(str-cat \"fire(\" ?W \")\")".toList }
  emitted := by decide +kernel
  values _ := v
  accepted _ _ := ⟨value, hvalue⟩
  data := data
  reads := ⟨_, rfl, hdata⟩

section
variable {v : Value} {value data : Text}
  (hvalue : parsePrologTerm noFloats value = .ok v.term)
  (hdata : parsePrologTerm noFloats data = .ok (.compound "smoke".toList [v.term]))

theorem smokeInstance_plainNames : (smokeInstance v value data hvalue hdata).PlainNames := by
  constructor
  · change isBare (clipsSymbolForFunctor "smoke".toList)
    decide +kernel
  · change plainTerm (.compound "fire".toList [.var ['W']] : Term Empty)
    decide +kernel

theorem smokeInstance_handsOver :
    (smokeInstance v value data hvalue hdata).HandsOver ↔ v.Bare := by
  constructor
  · intro h
    exact h.head.2 (.var ['W']) (List.mem_singleton.mpr rfl)
  · intro hv
    have hrel : isRelationName (clipsSymbolForFunctor "smoke".toList) := by decide +kernel
    refine ⟨rfl, hrel, fun t ht => (by cases ht), fun a ha => ?_, by decide +kernel, fun a ha => ?_⟩
    · obtain rfl := List.mem_singleton.mp ha
      exact .inl ⟨['W'], rfl, by decide⟩
    · obtain rfl := List.mem_singleton.mp ha
      exact hv

end

/-- The characters of `"hello"` make an atom in the goal text. -/
theorem string_handed_over_as_atom : ∃ I : GoalInstance noFloats,
    I.data = "smoke(\"hello\")".toList ∧ I.values ['W'] = .str "hello".toList ∧ ¬ I.Agrees := by
  refine ⟨smokeInstance (.str "hello".toList) "\"hello\"".toList "smoke(\"hello\")".toList
    (by decide +kernel) (by decide +kernel), rfl, rfl, fun h => ?_⟩
  have hover := (GoalInstance.agrees_iff (smokeInstance_plainNames _ _)).mp h
  exact (smokeInstance_handsOver _ _).mp hover

theorem transduction_agrees_basement : ∃ I : GoalInstance noFloats,
    I.data = "smoke(basement)".toList ∧ I.Agrees := by
  refine ⟨smokeInstance (.atom "basement".toList) "basement".toList "smoke(basement)".toList
    (by decide +kernel) (by decide +kernel), rfl, ?_⟩
  refine (GoalInstance.transduction_agrees _).1 ⟨smokeInstance_plainNames _ _, ?_⟩
  exact (smokeInstance_handsOver _ _).mpr (.inl (by decide +kernel))

/-- A name that CLIPS splits at a quote: fact and pattern are split alike, so that without plain
names an instance can agree by accident. -/
theorem split_name_agrees : ∃ I : GoalInstance noFloats, ¬ I.PlainNames ∧ I.Agrees := by
  refine ⟨{ source := "alarm :- 'a \"b\"'.".toList
            rule := ⟨.atom "alarm".toList, [.positive (.atom "a \"b\"".toList)]⟩
            goal := .positive (.atom "a \"b\"".toList)
            defrule := { comment := "alarm :- 'a \"b\"'.".toList,
                         name := "transduced-alarm-on-a \"b\"-0".toList,
                         lhs := "(a_\"b\")".toList, rhs := "\"alarm\"".toList }
            emitted := by decide +kernel
            values := fun _ => .integer 0
            accepted := by simp [BodyGoal.term, collectVars]
            data := "'a \"b\"'".toList
            reads := ⟨_, rfl, by decide +kernel⟩ }, fun h => ?_, ?_⟩
  · exact absurd h.functor (by decide +kernel)
  · refine ⟨['a', '_'], [.string ['b']], [.string ['b']], [], "alarm".toList, ?_⟩
    refine ⟨by decide +kernel, by decide +kernel, by decide +kernel, ?_, by decide +kernel,
      by decide +kernel⟩
    simp [BodyGoal.term, collectVars]

end Cerebellum.Transpile
