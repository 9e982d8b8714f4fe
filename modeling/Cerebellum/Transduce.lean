import Cerebellum.Transpile

/-! Prolog rules to CLIPS defrules: the rule parser of transduction.rs and `transduce`. -/
namespace Cerebellum.Transpile

inductive BodyGoal (φ : Type) where
  | positive (t : Term φ)
  | negative (t : Term φ)
  deriving DecidableEq

/-- The goal below the negation. -/
def BodyGoal.term {φ : Type} : BodyGoal φ → Term φ
  | .positive t => t
  | .negative t => t

structure PrologRule (φ : Type) where
  head : Term φ
  body : List (BodyGoal φ)
  deriving DecidableEq

/-! ### The rule parser -/

/-- `skip_ws_and_comments`: a comment runs from `%` to the end of its line. -/
def skipWsAndComments (inComment : Bool) : Text → Text
  | [] => []
  | c :: u =>
    if inComment then skipWsAndComments (c != '\n') u
    else if Text.isAsciiWhitespace c then skipWsAndComments false u
    else if c = '%' then skipWsAndComments true u
    else c :: u

/-- To behind the next full stop, or to the end. -/
def skipToPeriod : Text → Text
  | [] => []
  | c :: u => if c = '.' then u else skipToPeriod u

section RuleParser
variable {φ : Type} (F : FloatText φ)

/-- The rule parser's own `parse_term` reads what `PrologParser` reads; only the texts of its
errors differ, and nobody sees those. -/
def ruleTerm (u : Text) : Parsed (Term φ) := parseTerm F (u.length + 1) u

/-- A parenthesis that is not closed is let pass. -/
def parseGoalAtom (u : Text) : Parsed (Term φ) :=
  match skipWs u with
  | '(' :: u =>
    (ruleTerm F u).bind fun t u =>
      match skipWs u with
      | ')' :: u => .ok t u
      | u => .ok t u
  | u => ruleTerm F u

/-- `not/1` is read like `\+`. -/
def asGoal : Term φ → BodyGoal φ
  | .compound functor [t] =>
    if functor = "not".toList then .negative t else .positive (.compound functor [t])
  | t => .positive t

def parseGoal (u : Text) : Parsed (BodyGoal φ) :=
  match skipWs u with
  | '\\' :: '+' :: u => (parseGoalAtom F (skipWs u)).map .negative
  | u => (parseGoalAtom F u).map asGoal

/-- A comma and a semicolon both lead to another goal; anything else ends the body. -/
def parseBody : Nat → Text → Parsed (List (BodyGoal φ))
  | 0, u => .error "out of fuel" u
  | fuel + 1, u =>
    (parseGoal F (skipWsAndComments false u)).bind fun g u =>
      match skipWs u with
      | ',' :: u | ';' :: u => (parseBody fuel u).map (g :: ·)
      | u => .ok [g] u

/-- The full stop behind a body is optional. -/
def ruleOf (head : Term φ) (u : Text) : Parsed (Option (PrologRule φ)) :=
  (parseBody F (u.length + 1) u).bind fun body u =>
    match skipWs u with
    | '.' :: u => .ok (some ⟨head, body⟩) u
    | u => .ok (some ⟨head, body⟩) u

/-- `none` at the end of the source. -/
def parseClause (u : Text) : Parsed (Option (PrologRule φ)) :=
  match skipWsAndComments false u with
  | [] => .ok none []
  | u =>
    (ruleTerm F u).bind fun head u =>
      match skipWs u with
      | ':' :: '-' :: u => ruleOf F head (skipWs u)
      | '.' :: u => .ok (some ⟨head, []⟩) u
      | u => .error "expected :- or . after head" u

/-- A clause that does not parse is passed over. -/
def rulesLoop : Nat → Text → List (PrologRule φ)
  | 0, _ => []
  | fuel + 1, u =>
    match parseClause F u with
    | .ok (some rule) u => rule :: rulesLoop fuel u
    | .ok none _ => []
    | .error _ u => rulesLoop fuel (skipToPeriod u)

def parsePrologRules (source : Text) : List (PrologRule φ) :=
  let u := Text.asBytes source
  rulesLoop F (u.length + 2) u

end RuleParser

/-! ### Code generation -/

section Generation
variable {φ : Type} (F : FloatText φ)

def termFunctorName : Term φ → Text
  | .atom s => s
  | .compound functor _ => functor
  | _ => "term".toList

mutual
/-- `collect_vars`; the set is only asked for membership. -/
def collectVars : Term φ → List Text
  | .var s => [s]
  | .compound _ args => collectVarsList args
  | _ => []
def collectVarsList : List (Term φ) → List Text
  | [] => []
  | t :: ts => collectVars t ++ collectVarsList ts
end

def isBoundVar (t : Term φ) (bound : List Text) : Bool :=
  match t with
  | .var s => bound.contains s
  | _ => false

/-- An argument as a Prolog literal; a variable by its name. -/
def renderArgAsLiteral : Term φ → Text
  | .var s => s
  | t => renderPrologTerm F t

/-- A part of a `str-cat`, or the whole expression: text between quotes, as it is. -/
def quoted (s : Text) : Text := '"' :: s ++ ['"']

/-- The loop that merges literal segments: the parts so far, and the segment in progress. -/
structure Segments where
  parts : List Text := []
  cur : Text

/-- One argument, behind a comma unless it is the first. -/
def Segments.push (bound : List Text) (s : Segments) (first : Bool) (arg : Term φ) : Segments :=
  let cur := if first then s.cur else s.cur ++ [',']
  match arg with
  | .var x =>
    if bound.contains x then
      { parts := s.parts ++ (if cur.isEmpty then [] else [quoted cur]) ++ ['?' :: x], cur := [] }
    else { s with cur := cur ++ renderArgAsLiteral F arg }
  | _ => { s with cur := cur ++ renderArgAsLiteral F arg }

def Segments.pushAll (bound : List Text) (s : Segments) (first : Bool) :
    List (Term φ) → Segments
  | [] => s
  | arg :: args => (s.push F bound first arg).pushAll bound false args

/-- Nothing of the head is escaped for CLIPS. -/
def renderHeadGoalExpr (head : Term φ) (bound : List Text) : Text :=
  match head with
  | .atom s => quoted s
  | .compound functor args =>
    if args.any (isBoundVar · bound) then
      let s := ({ cur := functor ++ ['('] } : Segments).pushAll F bound true args
      "(str-cat ".toList ++ Text.join [' '] (s.parts ++ [quoted (s.cur ++ [')'])]) ++ [')']
    else quoted (functor ++ '(' :: Text.join [','] (args.map (renderArgAsLiteral F)) ++ [')'])
  | t => quoted (renderPrologTerm F t)

/-- Unlike `render_clips_fact`, this leaves the spaces of the functor. -/
def renderNotClipsPattern : Term φ → Text
  | .atom s => '(' :: "not_".toList ++ s ++ [')']
  | .compound functor args => orderedFact ("not_".toList ++ functor) (renderClipsFields F args)
  | t => '(' :: "not_".toList ++ renderPrologTerm F t ++ [')']

def metaPredicates : List String :=
  ["assert", "assertz", "asserta", "retract", "retractall", "abolish", "format", "write",
    "writeln", "nl", "print", "read", "copy_term", "functor", "arg", "call", "bagof", "setof",
    "findall", "aggregate_all", "is", "succ", "plus", "true", "fail", "otherwise",
    "coire_publish_assert", "coire_publish", "coire_emit", "coire_poll"]

def isMetaPredicate (name : Text) : Bool := (metaPredicates.map String.toList).contains name

def effectiveTrigger : Term φ → Option (Term φ)
  | .compound functor args => if isMetaPredicate functor then none else some (.compound functor args)
  | .atom s => if isMetaPredicate s then none else some (.atom s)
  | .var _ => none
  | t => some t

def formatGoal : BodyGoal φ → Text
  | .positive t => renderPrologTerm F t
  | .negative t => "\\+ ".toList ++ renderPrologTerm F t

def formatRuleComment (rule : PrologRule φ) : Text :=
  let head := renderPrologTerm F rule.head
  if rule.body.isEmpty then head ++ ['.']
  else head ++ " :- ".toList ++ Text.join ", ".toList (rule.body.map (formatGoal F)) ++ ['.']

/-- The parts of a generated defrule. -/
structure Defrule where
  comment : Text
  name : Text
  lhs : Text
  rhs : Text
  deriving DecidableEq

def Defrule.text (d : Defrule) : Text :=
  "; Transduced from: ".toList ++ d.comment ++ "\n(defrule ".toList ++ d.name ++ "\n    ".toList ++
    d.lhs ++ "\n    =>\n    (coire-publish-goal ".toList ++ d.rhs ++ "))\n\n".toList

/-- The defrule of a goal whose trigger binds every variable of the head. -/
def defruleOn (rule : PrologRule φ) (counter : Nat) (kind : Text) (trigger : Term φ) (lhs : Text) :
    Option Defrule :=
  let bound := collectVars trigger
  if (collectVars rule.head).all bound.contains then
    some {
      comment := formatRuleComment F rule
      name := "transduced-".toList ++ termFunctorName rule.head ++ kind ++
        termFunctorName trigger ++ '-' :: Nat.toDigits 10 counter
      lhs
      rhs := renderHeadGoalExpr F rule.head bound }
  else none

/-- The defrule for one goal, if any, and the counter behind it: a meta-predicate does not
count, a trigger that leaves a head variable free does. -/
def transduceGoal (rule : PrologRule φ) (counter : Nat) : BodyGoal φ → Option Defrule × Nat
  | .negative t =>
    (defruleOn F rule counter "-on-not_".toList t (renderNotClipsPattern F t), counter + 1)
  | .positive t =>
    match effectiveTrigger t with
    | none => (none, counter)
    | some t => (defruleOn F rule counter "-on-".toList t (renderClipsFact F t), counter + 1)

/-- The goals of one rule, each with the defrule it gives. -/
def transduceGoals (rule : PrologRule φ) (counter : Nat) :
    List (BodyGoal φ) → List (BodyGoal φ × Option Defrule) × Nat
  | [] => ([], counter)
  | g :: gs =>
    let (d, counter) := transduceGoal F rule counter g
    let (ds, counter) := transduceGoals rule counter gs
    ((g, d) :: ds, counter)

/-- Every goal of every rule with its defrule. A fact has no goals and gives none. -/
def transduceRules (counter : Nat) :
    List (PrologRule φ) → List (PrologRule φ × BodyGoal φ × Option Defrule)
  | [] => []
  | rule :: rules =>
    let (ds, counter) := transduceGoals F rule counter rule.body
    ds.map (rule, ·) ++ transduceRules counter rules

def transduce (rules : List (PrologRule φ)) : Text :=
  ((transduceRules F 0 rules).filterMap fun e => e.2.2).flatMap Defrule.text

def transduceSource (source : Text) : Text := transduce F (parsePrologRules F source)

end Generation

end Cerebellum.Transpile
