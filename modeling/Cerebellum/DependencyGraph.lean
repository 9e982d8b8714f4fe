import Cerebellum.Coloring

/-! The dependency graph of a rule list in DOT: `generate_dot` of
clara-cycle/src/transduction.rs. Nodes are named by what they stand for and printed with
their functors sanitised. -/
namespace Cerebellum.Transpile

/-- `dot_id`. -/
def dotId (s : Text) : Text := s.map fun c => if c.isAlphanum || c == '_' then c else '_'

/-- `escape_dot_label`. -/
def escapeDotLabel (s : Text) : Text := escape '"' s

inductive DotNode where
  /-- A fact, by its place in the rule list. -/
  | fact (functor : Text) (arity i : Nat)
  /-- A rule clause, by its place among the rules with a body. -/
  | rule (functor : Text) (arity ci : Nat)
  /-- The group node of a predicate with more than one rule clause. -/
  | synth (functor : Text) (arity : Nat)
  /-- The goal at a place of a body. -/
  | cond (ci gi : Nat)
  /-- The goal that a `findall/3` collects. -/
  | inner (ci gi : Nat)
  deriving DecidableEq

def numbered (s : Text) (n : Nat) : Text := s ++ '_' :: Nat.toDigits 10 n

namespace DotNode

def id : DotNode → Text
  | fact functor arity i => numbered (numbered ("fact_".toList ++ dotId functor) arity) i
  | rule functor arity ci => numbered (numbered ("rule_".toList ++ dotId functor) arity) ci
  | synth functor arity => numbered ("synth_".toList ++ dotId functor) arity
  | cond ci gi => numbered (numbered "cond".toList ci) gi
  | inner ci gi => numbered (numbered "cond".toList ci) gi ++ ['c']

/-- What stands in front of the fill colour of a node, and behind it. -/
def style : DotNode → String × String
  | fact .. => ("shape=ellipse style=filled", "")
  | rule .. => ("shape=box style=filled", " penwidth=2")
  | synth .. => ("shape=box style=filled", " penwidth=3")
  | cond .. | inner .. => ("shape=ellipse style=\"filled,dashed\"", "")

end DotNode

inductive DotEdge where
  | clause
  | collects
  | requires
  | assertBridge
  | chainsTo
  | satisfies
  | shared
  deriving DecidableEq

def DotEdge.attributes : DotEdge → String
  | clause => "label=\"clause\" style=dotted color=\"#555555\""
  | collects => "label=\"collects\""
  | requires => "label=\"requires\""
  | assertBridge => "color=\"#1a73e8\""
  | chainsTo => "label=\"chains-to\" style=dashed color=\"#1a73e8\""
  | satisfies => "label=\"satisfies\" style=dashed color=\"#555555\""
  | shared => "style=dashed color=\"#aaaaaa\" dir=none"

inductive DotStmt where
  | node (n : DotNode) (label : Text) (fill : String)
  | edge (kind : DotEdge) (src dst : DotNode)
  | blank

def DotStmt.text : DotStmt → Text
  | node n label fill =>
    "    ".toList ++ n.id ++ " [label=\"".toList ++ escapeDotLabel label ++ "\" ".toList ++
      n.style.1.toList ++ " fillcolor=\"".toList ++ fill.toList ++ ['"'] ++ n.style.2.toList ++
      "]\n".toList
  | edge kind src dst =>
    "    ".toList ++ src.id ++ " -> ".toList ++ dst.id ++ " [".toList ++ kind.attributes.toList ++
      "]\n".toList
  | blank => ['\n']

def truthFillColor : TruthValue → String
  | .knownTrue => "#28a745"
  | .knownFalse => "#dc3545"
  | .knownUnresolved => "#ffc107"
  | .unknown => "#adb5bd"

def nodeFillColor (functor : Text) (coloring : Option NodeColoring) (default : String) : String :=
  ((coloring.bind fun c => c.values functor).map truthFillColor).getD default

/-- A hash map is walked in an order of its own. -/
structure LabelOrder where
  order : List Text → List Text
  perm : ∀ l, (order l).Perm l

structure DotOptions where
  linkSharedConditions : Bool := false

section
variable {φ : Type}

def extractAssertedTerm : BodyGoal φ → Option (Term φ)
  | .positive (.compound functor [t]) =>
    if ["assert".toList, "assertz".toList, "asserta".toList].contains functor then some t else none
  | _ => none

/-- The goal of a `findall/3`. -/
def collectedTerm : BodyGoal φ → Option (Term φ)
  | .positive (.compound functor [_, goal, _]) =>
    if functor = "findall".toList then some goal else none
  | _ => none

structure DotCondition where
  node : DotNode
  functor : Text
  arity : Nat
  label : Text

/-- What a goal of a body adds to the graph. -/
structure GoalDot where
  stmts : List DotStmt := []
  bridges : List (DotNode × DotNode) := []
  chains : List (DotNode × DotNode) := []
  conds : List DotCondition := []

variable (F : FloatText φ) (rules : List (PrologRule φ)) (coloring : Option NodeColoring)

/-- The facts, with their places in the rule list. -/
def factList : List (PrologRule φ × Nat) := rules.zipIdx.filter fun p => p.1.body.isEmpty

/-- The rules with a body, with their places among these. -/
def ruleList : List (PrologRule φ × Nat) := (rules.filter fun r => !r.body.isEmpty).zipIdx

def factNode (p : PrologRule φ × Nat) : DotNode :=
  .fact (termFunctorArity p.1.head).1 (termFunctorArity p.1.head).2 p.2

/-- `rule_head_ids`. -/
def headNode (p : PrologRule φ × Nat) : DotNode :=
  .rule (termFunctorArity p.1.head).1 (termFunctorArity p.1.head).2 p.2

/-- `head_by_fa`: the rule clauses of a functor and an arity. -/
def headByFa (fa : Text × Nat) : List (PrologRule φ × Nat) :=
  (ruleList rules).filter fun p => termFunctorArity p.1.head = fa

/-- The functors and arities with more than one rule clause, sorted. -/
def multi : List (Text × Nat) :=
  ((((ruleList rules).map fun p => termFunctorArity p.1.head).dedup).filter fun fa =>
    1 < (headByFa rules fa).length).mergeSort fun k l =>
      decide (k.1 < l.1) || (k.1 == l.1 && decide (k.2 ≤ l.2))

def resolveChainTarget (fa : Text × Nat) : Option DotNode :=
  match headByFa rules fa with
  | [] => none
  | [p] => some (headNode p)
  | p :: _ => some (if fa ∈ multi rules then .synth fa.1 fa.2 else headNode p)

/-- `produces`: the rule clauses that assert a term with the label. -/
def produces (label : Text) : List DotNode :=
  (ruleList rules).flatMap fun p => (p.1.body.filterMap extractAssertedTerm).filterMap fun t =>
    if renderPrologTerm F t = label then some (headNode p) else none

/-- The condition that a goal stands for; a meta-predicate stands for none. -/
def conditionOf (ci gi : Nat) (goal : BodyGoal φ) : Option DotCondition :=
  match collectedTerm goal with
  | some t =>
    let (f, a) := termFunctorArity t
    if isMetaPredicate f then none else some ⟨.inner ci gi, f, a, renderPrologTerm F t⟩
  | none =>
    let (f, a) := termFunctorArity goal.term
    let label := renderPrologTerm F goal.term
    if isMetaPredicate (termFunctorName goal.term) then none
    else some ⟨.cond ci gi, f, a, match goal with
      | .positive _ => label
      | .negative _ => "\\\\+ ".toList ++ label⟩

/-- A condition with its edge from the head of its rule, and its chain. -/
def showCondition (p : PrologRule φ × Nat) (c : DotCondition) (kind : DotEdge)
    (bridges : List (DotNode × DotNode)) : GoalDot where
  stmts := [.node c.node c.label (nodeFillColor c.functor coloring "#fff3cd"),
    .edge kind (headNode p) c.node]
  bridges := bridges
  chains := (resolveChainTarget rules (c.functor, c.arity)).toList.map (c.node, ·)
  conds := [c]

/-- A condition that is asserted by a rule and is no head of one is bridged and not shown. -/
def goalDot (p : PrologRule φ × Nat) (gi : Nat) (goal : BodyGoal φ) : GoalDot :=
  match conditionOf F p.2 gi goal with
  | none => {}
  | some c =>
    let bridges := (produces F rules c.label).map (headNode p, ·)
    if (collectedTerm goal).isSome then showCondition rules coloring p c .collects []
    else if !bridges.isEmpty && (resolveChainTarget rules (c.functor, c.arity)).isNone then
      { bridges }
    else showCondition rules coloring p c .requires bridges

def goalDots : List GoalDot :=
  (ruleList rules).flatMap fun p => p.1.body.zipIdx.map fun g => goalDot F rules coloring p g.2 g.1

/-- The conditions that are shown. -/
def allConds : List DotCondition := (goalDots F rules coloring).flatMap GoalDot.conds

def factStmts : List DotStmt :=
  (factList rules).map fun p => .node (factNode p) (renderPrologTerm F p.1.head)
    (nodeFillColor (termFunctorArity p.1.head).1 coloring "#d4edda")

def headStmts : List DotStmt :=
  (ruleList rules).map fun p => .node (headNode p) (renderPrologTerm F p.1.head)
    (nodeFillColor (termFunctorArity p.1.head).1 coloring "#cce5ff")

def groupStmts : List DotStmt :=
  (multi rules).flatMap fun fa =>
    .node (.synth fa.1 fa.2) (fa.1 ++ '/' :: Nat.toDigits 10 fa.2)
      (nodeFillColor fa.1 coloring "#7ba7d4") ::
    (headByFa rules fa).map fun p => .edge .clause (.synth fa.1 fa.2) (headNode p)

def satisfiesStmts : List DotStmt :=
  (factList rules).flatMap fun p => (allConds F rules coloring).filterMap fun c =>
    if termFunctorArity p.1.head = (c.functor, c.arity) then
      some (.edge .satisfies (factNode p) c.node)
    else none

/-- Conditions with one label, each linked to the next. -/
def sharedStmts (iter : LabelOrder) : List DotStmt :=
  let conds := allConds F rules coloring
  (iter.order (conds.map DotCondition.label).dedup).flatMap fun label =>
    let ids := (conds.filter fun c => c.label = label).map DotCondition.node
    (ids.zip ids.tail).map fun p => .edge .shared p.1 p.2

/-- Statements with a blank line behind them, if there are any. -/
def dotSection (stmts : List DotStmt) : List DotStmt :=
  if stmts.isEmpty then [] else stmts ++ [.blank]

def dotStmts (opts : DotOptions) (iter : LabelOrder) : List DotStmt :=
  let goals := goalDots F rules coloring
  dotSection (factStmts F rules coloring) ++
    (headStmts F rules coloring ++ [.blank]) ++
    dotSection (groupStmts rules coloring) ++
    (goals.flatMap GoalDot.stmts ++ [.blank]) ++
    dotSection ((goals.flatMap GoalDot.bridges).map fun e => .edge .assertBridge e.1 e.2) ++
    dotSection ((goals.flatMap GoalDot.chains).map fun e => .edge .chainsTo e.1 e.2) ++
    dotSection (satisfiesStmts F rules coloring) ++
    if opts.linkSharedConditions then dotSection (sharedStmts F rules coloring iter) else []

def generateDot (opts : DotOptions) (iter : LabelOrder) : Text :=
  ("digraph Clara \x7b\n    rankdir=LR\n    fontname=\"Helvetica\"\n" ++
    "    node [fontname=\"Helvetica\" fontsize=11]\n    edge [fontsize=9]\n\n").toList ++
    ((dotStmts F rules coloring opts iter).flatMap DotStmt.text ++ "\x7d\n".toList)

end

/-! ### Node ids -/

theorem numbered_inj {s t : Text} {n m : Nat} (h : numbered s n = numbered t m) : s = t ∧ n = m :=
  Text.append_toDigits_inj rfl h

/-- A number does not end in a letter. -/
theorem numbered_ne_append_c (s t : Text) (n m : Nat) : numbered s n ≠ numbered t m ++ ['c'] := by
  intro h
  have hne : Nat.toDigits 10 n ≠ [] := Nat.toDigits_ne_nil
  have hlast := congrArg List.getLast? h
  have hdigit := Nat.isDigit_of_mem_toDigits (by decide) (by decide) (List.getLast_mem hne)
  have hc : (Nat.toDigits 10 n).getLast hne = 'c' := by
    simpa [numbered, List.getLast?_eq_some_getLast hne, List.getLast?_cons] using hlast
  rw [hc] at hdigit
  cases hdigit

namespace DotNode

/-- What the id of a node says of it. -/
inductive Key where
  | fact (i : Nat)
  | rule (ci : Nat)
  | synth (functor : Text) (arity : Nat)
  | goal (ci gi : Nat)
  deriving DecidableEq

def key : DotNode → Key
  | fact _ _ i => .fact i
  | rule _ _ ci => .rule ci
  | synth functor arity => .synth (dotId functor) arity
  | cond ci gi | inner ci gi => .goal ci gi

theorem id_head (n : DotNode) : n.id.head? = some (match n with
    | fact .. => 'f' | rule .. => 'r' | synth .. => 's' | cond .. | inner .. => 'c') := by
  cases n <;> rfl

theorem key_of_id {m n : DotNode} (h : m.id = n.id) : m.key = n.key := by
  have hhead := congrArg List.head? h
  rw [id_head, id_head] at hhead
  cases m <;> cases n <;> try cases hhead
  case fact.fact => exact congrArg Key.fact (numbered_inj h).2
  case rule.rule => exact congrArg Key.rule (numbered_inj h).2
  case synth.synth =>
    obtain ⟨hs, rfl⟩ := numbered_inj h
    exact congrArg (Key.synth · _) (List.append_cancel_left hs)
  case cond.cond =>
    obtain ⟨hs, rfl⟩ := numbered_inj h
    exact congrArg (Key.goal · _) (numbered_inj hs).2
  case inner.inner =>
    obtain ⟨hs, rfl⟩ := numbered_inj (List.append_cancel_right h)
    exact congrArg (Key.goal · _) (numbered_inj hs).2
  case cond.inner => exact absurd h (numbered_ne_append_c _ _ _ _)
  case inner.cond => exact absurd h.symm (numbered_ne_append_c _ _ _ _)

end DotNode

/-! ### The statements by what they declare -/

def nodeIds (stmts : List DotStmt) : List Text := stmts.filterMap fun
  | .node n _ _ => some n.id
  | _ => none

def edgeIds (stmts : List DotStmt) : List (DotEdge × Text × Text) := stmts.filterMap fun
  | .edge kind m n => some (kind, m.id, n.id)
  | _ => none

section
variable {φ : Type} (F : FloatText φ) (rules : List (PrologRule φ))

/-- The conditions of the rules, shown or not. -/
def conditions : List DotCondition :=
  (ruleList rules).flatMap fun p => p.1.body.zipIdx.filterMap fun g => conditionOf F p.2 g.2 g.1

/-- A graph that stands for the rules. -/
structure WellFormed (stmts : List DotStmt) : Prop where
  declared : ∀ e ∈ edgeIds stmts, e.2.1 ∈ nodeIds stmts ∧ e.2.2 ∈ nodeIds stmts
  once : (nodeIds stmts).Nodup
  facts : ∀ p ∈ factList rules, (nodeIds stmts).count (factNode p).id = 1
  clauses : ∀ p ∈ ruleList rules, (nodeIds stmts).count (headNode p).id = 1
  chains : ∀ c ∈ conditions F rules, (∃ t, (.chainsTo, c.node.id, t) ∈ edgeIds stmts) ↔
    ∃ p ∈ ruleList rules, termFunctorArity p.1.head = (c.functor, c.arity)
  /-- A chain leads to the only clause of its predicate, or to the group of its clauses. -/
  targets : ∀ c ∈ conditions F rules, ∀ t, (.chainsTo, c.node.id, t) ∈ edgeIds stmts →
    match headByFa rules (c.functor, c.arity) with
    | [p] => t = (headNode p).id
    | _ => t = (DotNode.synth c.functor c.arity).id
  sources : ∀ e ∈ edgeIds stmts, e.1 = .chainsTo → ∃ c ∈ conditions F rules, e.2.1 = c.node.id

/-- No two predicates with a group node have an arity in common and names that are sanitised
to the same one. -/
def GroupsApart : Prop :=
  ∀ k l : Text × Nat, 1 < (headByFa rules k).length → 1 < (headByFa rules l).length →
    k.2 = l.2 → dotId k.1 = dotId l.1 → k = l

end

end Cerebellum.Transpile
