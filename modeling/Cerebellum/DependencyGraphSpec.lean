import Cerebellum.DependencyGraph

/-! The dependency graph stands for the rules: its edges join nodes that are declared, its
chains lead where functors and arities do, and only group nodes can share an id. -/
namespace Cerebellum.Transpile

/-! ### The text -/

/-- An id is an identifier of DOT. -/
theorem DotNode.id_chars (n : DotNode) : ∀ c ∈ n.id, c.isAlphanum ∨ c = '_' := by
  have hnumber : ∀ {s : Text}, (∀ c ∈ s, c.isAlphanum ∨ c = '_') → ∀ k,
      ∀ c ∈ numbered s k, c.isAlphanum ∨ c = '_' := by
    intro s hs k c hc
    rcases List.mem_append.mp hc with hc | hc
    · exact hs c hc
    · rcases List.mem_cons.mp hc with rfl | hc
      · exact .inr rfl
      · have hdigit := Nat.isDigit_of_mem_toDigits (by decide) (by decide) hc
        exact .inl (by simp [Char.isAlphanum, hdigit])
  have hname : ∀ {s : Text} (f : Text), (∀ c ∈ s, c.isAlphanum ∨ c = '_') →
      ∀ c ∈ s ++ dotId f, c.isAlphanum ∨ c = '_' := by
    intro s f hs c hc
    rcases List.mem_append.mp hc with hc | hc
    · exact hs c hc
    · obtain ⟨d, -, rfl⟩ := List.mem_map.mp hc
      split
      · next h => simpa using h
      · exact .inr rfl
  have hword : ∀ s ∈ ["fact_", "rule_", "synth_", "cond"], ∀ c ∈ s.toList,
      c.isAlphanum ∨ c = '_' := by
    intro s hs c hc
    have hall : ["fact_", "rule_", "synth_", "cond"].all fun s => s.toList.all fun c =>
        c.isAlphanum || c == '_' := by decide +kernel
    simpa using List.all_eq_true.mp (List.all_eq_true.mp hall s hs) c hc
  cases n with
  | fact f a i => exact hnumber (hnumber (hname f (hword "fact_" (by simp))) a) i
  | rule f a ci => exact hnumber (hnumber (hname f (hword "rule_" (by simp))) a) ci
  | synth f a => exact hnumber (hname f (hword "synth_" (by simp))) a
  | cond ci gi => exact hnumber (hnumber (hword "cond" (by simp)) ci) gi
  | inner ci gi =>
    intro c hc
    rcases List.mem_append.mp hc with hc | hc
    · exact hnumber (hnumber (hword "cond" (by simp)) ci) gi c hc
    · rw [List.mem_singleton.mp hc]
      decide

/-- A quoted string of DOT up to its closing quote: a backslash keeps what stands behind it. -/
def readQuoted : Text → Option (Text × Text)
  | [] | ['\\'] => none
  | '"' :: u => some ([], u)
  | '\\' :: c :: u => (readQuoted u).map fun p => ('\\' :: c :: p.1, p.2)
  | c :: u => (readQuoted u).map fun p => (c :: p.1, p.2)

/-- No label ends its string early or leaves it open. -/
theorem readQuoted_label (s u : Text) :
    readQuoted (escapeDotLabel s ++ '"' :: u) = some (escapeDotLabel s, u) := by
  induction s with
  | nil => rfl
  | cons c s ih =>
    have hcons : escapeDotLabel (c :: s) =
        (if c = '\\' || c = '"' then ['\\', c] else [c]) ++ escapeDotLabel s := rfl
    rw [hcons]
    split
    · simp [readQuoted, ih]
    · next h =>
      simp only [Bool.or_eq_true, decide_eq_true_eq, not_or] at h
      rw [List.append_assoc, List.singleton_append, readQuoted.eq_def]
      simp [h.1, h.2, ih]

/-! ### The parts of the graph -/

section
variable (stmts stmts' : List DotStmt)

@[simp] theorem nodeIds_append : nodeIds (stmts ++ stmts') = nodeIds stmts ++ nodeIds stmts' :=
  List.filterMap_append

@[simp] theorem edgeIds_append : edgeIds (stmts ++ stmts') = edgeIds stmts ++ edgeIds stmts' :=
  List.filterMap_append

@[simp] theorem nodeIds_blank : nodeIds [.blank] = [] := rfl

@[simp] theorem edgeIds_blank : edgeIds [.blank] = [] := rfl

@[simp] theorem nodeIds_dotSection : nodeIds (dotSection stmts) = nodeIds stmts := by
  unfold dotSection
  split
  · next h => rw [List.isEmpty_iff.mp h]
  · rw [nodeIds_append, nodeIds_blank, List.append_nil]

@[simp] theorem edgeIds_dotSection : edgeIds (dotSection stmts) = edgeIds stmts := by
  unfold dotSection
  split
  · next h => rw [List.isEmpty_iff.mp h]
  · rw [edgeIds_append, edgeIds_blank, List.append_nil]

theorem nodeIds_flatMap {α : Type*} (f : α → List DotStmt) (l : List α) :
    nodeIds (l.flatMap f) = l.flatMap fun x => nodeIds (f x) := List.filterMap_flatMap

theorem edges_map {α : Type*} (kind : DotEdge) (f g : α → DotNode) (l : List α) :
    nodeIds (l.map fun x => .edge kind (f x) (g x)) = [] ∧
      edgeIds (l.map fun x => .edge kind (f x) (g x)) =
        l.map fun x => (kind, (f x).id, (g x).id) := by
  simp [nodeIds, edgeIds]

theorem nodes_map {α : Type*} (node : α → DotNode) (label : α → Text) (fill : α → String)
    (l : List α) : nodeIds (l.map fun x => .node (node x) (label x) (fill x)) =
        l.map (fun x => (node x).id) ∧
      edgeIds (l.map fun x => .node (node x) (label x) (fill x)) = [] := by
  simp [nodeIds, edgeIds]

end

section Parts
variable {φ : Type} (F : FloatText φ) (rules : List (PrologRule φ)) (coloring : Option NodeColoring)

/-- What a goal adds: the condition it stands for is shown with an edge to it, or it is bridged
alone; its chain leads where its functor and arity do. -/
theorem goalDot_cases (p : PrologRule φ × Nat) (gi : Nat) (goal : BodyGoal φ) :
    (conditionOf F p.2 gi goal = none ∧ goalDot F rules coloring p gi goal = {}) ∨
    ∃ c, conditionOf F p.2 gi goal = some c ∧
      (goalDot F rules coloring p gi goal).chains =
        (resolveChainTarget rules (c.functor, c.arity)).toList.map (c.node, ·) ∧
      (∀ e ∈ (goalDot F rules coloring p gi goal).bridges,
        e.1 = headNode p ∧ e.2 ∈ produces F rules c.label) ∧
      ((resolveChainTarget rules (c.functor, c.arity) = none ∧
          (goalDot F rules coloring p gi goal).stmts = [] ∧
          (goalDot F rules coloring p gi goal).conds = []) ∨
        ∃ kind fill, kind ≠ .chainsTo ∧ (goalDot F rules coloring p gi goal).conds = [c] ∧
          (goalDot F rules coloring p gi goal).stmts =
            [.node c.node c.label fill, .edge kind (headNode p) c.node]) := by
  cases hc : conditionOf F p.2 gi goal with
  | none => exact .inl ⟨rfl, by simp [goalDot, hc]⟩
  | some c =>
    refine .inr ⟨c, rfl, ?_⟩
    have hbridges : ∀ e ∈ (produces F rules c.label).map (headNode p, ·),
        e.1 = headNode p ∧ e.2 ∈ produces F rules c.label := by
      intro e he
      obtain ⟨n, hn, rfl⟩ := List.mem_map.mp he
      exact ⟨rfl, hn⟩
    simp only [goalDot, hc]
    split
    · exact ⟨rfl, (fun e he => nomatch he), .inr ⟨.collects, _, by decide, rfl, rfl⟩⟩
    · split
      · rename_i halone
        have htarget : resolveChainTarget rules (c.functor, c.arity) = none :=
          Option.isNone_iff_eq_none.mp (Bool.and_eq_true_iff.mp halone).2
        rw [htarget]
        exact ⟨rfl, hbridges, .inl ⟨rfl, rfl, rfl⟩⟩
      · exact ⟨rfl, hbridges, .inr ⟨.requires, _, by decide, rfl, rfl⟩⟩

theorem mem_headByFa {fa : Text × Nat} {p : PrologRule φ × Nat} :
    p ∈ headByFa rules fa ↔ p ∈ ruleList rules ∧ termFunctorArity p.1.head = fa := by
  simp [headByFa]

theorem mem_multi {fa : Text × Nat} : fa ∈ multi rules ↔ 1 < (headByFa rules fa).length := by
  rw [multi, List.mem_mergeSort, List.mem_filter, List.mem_dedup, decide_eq_true_iff,
    and_iff_right_iff_imp]
  intro h
  obtain ⟨p, hp⟩ := List.exists_mem_of_length_pos (Nat.lt_of_succ_lt h)
  obtain ⟨hmem, rfl⟩ := (mem_headByFa rules).mp hp
  exact List.mem_map_of_mem hmem

theorem multi_nodup : (multi rules).Nodup :=
  (List.mergeSort_perm _ _).nodup_iff.mpr ((List.nodup_dedup _).filter _)

/-- Where a functor and an arity lead. -/
theorem resolveChainTarget_cases (fa : Text × Nat) :
    (headByFa rules fa = [] ∧ resolveChainTarget rules fa = none) ∨
      (∃ p, headByFa rules fa = [p] ∧ resolveChainTarget rules fa = some (headNode p)) ∨
      (1 < (headByFa rules fa).length ∧
        resolveChainTarget rules fa = some (.synth fa.1 fa.2)) := by
  have hmulti : fa ∈ multi rules ↔ 1 < (headByFa rules fa).length := mem_multi rules
  unfold resolveChainTarget
  match h : headByFa rules fa with
  | [] => exact .inl ⟨rfl, rfl⟩
  | [p] => exact .inr (.inl ⟨p, rfl, rfl⟩)
  | p :: q :: ps =>
    rw [h] at hmulti
    have hlength : 1 < (p :: q :: ps).length := by simp
    exact .inr (.inr ⟨hlength, by simp only [hmulti.mpr hlength, if_true]⟩)

theorem target_exists (fa : Text × Nat) : (∃ n, resolveChainTarget rules fa = some n) ↔
    ∃ p ∈ ruleList rules, termFunctorArity p.1.head = fa := by
  simp only [← mem_headByFa]
  rcases resolveChainTarget_cases rules fa with ⟨hnil, hnone⟩ | ⟨p, hp, hsome⟩ | ⟨hmulti, hsome⟩
  · simp [hnil, hnone]
  · simp [hp, hsome]
  · obtain ⟨p, hp⟩ := List.exists_mem_of_length_pos (Nat.lt_of_succ_lt hmulti)
    exact iff_of_true ⟨_, hsome⟩ ⟨p, hp⟩

theorem mem_goalDots {d : GoalDot} : d ∈ goalDots F rules coloring ↔
    ∃ p ∈ ruleList rules, ∃ g ∈ p.1.body.zipIdx, goalDot F rules coloring p g.2 g.1 = d := by
  simp only [goalDots, List.mem_flatMap, List.mem_map]

/-- The nodes of the graph. -/
def dotNodes : List DotNode :=
  (factList rules).map factNode ++ ((ruleList rules).map headNode ++
    ((multi rules).map (fun fa => .synth fa.1 fa.2) ++
      (allConds F rules coloring).map DotCondition.node))

theorem headNode_mem {p : PrologRule φ × Nat} (h : p ∈ ruleList rules) :
    headNode p ∈ dotNodes F rules coloring :=
  List.mem_append_right _ (List.mem_append_left _ (List.mem_map_of_mem h))

theorem synth_mem {fa : Text × Nat} (h : fa ∈ multi rules) :
    .synth fa.1 fa.2 ∈ dotNodes F rules coloring :=
  List.mem_append_right _ (List.mem_append_right _ (List.mem_append_left _
    (List.mem_map_of_mem (f := fun fa : Text × Nat => DotNode.synth fa.1 fa.2) h)))

theorem condNode_mem {c : DotCondition} (h : c ∈ allConds F rules coloring) :
    c.node ∈ dotNodes F rules coloring :=
  List.mem_append_right _ (List.mem_append_right _ (List.mem_append_right _
    (List.mem_map_of_mem h)))

theorem factNode_mem {p : PrologRule φ × Nat} (h : p ∈ factList rules) :
    factNode p ∈ dotNodes F rules coloring := List.mem_append_left _ (List.mem_map_of_mem h)

theorem target_mem {fa : Text × Nat} {n : DotNode} (h : resolveChainTarget rules fa = some n) :
    n ∈ dotNodes F rules coloring := by
  rcases resolveChainTarget_cases rules fa with ⟨-, hnone⟩ | ⟨p, hp, hsome⟩ | ⟨hmulti, hsome⟩
  · rw [hnone] at h
    cases h
  · rw [hsome] at h
    cases h
    exact headNode_mem F rules coloring ((mem_headByFa rules).mp (by rw [hp]; simp)).1
  · rw [hsome] at h
    cases h
    exact synth_mem F rules coloring ((mem_multi rules).mpr hmulti)

theorem produces_mem {label : Text} {n : DotNode} (h : n ∈ produces F rules label) :
    n ∈ dotNodes F rules coloring := by
  obtain ⟨p, hp, hn⟩ := List.mem_flatMap.mp h
  obtain ⟨t, -, ht⟩ := List.mem_filterMap.mp hn
  split at ht
  · cases ht
    exact headNode_mem F rules coloring hp
  · cases ht

variable (opts : DotOptions) (iter : LabelOrder)

theorem mem_edgeIds {stmts : List DotStmt} {k : DotEdge} {s t : Text} :
    (k, s, t) ∈ edgeIds stmts ↔ ∃ m n, .edge k m n ∈ stmts ∧ m.id = s ∧ n.id = t := by
  rw [edgeIds, List.mem_filterMap]
  constructor
  · rintro ⟨stmt, hstmt, h⟩
    cases stmt with
    | edge k' m n =>
      cases h
      exact ⟨m, n, hstmt, rfl, rfl⟩
    | node n label fill => cases h
    | blank => cases h
  · rintro ⟨m, n, hstmt, rfl, rfl⟩
    exact ⟨_, hstmt, rfl⟩

/-- A list of edges declares nothing. -/
theorem nodeIds_edges {stmts : List DotStmt} (h : ∀ s ∈ stmts, ∃ k m n, s = .edge k m n) :
    nodeIds stmts = [] := by
  rw [nodeIds, List.filterMap_eq_nil_iff]
  intro s hs
  obtain ⟨k, m, n, rfl⟩ := h s hs
  rfl

theorem nodeIds_groupStmts : nodeIds (groupStmts rules coloring) =
    (multi rules).map fun fa => (DotNode.synth fa.1 fa.2).id := by
  rw [groupStmts, nodeIds_flatMap, List.map_eq_flatMap]
  refine List.flatMap_congr fun fa _ => ?_
  simp [nodeIds]

theorem nodeIds_goals : nodeIds ((goalDots F rules coloring).flatMap GoalDot.stmts) =
    (allConds F rules coloring).map fun c => c.node.id := by
  rw [allConds, nodeIds_flatMap, List.map_flatMap]
  refine List.flatMap_congr fun d hd => ?_
  obtain ⟨p, -, g, -, rfl⟩ := (mem_goalDots F rules coloring).mp hd
  rcases goalDot_cases F rules coloring p g.2 g.1 with ⟨-, h⟩ | ⟨c, -, -, -, h⟩
  · rw [h]
    rfl
  · rcases h with ⟨-, hstmts, hconds⟩ | ⟨kind, fill, -, hconds, hstmts⟩
    · rw [hstmts, hconds]
      rfl
    · rw [hstmts, hconds]
      rfl

theorem nodeIds_dotStmts : nodeIds (dotStmts F rules coloring opts iter) =
    (dotNodes F rules coloring).map DotNode.id := by
  have hfacts := (nodes_map factNode (fun p => renderPrologTerm F p.1.head)
    (fun p => nodeFillColor (termFunctorArity p.1.head).1 coloring "#d4edda") (factList rules)).1
  have hheads := (nodes_map headNode (fun p => renderPrologTerm F p.1.head)
    (fun p => nodeFillColor (termFunctorArity p.1.head).1 coloring "#cce5ff") (ruleList rules)).1
  have hsatisfies : nodeIds (satisfiesStmts F rules coloring) = [] := by
    refine nodeIds_edges fun s hs => ?_
    obtain ⟨p, -, hs⟩ := List.mem_flatMap.mp hs
    obtain ⟨c, -, hc⟩ := List.mem_filterMap.mp hs
    split at hc
    · cases hc
      exact ⟨_, _, _, rfl⟩
    · cases hc
  have hshared : nodeIds (sharedStmts F rules coloring iter) = [] := by
    refine nodeIds_edges fun s hs => ?_
    obtain ⟨label, -, hs⟩ := List.mem_flatMap.mp hs
    obtain ⟨e, -, rfl⟩ := List.mem_map.mp hs
    exact ⟨_, _, _, rfl⟩
  have hpairs : ∀ (kind : DotEdge) (l : List (DotNode × DotNode)),
      nodeIds (l.map fun e => .edge kind e.1 e.2) = [] := fun kind l =>
    (edges_map kind Prod.fst Prod.snd l).1
  have hopts : nodeIds (if opts.linkSharedConditions then
      dotSection (sharedStmts F rules coloring iter) else []) = [] := by
    split
    · rw [nodeIds_dotSection, hshared]
    · rfl
  simp only [dotStmts, nodeIds_append, nodeIds_dotSection, nodeIds_blank, hpairs, hsatisfies,
    hopts, nodeIds_groupStmts, nodeIds_goals, factStmts, headStmts, hfacts, hheads, dotNodes,
    List.map_append, List.map_map, List.append_nil, List.nil_append, List.append_assoc,
    Function.comp_def]

theorem edge_mem_dotSection {stmts : List DotStmt} {k : DotEdge} {m n : DotNode} :
    .edge k m n ∈ dotSection stmts ↔ .edge k m n ∈ stmts := by
  unfold dotSection
  split
  · next h => rw [List.isEmpty_iff.mp h]
  · simp

theorem edge_mem_map {kind k : DotEdge} {m n : DotNode} {l : List (DotNode × DotNode)} :
    .edge k m n ∈ (l.map fun e => DotStmt.edge kind e.1 e.2) ↔ k = kind ∧ (m, n) ∈ l := by
  simp only [List.mem_map, DotStmt.edge.injEq, Prod.exists]
  constructor
  · rintro ⟨a, b, h, rfl, rfl, rfl⟩
    exact ⟨rfl, h⟩
  · rintro ⟨rfl, h⟩
    exact ⟨m, n, h, rfl, rfl, rfl⟩

/-- The edges of the graph, one kind after the other. -/
theorem edge_mem {k : DotEdge} {m n : DotNode} :
    .edge k m n ∈ dotStmts F rules coloring opts iter ↔
      .edge k m n ∈ groupStmts rules coloring ∨
      .edge k m n ∈ (goalDots F rules coloring).flatMap GoalDot.stmts ∨
      (k = .assertBridge ∧ (m, n) ∈ (goalDots F rules coloring).flatMap GoalDot.bridges) ∨
      (k = .chainsTo ∧ (m, n) ∈ (goalDots F rules coloring).flatMap GoalDot.chains) ∨
      .edge k m n ∈ satisfiesStmts F rules coloring ∨
      (opts.linkSharedConditions ∧ .edge k m n ∈ sharedStmts F rules coloring iter) := by
  have hfacts : .edge k m n ∉ factStmts F rules coloring := by simp [factStmts]
  have hheads : .edge k m n ∉ headStmts F rules coloring := by simp [headStmts]
  have hblank : .edge k m n ∉ [DotStmt.blank] := by simp
  have hopts : .edge k m n ∈ (if opts.linkSharedConditions then
      dotSection (sharedStmts F rules coloring iter) else []) ↔
      opts.linkSharedConditions ∧ .edge k m n ∈ sharedStmts F rules coloring iter := by
    split <;> simp [*, edge_mem_dotSection]
  simp only [dotStmts, List.mem_append, edge_mem_dotSection, edge_mem_map, hopts, hfacts, hheads,
    hblank, false_or, or_false, or_assoc]

theorem mem_conditions {c : DotCondition} : c ∈ conditions F rules ↔
    ∃ p ∈ ruleList rules, ∃ g ∈ p.1.body.zipIdx, conditionOf F p.2 g.2 g.1 = some c := by
  simp only [conditions, List.mem_flatMap, List.mem_filterMap]

/-- The chains lead from the conditions to where their functors and arities do. -/
theorem mem_chains {m n : DotNode} :
    (m, n) ∈ (goalDots F rules coloring).flatMap GoalDot.chains ↔
      ∃ c ∈ conditions F rules, c.node = m ∧
        resolveChainTarget rules (c.functor, c.arity) = some n := by
  constructor
  · intro h
    obtain ⟨d, hd, h⟩ := List.mem_flatMap.mp h
    obtain ⟨p, hp, g, hg, rfl⟩ := (mem_goalDots F rules coloring).mp hd
    rcases goalDot_cases F rules coloring p g.2 g.1 with ⟨-, he⟩ | ⟨c, hc, hchains, -⟩
    · rw [he] at h
      cases h
    · rw [hchains] at h
      obtain ⟨n', hn, h⟩ := List.mem_map.mp h
      cases h
      exact ⟨c, (mem_conditions F rules).mpr ⟨p, hp, g, hg, hc⟩, rfl, Option.mem_toList.mp hn⟩
  · rintro ⟨c, hc, rfl, hn⟩
    obtain ⟨p, hp, g, hg, hgoal⟩ := (mem_conditions F rules).mp hc
    refine List.mem_flatMap.mpr ⟨_, (mem_goalDots F rules coloring).mpr ⟨p, hp, g, hg, rfl⟩, ?_⟩
    rcases goalDot_cases F rules coloring p g.2 g.1 with ⟨hnone, -⟩ | ⟨c', hc', hchains, -⟩
    · rw [hnone] at hgoal
      cases hgoal
    · rw [hgoal] at hc'
      cases hc'
      rw [hchains, hn]
      simp

/-- A condition that leads somewhere is shown. -/
theorem shown_of_target {c : DotCondition} {n : DotNode} (hc : c ∈ conditions F rules)
    (h : resolveChainTarget rules (c.functor, c.arity) = some n) :
    c ∈ allConds F rules coloring := by
  obtain ⟨p, hp, g, hg, hgoal⟩ := (mem_conditions F rules).mp hc
  refine List.mem_flatMap.mpr ⟨_, (mem_goalDots F rules coloring).mpr ⟨p, hp, g, hg, rfl⟩, ?_⟩
  rcases goalDot_cases F rules coloring p g.2 g.1 with ⟨hnone, -⟩ | ⟨c', hc', -, -, hshow⟩
  · rw [hnone] at hgoal
    cases hgoal
  · rw [hgoal] at hc'
    cases hc'
    rcases hshow with ⟨hnone, -⟩ | ⟨-, -, -, hconds, -⟩
    · rw [hnone] at h
      cases h
    · rw [hconds]
      simp

theorem group_declared {k : DotEdge} {m n : DotNode} (h : .edge k m n ∈ groupStmts rules coloring) :
    k = .clause ∧ m ∈ dotNodes F rules coloring ∧ n ∈ dotNodes F rules coloring := by
  obtain ⟨fa, hfa, h⟩ := List.mem_flatMap.mp h
  rcases List.mem_cons.mp h with h | h
  · cases h
  · obtain ⟨p, hp, h⟩ := List.mem_map.mp h
    cases h
    exact ⟨rfl, synth_mem F rules coloring hfa,
      headNode_mem F rules coloring ((mem_headByFa rules).mp hp).1⟩

theorem goal_declared {k : DotEdge} {m n : DotNode}
    (h : .edge k m n ∈ (goalDots F rules coloring).flatMap GoalDot.stmts) :
    k ≠ .chainsTo ∧ m ∈ dotNodes F rules coloring ∧ n ∈ dotNodes F rules coloring := by
  obtain ⟨d, hd, h⟩ := List.mem_flatMap.mp h
  obtain ⟨p, hp, g, -, rfl⟩ := (mem_goalDots F rules coloring).mp hd
  rcases goalDot_cases F rules coloring p g.2 g.1 with ⟨-, he⟩ | ⟨c, -, -, -, hshow⟩
  · rw [he] at h
    cases h
  · rcases hshow with ⟨-, hstmts, -⟩ | ⟨kind, fill, hkind, hconds, hstmts⟩
    · rw [hstmts] at h
      cases h
    · rw [hstmts] at h
      simp only [List.mem_cons, DotStmt.edge.injEq, List.not_mem_nil, or_false, reduceCtorEq,
        false_or] at h
      obtain ⟨rfl, rfl, rfl⟩ := h
      have hc : c ∈ allConds F rules coloring :=
        List.mem_flatMap.mpr ⟨_, hd, by rw [hconds]; simp⟩
      exact ⟨hkind, headNode_mem F rules coloring hp, condNode_mem F rules coloring hc⟩

theorem bridge_declared {m n : DotNode}
    (h : (m, n) ∈ (goalDots F rules coloring).flatMap GoalDot.bridges) :
    m ∈ dotNodes F rules coloring ∧ n ∈ dotNodes F rules coloring := by
  obtain ⟨d, hd, h⟩ := List.mem_flatMap.mp h
  obtain ⟨p, hp, g, -, rfl⟩ := (mem_goalDots F rules coloring).mp hd
  rcases goalDot_cases F rules coloring p g.2 g.1 with ⟨-, he⟩ | ⟨c, -, -, hbridges, -⟩
  · rw [he] at h
    cases h
  · obtain ⟨hfrom, hto⟩ := hbridges _ h
    simp only at hfrom hto
    rw [hfrom]
    exact ⟨headNode_mem F rules coloring hp, produces_mem F rules coloring hto⟩

theorem satisfies_declared {k : DotEdge} {m n : DotNode}
    (h : .edge k m n ∈ satisfiesStmts F rules coloring) :
    k = .satisfies ∧ m ∈ dotNodes F rules coloring ∧ n ∈ dotNodes F rules coloring := by
  obtain ⟨p, hp, h⟩ := List.mem_flatMap.mp h
  obtain ⟨c, hc, h⟩ := List.mem_filterMap.mp h
  split at h
  · cases h
    exact ⟨rfl, factNode_mem F rules coloring hp, condNode_mem F rules coloring hc⟩
  · cases h

theorem shared_declared {k : DotEdge} {m n : DotNode}
    (h : .edge k m n ∈ sharedStmts F rules coloring iter) :
    k = .shared ∧ m ∈ dotNodes F rules coloring ∧ n ∈ dotNodes F rules coloring := by
  obtain ⟨label, -, h⟩ := List.mem_flatMap.mp h
  obtain ⟨⟨x, y⟩, he, h⟩ := List.mem_map.mp h
  cases h
  have hids : ∀ x ∈ ((allConds F rules coloring).filter fun c => c.label = label).map
      DotCondition.node, x ∈ dotNodes F rules coloring := by
    intro x hx
    obtain ⟨c, hc, rfl⟩ := List.mem_map.mp hx
    exact condNode_mem F rules coloring (List.mem_filter.mp hc).1
  obtain ⟨hm, hn⟩ := List.of_mem_zip he
  exact ⟨rfl, hids _ hm, hids _ (List.mem_of_mem_tail hn)⟩

theorem edge_declared {k : DotEdge} {m n : DotNode}
    (h : .edge k m n ∈ dotStmts F rules coloring opts iter) :
    m ∈ dotNodes F rules coloring ∧ n ∈ dotNodes F rules coloring := by
  rcases (edge_mem F rules coloring opts iter).mp h with h | h | ⟨-, h⟩ | ⟨-, h⟩ | h | ⟨-, h⟩
  · exact (group_declared F rules coloring h).2
  · exact (goal_declared F rules coloring h).2
  · exact bridge_declared F rules coloring h
  · obtain ⟨c, hc, rfl, hn⟩ := (mem_chains F rules coloring).mp h
    exact ⟨condNode_mem F rules coloring (shown_of_target F rules coloring hc hn),
      target_mem F rules coloring hn⟩
  · exact (satisfies_declared F rules coloring h).2
  · exact (shared_declared F rules coloring iter h).2

/-- The chains among the edges. -/
theorem chain_mem {m n : DotNode} : .edge .chainsTo m n ∈ dotStmts F rules coloring opts iter ↔
    ∃ c ∈ conditions F rules, c.node = m ∧
      resolveChainTarget rules (c.functor, c.arity) = some n := by
  rw [← mem_chains F rules coloring, edge_mem]
  constructor
  · rintro (h | h | ⟨h, -⟩ | ⟨-, h⟩ | h | ⟨-, h⟩)
    · cases (group_declared F rules coloring h).1
    · exact absurd rfl (goal_declared F rules coloring h).1
    · cases h
    · exact h
    · cases (satisfies_declared F rules coloring h).1
    · cases (shared_declared F rules coloring iter h).1
  · exact fun h => .inr (.inr (.inr (.inl ⟨rfl, h⟩)))

end Parts

/-! ### No two nodes with one id -/

section Ids

theorem zipIdx_pairwise {α : Type*} (l : List α) : l.zipIdx.Pairwise fun a b => a.2 ≠ b.2 := by
  have h : (l.zipIdx.map Prod.snd).Nodup := by
    rw [List.zipIdx_map_snd]
    exact List.nodup_range'
  exact List.pairwise_map.mp h

/-- Nodes with different keys have different ids. -/
theorem nodup_ids {α : Type*} {node : α → DotNode} {l : List α}
    (h : l.Pairwise fun x y => (node x).key ≠ (node y).key) :
    (l.map fun x => (node x).id).Nodup :=
  List.pairwise_map.mpr (h.imp fun hne hid => hne (DotNode.key_of_id hid))

variable {φ : Type} (F : FloatText φ) (rules : List (PrologRule φ)) (coloring : Option NodeColoring)

theorem factIds_nodup : ((factList rules).map fun p => (factNode p).id).Nodup := by
  refine nodup_ids (((zipIdx_pairwise rules).filter _).imp fun hne hkey => hne ?_)
  simpa [factNode, DotNode.key] using hkey

theorem headIds_nodup : ((ruleList rules).map fun p => (headNode p).id).Nodup := by
  refine nodup_ids ((zipIdx_pairwise _).imp fun hne hkey => hne ?_)
  simpa [headNode, DotNode.key] using hkey

theorem conditionOf_key {ci gi : Nat} {goal : BodyGoal φ} {c : DotCondition}
    (h : conditionOf F ci gi goal = some c) : c.node.key = .goal ci gi := by
  unfold conditionOf at h
  split at h
  · simp only at h
    split at h
    · cases h
    · cases h
      rfl
  · simp only at h
    split at h
    · cases h
    · cases h
      rfl

theorem goalDot_key {p : PrologRule φ × Nat} {gi : Nat} {goal : BodyGoal φ} :
    ((goalDot F rules coloring p gi goal).conds).length ≤ 1 ∧
      ∀ c ∈ (goalDot F rules coloring p gi goal).conds, c.node.key = .goal p.2 gi := by
  rcases goalDot_cases F rules coloring p gi goal with ⟨-, h⟩ | ⟨c, hc, -, -, h⟩
  · rw [h]
    exact ⟨Nat.zero_le 1, fun c hc => by cases hc⟩
  · rcases h with ⟨-, -, hconds⟩ | ⟨-, -, -, hconds, -⟩
    · rw [hconds]
      exact ⟨Nat.zero_le 1, fun c hc => by cases hc⟩
    · rw [hconds]
      refine ⟨Nat.le_refl 1, fun c' hc' => ?_⟩
      rw [List.mem_singleton.mp hc']
      exact conditionOf_key F hc

theorem condIds_nodup : ((allConds F rules coloring).map fun c => c.node.id).Nodup := by
  refine nodup_ids ?_
  have hconds : allConds F rules coloring = (ruleList rules).flatMap fun p =>
      p.1.body.zipIdx.flatMap fun g => (goalDot F rules coloring p g.2 g.1).conds := by
    simp only [allConds, goalDots, List.flatMap_assoc, List.flatMap_map]
  rw [hconds, List.pairwise_flatMap]
  refine ⟨fun p _ => List.pairwise_flatMap.mpr ⟨fun g _ => ?_, ?_⟩, ?_⟩
  · -- a goal shows one condition at most
    match h : (goalDot F rules coloring p g.2 g.1).conds with
    | [] => exact List.Pairwise.nil
    | [c] => exact List.pairwise_singleton _ c
    | c :: d :: cs =>
      have hlength : (goalDot F rules coloring p g.2 g.1).conds.length ≤ 1 :=
        (goalDot_key F rules coloring).1
      rw [h] at hlength
      simp at hlength
  · refine (zipIdx_pairwise p.1.body).imp fun {g g'} hne c hc d hd hkey => hne ?_
    rw [(goalDot_key F rules coloring).2 c hc, (goalDot_key F rules coloring).2 d hd] at hkey
    exact (DotNode.Key.goal.inj hkey).2
  · refine (zipIdx_pairwise _).imp fun {p q} hne c hc d hd hkey => hne ?_
    obtain ⟨g, -, hc⟩ := List.mem_flatMap.mp hc
    obtain ⟨g', -, hd⟩ := List.mem_flatMap.mp hd
    rw [(goalDot_key F rules coloring).2 c hc, (goalDot_key F rules coloring).2 d hd] at hkey
    exact (DotNode.Key.goal.inj hkey).1

theorem groupIds_nodup : ((multi rules).map fun fa => (DotNode.synth fa.1 fa.2).id).Nodup ↔
    GroupsApart rules := by
  constructor
  · intro h k l hk hl harity hname
    refine List.inj_on_of_nodup_map h ((mem_multi rules).mpr hk) ((mem_multi rules).mpr hl) ?_
    simp only [DotNode.id, harity, hname]
  · intro h
    refine (multi_nodup rules).map_on fun k hk l hl hid => ?_
    have hkey := DotNode.key_of_id hid
    simp only [DotNode.key, DotNode.Key.synth.injEq] at hkey
    exact h k l ((mem_multi rules).mp hk) ((mem_multi rules).mp hl) hkey.2 hkey.1

variable (opts : DotOptions) (iter : LabelOrder)

theorem disjoint_ids {α β : Type*} {f : α → DotNode} {g : β → DotNode} {l : List α} {m : List β}
    (h : ∀ x ∈ l, ∀ y ∈ m, (f x).key ≠ (g y).key) :
    List.Disjoint (l.map fun x => (f x).id) (m.map fun y => (g y).id) := by
  intro i hi hi'
  obtain ⟨x, hx, rfl⟩ := List.mem_map.mp hi
  obtain ⟨y, hy, hid⟩ := List.mem_map.mp hi'
  exact h x hx y hy (DotNode.key_of_id hid.symm)

theorem allConds_key {c : DotCondition} (h : c ∈ allConds F rules coloring) :
    ∃ ci gi, c.node.key = .goal ci gi := by
  obtain ⟨d, hd, hc⟩ := List.mem_flatMap.mp h
  obtain ⟨p, -, g, -, rfl⟩ := (mem_goalDots F rules coloring).mp hd
  exact ⟨p.2, g.2, (goalDot_key F rules coloring).2 c hc⟩

theorem nodeIds_eq : nodeIds (dotStmts F rules coloring opts iter) =
    (factList rules).map (fun p => (factNode p).id) ++
      ((ruleList rules).map (fun p => (headNode p).id) ++
        ((multi rules).map (fun fa => (DotNode.synth fa.1 fa.2).id) ++
          (allConds F rules coloring).map fun c => c.node.id)) := by
  simp only [nodeIds_dotStmts, dotNodes, List.map_append, List.map_map, Function.comp_def]

theorem groupIds_disjoint : List.Disjoint
    ((multi rules).map fun fa => (DotNode.synth fa.1 fa.2).id)
    ((allConds F rules coloring).map fun c => c.node.id) := by
  refine disjoint_ids fun fa _ c hc hkey => ?_
  obtain ⟨ci, gi, hgoal⟩ := allConds_key F rules coloring hc
  rw [hgoal] at hkey
  cases hkey

theorem headIds_disjoint : List.Disjoint ((ruleList rules).map fun p => (headNode p).id)
    ((multi rules).map (fun fa => (DotNode.synth fa.1 fa.2).id) ++
      (allConds F rules coloring).map fun c => c.node.id) := by
  rw [List.disjoint_append_right]
  constructor
  · exact disjoint_ids fun p _ fa _ hkey => by cases hkey
  · refine disjoint_ids fun p _ c hc hkey => ?_
    obtain ⟨ci, gi, hgoal⟩ := allConds_key F rules coloring hc
    rw [hgoal] at hkey
    cases hkey

theorem factIds_disjoint : List.Disjoint ((factList rules).map fun p => (factNode p).id)
    ((ruleList rules).map (fun p => (headNode p).id) ++
      ((multi rules).map (fun fa => (DotNode.synth fa.1 fa.2).id) ++
        (allConds F rules coloring).map fun c => c.node.id)) := by
  rw [List.disjoint_append_right, List.disjoint_append_right]
  refine ⟨?_, ?_, ?_⟩
  · exact disjoint_ids fun p _ q _ hkey => by cases hkey
  · exact disjoint_ids fun p _ fa _ hkey => by cases hkey
  · refine disjoint_ids fun p _ c hc hkey => ?_
    obtain ⟨ci, gi, hgoal⟩ := allConds_key F rules coloring hc
    rw [hgoal] at hkey
    cases hkey

/-- Only group nodes can share an id. -/
theorem nodeIds_nodup :
    (nodeIds (dotStmts F rules coloring opts iter)).Nodup ↔ GroupsApart rules := by
  rw [nodeIds_eq, List.nodup_append', List.nodup_append', List.nodup_append', groupIds_nodup]
  exact ⟨fun h => h.2.1.2.1.1, fun h => ⟨factIds_nodup rules, ⟨headIds_nodup rules, ⟨h,
    condIds_nodup F rules coloring, groupIds_disjoint F rules coloring⟩,
    headIds_disjoint F rules coloring⟩, factIds_disjoint F rules coloring⟩⟩

theorem fact_once {p : PrologRule φ × Nat} (h : p ∈ factList rules) :
    (nodeIds (dotStmts F rules coloring opts iter)).count (factNode p).id = 1 := by
  have hmem := List.mem_map_of_mem (f := fun p => (factNode p).id) h
  rw [nodeIds_eq, List.count_append, List.count_eq_one_of_mem (factIds_nodup rules) hmem,
    List.count_eq_zero_of_not_mem fun hrest => factIds_disjoint F rules coloring hmem hrest]

theorem clause_once {p : PrologRule φ × Nat} (h : p ∈ ruleList rules) :
    (nodeIds (dotStmts F rules coloring opts iter)).count (headNode p).id = 1 := by
  have hmem := List.mem_map_of_mem (f := fun p => (headNode p).id) h
  rw [nodeIds_eq, List.count_append, List.count_append,
    List.count_eq_one_of_mem (headIds_nodup rules) hmem,
    List.count_eq_zero_of_not_mem fun hrest => headIds_disjoint F rules coloring hmem hrest,
    List.count_eq_zero_of_not_mem fun hfact => factIds_disjoint F rules coloring hfact
      (List.mem_append_left _ hmem)]

/-- A chain in the text leaves a condition and leads where its functor and arity do. -/
theorem mem_chainIds {s t : Text} :
    (.chainsTo, s, t) ∈ edgeIds (dotStmts F rules coloring opts iter) ↔
      ∃ c ∈ conditions F rules, c.node.id = s ∧
        ∃ n, resolveChainTarget rules (c.functor, c.arity) = some n ∧ n.id = t := by
  rw [mem_edgeIds]
  simp only [chain_mem]
  constructor
  · rintro ⟨m, n, ⟨c, hc, rfl, hn⟩, rfl, rfl⟩
    exact ⟨c, hc, rfl, n, hn, rfl⟩
  · rintro ⟨c, hc, rfl, n, hn, rfl⟩
    exact ⟨c.node, n, ⟨c, hc, rfl, hn⟩, rfl, rfl⟩

/-- A condition is known by the id of its node. -/
theorem conditions_inj {c d : DotCondition} (hc : c ∈ conditions F rules)
    (hd : d ∈ conditions F rules) (h : c.node.id = d.node.id) : c = d := by
  obtain ⟨p, hp, g, hg, hcg⟩ := (mem_conditions F rules).mp hc
  obtain ⟨q, hq, g', hg', hdg⟩ := (mem_conditions F rules).mp hd
  have hkey := DotNode.key_of_id h
  rw [conditionOf_key F hcg, conditionOf_key F hdg] at hkey
  obtain ⟨hci, hgi⟩ := DotNode.Key.goal.inj hkey
  obtain rfl : p = q := by
    obtain ⟨hp, hpi⟩ := List.mem_zipIdx' hp
    obtain ⟨hq, hqi⟩ := List.mem_zipIdx' hq
    refine Prod.ext ?_ hci
    simp only [hpi, hqi, hci]
  obtain rfl : g = g' := by
    obtain ⟨hg, hgi'⟩ := List.mem_zipIdx' hg
    obtain ⟨hg', hgi''⟩ := List.mem_zipIdx' hg'
    refine Prod.ext ?_ hgi
    simp only [hgi', hgi'', hgi]
  rw [hcg] at hdg
  exact Option.some.inj hdg

/-- The graph stands for the rules exactly when the group nodes do not share an id; all else
holds of every rule list. -/
theorem dotStmts_wellFormed_iff :
    WellFormed F rules (dotStmts F rules coloring opts iter) ↔ GroupsApart rules := by
  refine ⟨fun h => (nodeIds_nodup F rules coloring opts iter).mp h.once, fun h => ?_⟩
  have htarget : ∀ c ∈ conditions F rules, ∀ t,
      (.chainsTo, c.node.id, t) ∈ edgeIds (dotStmts F rules coloring opts iter) ↔
        ∃ n, resolveChainTarget rules (c.functor, c.arity) = some n ∧ n.id = t := by
    intro c hc t
    rw [mem_chainIds]
    constructor
    · rintro ⟨d, hd, hid, hn⟩
      rwa [conditions_inj F rules hd hc hid] at hn
    · exact fun hn => ⟨c, hc, rfl, hn⟩
  constructor
  case declared =>
    rintro ⟨k, s, t⟩ he
    obtain ⟨m, n, hedge, rfl, rfl⟩ := mem_edgeIds.mp he
    obtain ⟨hm, hn⟩ := edge_declared F rules coloring opts iter hedge
    rw [nodeIds_dotStmts]
    exact ⟨List.mem_map_of_mem hm, List.mem_map_of_mem hn⟩
  case once => exact (nodeIds_nodup F rules coloring opts iter).mpr h
  case facts => exact fun p hp => fact_once F rules coloring opts iter hp
  case clauses => exact fun p hp => clause_once F rules coloring opts iter hp
  case chains =>
    intro c hc
    rw [← target_exists]
    simp only [htarget c hc]
    exact ⟨fun ⟨_, n, hn, _⟩ => ⟨n, hn⟩, fun ⟨n, hn⟩ => ⟨n.id, n, hn, rfl⟩⟩
  case targets =>
    intro c hc t ht
    obtain ⟨n, hn, rfl⟩ := (htarget c hc t).mp ht
    rcases resolveChainTarget_cases rules (c.functor, c.arity) with
      ⟨-, hnone⟩ | ⟨p, hp, hsome⟩ | ⟨hmulti, hsome⟩
    · rw [hnone] at hn
      cases hn
    · rw [hsome] at hn
      cases hn
      rw [hp]
    · rw [hsome] at hn
      cases hn
      match h : headByFa rules (c.functor, c.arity) with
      | [] => rfl
      | [p] =>
        rw [h] at hmulti
        simp at hmulti
      | p :: q :: ps => rfl
  case sources =>
    rintro ⟨k, s, t⟩ he rfl
    obtain ⟨c, hc, hid, -⟩ := (mem_chainIds F rules coloring opts iter).mp he
    exact ⟨c, hc, hid.symm⟩

/-- Two predicates of two clauses each, whose names differ in a character that is not kept. -/
def lookalikeRules : List (PrologRule Empty) :=
  parsePrologRules noFloats "'a-b' :- p. 'a-b' :- q. a_b :- p. a_b :- q.".toList

theorem lookalikes_share_group : ¬ ∀ (rules : List (PrologRule Empty)) (coloring : Option NodeColoring)
    (opts : DotOptions) (iter : LabelOrder),
    WellFormed noFloats rules (dotStmts noFloats rules coloring opts iter) := by
  intro h
  have hwell := h lookalikeRules none {} ⟨id, fun l => List.Perm.refl l⟩
  have hapart := (nodeIds_nodup noFloats lookalikeRules none _ _).mp hwell.once
  have heq := hapart ("a-b".toList, 0) ("a_b".toList, 0) (by decide +kernel) (by decide +kernel)
    rfl (by decide)
  exact absurd heq (by decide)

end Ids
end Cerebellum.Transpile
