import Cerebellum.CawShapes

/-! What the parser makes of a node of the derivation, and when it says what the node says. -/
namespace Cerebellum.Caw
open Peg

/-- The parser keeps no argument, no second method of a chain, and no call on anything but a
name. -/
def Kept (n : Node Rule) : Bool :=
  match n.rule with
  | .argList => false
  | .agentCall => n.inner.length ≤ 2
  | .primary => n.inner.head?.any (·.rule = .identifier)
  | _ => true

def AllKept (n : Node Rule) : Prop := ∀ m, m.Within n → Kept m

theorem allKept_iff {r : Rule} {s t : Pos} {ns : List (Node Rule)} :
    AllKept (.mk r s t ns) ↔ Kept (.mk r s t ns) ∧ ∀ x ∈ ns, AllKept x := by
  constructor
  · intro h
    exact ⟨h _ (.self _), fun x hx m hm => h m (.inside hx hm)⟩
  · rintro ⟨hself, hinner⟩ m hm
    rcases Node.within_iff.mp hm with rfl | ⟨x, hx, hm⟩
    · exact hself
    · exact hinner x hx m hm

/-- Below these rules nothing is called. -/
def callsNothing : Rule → Bool
  | .typeDecl | .typeExpr | .vectorOrFuncOrRecordOrPrim | .vectorType | .functionType | .recordType
  | .fieldType | .primitiveType | .typeExprList | .agentDecl | .agentInit | .domainPath
  | .identifier | .stringLiteral => true
  | _ => false

theorem kept_of_callsNothing {n : Node Rule} (h : callsNothing n.rule) : Kept n := by
  obtain ⟨r, s, t, ns⟩ := n
  cases r <;> first | rfl | cases h

theorem allKept_of_callsNothing {n : Node Rule} {r : Rule} (h : n.Of grammar r)
    (hr : callsNothing r) : AllKept n := by
  obtain ⟨s, t, ns, rfl, hf⟩ := of_inner h
  have hclosed : ∀ r, callsNothing r → (grammar.body r).callsIn callsNothing := by
    intro r hr
    cases r <;> first | rfl | cases hr
  intro m hm
  refine kept_of_callsNothing ?_
  rcases Node.within_iff.mp hm with rfl | ⟨x, hx, hm⟩
  · exact hr
  · exact Fits.closed hclosed (hclosed _ hr) hf hx hm

/-! ### Results that say something -/

/-- There is a result, and it says this. -/
def Says {α β : Type} (say : α → β) (r : CawResult α) (b : β) : Prop := ∃ a, r = .ok a ∧ say a = b

section Says
variable {α β γ α' β' γ' : Type} {say : α → α'} {say' : β → β'} {both : γ → γ'}

@[simp] theorem says_ok {a : α} {b : α'} : Says say (.ok a) b ↔ say a = b := by
  simp [Says]

@[simp] theorem says_error {e : CawError} {b : α'} : ¬ Says say (.error e) b := by
  simp [Says]

@[simp] theorem says_parseError {e : String} {b : α'} : ¬ Says say (parseError e) b := says_error

@[simp] theorem says_map {f : β → α} {r : CawResult β} {b : α'} :
    Says say (r.map f) b ↔ Says (say ∘ f) r b := by
  cases r <;> simp [Except.map]

/-- Two results one after the other say what the two say. -/
theorem says_bind {r : CawResult α} {r' : CawResult β} {f : α → β → γ} {u : α'} {v : β'} {w : γ'}
    (hf : ∀ a b, both (f a b) = w ↔ say a = u ∧ say' b = v) :
    Says both (do let a ← r; let b ← r'; .ok (f a b)) w ↔ Says say r u ∧ Says say' r' v := by
  cases r with
  | error e => simp [bind, Except.bind]
  | ok a =>
    cases r' with
    | error e => simp [bind, Except.bind]
    | ok b => simpa [bind, Except.bind] using hf a b

end Says

/-! ### Types -/

/-- A node whose type the parser reads as it stands. -/
def ReadsType (n : Node Rule) : Prop :=
  Says TypeExpr.said (parseSingleTypeExpr (pair grammar n)) (sayType n)

theorem parseUnions_says {ts : List (Node Rule)}
    (h : ∀ t ∈ ts, t.Of grammar .vectorOrFuncOrRecordOrPrim ∧ ReadsType t) (result : TypeExpr) :
    Says TypeExpr.said (parseUnions result (ts.map (pair grammar)))
      (result.said ++ sayAlternatives ts) := by
  induction ts generalizing result with
  | nil => simp [parseUnions, sayAlternatives]
  | cons t ts ih =>
    obtain ⟨⟨hof, u, hu, hsaid⟩, hts⟩ := List.forall_mem_cons.mp h
    obtain ⟨v, hv, hvsaid⟩ := ih hts (.union result u)
    refine ⟨v, ?_, ?_⟩
    · rw [List.map_cons, parseUnions, pair_rule, if_pos hof.rule, hu]
      exact hv
    · rw [hvsaid, TypeExpr.said, hsaid, sayAlternatives, List.append_assoc]

theorem parseSingles_says {ts : List (Node Rule)} (h : ∀ t ∈ ts, ReadsType t) :
    Says saidTypes (parseSingles (ts.map (pair grammar))) (sayTypes ts) := by
  induction ts with
  | nil => simp [parseSingles, sayTypes, saidTypes]
  | cons t ts ih =>
    have ht := List.forall_mem_cons.mp h
    rw [List.map_cons, parseSingles, sayTypes]
    exact (says_bind fun a as => by simp [saidTypes]).mpr ⟨ht.1, ih ht.2⟩

theorem parseFieldTypes_says {fs : List (Node Rule)}
    (h : ∀ f ∈ fs, f.Of grammar .fieldType ∧ ∀ x ∈ f.inner, x.Of grammar .vectorOrFuncOrRecordOrPrim →
      ReadsType x) :
    Says saidFieldTypes (parseFieldTypes (fs.map (pair grammar))) (sayFieldTypes fs) := by
  induction fs with
  | nil => simp [parseFieldTypes, sayFieldTypes, saidFieldTypes]
  | cons f fs ih =>
    obtain ⟨⟨hof, htype⟩, hfs⟩ := List.forall_mem_cons.mp h
    obtain ⟨s, t, name, type, rfl, hname, hof'⟩ := fieldType_shape hof
    rw [List.map_cons, pair_mk (by decide), List.map_cons, List.map_cons, parseFieldTypes,
      if_pos rfl, sayFieldTypes]
    refine (says_bind fun a as => ?_).mpr ⟨htype type (by simp [Node.inner]) hof', ih hfs⟩
    simp [saidFieldTypes]

theorem parseTypeExpr_says {n : Node Rule} (h : n.Of grammar .typeExpr)
    (hinner : ∀ x ∈ n.inner, x.Of grammar .vectorOrFuncOrRecordOrPrim → ReadsType x) :
    Says TypeExpr.said (parseTypeExpr (pair grammar n)) (sayTypeExpr n) := by
  obtain ⟨s, t, x, xs, rfl, hall⟩ := typeExpr_shape h
  have hreads : ∀ y ∈ x :: xs, y.Of grammar .vectorOrFuncOrRecordOrPrim ∧ ReadsType y :=
    fun y hy => ⟨hall y hy, hinner y hy (hall y hy)⟩
  obtain ⟨⟨-, u, hu, hsaid⟩, hxs⟩ := List.forall_mem_cons.mp hreads
  obtain ⟨v, hv, hvsaid⟩ := parseUnions_says hxs u
  refine ⟨v, ?_, ?_⟩
  · rw [pair_mk (by decide), List.map_cons, parseTypeExpr, hu]
    exact hv
  · rw [hvsaid, hsaid, sayTypeExpr, sayAlternatives]

/-- Every type is read, by induction on what is inside it. -/
theorem readsType {n : Node Rule} (h : n.Of grammar .vectorOrFuncOrRecordOrPrim) :
    ReadsType n := by
  induction n using Node.below_induction with
  | _ n ih =>
    obtain ⟨s, t, x, rfl, hx⟩ := single_shape h
    have hinside : ∀ m, m.Within x → m.Of grammar .vectorOrFuncOrRecordOrPrim → ReadsType m :=
      fun m hm hof => ih m x (List.mem_singleton_self x) hm hof
    have hexpr : ∀ y ∈ x.inner, y.Of grammar .typeExpr →
        Says TypeExpr.said (parseTypeExpr (pair grammar y)) (sayTypeExpr y) :=
      fun y hy hof => parseTypeExpr_says hof fun z hz =>
        hinside z ((Node.within_of_mem hz).trans (Node.within_of_mem hy))
    rw [ReadsType, pair_mk (by decide), List.map_singleton]
    rcases hx with hx | hx | hx | hx
    · obtain ⟨s', t', y, rfl, hy⟩ := vectorType_shape hx
      obtain ⟨u, hu, hsaid⟩ := hexpr y (List.mem_singleton_self y) hy
      refine ⟨.vector u, ?_, ?_⟩
      · rw [pair_mk (by decide), List.map_singleton]
        simp [parseSingleTypeExpr, hu, Except.map]
      · simp [sayType, TypeExpr.said, hsaid]
    · obtain ⟨s', t', args, ret, rfl, hargs, hret⟩ := functionType_shape hx
      obtain ⟨s'', t'', a, as, rfl, hall⟩ := typeExprList_shape hargs
      have hargs' : ∀ y ∈ a :: as, ReadsType y := fun y hy => hinside y
        (.inside (List.mem_cons_self ..) (.inside hy (.self y))) (hall y hy)
      obtain ⟨us, hus, hussaid⟩ := parseSingles_says hargs'
      rw [List.map_cons] at hus
      obtain ⟨u, hu, hsaid⟩ := hexpr ret (by simp [Node.inner]) hret
      refine ⟨.function us u, ?_, ?_⟩
      · rw [pair_mk (by decide), List.map_cons, List.map_singleton, pair_mk (by decide)]
        simp [parseSingleTypeExpr, hus, hu, bind, Except.bind]
      · simp [sayType, TypeExpr.said, hsaid, hussaid]
    · obtain ⟨s', t', fields, rfl, hfields⟩ := recordType_shape hx
      obtain ⟨us, hus, hsaid⟩ := parseFieldTypes_says fun f hf => ⟨hfields f hf, fun y hy =>
        hinside y ((Node.within_of_mem hy).trans (Node.within_of_mem hf))⟩
      refine ⟨.record us, ?_, ?_⟩
      · rw [pair_mk (by decide)]
        simp [parseSingleTypeExpr, hus, Except.map]
      · simp [sayType, TypeExpr.said, hsaid]
    · obtain ⟨p, hp⟩ := primitiveType_text hx
      obtain ⟨r, s', t', ns⟩ := x
      obtain rfl : r = .primitiveType := hx.rule
      refine ⟨.primitive p, ?_, ?_⟩
      · rw [pair_mk_atomic (by decide)]
        have hp' : primitiveType (Node.mk Rule.primitiveType s' t' []).text = .ok p := hp
        simp [parseSingleTypeExpr, hp', Except.map]
      · simp [sayType, TypeExpr.said, hp]

/-! ### Calls -/

/-- Nothing is inside the pair of an argument list. -/
theorem parseArgLists_nil {ls : List (Node Rule)} (h : ∀ l ∈ ls, l.Of grammar .argList) :
    parseArgLists (ls.map (pair grammar)) = .ok [] := by
  induction ls with
  | nil => rfl
  | cons l ls ih =>
    obtain ⟨hl, hls⟩ := List.forall_mem_cons.mp h
    obtain ⟨s, t, e, es, rfl, -⟩ := argList_shape hl
    rw [List.map_cons, pair_mk_atomic (by decide), parseArgLists, if_pos rfl, parseExpressions,
      ih hls]
    rfl

theorem parseFunctionCall_pair {s t s' t' : Pos} {x : Node Rule} {ls : List (Node Rule)}
    (h : ∀ l ∈ ls, l.Of grammar .argList) :
    parseFunctionCall (pair grammar (.mk .functionCall s t (.mk .primary s' t' [x] :: ls))) =
      if x.rule = .identifier then .ok ⟨x.text, []⟩
      else parseError "Expected identifier as function name" := by
  rw [pair_mk (by decide), List.map_cons, pair_mk (by decide), List.map_singleton,
    parseFunctionCall, parseArgLists_nil h, calledName, if_pos rfl]
  simp only [pair_rule, pair_text]
  split <;> rfl

def FunctionCall.called (f : FunctionCall Expression) : Called Utterance :=
  ⟨.name f.name, saidAll f.args⟩

theorem allKept_primary {s t : Pos} {x : Node Rule}
    (h : x.rule = .identifier → x.Of grammar .identifier) :
    AllKept (.mk .primary s t [x]) ↔ x.rule = .identifier := by
  rw [allKept_iff]
  constructor
  · rintro ⟨hkept, -⟩
    simpa [Kept] using hkept
  · intro hx
    refine ⟨by simp [Kept, hx], ?_⟩
    exact List.forall_mem_singleton.mpr (allKept_of_callsNothing (h hx) rfl)

theorem parseFunctionCall_says {c : Node Rule} (h : c.Of grammar .functionCall) :
    Says FunctionCall.called (parseFunctionCall (pair grammar c)) (sayCall c) ↔ AllKept c := by
  obtain ⟨s, t, p, ls, rfl, hp, hls⟩ := functionCall_shape h
  obtain ⟨s', t', x, rfl, hx⟩ := primary_shape hp
  have hof : x.rule = .identifier → x.Of grammar .identifier := by
    intro hid
    rcases hx with hx | hx | hx | hx
    case inr.inr.inl => exact hx
    all_goals
      rw [hx.rule] at hid
      cases hid
  rw [parseFunctionCall_pair hls, allKept_iff, List.forall_mem_cons, allKept_primary hof]
  by_cases hid : x.rule = .identifier
  · rw [if_pos hid, says_ok]
    obtain ⟨r, s'', t'', ns⟩ := x
    obtain rfl : r = .identifier := hid
    cases ls with
    | nil => simp [FunctionCall.called, saidAll, sayCall, sayPrimary, sayArgLists, Kept]
    | cons l ls =>
      -- an argument is said, and none is read
      obtain ⟨s₁, t₁, e, es, rfl, -⟩ := argList_shape (hls l (List.mem_cons_self ..))
      simp [FunctionCall.called, saidAll, sayCall, sayArgLists, sayExpressions, allKept_iff, Kept]
  · simp [hid]

theorem parseFunctionCall_args {c : Node Rule} {f : FunctionCall Expression}
    (h : c.Of grammar .functionCall) (hf : parseFunctionCall (pair grammar c) = .ok f) :
    f.args = [] := by
  obtain ⟨s, t, p, ls, rfl, hp, hls⟩ := functionCall_shape h
  obtain ⟨s', t', x, rfl, -⟩ := primary_shape hp
  rw [parseFunctionCall_pair hls] at hf
  split at hf
  · cases hf
    rfl
  · cases hf

/-- A chain that has its method takes no other. -/
theorem parseMethods_agentCall {a : AgentCall Expression} {cs : List Pair} {e : Expression}
    (h : parseMethods (.agentCall a) cs = .ok e) : e = .agentCall a := by
  induction cs with
  | nil =>
    rw [parseMethods] at h
    cases h
    rfl
  | cons c cs ih =>
    rw [parseMethods] at h
    split at h
    · cases hc : parseFunctionCall c with
      | error e => rw [hc] at h; cases h
      | ok call => rw [hc] at h; exact ih h
    · exact ih h

theorem parseAgentCall_says {a : Node Rule} (h : a.Of grammar .agentCall) :
    Says Expression.said (parseAgentCall (pair grammar a)) (sayAgentCall a) ↔ AllKept a := by
  obtain ⟨s, t, c, cs, rfl, hall⟩ := agentCall_shape h
  obtain ⟨hc, hcs⟩ := List.forall_mem_cons.mp hall
  rw [allKept_iff, List.forall_mem_cons, ← parseFunctionCall_says hc, pair_mk (by decide),
    List.map_cons, parseAgentCall]
  cases hf : parseFunctionCall (pair grammar c) with
  | error e => simp [bind, Except.bind]
  | ok f =>
    have hargs := parseFunctionCall_args hc hf
    obtain ⟨name, args⟩ := f
    obtain rfl : args = [] := hargs
    cases cs with
    | nil =>
      simp [bind, Except.bind, parseMethods, Expression.said, FunctionCall.called, sayAgentCall,
        sayCalls, Kept, saidAll]
    | cons d ds =>
      obtain ⟨hd, hds⟩ := List.forall_mem_cons.mp hcs
      rw [List.forall_mem_cons, ← parseFunctionCall_says hd]
      cases hm : parseFunctionCall (pair grammar d) with
      | error e => simp [bind, Except.bind, parseMethods, hd.rule, hm]
      | ok m =>
        cases ds with
        | nil =>
          simp [bind, Except.bind, parseMethods, hd.rule, hm, Expression.withMethod, Expression.said,
            FunctionCall.called, sayAgentCall, sayCalls, Kept, saidAll]
        | cons x ds =>
          -- the chain has its method when the second one comes
          refine iff_of_false ?_ (by simp [Kept])
          rintro ⟨e, he, hsaid⟩
          rw [List.map_cons] at he
          simp only [bind, Except.bind, parseMethods, pair_rule, hd.rule, if_true, hm,
            Expression.withMethod] at he
          rw [parseMethods_agentCall he] at hsaid
          simp [Expression.said, sayAgentCall, sayCalls] at hsaid

/-! ### Expressions -/

theorem parseSends_says {as : List (Node Rule)} (h : ∀ a ∈ as, a.Of grammar .agentCall)
    (l : Expression) (u : Utterance) :
    Says Expression.said (parseSends l (as.map (pair grammar))) (saySends u as) ↔
      l.said = u ∧ ∀ a ∈ as, AllKept a := by
  induction as generalizing l u with
  | nil => simp [parseSends, saySends]
  | cons a as ih =>
    obtain ⟨ha, has⟩ := List.forall_mem_cons.mp h
    rw [List.map_cons, parseSends, saySends, List.forall_mem_cons, ← parseAgentCall_says ha]
    cases hr : parseAgentCall (pair grammar a) with
    | error e => simp [bind, Except.bind]
    | ok r =>
      simpa [bind, Except.bind, Expression.said, and_assoc] using
        ih has (.messageSend l r) (.send u (sayAgentCall a))

theorem parseExpression_says {n : Node Rule} (h : n.Of grammar .expression) :
    Says Expression.said (parseExpression (pair grammar n)) (sayExpression n) ↔ AllKept n := by
  obtain ⟨s, t, s', t', a, as, rfl, hall⟩ := expression_shape h
  obtain ⟨ha, has⟩ := List.forall_mem_cons.mp hall
  have hkept : AllKept (.mk .expression s t [.mk .messageSend s' t' (a :: as)]) ↔
      AllKept a ∧ ∀ b ∈ as, AllKept b := by
    simp [allKept_iff, Kept]
  rw [hkept, pair_mk (by decide), List.map_singleton, pair_mk (by decide), List.map_cons,
    ← parseAgentCall_says ha]
  simp only [parseExpression, sayExpression]
  cases hr : parseAgentCall (pair grammar a) with
  | error e => simp [bind, Except.bind]
  | ok l => simpa [bind, Except.bind] using parseSends_says has l (sayAgentCall a)

theorem parseExpressions_says {es : List (Node Rule)} (h : ∀ e ∈ es, e.Of grammar .expression) :
    Says saidAll (parseExpressions (es.map (pair grammar))) (sayExpressions es) ↔
      ∀ e ∈ es, AllKept e := by
  induction es with
  | nil => simp [parseExpressions, sayExpressions, saidAll]
  | cons e es ih =>
    obtain ⟨he, hes⟩ := List.forall_mem_cons.mp h
    rw [List.map_cons, parseExpressions, pair_rule, if_pos he.rule, sayExpressions,
      List.forall_mem_cons, ← parseExpression_says he, ← ih hes]
    exact says_bind fun a as => by simp [saidAll]

/-! ### Records -/

theorem parseAssignments_says {fs : List (Node Rule)}
    (h : ∀ f ∈ fs, f.Of grammar .fieldAssignment) :
    Says saidFields (parseAssignments (fs.map (pair grammar))) (sayFields fs) ↔
      ∀ f ∈ fs, AllKept f := by
  induction fs with
  | nil => simp [parseAssignments, sayFields, saidFields]
  | cons f fs ih =>
    obtain ⟨hf, hfs⟩ := List.forall_mem_cons.mp h
    obtain ⟨s, t, name, value, rfl, hname, hvalue⟩ := fieldAssignment_shape hf
    have hkept : AllKept (.mk .fieldAssignment s t [name, value]) ↔ AllKept value := by
      simp [allKept_iff, Kept, allKept_of_callsNothing hname rfl]
    rw [List.forall_mem_cons, hkept, ← parseExpression_says hvalue, ← ih hfs, List.map_cons,
      pair_mk (by decide), List.map_cons, List.map_singleton, parseAssignments, Node.rule_mk,
      if_pos rfl, sayFields]
    exact says_bind fun a as => by simp [saidFields]

theorem parseRecord_says {n : Node Rule} (h : n.Of grammar .recordLiteral) :
    Says (fun r => saidFields r.fields) (parseRecord (pair grammar n)) (sayFieldLists n.inner) ↔
      AllKept n := by
  obtain ⟨s, t, ls, rfl, rfl | ⟨l, hl, rfl⟩⟩ := recordLiteral_shape h
  · rw [pair_mk (by decide)]
    simp [parseRecord, parseFieldLists, sayFieldLists, saidFields, allKept_iff, Kept]
  · obtain ⟨s', t', f, fs, rfl, hfs⟩ := fieldList_shape hl
    have hkept : AllKept (.mk .recordLiteral s t [.mk .fieldList s' t' (f :: fs)]) ↔
        ∀ g ∈ f :: fs, AllKept g := by
      simp [allKept_iff, Kept]
    rw [hkept, ← parseAssignments_says hfs, pair_mk (by decide), List.map_singleton,
      pair_mk (by decide)]
    simp only [parseRecord, Node.inner_mk, parseFieldLists, Node.rule_mk, if_true, sayFieldLists,
      List.append_nil]
    cases hr : parseAssignments ((f :: fs).map (pair grammar)) with
    | error e => simp [bind, Except.bind, Except.map]
    | ok fields => simp [bind, Except.bind, Except.map]

/-! ### Statements -/

/-- A node whose statement the parser reads when it keeps all of it. -/
def ReadsStatement (n : Node Rule) : Prop :=
  Says Statement.said (parseStatement (pair grammar n)) (sayStatement n) ↔ AllKept n

theorem parseActions_says {ss : List (Node Rule)}
    (h : ∀ x ∈ ss, x.Of grammar .statement ∧ ReadsStatement x) :
    Says saidStatements (parseActions (ss.map (pair grammar))) (sayStatements ss) ↔
      ∀ x ∈ ss, AllKept x := by
  induction ss with
  | nil => simp [parseActions, sayStatements, saidStatements]
  | cons x xs ih =>
    obtain ⟨⟨hof, hreads⟩, hxs⟩ := List.forall_mem_cons.mp h
    rw [ReadsStatement] at hreads
    rw [List.map_cons, parseActions, pair_rule, if_pos hof.rule, sayStatements,
      List.forall_mem_cons, ← hreads, ← ih hxs]
    exact says_bind fun a as => by simp [saidStatements]

theorem allKept_statement {s t : Pos} {x : Node Rule} :
    AllKept (.mk .statement s t [x]) ↔ AllKept x := by
  simp [allKept_iff, Kept]

theorem readsStatement_typeDecl {s t : Pos} {x : Node Rule} (h : x.Of grammar .typeDecl) :
    ReadsStatement (.mk .statement s t [x]) := by
  rw [ReadsStatement, allKept_statement]
  refine iff_of_true ?_ (allKept_of_callsNothing h rfl)
  obtain ⟨s', t', name, type, rfl, -, htype⟩ := typeDecl_shape h
  obtain ⟨u, hu, hsaid⟩ := parseTypeExpr_says htype fun y _ => readsType
  refine ⟨.typeDecl ⟨name.text, u⟩, ?_, ?_⟩
  · rw [pair_mk (by decide), List.map_singleton, pair_mk (by decide), List.map_cons,
      List.map_singleton]
    simp [parseStatement, parseTypeDecl, hu, bind, Except.bind]
  · simp [Statement.said, sayStatement, hsaid]

theorem readsStatement_agentDecl {s t : Pos} {x : Node Rule} (h : x.Of grammar .agentDecl) :
    ReadsStatement (.mk .statement s t [x]) := by
  rw [ReadsStatement, allKept_statement]
  refine iff_of_true ?_ (allKept_of_callsNothing h rfl)
  obtain ⟨s', t', name, init, rfl, -, hinit⟩ := agentDecl_shape h
  obtain ⟨s'', t'', path, rfl, -⟩ := agentInit_shape hinit
  rw [pair_mk (by decide), List.map_singleton, pair_mk (by decide), List.map_cons,
    List.map_singleton, pair_mk (by decide), List.map_singleton]
  simp [parseStatement, parseAgentDecl, Statement.said, sayStatement]

theorem readsStatement_featherDecl {s t : Pos} {x : Node Rule} (h : x.Of grammar .featherDecl) :
    ReadsStatement (.mk .statement s t [x]) := by
  obtain ⟨s', t', name, typeName, value, rfl, hname, htype, hvalue⟩ := featherDecl_shape h
  have hkept : AllKept (.mk .featherDecl s' t' [name, typeName, value]) ↔ AllKept value := by
    simp [allKept_iff, Kept, allKept_of_callsNothing hname rfl, allKept_of_callsNothing htype rfl]
  rw [ReadsStatement, allKept_statement, hkept, ← parseRecord_says hvalue, pair_mk (by decide),
    List.map_singleton, pair_mk (by decide)]
  simp only [List.map_cons, List.map_nil, parseStatement, parseFeatherDecl]
  cases hr : parseRecord (pair grammar value) with
  | error e => simp [bind, Except.bind]
  | ok r => simp [bind, Except.bind, Statement.said, sayStatement]

theorem readsStatement_expression {s t : Pos} {x : Node Rule} (h : x.Of grammar .expression) :
    ReadsStatement (.mk .statement s t [x]) := by
  rw [ReadsStatement, allKept_statement, ← parseExpression_says h, pair_mk (by decide),
    List.map_singleton]
  obtain ⟨s₁, t₁, s₂, t₂, a, as, rfl, -⟩ := expression_shape h
  rw [pair_mk (by decide)]
  simp only [parseStatement, sayStatement, says_map]
  generalize parseExpression _ = r
  cases r with
  | error e => simp
  | ok e => simp [Statement.said]

theorem readsStatement_runeDecl {s t : Pos} {x : Node Rule} (h : x.Of grammar .runeDecl)
    (hinside : ∀ y, y.Within x → y.Of grammar .statement → ReadsStatement y) :
    ReadsStatement (.mk .statement s t [x]) := by
  obtain ⟨s', t', name, conds, acts, rfl, hname, hconds, hacts⟩ := runeDecl_shape h
  obtain ⟨s₁, t₁, es, rfl, hes⟩ := conditionBlock_shape hconds
  obtain ⟨s₂, t₂, ss, rfl, hss⟩ := actionBlock_shape hacts
  have hreads : ∀ y ∈ ss, y.Of grammar .statement ∧ ReadsStatement y := by
    intro y hy
    have hblock : y.Within (.mk .actionBlock s₂ t₂ ss) := .inside hy (.self y)
    exact ⟨hss y hy, hinside y (.inside (by simp) hblock) (hss y hy)⟩
  have hkept : AllKept (.mk .runeDecl s' t'
      [name, .mk .conditionBlock s₁ t₁ es, .mk .actionBlock s₂ t₂ ss]) ↔
        (∀ e ∈ es, AllKept e) ∧ ∀ y ∈ ss, AllKept y := by
    simp [allKept_iff, Kept, allKept_of_callsNothing hname rfl]
  rw [ReadsStatement, allKept_statement, hkept, ← parseExpressions_says hes,
    ← parseActions_says hreads, pair_mk (by decide), List.map_singleton, pair_mk (by decide),
    List.map_cons, List.map_cons, List.map_singleton, pair_mk (by decide), pair_mk (by decide)]
  exact says_bind fun a as => by simp [Statement.said, sayStatement]

/-- By induction on what is inside it, for the actions of a rune are statements. -/
theorem readsStatement {n : Node Rule} (h : n.Of grammar .statement) : ReadsStatement n := by
  induction n using Node.below_induction with
  | _ n ih =>
    obtain ⟨s, t, x, rfl, hx | hx | hx | hx | hx⟩ := statement_shape h
    · exact readsStatement_typeDecl hx
    · exact readsStatement_agentDecl hx
    · exact readsStatement_featherDecl hx
    · exact readsStatement_runeDecl hx fun y hy => ih y x (List.mem_singleton_self x) hy
    · exact readsStatement_expression hx

end Cerebellum.Caw
