import Cerebellum.CawReading

/-! The shapes of the derivations of caw.pest: which nodes stand directly below a node. -/
namespace Cerebellum.Caw
open Peg

variable {n : Node Rule} {ns : List (Node Rule)}

theorem fits_rule {r : Rule} (h : r.kind ≠ .silent) :
    Fits grammar (.call r) ns ↔ ∃ n, n.Of grammar r ∧ ns = [n] := fits_call h

theorem of_inner {r : Rule} (h : n.Of grammar r) :
    ∃ s t ns, n = .mk r s t ns ∧ Fits grammar r.body ns := by
  obtain ⟨r', s, t, ns⟩ := n
  obtain rfl : r' = r := h.rule
  exact ⟨s, t, ns, rfl, h.fits⟩

theorem fits_lit {s : String} : Fits grammar (Rule.lit s) ns ↔ ns = [] := fits_str

/-- Words leave nothing. -/
theorem fits_word {s : String} {e : Peg.Expr Rule} :
    Fits grammar (.seq (Rule.lit s) e) ns ↔ Fits grammar e ns := by
  simp only [fits_seq, fits_lit, exists_eq_left, List.nil_append, exists_eq_right']

theorem fits_enclosed {a b : String} {e : Peg.Expr Rule} :
    Fits grammar (.seqs (Rule.lit a) [e, Rule.lit b]) ns ↔ Fits grammar e ns := by
  rw [Expr.seqs, fits_word, Expr.seqs, fits_seq]
  simp only [Expr.seqs, fits_lit, exists_eq_left, List.append_nil, exists_eq_right']

/-- A rule leaves its node in front. -/
theorem fits_then {r : Rule} {e : Peg.Expr Rule} (h : r.kind ≠ .silent) :
    Fits grammar (.seq (.call r) e) ns ↔
      ∃ n ms, n.Of grammar r ∧ Fits grammar e ms ∧ ns = n :: ms := by
  rw [fits_seq]
  constructor
  · rintro ⟨_, hfirst, ms, hms, rfl⟩
    obtain ⟨n, hn, rfl⟩ := (fits_rule h).mp hfirst
    exact ⟨n, ms, hn, hms, rfl⟩
  · rintro ⟨n, ms, hn, hms, rfl⟩
    exact ⟨[n], (fits_rule h).mpr ⟨n, hn, rfl⟩, ms, hms, rfl⟩

/-- One node, and others behind separators. -/
theorem fits_separated {r : Rule} {sep : String} (h : r.kind ≠ .silent)
    (hf : Fits grammar (Rule.separated r sep) ns) :
    ∃ x xs, ns = x :: xs ∧ ∀ y ∈ x :: xs, y.Of grammar r := by
  obtain ⟨_, hfirst, xs, hxs, rfl⟩ := fits_seq.mp hf
  obtain ⟨x, hx, rfl⟩ := (fits_rule h).mp hfirst
  exact ⟨x, xs, rfl, List.forall_mem_cons.mpr ⟨hx, Fits.rep_sep h hxs⟩⟩

/-- One node or more. -/
theorem fits_plus {r : Rule} (h : r.kind ≠ .silent) (hf : Fits grammar (.plus (.call r)) ns) :
    ∃ x xs, ns = x :: xs ∧ ∀ y ∈ x :: xs, y.Of grammar r := by
  obtain ⟨_, hfirst, xs, hxs, rfl⟩ := fits_seq.mp hf
  obtain ⟨x, hx, rfl⟩ := (fits_rule h).mp hfirst
  exact ⟨x, xs, rfl, List.forall_mem_cons.mpr ⟨hx, Fits.rep_of h hxs⟩⟩

/-! ### Expressions -/

theorem expression_shape (h : n.Of grammar .expression) : ∃ s t s' t' a as,
    n = .mk .expression s t [.mk .messageSend s' t' (a :: as)] ∧
      ∀ b ∈ a :: as, b.Of grammar .agentCall := by
  obtain ⟨s, t, ns, rfl, hf⟩ := of_inner h
  obtain ⟨m, hm, rfl⟩ := (fits_rule (by decide)).mp hf
  obtain ⟨s', t', ms, rfl, hms⟩ := of_inner hm
  obtain ⟨a, as, rfl, hall⟩ := fits_separated (by decide) hms
  exact ⟨s, t, s', t', a, as, rfl, hall⟩

theorem agentCall_shape (h : n.Of grammar .agentCall) : ∃ s t c cs,
    n = .mk .agentCall s t (c :: cs) ∧ ∀ d ∈ c :: cs, d.Of grammar .functionCall := by
  obtain ⟨s, t, ns, rfl, hf⟩ := of_inner h
  obtain ⟨c, cs, rfl, hall⟩ := fits_separated (by decide) hf
  exact ⟨s, t, c, cs, rfl, hall⟩

theorem functionCall_shape (h : n.Of grammar .functionCall) : ∃ s t p lists,
    n = .mk .functionCall s t (p :: lists) ∧ p.Of grammar .primary ∧
      ∀ l ∈ lists, l.Of grammar .argList := by
  obtain ⟨s, t, ns, rfl, hf⟩ := of_inner h
  obtain ⟨_, hfirst, lists, hlists, rfl⟩ := fits_seq.mp hf
  obtain ⟨p, hp, rfl⟩ := (fits_rule (by decide)).mp hfirst
  refine ⟨s, t, p, lists, rfl, hp, hlists.rep_all fun xs hxs l hl => ?_⟩
  rcases fits_opt.mp (fits_enclosed.mp hxs) with rfl | hargs
  · cases hl
  · obtain ⟨m, hm, rfl⟩ := (fits_rule (by decide)).mp hargs
    rwa [List.mem_singleton.mp hl]

theorem argList_shape (h : n.Of grammar .argList) : ∃ s t e es,
    n = .mk .argList s t (e :: es) ∧ ∀ x ∈ e :: es, x.Of grammar .expression := by
  obtain ⟨s, t, ns, rfl, hf⟩ := of_inner h
  obtain ⟨e, es, rfl, hall⟩ := fits_separated (by decide) hf
  exact ⟨s, t, e, es, rfl, hall⟩

theorem primary_shape (h : n.Of grammar .primary) : ∃ s t x, n = .mk .primary s t [x] ∧
    (x.Of grammar .recordLiteral ∨ x.Of grammar .literal ∨ x.Of grammar .identifier ∨
      x.Of grammar .expression) := by
  obtain ⟨s, t, ns, rfl, hf⟩ := of_inner h
  simp (disch := decide) only [Rule.body, Expr.choices, Expr.seqs, fits_choice, fits_word, fits_then,
    fits_rule, fits_lit] at hf
  rcases hf with ⟨x, hx, rfl⟩ | ⟨x, hx, rfl⟩ | ⟨x, hx, rfl⟩ | ⟨x, _, hx, rfl, rfl⟩
  · exact ⟨s, t, x, rfl, .inl hx⟩
  · exact ⟨s, t, x, rfl, .inr (.inl hx)⟩
  · exact ⟨s, t, x, rfl, .inr (.inr (.inl hx))⟩
  · exact ⟨s, t, x, rfl, .inr (.inr (.inr hx))⟩

theorem recordLiteral_shape (h : n.Of grammar .recordLiteral) : ∃ s t lists,
    n = .mk .recordLiteral s t lists ∧ (lists = [] ∨ ∃ l, l.Of grammar .fieldList ∧ lists = [l]) := by
  obtain ⟨s, t, ns, rfl, hf⟩ := of_inner h
  refine ⟨s, t, ns, rfl, ?_⟩
  rcases fits_opt.mp (fits_enclosed.mp hf) with rfl | hlist
  · exact .inl rfl
  · exact .inr ((fits_rule (by decide)).mp hlist)

theorem fieldList_shape (h : n.Of grammar .fieldList) : ∃ s t f fs,
    n = .mk .fieldList s t (f :: fs) ∧ ∀ g ∈ f :: fs, g.Of grammar .fieldAssignment := by
  obtain ⟨s, t, ns, rfl, hf⟩ := of_inner h
  obtain ⟨f, fs, rfl, hall⟩ := fits_separated (by decide) hf
  exact ⟨s, t, f, fs, rfl, hall⟩

theorem fieldAssignment_shape (h : n.Of grammar .fieldAssignment) : ∃ s t name value,
    n = .mk .fieldAssignment s t [name, value] ∧ name.Of grammar .identifier ∧
      value.Of grammar .expression := by
  obtain ⟨s, t, ns, rfl, hf⟩ := of_inner h
  simp (disch := decide) only [Rule.body, Expr.seqs, fits_word, fits_then, fits_rule] at hf
  obtain ⟨name, _, hname, ⟨value, hvalue, rfl⟩, rfl⟩ := hf
  exact ⟨s, t, name, value, rfl, hname, hvalue⟩

/-! ### Types -/

theorem typeExpr_shape (h : n.Of grammar .typeExpr) : ∃ s t x xs,
    n = .mk .typeExpr s t (x :: xs) ∧ ∀ y ∈ x :: xs, y.Of grammar .vectorOrFuncOrRecordOrPrim := by
  obtain ⟨s, t, ns, rfl, hf⟩ := of_inner h
  obtain ⟨x, xs, rfl, hall⟩ := fits_separated (by decide) hf
  exact ⟨s, t, x, xs, rfl, hall⟩

theorem typeExprList_shape (h : n.Of grammar .typeExprList) : ∃ s t x xs,
    n = .mk .typeExprList s t (x :: xs) ∧
      ∀ y ∈ x :: xs, y.Of grammar .vectorOrFuncOrRecordOrPrim := by
  obtain ⟨s, t, ns, rfl, hf⟩ := of_inner h
  obtain ⟨x, xs, rfl, hall⟩ := fits_separated (by decide) hf
  exact ⟨s, t, x, xs, rfl, hall⟩

theorem single_shape (h : n.Of grammar .vectorOrFuncOrRecordOrPrim) : ∃ s t x,
    n = .mk .vectorOrFuncOrRecordOrPrim s t [x] ∧ (x.Of grammar .vectorType ∨
      x.Of grammar .functionType ∨ x.Of grammar .recordType ∨ x.Of grammar .primitiveType) := by
  obtain ⟨s, t, ns, rfl, hf⟩ := of_inner h
  simp (disch := decide) only [Rule.body, Expr.choices, fits_choice, fits_rule] at hf
  rcases hf with ⟨x, hx, rfl⟩ | ⟨x, hx, rfl⟩ | ⟨x, hx, rfl⟩ | ⟨x, hx, rfl⟩
  · exact ⟨s, t, x, rfl, .inl hx⟩
  · exact ⟨s, t, x, rfl, .inr (.inl hx)⟩
  · exact ⟨s, t, x, rfl, .inr (.inr (.inl hx))⟩
  · exact ⟨s, t, x, rfl, .inr (.inr (.inr hx))⟩

theorem vectorType_shape (h : n.Of grammar .vectorType) : ∃ s t x,
    n = .mk .vectorType s t [x] ∧ x.Of grammar .typeExpr := by
  obtain ⟨s, t, ns, rfl, hf⟩ := of_inner h
  simp (disch := decide) only [Rule.body, Expr.seqs, fits_word, fits_then, fits_lit] at hf
  obtain ⟨x, _, hx, rfl, rfl⟩ := hf
  exact ⟨s, t, x, rfl, hx⟩

theorem functionType_shape (h : n.Of grammar .functionType) : ∃ s t args ret,
    n = .mk .functionType s t [args, ret] ∧ args.Of grammar .typeExprList ∧
      ret.Of grammar .typeExpr := by
  obtain ⟨s, t, ns, rfl, hf⟩ := of_inner h
  simp (disch := decide) only [Rule.body, Expr.seqs, fits_word, fits_then, fits_rule] at hf
  obtain ⟨args, _, hargs, ⟨ret, hret, rfl⟩, rfl⟩ := hf
  exact ⟨s, t, args, ret, rfl, hargs, hret⟩

theorem fieldType_shape (h : n.Of grammar .fieldType) : ∃ s t name type,
    n = .mk .fieldType s t [name, type] ∧ name.Of grammar .identifier ∧
      type.Of grammar .vectorOrFuncOrRecordOrPrim := by
  obtain ⟨s, t, ns, rfl, hf⟩ := of_inner h
  simp (disch := decide) only [Rule.body, Expr.seqs, fits_word, fits_then, fits_rule] at hf
  obtain ⟨name, _, hname, ⟨type, htype, rfl⟩, rfl⟩ := hf
  exact ⟨s, t, name, type, rfl, hname, htype⟩

theorem recordType_shape (h : n.Of grammar .recordType) : ∃ s t fields,
    n = .mk .recordType s t fields ∧ ∀ f ∈ fields, f.Of grammar .fieldType := by
  obtain ⟨s, t, ns, rfl, hf⟩ := of_inner h
  refine ⟨s, t, ns, rfl, fun f hmem => ?_⟩
  rcases fits_opt.mp (fits_enclosed.mp hf) with rfl | hfields
  · cases hmem
  · obtain ⟨x, xs, rfl, hall⟩ := fits_separated (by decide) hfields
    exact hall f hmem

/-- The three words of the rule are the three that the parser knows. -/
theorem primitiveType_text (h : n.Of grammar .primitiveType) :
    ∃ p, primitiveType n.text = .ok p := by
  obtain ⟨a, ms, hm⟩ := h.matched
  rw [h.rule] at hm
  rcases hm.of_choice with hm | hm
  · exact ⟨.string, by rw [Node.text_of_str hm]; rfl⟩
  · rcases hm.of_choice with hm | hm
    · exact ⟨.number, by rw [Node.text_of_str hm]; rfl⟩
    · exact ⟨.boolean, by rw [Node.text_of_str hm]; rfl⟩

/-! ### Statements -/

theorem typeDecl_shape (h : n.Of grammar .typeDecl) : ∃ s t name type,
    n = .mk .typeDecl s t [name, type] ∧ name.Of grammar .identifier ∧
      type.Of grammar .typeExpr := by
  obtain ⟨s, t, ns, rfl, hf⟩ := of_inner h
  simp (disch := decide) only [Rule.body, Expr.seqs, fits_word, fits_then, fits_rule] at hf
  obtain ⟨name, _, hname, ⟨type, htype, rfl⟩, rfl⟩ := hf
  exact ⟨s, t, name, type, rfl, hname, htype⟩

theorem agentDecl_shape (h : n.Of grammar .agentDecl) : ∃ s t name init,
    n = .mk .agentDecl s t [name, init] ∧ name.Of grammar .identifier ∧
      init.Of grammar .agentInit := by
  obtain ⟨s, t, ns, rfl, hf⟩ := of_inner h
  simp (disch := decide) only [Rule.body, Expr.seqs, fits_word, fits_then, fits_rule] at hf
  obtain ⟨name, _, hname, ⟨init, hinit, rfl⟩, rfl⟩ := hf
  exact ⟨s, t, name, init, rfl, hname, hinit⟩

theorem agentInit_shape (h : n.Of grammar .agentInit) : ∃ s t path,
    n = .mk .agentInit s t [path] ∧ path.Of grammar .domainPath := by
  obtain ⟨s, t, ns, rfl, hf⟩ := of_inner h
  simp (disch := decide) only [Rule.body, Expr.seqs, fits_word, fits_then, fits_lit] at hf
  obtain ⟨path, _, hpath, rfl, rfl⟩ := hf
  exact ⟨s, t, path, rfl, hpath⟩

theorem featherDecl_shape (h : n.Of grammar .featherDecl) : ∃ s t name typeName value,
    n = .mk .featherDecl s t [name, typeName, value] ∧ name.Of grammar .identifier ∧
      typeName.Of grammar .identifier ∧ value.Of grammar .recordLiteral := by
  obtain ⟨s, t, ns, rfl, hf⟩ := of_inner h
  simp (disch := decide) only [Rule.body, Expr.seqs, fits_word, fits_then, fits_rule] at hf
  obtain ⟨name, _, hname, ⟨typeName, _, htype, ⟨value, hvalue, rfl⟩, rfl⟩, rfl⟩ := hf
  exact ⟨s, t, name, typeName, value, rfl, hname, htype, hvalue⟩

theorem runeDecl_shape (h : n.Of grammar .runeDecl) : ∃ s t name conditions actions,
    n = .mk .runeDecl s t [name, conditions, actions] ∧ name.Of grammar .stringLiteral ∧
      conditions.Of grammar .conditionBlock ∧ actions.Of grammar .actionBlock := by
  obtain ⟨s, t, ns, rfl, hf⟩ := of_inner h
  simp (disch := decide) only [Rule.body, Expr.seqs, fits_word, fits_then, fits_rule] at hf
  obtain ⟨name, _, hname, ⟨conditions, _, hconds, ⟨actions, hacts, rfl⟩, rfl⟩, rfl⟩ := hf
  exact ⟨s, t, name, conditions, actions, rfl, hname, hconds, hacts⟩

theorem conditionBlock_shape (h : n.Of grammar .conditionBlock) : ∃ s t es,
    n = .mk .conditionBlock s t es ∧ ∀ e ∈ es, e.Of grammar .expression := by
  obtain ⟨s, t, ns, rfl, hf⟩ := of_inner h
  obtain ⟨e, es, rfl, hall⟩ := fits_plus (by decide) hf
  exact ⟨s, t, e :: es, rfl, hall⟩

theorem actionBlock_shape (h : n.Of grammar .actionBlock) : ∃ s t ss,
    n = .mk .actionBlock s t ss ∧ ∀ x ∈ ss, x.Of grammar .statement := by
  obtain ⟨s, t, ns, rfl, hf⟩ := of_inner h
  obtain ⟨x, xs, rfl, hall⟩ := fits_plus (by decide) hf
  exact ⟨s, t, x :: xs, rfl, hall⟩

theorem statement_shape (h : n.Of grammar .statement) : ∃ s t x, n = .mk .statement s t [x] ∧
    (x.Of grammar .typeDecl ∨ x.Of grammar .agentDecl ∨ x.Of grammar .featherDecl ∨
      x.Of grammar .runeDecl ∨ x.Of grammar .expression) := by
  obtain ⟨s, t, ns, rfl, hf⟩ := of_inner h
  simp (disch := decide) only [Rule.body, Expr.choices, fits_choice, fits_rule] at hf
  rcases hf with ⟨x, hx, rfl⟩ | ⟨x, hx, rfl⟩ | ⟨x, hx, rfl⟩ | ⟨x, hx, rfl⟩ | ⟨x, hx, rfl⟩
  · exact ⟨s, t, x, rfl, .inl hx⟩
  · exact ⟨s, t, x, rfl, .inr (.inl hx)⟩
  · exact ⟨s, t, x, rfl, .inr (.inr (.inl hx))⟩
  · exact ⟨s, t, x, rfl, .inr (.inr (.inr (.inl hx)))⟩
  · exact ⟨s, t, x, rfl, .inr (.inr (.inr (.inr hx)))⟩

/-- What the text of a derivation leaves: its statements, and the end of the input. -/
theorem derive_shape {text : Text} {d : Node Rule} (h : derive text = some d) :
    ∃ ss e, written grammar d = ss ++ [e] ∧ (∀ x ∈ ss, x.Of grammar .statement) ∧ e.rule = .eoi := by
  have hf := (parse_eq_some h).fits grammar_quiet
  rw [writtenAll_singleton] at hf
  generalize written grammar d = ns at hf ⊢
  cases hf with
  | call hr => exact absurd rfl hr
  | silent _ hf =>
    have hbody : Fits grammar Rule.program.body ns := hf
    simp (disch := decide) only [Rule.body, Expr.seqs, fits_seq, fits_soi, fits_rule] at hbody
    obtain ⟨_, rfl, _, ⟨ss, hss, _, ⟨e, he, rfl⟩, rfl⟩, hd⟩ := hbody
    exact ⟨ss, e, hd, hss.rep_of (by decide), he.rule⟩

/-- A text is refused only when the program rule does not match it. -/
theorem fails_of_refused {text : Text} (h : derive text = none) :
    Fails grammar false (.call .program) ⟨0, text⟩ := parse_eq_none h

end Cerebellum.Caw
