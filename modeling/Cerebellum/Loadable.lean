import Cerebellum.BoundOnly
import Cerebellum.Constructs

/-! Whether transduced text can be loaded: which defrules stay one construct each. -/
namespace Cerebellum.Transpile

open Clips

/-! ### The defrules of a text -/

/-- An escaped text in quotes. -/
theorem inert_clipsString (s : Text) : Inert (clipsString s) := by
  intro d _
  have hinside : pass .string d (escape '"' s ++ ['"']) = some (.code, d) := by
    induction s with
    | nil => simp [escape, pass, Place.next, Place.depth]
    | cons c s ih =>
      rw [escape_cons]
      split
      · change pass .string d ('\\' :: c :: (escape '"' s ++ ['"'])) = _
        rw [pass_quiet (by decide), pass_quiet (by decide)]
        exact ih
      · next hc =>
        simp only [Bool.or_eq_true, decide_eq_true_eq, not_or] at hc
        change pass .string d (c :: (escape '"' s ++ ['"'])) = _
        rw [pass_quiet (by decide), Place.next, if_neg hc.1, if_neg hc.2]
        exact ih
  have hopen : pass .code d ('"' :: (escape '"' s ++ ['"'])) =
      pass .string d (escape '"' s ++ ['"']) := by
    simp [pass, Place.next, Place.depth]
  rw [clipsString, List.cons_append, hopen, hinside]

/-- What stands between the outer parentheses. -/
def Defrule.inside (d : Defrule) : Text :=
  "defrule ".toList ++ d.name ++ "\n    ".toList ++ d.lhs ++
    "\n    =>\n    (coire-publish-goal ".toList ++ d.rhs ++ [')']

def Defrule.form (d : Defrule) : Text := '(' :: d.inside ++ [')']

/-- The comment in front of the form. -/
def Defrule.note (d : Defrule) : Text := "; Transduced from: ".toList ++ d.comment ++ ['\n']

theorem Defrule.text_eq (d : Defrule) : d.text = d.note ++ (d.form ++ ['\n', '\n']) := by
  have hopen : "\n(defrule ".toList = '\n' :: '(' :: "defrule ".toList := by decide +kernel
  have hclose : "))\n\n".toList = [')', ')', '\n', '\n'] := by decide +kernel
  unfold Defrule.text note form inside
  rw [hopen, hclose]
  -- the texts in between stay as they are
  generalize "; Transduced from: ".toList = note
  generalize "defrule ".toList = keyword
  generalize "\n    ".toList = indent
  generalize "\n    =>\n    (coire-publish-goal ".toList = arrow
  simp

/-- Where no comment begins a construct and every form is one, the constructs are the forms. -/
theorem through_texts {source pre : Text} {ds : List Defrule} {s : ConstructScan}
    (hnote : ∀ d ∈ ds, pass .code 0 d.note = some (.code, 0))
    (hform : ∀ d ∈ ds, pass .code 1 d.inside = some (.code, 1))
    (hsource : source = pre ++ ds.flatMap Defrule.text) (hs : s.start = none) :
    ((s.put .code 0).through source pre.length (ds.flatMap Defrule.text)).constructs =
      s.constructs ++ ds.map Defrule.form := by
  induction ds generalizing pre s with
  | nil => simp [ConstructScan.through, ConstructScan.put]
  | cons d ds ih =>
    have htext : (d :: ds).flatMap Defrule.text =
        d.note ++ (d.form ++ (['\n', '\n'] ++ ds.flatMap Defrule.text)) := by
      simp [Defrule.text_eq]
    rw [htext] at hsource ⊢
    have hlen : pre.length + d.note.length < source.length := by
      simp only [hsource, Defrule.form, List.length_append, List.length_cons]
      omega
    have hbehind : source = (pre ++ d.note) ++
        ('(' :: d.inside ++ ')' :: (['\n', '\n'] ++ ds.flatMap Defrule.text)) := by
      simp [hsource, Defrule.form]
    have hover := ConstructScan.through_form hbehind hs (hform d (by simp))
    rw [List.length_append] at hover
    have hblank : pass .code 0 ['\n', '\n'] = some (.code, 0) := by decide
    rw [ConstructScan.through_append, ConstructScan.through_put (.inl hlen) (hnote d (by simp)),
      ConstructScan.through_append, Defrule.form, hover, ConstructScan.through_append,
      ConstructScan.through_put (.inr (by decide)) hblank]
    have htail : source = (pre ++ d.note ++ d.form ++ ['\n', '\n']) ++ ds.flatMap Defrule.text := by
      simp [hsource]
    have hrest := ih (s := { s with constructs := s.constructs ++ [d.form] })
      (fun e he => hnote e (by simp [he])) (fun e he => hform e (by simp [he])) htail hs
    simpa [Defrule.form, Nat.add_assoc] using hrest

/-! ### Names -/

/-- The counter of a rule's name. -/
def HasNumber (d : Defrule) (k : Nat) : Prop := ∃ p, d.name = p ++ '-' :: Nat.toDigits 10 k

theorem HasNumber.unique {d e : Defrule} {k l : Nat} (hd : HasNumber d k) (he : HasNumber e l)
    (h : d.name = e.name) : k = l := by
  obtain ⟨p, hp⟩ := hd
  obtain ⟨q, hq⟩ := he
  exact (Text.append_toDigits_inj rfl (hp.symm.trans (h.trans hq))).2

/-- Defrules with counters in a range, all of them different. -/
structure Numbered (n m : Nat) (ds : List Defrule) : Prop where
  le : n ≤ m
  number : ∀ d ∈ ds, ∃ k, n ≤ k ∧ k < m ∧ HasNumber d k
  distinct : (ds.map Defrule.name).Nodup

theorem Numbered.append {n m l : Nat} {ds es : List Defrule} (hd : Numbered n m ds)
    (he : Numbered m l es) : Numbered n l (ds ++ es) where
  le := hd.le.trans he.le
  number d h := by
    rcases List.mem_append.mp h with h | h
    · obtain ⟨k, hn, hm, hk⟩ := hd.number d h
      exact ⟨k, hn, hm.trans_le he.le, hk⟩
    · obtain ⟨k, hm, hl, hk⟩ := he.number d h
      exact ⟨k, hd.le.trans hm, hl, hk⟩
  distinct := by
    rw [List.map_append, List.nodup_append]
    refine ⟨hd.distinct, he.distinct, ?_⟩
    rintro x hx y hy rfl
    obtain ⟨d, hdm, rfl⟩ := List.mem_map.mp hx
    obtain ⟨e, hem, hname⟩ := List.mem_map.mp hy
    obtain ⟨k, -, hkm, hk⟩ := hd.number d hdm
    obtain ⟨j, hmj, -, hj⟩ := he.number e hem
    have := hk.unique hj hname.symm
    omega

theorem numbered_nil {n m : Nat} (h : n ≤ m) : Numbered n m [] := ⟨h, by simp, by simp⟩

section Names
variable {φ : Type} {F : FloatText φ}

theorem numbered_defruleOn (rule : PrologRule φ) (n : Nat) (kind : Text) (t : Term φ) (lhs : Text) :
    Numbered n (n + 1) (defruleOn F rule n kind t lhs).toList := by
  rw [defruleOn]
  split
  · refine ⟨Nat.le_succ n, fun d hd => ⟨n, Nat.le_refl n, Nat.lt_succ_self n, ?_⟩, by simp⟩
    obtain rfl := List.mem_singleton.mp hd
    exact ⟨_, rfl⟩
  · exact numbered_nil (Nat.le_succ n)

theorem numbered_goal (rule : PrologRule φ) (n : Nat) (g : BodyGoal φ) :
    Numbered n (transduceGoal F rule n g).2 (transduceGoal F rule n g).1.toList := by
  cases g with
  | negative t => exact numbered_defruleOn rule n _ t _
  | positive t =>
    rw [transduceGoal]
    split
    · exact numbered_nil (Nat.le_refl n)
    · exact numbered_defruleOn rule n _ _ _

theorem numbered_goals (rule : PrologRule φ) (n : Nat) (gs : List (BodyGoal φ)) :
    Numbered n (transduceGoals F rule n gs).2
      ((transduceGoals F rule n gs).1.filterMap fun e => e.2) := by
  induction gs generalizing n with
  | nil => exact numbered_nil (Nat.le_refl n)
  | cons g gs ih =>
    have h := (numbered_goal (F := F) rule n g).append (ih (transduceGoal F rule n g).2)
    rw [transduceGoals]
    cases hd : (transduceGoal F rule n g).1 <;> simpa [hd] using h

/-- The defrules that are emitted. -/
def emitted (F : FloatText φ) (n : Nat) (rules : List (PrologRule φ)) : List Defrule :=
  (transduceRules F n rules).filterMap fun e => e.2.2

theorem numbered_emitted (n : Nat) (rules : List (PrologRule φ)) :
    ∃ m, Numbered n m (emitted F n rules) := by
  induction rules generalizing n with
  | nil => exact ⟨n, numbered_nil (Nat.le_refl n)⟩
  | cons rule rules ih =>
    obtain ⟨m, hm⟩ := ih (transduceGoals F rule n rule.body).2
    refine ⟨m, ?_⟩
    have h := (numbered_goals rule n rule.body).append hm
    simpa [emitted, transduceRules, List.filterMap_append, List.filterMap_map, Function.comp_def]
      using h

end Names

/-! ### Patterns -/

section Patterns
variable {φ : Type} {F : FloatText φ}

theorem symbolChar_plain {c : Char} (h : isSymbolChar c) : isPlain c := by
  have hne : ∀ d : Char, isSymbolChar d = false → c ≠ d := fun d hd he => by simp [he, hd] at h
  simp [isPlain, hne '(' (by decide), hne ')' (by decide), hne '"' (by decide),
    hne ';' (by decide)]

theorem inert_simple {u : Text} (h : ∀ c ∈ u, isSimpleChar c) : Inert u :=
  inert_plain fun c hc => symbolChar_plain (simpleChar_symbolChar (h c hc))

theorem inert_field (t : Term φ) (hvar : ∀ x, t = .var x → IsVarName x) :
    Inert (renderClipsField F t) := by
  cases t with
  | atom s =>
    rw [renderClipsField]
    split
    · next h => exact inert_simple (simple_of_symbol h).2
    · exact inert_clipsString s
  | var x =>
    rw [renderClipsField]
    split
    · exact inert_plain (List.all_eq_true.mp (by decide +kernel))
    · refine inert_plain fun c hc => ?_
      rcases List.mem_cons.mp hc with rfl | hc
      · decide
      · exact symbolChar_plain (ident_symbolChar ((hvar x rfl).2 c hc))
  | integer k => exact inert_simple (simple_i64Text k)
  | float f => exact inert_simple (simple_display f)
  | str s => exact inert_clipsString s
  | compound functor args => exact inert_clipsString _

theorem inert_orderedFact {relation : Text} (hr : ∀ c ∈ relation, isPlain c) {args : List (Term φ)}
    (hvars : ∀ x, .var x ∈ args → IsVarName x) :
    Inert (orderedFact relation (renderClipsFields F args)) := by
  have hfields : Inert (Text.join [' '] (renderClipsFields F args)) := by
    refine Inert.join fun u hu => ?_
    rw [renderClipsFields_eq_map] at hu
    obtain ⟨a, ha, rfl⟩ := List.mem_map.mp hu
    exact inert_field a fun x hx => hvars x (hx ▸ ha)
  have hspace : Inert [' '] := inert_plain (List.all_eq_true.mp (by decide +kernel))
  have htext : orderedFact relation (renderClipsFields F args) =
      '(' :: (relation ++ ([' '] ++ Text.join [' '] (renderClipsFields F args))) ++ [')'] := by
    simp [orderedFact]
  rw [htext]
  exact ((inert_plain hr).append (hspace.append hfields)).parens

theorem plain_clipsSymbolForFunctor {s : Text} (h : ∀ c ∈ s, isSymbolChar c) :
    ∀ c ∈ clipsSymbolForFunctor s, isPlain c := by
  intro c hc
  obtain ⟨e, he, rfl⟩ := List.mem_map.mp hc
  split
  · decide
  · exact symbolChar_plain (h e he)

theorem plain_not {s : Text} (h : ∀ c ∈ s, isPlain c) : ∀ c ∈ "not_".toList ++ s, isPlain c := by
  intro c hc
  rcases List.mem_append.mp hc with hc | hc
  · have hall : ∀ e ∈ "not_".toList, isPlain e := List.all_eq_true.mp (by decide +kernel)
    exact hall c hc
  · exact h c hc

/-- A term that is written like a field, in front of nothing else. -/
theorem inert_renderPrologTerm {t : Term φ} (h : Named t) (hatom : ∀ s, t ≠ .atom s)
    (hcompound : ∀ f args, t ≠ .compound f args) : Inert (renderPrologTerm F t) := by
  cases t with
  | atom s => exact absurd rfl (hatom s)
  | compound f args => exact absurd rfl (hcompound f args)
  | var x =>
    have hx := h x (by simp [collectVars])
    rw [renderPrologTerm, ensurePrologVar_varName hx]
    exact inert_plain fun c hc => symbolChar_plain (ident_symbolChar (hx.2 c hc))
  | integer k => exact inert_simple (simple_i64Text k)
  | float f => exact inert_simple (simple_display f)
  | str s => exact inert_clipsString s

/-- Where the functor is a symbol, the left-hand side is one form for the scanner, whatever the
arguments are. -/
theorem inert_patternOf {g : BodyGoal φ} (hg : ∀ x, g ≠ .positive (.var x)) (hnamed : Named g.term)
    (hfunctor : ∀ c ∈ termFunctorName g.term, isSymbolChar c) : Inert (patternOf F g) := by
  have hargs := named_args hnamed
  cases g with
  | positive t =>
    cases t with
    | atom s => exact (inert_plain (plain_clipsSymbolForFunctor hfunctor)).parens
    | compound f args => exact inert_orderedFact (plain_clipsSymbolForFunctor hfunctor) hargs
    | var x => exact absurd rfl (hg x)
    | integer k => exact inert_simple (simple_i64Text k)
    | float f => exact inert_simple (simple_display f)
    | str s => exact inert_clipsString s
  | negative t =>
    have hplain : ∀ c ∈ termFunctorName t, isPlain c := fun c hc => symbolChar_plain (hfunctor c hc)
    have hnot : Inert "not_".toList := inert_plain (List.all_eq_true.mp (by decide +kernel))
    cases t with
    | atom s => exact (inert_plain (plain_not hplain)).parens
    | compound f args => exact inert_orderedFact (plain_not hplain) hargs
    | _ =>
      exact (hnot.append (inert_renderPrologTerm hnamed (by simp [BodyGoal.term])
        (by simp [BodyGoal.term]))).parens

end Patterns

/-! ### What is loaded -/

section Loading
variable {φ : Type} (F : FloatText φ)

/-- The transduced text splits into the emitted defrules, each of them one construct by itself,
under names that are symbols and all different. -/
structure Loadable (rules : List (PrologRule φ)) : Prop where
  split : splitClipsConstructs (String.ofList (transduce F rules)) =
    (emitted F 0 rules).map fun d => String.ofList d.form
  single : ∀ d ∈ emitted F 0 rules,
    splitClipsConstructs (String.ofList d.form) = [String.ofList d.form]
  distinct : ((emitted F 0 rules).map Defrule.name).Nodup
  symbols : ∀ d ∈ emitted F 0 rules, isSymbol d.name

/-- The functors of the head and of the goal are written into a symbol and a pattern, and the
head between double quotes. Where it has double quotes of its own, what comes to stand outside of
them has to be balanced and without comment. -/
structure WritesOneForm (rule : PrologRule φ) (g : BodyGoal φ) : Prop where
  head : ∀ c ∈ termFunctorName rule.head, isSymbolChar c
  trigger : ∀ c ∈ termFunctorName g.term, isSymbolChar c
  goal : pass .code 2 (renderHeadGoalExpr F rule.head (collectVars g.term)) = some (.code, 2)

/-- The rule is written into the comment. What comes to stand behind a line feed of its own begins
no construct and leaves none open. -/
def NoteKept (rule : PrologRule φ) : Prop :=
  pass .comment 0 (formatRuleComment F rule ++ ['\n']) = some (.code, 0)

variable {F}

def kindOf : BodyGoal φ → Text
  | .positive _ => "-on-".toList
  | .negative _ => "-on-not_".toList

theorem defruleOn_name {rule : PrologRule φ} {n : Nat} {kind lhs : Text} {t : Term φ} {d : Defrule}
    (h : defruleOn F rule n kind t lhs = some d) : d.comment = formatRuleComment F rule ∧
      d.name = "transduced-".toList ++ termFunctorName rule.head ++ kind ++ termFunctorName t ++
        '-' :: Nat.toDigits 10 n := by
  rw [defruleOn] at h
  split at h
  · obtain rfl := Option.some.inj h
    exact ⟨rfl, rfl⟩
  · cases h

theorem transduceGoal_name {rule : PrologRule φ} {n : Nat} {g : BodyGoal φ} {d : Defrule}
    (h : (transduceGoal F rule n g).1 = some d) : d.comment = formatRuleComment F rule ∧
      d.name = "transduced-".toList ++ termFunctorName rule.head ++ kindOf g ++
        termFunctorName g.term ++ '-' :: Nat.toDigits 10 n := by
  cases g with
  | negative t => exact defruleOn_name h
  | positive t =>
    rw [transduceGoal] at h
    split at h
    · cases h
    · next t' htrig =>
      obtain ⟨rfl, -⟩ := effectiveTrigger_eq htrig
      exact defruleOn_name h

/-- The name is a symbol exactly when both functors are written in the characters of one. -/
theorem symbol_name_iff {rule : PrologRule φ} {n : Nat} {g : BodyGoal φ} {d : Defrule}
    (h : (transduceGoal F rule n g).1 = some d) :
    (isSymbol d.name ↔ ∀ c ∈ d.name, isSymbolChar c) ∧
      (isSymbol d.name ↔ (∀ c ∈ termFunctorName rule.head, isSymbolChar c) ∧
        ∀ c ∈ termFunctorName g.term, isSymbolChar c) := by
  have ht : isSymbolChar 't' := by decide
  have hletter : ∀ s : Text, isSymbol ('t' :: s) ↔ ∀ c ∈ s, isSymbolChar c := by
    intro s
    have hbare : bareToken 't' ('t' :: s) = .symbol ('t' :: s) := rfl
    simp [isSymbol, hbare, ht]
  have hfront : ∀ c ∈ "ransduced-".toList, isSymbolChar c := List.all_eq_true.mp (by decide +kernel)
  have hkind : ∀ c ∈ kindOf g, isSymbolChar c := by
    cases g with
    | positive t =>
      have : ∀ c ∈ "-on-".toList, isSymbolChar c := List.all_eq_true.mp (by decide +kernel)
      exact this
    | negative t =>
      have : ∀ c ∈ "-on-not_".toList, isSymbolChar c := List.all_eq_true.mp (by decide +kernel)
      exact this
  have hnumber : ∀ c ∈ '-' :: Nat.toDigits 10 n, isSymbolChar c := by
    intro c hc
    rcases List.mem_cons.mp hc with rfl | hc
    · decide
    · have hdigit := Nat.isDigit_of_mem_toDigits (by decide) (by decide) hc
      exact ident_symbolChar (isIdent_iff.mpr (.inr (.inr (.inl hdigit))))
  have hname : d.name = 't' :: ("ransduced-".toList ++ (termFunctorName rule.head ++ (kindOf g ++
      (termFunctorName g.term ++ '-' :: Nat.toDigits 10 n)))) := by
    rw [(transduceGoal_name h).2, List.append_assoc, List.append_assoc, List.append_assoc]
    have : "transduced-".toList = 't' :: "ransduced-".toList := by decide +kernel
    rw [this, List.cons_append]
  rw [hname, hletter]
  refine ⟨⟨fun hall c hc => ?_, fun hall c hc => hall c (List.mem_cons_of_mem _ hc)⟩, ?_⟩
  · rcases List.mem_cons.mp hc with rfl | hc
    · exact ht
    · exact hall c hc
  · simp only [List.forall_mem_append]
    exact ⟨fun hall => ⟨hall.2.1, hall.2.2.2.1⟩,
      fun hboth => ⟨hfront, hboth.1, hkind, hboth.2, hnumber⟩⟩

theorem mem_emitted {rules : List (PrologRule φ)} {n : Nat} {d : Defrule} :
    d ∈ emitted F n rules ↔ ∃ rule g, (rule, g, some d) ∈ transduceRules F n rules := by
  simp [emitted]

/-- What comes in front of the right-hand side passes. -/
theorem pass_inside {d : Defrule} (hname : ∀ c ∈ d.name, isSymbolChar c) (hlhs : Inert d.lhs) :
    pass .code 1 d.inside = some (.code, 1) ↔ pass .code 2 d.rhs = some (.code, 2) := by
  have hkeyword : Inert "defrule ".toList := inert_plain (List.all_eq_true.mp (by decide +kernel))
  have hindent : Inert "\n    ".toList := inert_plain (List.all_eq_true.mp (by decide +kernel))
  have harrow : Inert "\n    =>\n    ".toList := inert_plain (List.all_eq_true.mp (by decide +kernel))
  have hcall : Inert "coire-publish-goal ".toList := inert_plain (List.all_eq_true.mp (by decide +kernel))
  have hfront : Inert ("defrule ".toList ++ d.name ++ "\n    ".toList ++ d.lhs ++
      "\n    =>\n    ".toList) :=
    (((hkeyword.append (inert_plain fun c hc => symbolChar_plain (hname c hc))).append hindent).append
      hlhs).append harrow
  have hsplit : "\n    =>\n    (coire-publish-goal ".toList =
      "\n    =>\n    ".toList ++ ['('] ++ "coire-publish-goal ".toList := by decide +kernel
  have htext : d.inside = ("defrule ".toList ++ d.name ++ "\n    ".toList ++ d.lhs ++
      "\n    =>\n    ".toList) ++ ('(' :: ("coire-publish-goal ".toList ++ (d.rhs ++ [')']))) := by
    unfold Defrule.inside
    rw [hsplit]
    generalize "defrule ".toList = keyword
    generalize "\n    ".toList = indent
    generalize "\n    =>\n    ".toList = arrow
    generalize "coire-publish-goal ".toList = call
    simp
  rw [htext, pass_trans (hfront 1 (by decide)), pass_open (by decide),
    pass_trans (hcall _ (by decide)), pass_append, one_add_one_eq_two]
  constructor
  · intro h
    obtain ⟨⟨p, k⟩, hrhs, hlast⟩ := Option.bind_eq_some_iff.mp h
    simp only [pass] at hlast
    split at hlast
    · obtain ⟨hplace, hdepth⟩ := Prod.mk.inj (Option.some.inj hlast)
      obtain rfl : p = .code := by
        cases p <;> simp [Place.next] at hplace ⊢
      have hclose : Place.code.depth k ')' = k - 1 := by simp [Place.depth]
      obtain rfl : k = 2 := by omega
      exact hrhs
    · cases hlast
  · intro h
    rw [h]
    rfl

theorem pass_note {d : Defrule} {rule : PrologRule φ} (hcomment : d.comment = formatRuleComment F rule)
    (h : NoteKept F rule) : pass .code 0 d.note = some (.code, 0) := by
  have hfront : pass .code 0 "; Transduced from: ".toList = some (.comment, 0) := by decide +kernel
  unfold Defrule.note
  rw [List.append_assoc, pass_trans hfront, hcomment]
  exact h

/-- An emitted defrule is one construct under a symbol exactly when its rule and its goal write one
form. -/
theorem one_form_iff {rules : List (PrologRule φ)} (hnamed : ∀ rule ∈ rules, NamedRule rule)
    {rule : PrologRule φ} {g : BodyGoal φ} {d : Defrule} {n : Nat}
    (h : (rule, g, some d) ∈ transduceRules F n rules) :
    (splitClipsConstructs (String.ofList d.form) = [String.ofList d.form] ∧ isSymbol d.name) ↔
      WritesOneForm F rule g := by
  obtain ⟨hrule, hg, k, hk⟩ := mem_transduceRules h
  obtain ⟨hlhs, hrhs, -, hvar⟩ := transduceGoal_eq hk
  obtain ⟨hchars, hname⟩ := symbol_name_iff hk
  have hpass : isSymbol d.name → (pass .code 1 d.inside = some (.code, 1) ↔
      pass .code 2 (renderHeadGoalExpr F rule.head (collectVars g.term)) = some (.code, 2)) := by
    intro hsymbol
    rw [← hrhs]
    refine pass_inside (hchars.mp hsymbol) ?_
    rw [hlhs]
    exact inert_patternOf hvar ((hnamed rule hrule).body g hg) (hname.mp hsymbol).2
  rw [Defrule.form, split_form_iff]
  constructor
  · rintro ⟨hone, hsymbol⟩
    exact ⟨(hname.mp hsymbol).1, (hname.mp hsymbol).2, (hpass hsymbol).mp hone⟩
  · rintro ⟨hhead, htrigger, hgoal⟩
    have hsymbol := hname.mpr ⟨hhead, htrigger⟩
    exact ⟨(hpass hsymbol).mpr hgoal, hsymbol⟩

/-- The names are always different. The defrules are one construct each, under single symbols,
exactly when every emitted defrule's rule and goal write one form; and if besides no comment gets in
the way, the text splits into just them. -/
theorem transduced_loadable (F : FloatText φ) (source : Text) :
    let rules := parsePrologRules F source
    ((emitted F 0 rules).map Defrule.name).Nodup ∧
    ((∀ d ∈ emitted F 0 rules, splitClipsConstructs (String.ofList d.form) =
        [String.ofList d.form] ∧ isSymbol d.name) ↔
      ∀ rule g d, (rule, g, some d) ∈ transduceRules F 0 rules → WritesOneForm F rule g) ∧
    ((∀ rule g d, (rule, g, some d) ∈ transduceRules F 0 rules →
        WritesOneForm F rule g ∧ NoteKept F rule) → Loadable F rules) := by
  intro rules
  have hnamed : ∀ rule ∈ rules, NamedRule rule := fun rule hrule => parsePrologRules_named hrule
  obtain ⟨m, hnumbered⟩ := numbered_emitted (F := F) 0 rules
  have hiff : (∀ d ∈ emitted F 0 rules, splitClipsConstructs (String.ofList d.form) =
        [String.ofList d.form] ∧ isSymbol d.name) ↔
      ∀ rule g d, (rule, g, some d) ∈ transduceRules F 0 rules → WritesOneForm F rule g := by
    constructor
    · intro h rule g d hd
      exact (one_form_iff hnamed hd).mp (h d (mem_emitted.mpr ⟨rule, g, hd⟩))
    · intro h d hd
      obtain ⟨rule, g, hd⟩ := mem_emitted.mp hd
      exact (one_form_iff hnamed hd).mpr (h rule g d hd)
  refine ⟨hnumbered.distinct, hiff, fun h => ?_⟩
  have hforms := hiff.mpr fun rule g d hd => (h rule g d hd).1
  refine ⟨?_, fun d hd => (hforms d hd).1, hnumbered.distinct, fun d hd => (hforms d hd).2⟩
  have hnote : ∀ d ∈ emitted F 0 rules, pass .code 0 d.note = some (.code, 0) := by
    intro d hd
    obtain ⟨rule, g, hd⟩ := mem_emitted.mp hd
    obtain ⟨-, -, k, hk⟩ := mem_transduceRules hd
    exact pass_note (transduceGoal_name hk).1 (h rule g d hd).2
  have hwhole : transduce F rules = [] ++ (emitted F 0 rules).flatMap Defrule.text := rfl
  have hover := through_texts (s := {}) hnote (fun d hd => (split_form_iff _).mp (hforms d hd).1)
    hwhole rfl
  rw [splitClipsConstructs_eq]
  exact (congrArg (List.map String.ofList) hover).trans (List.map_map ..)

end Loading

/-- A rule whose text needs no quotes is loaded. -/
theorem plain_rule_loadable :
    Loadable noFloats (parsePrologRules noFloats "p(X) :- q(X), \\+ r(X, 'a b').".toList) := by
  refine (transduced_loadable noFloats _).2.2 fun rule g d h => ?_
  have hrules : parsePrologRules noFloats "p(X) :- q(X), \\+ r(X, 'a b').".toList =
      [⟨.compound ['p'] [.var ['X']], [.positive (.compound ['q'] [.var ['X']]),
        .negative (.compound ['r'] [.var ['X'], .atom "a b".toList])]⟩] := by decide +kernel
  rw [hrules] at h
  obtain ⟨hrule, hg, -⟩ := mem_transduceRules h
  simp only [List.mem_singleton] at hrule
  subst hrule
  simp only [List.mem_cons, List.not_mem_nil, or_false] at hg
  rcases hg with rfl | rfl
  · refine ⟨⟨List.all_eq_true.mp (by decide +kernel), List.all_eq_true.mp (by decide +kernel),
      by decide +kernel⟩, ?_⟩
    unfold NoteKept
    decide +kernel
  · refine ⟨⟨List.all_eq_true.mp (by decide +kernel), List.all_eq_true.mp (by decide +kernel),
      by decide +kernel⟩, ?_⟩
    unfold NoteKept
    decide +kernel

/-- A line feed in an atom ends the comment of the rule, and the parenthesis behind it brings the
depth below zero: the forms inside the defrule are taken for constructs. -/
theorem line_feed_unloads :
    ¬∀ source : Text, Loadable noFloats (parsePrologRules noFloats source) := by
  intro h
  have hsplit := (h "p('a\\nb') :- q.".toList).split
  have hleft : (splitClipsConstructs (String.ofList (transduce noFloats
      (parsePrologRules noFloats "p('a\\nb') :- q.".toList)))).length = 2 := by decide +kernel
  have hright : (emitted noFloats 0
      (parsePrologRules noFloats "p('a\\nb') :- q.".toList)).length = 1 := by decide +kernel
  rw [hsplit, List.length_map, hright] at hleft
  cases hleft

end Cerebellum.Transpile
