import Cerebellum.ReadBack
import Cerebellum.ClipsFields

/-! The text of a relayed fact and of a relayed retract as one form of CLIPS each: the functor is
written as it is, and whether it stays one symbol decides. -/
namespace Cerebellum.Clips

/-! ### Blanks and comments around a symbol -/

/-- White space and whole comments, from inside a comment or not. -/
def isBlankText (inComment : Bool) : Text → Bool
  | [] => !inComment
  | c :: u =>
    if inComment then isBlankText (!(c == '\n' || c == '\r')) u
    else if isBlank c then isBlankText false u
    else c = ';' && isBlankText true u

theorem skipBlank_append {b : Bool} {w : Text} (h : isBlankText b w) (u : Text) :
    skipBlank b (w ++ u) = skipBlank false u := by
  induction w generalizing b with
  | nil =>
    obtain rfl : b = false := by simpa [isBlankText] using h
    rfl
  | cons c w ih =>
    rw [List.cons_append, skipBlank]
    rw [isBlankText] at h
    cases b with
    | true => exact ih h
    | false =>
      simp only [Bool.false_eq_true, if_false] at h ⊢
      split
      · next hc =>
        rw [if_pos hc] at h
        exact ih h
      · next hc =>
        rw [if_neg hc, Bool.and_eq_true, decide_eq_true_eq] at h
        rw [if_pos h.1]
        exact ih h.2

/-- A text is blank, or goes on with a token, or ends inside a comment. -/
theorem skipBlank_cases (b : Bool) (y : Text) :
    isBlankText b y ∨
      (∃ w c z, y = w ++ c :: z ∧ isBlankText b w ∧ isBlank c = false ∧ c ≠ ';') ∨
      ∀ u, skipBlank b (y ++ u) = skipBlank true u := by
  induction y generalizing b with
  | nil =>
    cases b with
    | true => exact .inr (.inr fun _ => rfl)
    | false => exact .inl rfl
  | cons c y ih =>
    have hstep : ∀ b', (isBlankText b (c :: y) = isBlankText b' y) →
        (∀ w, isBlankText b (c :: w) = isBlankText b' w) →
        (∀ u, skipBlank b (c :: u) = skipBlank b' u) →
        isBlankText b (c :: y) ∨
          (∃ w d z, c :: y = w ++ d :: z ∧ isBlankText b w ∧ isBlank d = false ∧ d ≠ ';') ∨
          ∀ u, skipBlank b (c :: y ++ u) = skipBlank true u := by
      intro b' hy hw hu
      rcases ih b' with h | ⟨w, d, z, rfl, hblank, hd⟩ | h
      · exact .inl (hy ▸ h)
      · exact .inr (.inl ⟨c :: w, d, z, rfl, by rw [hw]; exact hblank, hd⟩)
      · exact .inr (.inr fun u => by rw [List.cons_append, hu, h])
    cases b with
    | true => exact hstep (!(c == '\n' || c == '\r')) rfl (fun _ => rfl) fun _ => rfl
    | false =>
      by_cases hblank : isBlank c
      · refine hstep false ?_ (fun w => ?_) fun u => ?_
        · simp [isBlankText, hblank]
        · simp [isBlankText, hblank]
        · simp [skipBlank, hblank]
      by_cases hc : c = ';'
      · subst hc
        exact hstep true rfl (fun _ => rfl) fun _ => rfl
      · exact .inr (.inl ⟨[], c, y, rfl, rfl, by simpa using hblank, hc⟩)

theorem scan_skip {u v : Text} (h : skipBlank false u = skipBlank false v) : scan u = scan v := by
  have hget : getToken u = getToken v := by rw [getToken, getToken, h]
  cases hv : getToken v with
  | none =>
    rw [scan, scan, tokens, tokens, hget, hv]
  | some tv => rw [scan_of_getToken hv, scan_of_getToken (hget.trans hv)]

theorem scan_blank {w : Text} (h : isBlankText false w) (u : Text) : scan (w ++ u) = scan u :=
  scan_skip (skipBlank_append h u)

/-- One symbol, wherever it stands. -/
def IsOneSymbol (s : Text) : Prop :=
  ∃ w r v, s = w ++ r ++ v ∧ isBlankText false w ∧ isSymbol r ∧ isBlankText false v

theorem blankText_head {v : Text} (h : isBlankText false v) {u : Text}
    (hu : ∀ e ∈ u.head?, isSymbolChar e = false) :
    ∀ e ∈ (v ++ u).head?, isSymbolChar e = false := by
  cases v with
  | nil => exact hu
  | cons c v =>
    intro e he
    obtain rfl : c = e := by simpa using he
    by_contra hsym
    have hsym : isSymbolChar c := by simpa using hsym
    have hskip := skipBlank_symbolChar hsym (v ++ [])
    rw [← List.cons_append, skipBlank_append h] at hskip
    cases hskip

theorem IsOneSymbol.isField {s : Text} (h : IsOneSymbol s) : ∃ r, IsField s (.symbol r) := by
  obtain ⟨w, r, v, rfl, hw, hr, hv⟩ := h
  refine ⟨r, fun d u hd => ?_⟩
  have hend : ∀ e ∈ (d :: u).head?, isSymbolChar e = false := by simp [end_not_symbolChar hd]
  rw [List.append_assoc, List.append_assoc, scan_blank hw, scan_symbol_append hr
    (blankText_head hv hend), scan_blank hv]

theorem getToken_not_symbol {c : Char} (hblank : isBlank c = false) (hsemi : c ≠ ';')
    (hlt : c ≠ '<') (hc : isSymbolChar c = false) (u r v : Text) :
    getToken (c :: u) ≠ some (.symbol r, v) := by
  have hq : c ≠ '?' := by
    rintro rfl
    cases hc
  have hskip : skipBlank false (c :: u) = c :: u := by simp [skipBlank, hblank, hsemi]
  rw [getToken.eq_def, hskip]
  simp only [hlt, hq, hc, if_false]
  intro h
  split at h
  · cases h
  split at h
  · cases h
  split at h
  · split at h <;> cases h
  split at h
  · next hdollar =>
    simp only [decide_false, Bool.false_or, Bool.and_eq_true, decide_eq_true_eq] at hdollar
    rw [hdollar.1] at hc
    cases hc
  · simp at h

theorem variableToken_ne_rparen (u v : Text) : variableToken u ≠ (.rparen, v) := by
  unfold variableToken
  split
  · simp
  split
  · simp
  split <;> simp

theorem bareToken_ne_rparen (c : Char) (s : Text) : bareToken c s ≠ .rparen := by
  unfold bareToken symbolToken
  repeat' split
  all_goals simp

/-- Only the parenthesis is read as one. -/
theorem getToken_rparen {c : Char} (hblank : isBlank c = false) (hsemi : c ≠ ';') {u v : Text}
    (h : getToken (c :: u) = some (.rparen, v)) : c = ')' := by
  by_contra hne
  have hskip : skipBlank false (c :: u) = c :: u := by simp [skipBlank, hblank, hsemi]
  rw [getToken.eq_def, hskip] at h
  simp only [hne, if_false] at h
  split at h
  · cases h
  split at h
  · split at h <;> cases h
  split at h
  · exact variableToken_ne_rparen u v (Option.some.inj h)
  split at h
  · cases h
  split at h
  · cases h
  · exact bareToken_ne_rparen _ _ (Prod.mk.inj (Option.some.inj h)).1

/-- A name that begins with a symbol, in front of the end of a form. -/
theorem scan_symbol_split {s r : Text} {ts : List Token} (h : scan (s ++ [')']) = .symbol r :: ts) :
    ∃ w y, s = w ++ r ++ y ∧ isBlankText false w ∧ isSymbol r ∧
      ∀ e ∈ y.head?, isSymbolChar e = false := by
  rcases skipBlank_cases false s with hs | ⟨w, c, z, rfl, hw, hblank, hsemi⟩ | hs
  · rw [scan_blank hs, scan_rparen] at h
    cases h
  · rw [List.append_assoc, scan_blank hw] at h
    obtain ⟨v, hget⟩ := getToken_of_scan h
    have hsplit : z.takeWhile isSymbolChar ++ z.dropWhile isSymbolChar = z :=
      List.takeWhile_append_dropWhile
    have hstop : ∀ e ∈ (z.dropWhile isSymbolChar).head?, isSymbolChar e = false := by
      intro e he
      have hnot := List.head?_dropWhile_not isSymbolChar z
      rw [Option.mem_def.mp he] at hnot
      exact hnot
    have hstop' : ∀ e ∈ (z.dropWhile isSymbolChar ++ [')']).head?, isSymbolChar e = false := by
      cases hz : z.dropWhile isSymbolChar with
      | nil => simp; decide
      | cons e y =>
        rw [hz] at hstop
        simpa using hstop
    by_cases hbare : c = '<' ∨ isSymbolChar c = true
    · have hisBare : isBare (c :: z.takeWhile isSymbolChar) := by
        simp only [isBare, Bool.and_eq_true, Bool.or_eq_true, beq_iff_eq, List.all_eq_true]
        exact ⟨hbare, fun d hd => List.mem_takeWhile_imp hd⟩
      have htext : c :: z ++ [')'] =
          c :: z.takeWhile isSymbolChar ++ (z.dropWhile isSymbolChar ++ [')']) := by
        rw [← List.append_assoc]
        exact congrArg (c :: · ++ [')']) hsplit.symm
      rw [htext] at hget
      obtain ⟨hsym, rfl⟩ := getToken_symbol hisBare hstop' hget
      refine ⟨w, z.dropWhile isSymbolChar, ?_, hw, hsym, hstop⟩
      rw [List.append_assoc, List.cons_append, hsplit]
    · rw [not_or] at hbare
      exact absurd hget (getToken_not_symbol hblank hsemi hbare.1 (by simpa using hbare.2) _ r v)
  · have hend : scan (s ++ [')']) = [] := by
      rw [scan, tokens, getToken, hs]
      rfl
    rw [hend] at h
    cases h

/-! ### Forms -/

/-- One form: a symbol and `n` fields. -/
def IsForm (n : Nat) (u : Text) : Prop :=
  ∃ r ts, scan u = .lparen :: .symbol r :: ts ++ [.rparen] ∧ ts.length = n ∧
    ∀ t ∈ ts, t.isConstraint

/-- `TRUE`, or `(eq ?f:implied (create$ field …))`. -/
inductive Condition where
  | all
  | implied (fields : List Token) (constant : ∀ t ∈ fields, t.isConstant)

def Condition.tokens : Condition → List Token
  | all => [.symbol "TRUE".toList]
  | implied fields _ =>
    .lparen :: .symbol "eq".toList :: .var "f:implied".toList :: .lparen ::
      .symbol "create$".toList :: fields ++ [.rparen, .rparen]

/-- `(do-for-all-facts ((?f template)) condition (retract ?f))`. -/
structure Query where
  template : Text
  condition : Condition

def Query.tokens (q : Query) : List Token :=
  .lparen :: .symbol "do-for-all-facts".toList :: .lparen :: .lparen :: .var "f".toList ::
    .symbol q.template :: .rparen :: .rparen :: (q.condition.tokens ++
      [.lparen, .symbol "retract".toList, .var "f".toList, .rparen, .rparen])

/-- CLIPS reads the text as this query, and as nothing besides. -/
def ReadsQuery (u : Text) (q : Query) : Prop := scan u = q.tokens

theorem Condition.tokens_inj {c d : Condition} {ts : List Token}
    (h : c.tokens ++ ts = d.tokens ++ ts) : c = d := by
  have h := List.append_cancel_right h
  cases c with
  | all =>
    cases d with
    | all => rfl
    | implied fields _ => simp [tokens] at h
  | implied fields _ =>
    cases d with
    | all => simp [tokens] at h
    | implied fields' _ =>
      simp only [tokens, List.cons_append, List.cons.injEq, true_and] at h
      obtain rfl := List.append_cancel_right h
      rfl

/-- A text is at most one query. -/
theorem ReadsQuery.unique {u : Text} {q p : Query} (hq : ReadsQuery u q) (hp : ReadsQuery u p) :
    q = p := by
  have h : q.tokens = p.tokens := hq.symm.trans hp
  obtain ⟨r, c⟩ := q
  obtain ⟨s, d⟩ := p
  simp only [Query.tokens, List.cons.injEq, Token.symbol.injEq, true_and] at h
  rw [h.1, Condition.tokens_inj h.2]

theorem isField_f : IsField "?f".toList (.var "f".toList) :=
  isField_var rfl (List.all_eq_true.mp rfl)

theorem isField_implied : IsField "?f:implied".toList (.var "f:implied".toList) :=
  isField_var rfl (List.all_eq_true.mp rfl)

def queryText (template condition : Text) : Text :=
  "(do-for-all-facts ((?f ".toList ++ template ++ ")) ".toList ++ condition ++
    " (retract ?f))".toList

def createText (fields : Text) : Text := "(eq ?f:implied (create$ ".toList ++ fields ++ "))".toList

/-- The text of a query, from those of its template and its condition. -/
theorem readsQuery_text {template condition r : Text} {c : Condition}
    (hr : IsField template (.symbol r))
    (hc : ∀ u, scan (condition ++ ' ' :: u) = c.tokens ++ scan (' ' :: u)) :
    ReadsQuery (queryText template condition) ⟨r, c⟩ := by
  have htail : scan " (retract ?f))".toList =
      [.lparen, .symbol "retract".toList, .var "f".toList, .rparen, .rparen] := by decide
  have htext : queryText template condition =
      '(' :: ("do-for-all-facts".toList ++ ' ' :: '(' :: '(' :: ("?f".toList ++ ' ' ::
        (template ++ ')' :: ')' :: ' ' :: (condition ++ ' ' :: "(retract ?f))".toList)))) := by
    unfold queryText
    simp [List.append_assoc]
  have hdo := isField_symbol (s := "do-for-all-facts".toList) (by decide)
  rw [ReadsQuery, htext, scan_lparen, hdo ' ' _ (.inl rfl), scan_space, scan_lparen, scan_lparen,
    isField_f ' ' _ (.inl rfl), scan_space, hr ')' _ (.inr rfl), scan_rparen, scan_rparen,
    scan_space, hc]
  change _ :: _ :: _ :: _ :: _ :: _ :: _ :: _ :: (_ ++ scan " (retract ?f))".toList) = _
  rw [htail]
  rfl

theorem scan_true (u : Text) :
    scan ("TRUE".toList ++ ' ' :: u) = Condition.all.tokens ++ scan (' ' :: u) :=
  isField_symbol (s := "TRUE".toList) (by decide) ' ' u (.inl rfl)

theorem scan_eq_create {rs : List Text} {ts : List Token} (h : List.Forall₂ IsField rs ts)
    (hts : ∀ t ∈ ts, t.isConstant) (u : Text) :
    scan (createText (Text.join [' '] rs) ++ ' ' :: u) =
      (Condition.implied ts hts).tokens ++ scan (' ' :: u) := by
  have htext : createText (Text.join [' '] rs) ++ ' ' :: u =
      '(' :: ("eq".toList ++ ' ' :: ("?f:implied".toList ++ ' ' :: '(' :: ("create$".toList ++
        ' ' :: (Text.join [' '] rs ++ ')' :: ')' :: ' ' :: u)))) := by
    unfold createText
    simp [List.append_assoc]
  have heq := isField_symbol (s := "eq".toList) (by decide)
  have hcreate := isField_symbol (s := "create$".toList) (by decide)
  rw [htext, scan_lparen, heq ' ' _ (.inl rfl), scan_space, isField_implied ' ' _ (.inl rfl),
    scan_space, scan_lparen, hcreate ' ' _ (.inl rfl), scan_space, scan_join h, scan_rparen]
  simp [Condition.tokens]

end Cerebellum.Clips

namespace Cerebellum.Transpile
open Clips

section Relayed
variable {φ : Type} {F : FloatText φ}

theorem isForm_renderClipsFact {t : Term φ} (hc : isCallable t)
    (hvars : ∀ x, .var x ∈ arguments t → IsVarName x)
    (h : IsOneSymbol (clipsSymbolForFunctor (termFunctorName t))) :
    IsForm (arguments t).length (renderClipsFact F t) := by
  obtain ⟨r, hr⟩ := h.isField
  cases t with
  | atom s => exact ⟨r, [], scan_form_nil hr, rfl, by simp⟩
  | compound functor args =>
    refine ⟨r, args.map (fieldToken F), scan_form hr (fields_of_args hvars),
      by simp [arguments], ?_⟩
    intro f hf
    obtain ⟨a, -, rfl⟩ := List.mem_map.mp hf
    exact fieldToken_isConstraint a
  | _ => cases hc

theorem renderClipsRetract_atom (s : Text) : renderClipsRetract F (.atom s : Term φ) =
    queryText (clipsSymbolForFunctor s) "TRUE".toList := rfl

theorem renderClipsRetract_compound (functor : Text) (args : List (Term φ)) :
    renderClipsRetract F (.compound functor args) = queryText (clipsSymbolForFunctor functor)
      (if !args.isEmpty && termsAreGround args then
        createText (Text.join [' '] (renderClipsFields F args))
      else "TRUE".toList) := rfl

/-- The condition that is written for a term. -/
def retractCondition (F : FloatText φ) (args : List (Term φ)) (c : Condition) : Prop :=
  if !args.isEmpty && termsAreGround args then
    ∃ h, c = .implied (args.map (fieldToken F)) h
  else c = .all

theorem readsQuery_renderClipsRetract {t : Term φ} (hc : isCallable t) {r : Text}
    (hr : IsField (clipsSymbolForFunctor (termFunctorName t)) (.symbol r)) :
    ∃ c, retractCondition F (arguments t) c ∧ ReadsQuery (renderClipsRetract F t) ⟨r, c⟩ := by
  cases t with
  | atom s =>
    refine ⟨.all, rfl, ?_⟩
    rw [renderClipsRetract_atom]
    exact readsQuery_text hr scan_true
  | compound functor args =>
    by_cases hground : (!args.isEmpty && termsAreGround args) = true
    · have hg : ∀ a ∈ args, termIsGround a := by
        rw [Bool.and_eq_true] at hground
        exact (termsAreGround_iff args).mp hground.2
      have hnone : ∀ x, .var x ∉ args := fun x hx => by simpa [termIsGround] using hg _ hx
      have hts : ∀ f ∈ args.map (fieldToken F), f.isConstant := by
        intro f hf
        obtain ⟨a, ha, rfl⟩ := List.mem_map.mp hf
        exact fieldToken_isConstant fun x hx => hnone x (hx ▸ ha)
      refine ⟨.implied (args.map (fieldToken F)) hts, ?_, ?_⟩
      · rw [retractCondition, arguments, if_pos hground]
        exact ⟨hts, rfl⟩
      · rw [renderClipsRetract_compound, if_pos hground]
        exact readsQuery_text hr
          (scan_eq_create (fields_of_args fun x hx => absurd hx (hnone x)) hts)
    · refine ⟨.all, ?_, ?_⟩
      · rw [retractCondition, arguments, if_neg hground]
      · rw [renderClipsRetract_compound, if_neg hground]
        exact readsQuery_text hr scan_true
  | _ => cases hc

/-- The atom and a compound of one argument are enough to see that it has to be one. -/
theorem oneSymbol_of_forms {functor : Text}
    (hatom : IsForm 0 (renderClipsFact F (.atom functor : Term φ)))
    (hcompound : IsForm 1 (renderClipsFact F (.compound functor [.integer 0]))) :
    IsOneSymbol (clipsSymbolForFunctor functor) := by
  obtain ⟨r, ts, hscan, hlen, -⟩ := hatom
  obtain rfl := List.length_eq_zero_iff.mp hlen
  rw [renderClipsFact, List.cons_append, scan_lparen] at hscan
  have hsymbol : scan (clipsSymbolForFunctor functor ++ [')']) = [.symbol r, .rparen] :=
    (List.cons.inj hscan).2
  obtain ⟨w, y, hsplit, hw, hr, hstop⟩ := scan_symbol_split hsymbol
  refine ⟨w, r, y, hsplit, hw, hr, ?_⟩
  have hrest : ∀ u, (∀ e ∈ u.head?, isSymbolChar e = false) →
      scan (clipsSymbolForFunctor functor ++ u) = .symbol r :: scan (y ++ u) := by
    intro u hu
    have hhead : ∀ e ∈ (y ++ u).head?, isSymbolChar e = false := by
      cases y with
      | nil => exact hu
      | cons e y => simpa using hstop
    rw [hsplit, List.append_assoc, List.append_assoc, scan_blank hw, scan_symbol_append hr hhead]
  rw [hrest _ (by simp; decide)] at hsymbol
  have hclose : scan (y ++ [')']) = [.rparen] := (List.cons.inj hsymbol).2
  rcases skipBlank_cases false y with hy | ⟨v, c, z, rfl, hv, hblank, hsemi⟩ | hy
  · exact hy
  · -- what is left of the name would have to be the closing parenthesis
    exfalso
    have hc : c = ')' := by
      rw [List.append_assoc, scan_blank hv] at hclose
      obtain ⟨u, hget⟩ := getToken_of_scan hclose
      exact getToken_rparen hblank hsemi hget
    subst hc
    obtain ⟨r', ts', hscan', hlen', hts'⟩ := hcompound
    obtain ⟨t, rfl⟩ := List.length_eq_one_iff.mp hlen'
    have htext : renderClipsFact F (.compound functor [.integer 0] : Term φ) =
        '(' :: (clipsSymbolForFunctor functor ++ ' ' :: (i64Text 0 ++ [')'])) := by
      simp [renderClipsFact, orderedFact, renderClipsFields, renderClipsField]
    rw [htext, scan_lparen, hrest _ (by simp; decide), List.append_assoc, scan_blank hv,
      List.cons_append, scan_rparen] at hscan'
    have ht : Token.rparen = t := by
      simp only [List.cons_append, List.nil_append, List.cons.injEq] at hscan'
      exact hscan'.2.2.1
    have hconstraint := hts' t (by simp)
    rw [← ht] at hconstraint
    cases hconstraint
  · exfalso
    have hend : scan (y ++ [')']) = [] := by
      rw [scan, tokens, getToken, hy]
      rfl
    rw [hend] at hclose
    cases hclose

end Relayed

/-! ### Functors that a text can have -/

theorem quotedEscape_ascii_text {d : Char} (h : d.toNat < 128) : Text.IsAscii (quotedEscape d) := by
  unfold quotedEscape
  split
  · decide
  split
  · decide
  split
  · simpa [Text.IsAscii] using h
  · simpa [Text.IsAscii] using h

theorem quotedAtom_quote {d : Char} (h : d ≠ '\'') (u : Text) :
    quotedAtom ('\'' :: d :: u) = .ok [] (d :: u) := by
  rw [quotedAtom.eq_def]
  simp [h]

theorem quotedAtom_doubled (u : Text) :
    quotedAtom ('\'' :: '\'' :: u) = (quotedAtom u).map ('\'' :: ·) := by
  rw [quotedAtom.eq_def]
  rfl

/-- Bytes beyond ASCII are taken as they are. -/
theorem quotedAtom_plain_inv {p : Text} (hp : ∀ b ∈ p, ¬ b.toNat < 128) {u s v : Text}
    (h : quotedAtom (p ++ u) = .ok s v) : ∃ s', quotedAtom u = .ok s' v ∧ p ++ s' = s := by
  induction p generalizing s with
  | nil => exact ⟨s, h, rfl⟩
  | cons b p ih =>
    obtain ⟨hb, hp⟩ := List.forall_mem_cons.mp hp
    rw [List.cons_append, quotedAtom_other (ne_of_not_ascii hb (by decide))
      (ne_of_not_ascii hb (by decide))] at h
    obtain ⟨s', hs', rfl⟩ := Parsed.map_eq_ok.mp h
    obtain ⟨s'', hs'', rfl⟩ := ih hp hs'
    exact ⟨s'', hs'', rfl⟩

/-- A quoted atom of a text consists of the bytes of a text. -/
theorem quotedAtom_bytes {u s v : Text} (h : quotedAtom (Text.asBytes u) = .ok s v) :
    ∃ g, s = Text.asBytes g := by
  induction hn : u.length using Nat.strong_induction_on generalizing u s v with
  | _ n ih =>
    -- the rest is read from fewer characters, and what stands in front is that of characters
    have hrec : ∀ {u' s' v' p g : Text}, u'.length < n → quotedAtom (Text.asBytes u') = .ok s' v' →
        Text.asBytes g = p → ∃ g', p ++ s' = Text.asBytes g' := by
      intro u' s' v' p g hlt hu' hp
      obtain ⟨g', rfl⟩ := ih u'.length hlt hu' rfl
      exact ⟨g ++ g', by rw [Text.asBytes_append, hp]⟩
    cases u with
    | nil => cases h
    | cons c u =>
      rw [List.length_cons] at hn
      by_cases hc : c.toNat < 128
      · rw [Text.asBytes_cons hc] at h
        by_cases hquote : c = '\''
        · subst hquote
          cases u with
          | nil =>
            obtain ⟨rfl, -⟩ := Parsed.ok.inj h
            exact ⟨[], rfl⟩
          | cons d u =>
            rw [List.length_cons] at hn
            by_cases hd : d = '\''
            · subst hd
              rw [Text.asBytes_cons (by decide), quotedAtom_doubled] at h
              obtain ⟨s', hs', rfl⟩ := Parsed.map_eq_ok.mp h
              exact hrec (g := ['\'']) (by omega) hs' (Text.asBytes_ascii (by decide))
            · obtain ⟨b, w, hbw, hascii, hbig⟩ := Text.asBytes_head d u
              have hb : b ≠ '\'' := by
                by_cases hd128 : d.toNat < 128
                · rw [hascii hd128]
                  exact hd
                · exact ne_of_not_ascii (hbig hd128) (by decide)
              rw [hbw, quotedAtom_quote hb] at h
              obtain ⟨rfl, -⟩ := Parsed.ok.inj h
              exact ⟨[], rfl⟩
        by_cases hslash : c = '\\'
        · subst hslash
          cases u with
          | nil => cases h
          | cons d u =>
            rw [List.length_cons] at hn
            by_cases hd : d.toNat < 128
            · rw [Text.asBytes_cons hd, quotedAtom_slash] at h
              obtain ⟨s', hs', rfl⟩ := Parsed.map_eq_ok.mp h
              exact hrec (g := quotedEscape d) (by omega) hs'
                (Text.asBytes_ascii (quotedEscape_ascii_text hd))
            · obtain ⟨b, p, hbp, hbig⟩ := Text.utf8_other hd
              have hbytes : Text.asBytes (d :: u) = b :: (p ++ Text.asBytes u) := by
                rw [Text.asBytes, List.flatMap_cons, hbp]
                rfl
              have hescape : quotedEscape b = ['\\', b] := by
                have hne : ∀ e : Char, e.toNat < 128 → b ≠ e := fun e =>
                  ne_of_not_ascii (hbig b (by simp))
                simp [quotedEscape, hne 'n' (by decide), hne 't' (by decide), hne '\\' (by decide),
                  hne '\'' (by decide)]
              rw [hbytes, quotedAtom_slash, hescape] at h
              obtain ⟨s', hs', rfl⟩ := Parsed.map_eq_ok.mp h
              obtain ⟨s'', hs'', rfl⟩ := quotedAtom_plain_inv
                (fun e he => hbig e (List.mem_cons_of_mem b he)) hs'
              refine hrec (p := '\\' :: b :: p) (g := ['\\', d]) (by omega) hs'' ?_
              rw [Text.asBytes_cons (by decide), Text.asBytes, List.flatMap_singleton, hbp]
        · rw [quotedAtom_other hquote hslash] at h
          obtain ⟨s', hs', rfl⟩ := Parsed.map_eq_ok.mp h
          exact hrec (g := [c]) (by omega) hs'
            (Text.asBytes_ascii (by simpa [Text.IsAscii] using hc))
      · obtain ⟨s', hs', rfl⟩ := quotedAtom_plain_inv (fun b hb => Text.utf8_not_ascii hc hb) h
        exact hrec (g := [c]) (by omega) hs' (by simp [Text.asBytes])

theorem skipWs_asBytes (u : Text) : ∃ v, skipWs (Text.asBytes u) = Text.asBytes v := by
  induction u with
  | nil => exact ⟨[], rfl⟩
  | cons c u ih =>
    obtain ⟨b, w, hbw, hascii, hbig⟩ := Text.asBytes_head c u
    by_cases hws : Text.isAsciiWhitespace b
    · have hc : c.toNat < 128 := by
        by_contra hc
        have hb := hbig hc
        simp [Text.isAsciiWhitespace, ne_of_not_ascii hb] at hws
      rw [hascii hc] at hws
      obtain ⟨v, hv⟩ := ih
      refine ⟨v, ?_⟩
      rw [Text.asBytes_cons hc, skipWs, List.dropWhile_cons, if_pos hws]
      exact hv
    · exact ⟨c :: u, by rw [hbw, skipWs_cons (by simpa using hws)]⟩

section Inputs
variable {φ : Type} {F : FloatText φ}

/-- The functor of what is parsed is the bytes of a text, so it can stand between quotes. -/
theorem functor_bytes {s : Text} {t : Term φ} (h : parsePrologTerm F s = .ok t)
    (hc : isCallable t) : ∃ g, termFunctorName t = Text.asBytes g := by
  obtain ⟨r, hr⟩ := parsePrologTerm_eq_ok.mp h
  have hname : ∀ {name : Text}, IsName name → ∃ g, name = Text.asBytes g := fun hn =>
    ⟨_, (Text.asBytes_ascii hn.ascii).symm⟩
  have hquoted : ∀ {name : Text}, BeginsQuoted (Text.asBytes (Text.trim s)) name →
      ∃ g, name = Text.asBytes g := by
    rintro name ⟨u, w, hu, hs⟩
    -- the quote is a character of the text
    obtain ⟨v, hv⟩ := skipWs_asBytes (Text.trim s)
    rw [hv] at hu
    cases v with
    | nil => cases hu
    | cons d v =>
      by_cases hd : d.toNat < 128
      · rw [Text.asBytes_cons hd] at hu
        obtain ⟨-, rfl⟩ := List.cons.inj hu
        exact quotedAtom_bytes hs
      · obtain ⟨b, w', hbw, -, hbig⟩ := Text.asBytes_head d v
        rw [hbw] at hu
        exact absurd (List.cons.inj hu).1 (ne_of_not_ascii (hbig hd) (by decide))
  cases t with
  | atom x =>
    rcases parseTerm_begins hr with hx | rfl | ⟨hx, -⟩
    · exact hquoted hx
    · have hascii : Text.IsAscii "[]".toList := by decide
      exact ⟨"[]".toList, (Text.asBytes_ascii hascii).symm⟩
    · exact hname hx
  | compound functor args =>
    rcases parseTerm_begins hr with hx | ⟨hx, -⟩
    · exact hquoted hx
    · exact hname hx
  | var | integer | float | str => cases hc

theorem parse_quoted (g : Text) :
    parsePrologTerm F ('\'' :: escape '\'' g ++ ['\'']) = .ok (.atom (Text.asBytes g)) :=
  parsePrologTerm_of_reads (trim_between (by decide) _) (reads_quoted g)

theorem parse_quoted_one (g : Text) :
    parsePrologTerm F ('\'' :: escape '\'' g ++ ['\''] ++ '(' :: i64Text 0 ++ [')']) =
      .ok (.compound (Text.asBytes g) [.integer 0]) := by
  have hargs : List.Forall₂ (fun u t => Reads F u t ∨ Never F u t) [i64Text 0]
      [.integer 0] := .cons (.inl (reads_integer 0)) .nil
  have hall : List.Forall₂ (Reads F) [i64Text 0] [.integer 0] ↔ True := by simp [reads_integer]
  have hdecides : Decides F (Text.asBytes ('\'' :: escape '\'' g ++ ['\'']) ++ '(' ::
      Text.join [','] [i64Text 0] ++ [')']) (.compound (Text.asBytes g) [.integer 0])
        (Text.asBytes g = Text.asBytes g ∧ True) := decides_compound (names_quoted g) hargs hall
  have hbytes : Text.asBytes ('\'' :: escape '\'' g ++ ['\''] ++ '(' :: i64Text 0 ++ [')']) =
      Text.asBytes ('\'' :: escape '\'' g ++ ['\'']) ++ '(' :: Text.join [','] [i64Text 0] ++
        [')'] := by
    rw [Text.asBytes_append, Text.asBytes_append, Text.asBytes_cons (by decide),
      Text.asBytes_ascii (plain_i64Text 0).ascii, Text.join_singleton]
    rfl
  refine parsePrologTerm_of_reads ?_ ?_
  · rw [trim_paren]
    rfl
  · rw [hbytes]
    exact hdecides.reads ⟨rfl, trivial⟩

/-- What is relayed for an input that is the term: a fact of so many fields, and a query. -/
def RelayedAsForms (F : FloatText φ) (s : Text) (t : Term φ) : Prop :=
  ∃ fact expr, prologToClipsFact F s = .ok fact ∧ prologToClipsRetract F s = .ok expr ∧
    IsForm (arguments t).length fact ∧ ∃ q, ReadsQuery expr q

end Inputs

end Cerebellum.Transpile
