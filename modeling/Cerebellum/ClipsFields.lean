import Cerebellum.Clips
import Cerebellum.TransduceSpec
import Cerebellum.Lib.Diverge

/-! Goals as CLIPS reads them: the fact that relaying an instance of a goal gives, and the
pattern that `transduce` writes for the goal. -/
namespace Cerebellum.Transpile
open Clips Diverge

section Fields
variable {φ : Type} {F : FloatText φ}

theorem renderClipsFields_eq_map (ts : List (Term φ)) :
    renderClipsFields F ts = ts.map (renderClipsField F) := by
  induction ts with
  | nil => rfl
  | cons t ts ih => rw [renderClipsFields, ih, List.map_cons]

theorem substList_eq_map (σ : Text → Value) (ts : List (Term φ)) :
    substList σ ts = ts.map (subst σ) := by
  induction ts with
  | nil => rfl
  | cons t ts ih => rw [substList, ih, List.map_cons]

theorem termsAreGround_iff (ts : List (Term φ)) :
    termsAreGround ts ↔ ∀ t ∈ ts, termIsGround t := by
  induction ts with
  | nil => simp [termsAreGround]
  | cons t ts ih => simp [termsAreGround, ih]

mutual
theorem subst_ground (σ : Text → Value) : (t : Term φ) → termIsGround t → subst σ t = t
  | .var _, h => by simp [termIsGround] at h
  | .compound functor args, h => by
    rw [subst, substList_ground σ args (by simpa [termIsGround] using h)]
  | .atom _, _ | .integer _, _ | .float _, _ | .str _, _ => by simp [subst]
theorem substList_ground (σ : Text → Value) : (ts : List (Term φ)) → termsAreGround ts →
    substList σ ts = ts
  | [], _ => rfl
  | t :: ts, h => by
    simp only [termsAreGround, Bool.and_eq_true] at h
    rw [substList, subst_ground σ t h.1, substList_ground σ ts h.2]
end

mutual
theorem subst_isGround (σ : Text → Value) : (t : Term φ) → termIsGround (subst σ t)
  | .var x => by
    rw [subst]
    cases σ x <;> rfl
  | .compound functor args => by
    rw [subst, termIsGround]
    exact substList_isGround σ args
  | .atom _ | .integer _ | .float _ | .str _ => by simp [subst, termIsGround]
theorem substList_isGround (σ : Text → Value) :
    (ts : List (Term φ)) → termsAreGround (substList σ ts)
  | [] => rfl
  | t :: ts => by
    rw [substList, termsAreGround, subst_isGround σ t, substList_isGround σ ts]
    rfl
end

/-! ### One field -/

/-- The token of a text without quotes. -/
def bare (s : Text) : Token :=
  match s with
  | [] => .other
  | c :: _ => bareToken c s

variable (F)

/-- The token that a term in argument position is for CLIPS. -/
def fieldToken : Term φ → Token
  | .atom s => if isSimpleClipsSymbol s then bare s else .string s
  | .var s => if s.head? = some '_' then .wildcard else .var s
  | .integer n => bare (i64Text n)
  | .float f => bare (F.display f)
  | .str s => .string s
  | .compound functor args =>
    .string (functor ++ '(' :: Text.join [','] (renderClipsFields F args) ++ [')'])

variable {F}

/-- A character of a simple symbol. -/
def isSimpleChar (c : Char) : Bool := Text.isAlphanumeric c || c == '_' || c == '-' || c == '.'

theorem simpleChar_symbolChar {c : Char} (h : isSimpleChar c) : isSymbolChar c := by
  have hdelim : "<\"()&|~ ;".toList.contains c = false := by
    by_contra hc
    simp only [Bool.not_eq_false, List.contains_iff_mem] at hc
    simp only [String.reduceToList, List.mem_cons, List.not_mem_nil, or_false] at hc
    rcases hc with rfl | rfl | rfl | rfl | rfl | rfl | rfl | rfl | rfl <;>
      exact absurd h (by decide)
  have hprint : isPrint c || decide (128 ≤ c.toNat) := by
    by_cases hc : isIdent c
    · have hrange : 48 ≤ c.toNat ∧ c.toNat ≤ 122 := by
        rcases isIdent_iff.mp hc with h | h | h | rfl
        · have := isUpper_iff.mp h
          omega
        · have := isLower_iff.mp h
          omega
        · have := isDigit_iff.mp h
          omega
        · decide
      simp only [isPrint, Bool.or_eq_true, Bool.and_eq_true, decide_eq_true_eq]
      omega
    · have hother : c = '-' ∨ c = '.' ∨ 128 ≤ c.toNat := by
        by_contra hno
        simp only [not_or] at hno
        simp only [isIdent, Bool.or_eq_true, beq_iff_eq, not_or] at hc
        simp only [isSimpleChar, Text.isAlphanumeric, Bool.or_eq_true, beq_iff_eq, Bool.and_eq_true,
          decide_eq_true_eq, bne_iff_ne, Bool.false_eq_true, hc.1, hc.2, hno.1, hno.2.1, false_or,
          or_false] at h
        omega
      rcases hother with rfl | rfl | h
      · decide
      · decide
      · simp [h]
  simp only [isSymbolChar, hdelim, hprint]
  rfl

theorem scanString_escape (s u : Text) : scanString (escape '"' s ++ ['"'] ++ u) = some (s, u) := by
  induction s with
  | nil =>
    exact scanString_quote u
  | cons c s ih =>
    rw [escape, List.flatMap_cons]
    change scanString
      ((if c = '\\' || c = '"' then ['\\', c] else [c]) ++ escape '"' s ++ ['"'] ++ u) = _
    split
    · change scanString ('\\' :: c :: (escape '"' s ++ ['"'] ++ u)) = _
      rw [scanString_escaped, ih]
      rfl
    · next hc =>
      simp only [Bool.or_eq_true, decide_eq_true_eq, not_or] at hc
      change scanString (c :: (escape '"' s ++ ['"'] ++ u)) = _
      rw [scanString_char hc.2 hc.1, ih]
      rfl

theorem isField_clipsString (s : Text) : IsField (clipsString s) (.string s) :=
  isField_string (scanString_escape s)

theorem bareToken_isConstant (c : Char) (s : Text) : (bareToken c s).isConstant := by
  unfold bareToken symbolToken
  repeat' split
  all_goals rfl

theorem bareToken_text {c : Char} {s : Text} (h : c ≠ '[') :
    (bareToken c (c :: s)).text = c :: s := by
  have hb : (some c == some '[') = false := by simpa using h
  unfold bareToken symbolToken
  simp only [List.head?_cons, hb, Bool.and_false, Bool.false_and, Bool.false_eq_true, if_false]
  repeat' split
  all_goals rfl

theorem isField_simple {s : Text} (hne : s ≠ []) (h : ∀ c ∈ s, isSimpleChar c) :
    IsField s (bare s) := by
  cases s with
  | nil => exact absurd rfl hne
  | cons c s =>
    have hc := h c (by simp)
    refine isField_bare (simpleChar_symbolChar hc) ?_ ?_ fun d hd =>
      simpleChar_symbolChar (h d (by simp [hd]))
    · rintro rfl
      exact absurd hc (by decide)
    · rintro rfl
      exact absurd hc (by decide)

theorem bare_text {s : Text} (h : ∀ c ∈ s, isSimpleChar c) : (bare s).text = s := by
  cases s with
  | nil => rfl
  | cons c s =>
    refine bareToken_text ?_
    rintro rfl
    exact absurd (h '[' (by simp)) (by decide)

theorem bare_isConstant {s : Text} (h : s ≠ []) : (bare s).isConstant := by
  cases s with
  | nil => exact absurd rfl h
  | cons c s => exact bareToken_isConstant c (c :: s)

theorem simple_i64Text (k : Int64) : ∀ c ∈ i64Text k, isSimpleChar c := by
  intro c hc
  rw [i64Text, List.mem_append] at hc
  rcases hc with hc | hc
  · split at hc
    · obtain rfl : c = '-' := by simpa using hc
      decide
    · simp at hc
  · have hd := Nat.isDigit_of_mem_toDigits (by decide) (by decide) hc
    simp [isSimpleChar, Text.isAlphanumeric, Char.isAlphanum, hd]

theorem i64Text_ne (k : Int64) : i64Text k ≠ [] := by
  simp [i64Text, Nat.toDigits_ne_nil]

theorem simple_display (f : φ) : ∀ c ∈ F.display f, isSimpleChar c := by
  intro c hc
  have h := F.display_chars f c hc
  simp only [Bool.or_eq_true, beq_iff_eq] at h
  rcases h with (h | rfl) | rfl
  · simp [isSimpleChar, Text.isAlphanumeric, h]
  · decide
  · decide

theorem simple_of_symbol {s : Text} (h : isSimpleClipsSymbol s) :
    s ≠ [] ∧ ∀ c ∈ s, isSimpleChar c := by
  simpa [isSimpleClipsSymbol, isSimpleChar] using h

theorem ident_symbolChar {c : Char} (h : isIdent c) : isSymbolChar c := by
  refine simpleChar_symbolChar ?_
  simp only [isIdent, Bool.or_eq_true] at h
  rcases h with h | h
  · simp [isSimpleChar, Text.isAlphanumeric, h]
  · simp [isSimpleChar, h]

/-- Every argument is one field for CLIPS. -/
theorem isField_renderClipsField (t : Term φ) (hvar : ∀ x, t = .var x → IsVarName x) :
    IsField (renderClipsField F t) (fieldToken F t) := by
  cases t with
  | atom s =>
    rw [renderClipsField, fieldToken]
    split
    · next h => exact isField_simple (simple_of_symbol h).1 (simple_of_symbol h).2
    · exact isField_clipsString s
  | var x =>
    have hx := hvar x rfl
    obtain ⟨c, u, rfl, hup⟩ := isVarName_cons hx
    rw [renderClipsField, fieldToken]
    split
    · exact isField_wildcard
    · next h =>
      refine isField_var ?_ fun d hd => ident_symbolChar (hx.2 d hd)
      rcases hup with hup | rfl
      · exact isAlpha_iff.mpr (.inl hup)
      · exact absurd rfl h
  | integer k => exact isField_simple (i64Text_ne k) (simple_i64Text k)
  | float f => exact isField_simple (F.display_ne f) (simple_display f)
  | str s => exact isField_clipsString s
  | compound functor args => exact isField_clipsString _

theorem fieldToken_isConstant {t : Term φ} (h : ∀ x, t ≠ .var x) : (fieldToken F t).isConstant := by
  cases t with
  | atom s =>
    rw [fieldToken]
    split
    · next hs => exact bare_isConstant (simple_of_symbol hs).1
    · rfl
  | var x => exact absurd rfl (h x)
  | integer k => exact bare_isConstant (i64Text_ne k)
  | float f => exact bare_isConstant (F.display_ne f)
  | str s => rfl
  | compound functor args => rfl

theorem fieldToken_eq_var {t : Term φ} {x : Text} :
    fieldToken F t = .var x ↔ t = .var x ∧ x.head? ≠ some '_' := by
  by_cases h : ∃ y, t = .var y
  · obtain ⟨y, rfl⟩ := h
    rw [fieldToken]
    split
    · next hy =>
      simp only [reduceCtorEq, Term.var.injEq, false_iff, not_and, Decidable.not_not]
      rintro rfl
      exact hy
    · next hy =>
      simp only [Token.var.injEq, Term.var.injEq]
      constructor
      · rintro rfl
        exact ⟨rfl, hy⟩
      · exact fun h => h.1
  · have hc := fieldToken_isConstant (F := F) fun x hx => h ⟨x, hx⟩
    refine iff_of_false ?_ fun hx => h ⟨x, hx.1⟩
    intro heq
    rw [heq] at hc
    cases hc

/-- What `str-cat` makes of the field of a value. -/
theorem fieldToken_value_text (v : Value) : (fieldToken F v.term).text = v.chars := by
  cases v with
  | atom s =>
    rw [Value.term, fieldToken]
    split
    · next h => exact bare_text (simple_of_symbol h).2
    · rfl
  | integer k => exact bare_text (simple_i64Text k)
  | str s => rfl

/-! ### A variable inside a compound -/

theorem escape_diverges {s t : Text} (h : Diverges s t) :
    Diverges (escape '"' s) (escape '"' t) := by
  refine h.flatMap fun x y hxy => ?_
  have hsplit : ∀ c : Char, (if c = '\\' || c = '"' then ['\\', c] else [c]) = ['\\', c] ∨
      (c ≠ '\\' ∧ (if c = '\\' || c = '"' then ['\\', c] else [c]) = [c]) := by
    intro c
    by_cases hc : (c = '\\' || c = '"') = true
    · exact .inl (if_pos hc)
    · refine .inr ⟨fun h => hc (by simp [h]), if_neg hc⟩
  rcases hsplit x with hx | ⟨hxb, hx⟩ <;> rcases hsplit y with hy | ⟨hyb, hy⟩ <;> rw [hx, hy]
  · exact (diverges_cons hxy [] []).behind ['\\']
  · exact diverges_cons (Ne.symm hyb) _ _
  · exact diverges_cons hxb _ _
  · exact diverges_cons hxy _ _

theorem simple_not_question {s : Text} (hne : s ≠ []) (h : ∀ c ∈ s, isSimpleChar c) :
    ∃ c u, s = c :: u ∧ c ≠ '?' := by
  cases s with
  | nil => exact absurd rfl hne
  | cons c u =>
    refine ⟨c, u, rfl, ?_⟩
    rintro rfl
    exact absurd (h '?' (by simp)) (by decide)

/-- No value is written with a question mark in front. -/
theorem value_field_head (v : Value) : ∃ c u, renderClipsField F v.term = c :: u ∧ c ≠ '?' := by
  cases v with
  | atom s =>
    rw [Value.term, renderClipsField]
    split
    · next h => exact simple_not_question (simple_of_symbol h).1 (simple_of_symbol h).2
    · exact ⟨'"', _, rfl, by decide⟩
  | integer k => exact simple_not_question (i64Text_ne k) (simple_i64Text k)
  | str s => exact ⟨'"', _, rfl, by decide⟩

mutual
theorem render_diverges (σ : Text → Value) : (t : Term φ) → termIsGround t = false →
    Diverges (renderClipsField F t) (renderClipsField F (subst σ t))
  | .var x, _ => by
    obtain ⟨c, u, hc, hne⟩ := value_field_head (F := F) (σ x)
    rw [subst, hc, renderClipsField]
    split
    · exact diverges_cons hne.symm _ _
    · exact diverges_cons hne.symm _ _
  | .compound functor args, h => by
    have hargs := renders_diverge σ args (by simpa [termIsGround] using h)
    rw [subst, renderClipsField, renderClipsField, clipsString, clipsString]
    refine Diverges.append (Diverges.behind (escape_diverges ?_) ['"']) _ _
    exact (((hargs.behind ['(']).behind functor).append [')'] [')'])
  | .atom _, h | .integer _, h | .float _, h | .str _, h => by simp [termIsGround] at h
theorem renders_diverge (σ : Text → Value) : (ts : List (Term φ)) → termsAreGround ts = false →
    Diverges (Text.join [','] (renderClipsFields F ts))
      (Text.join [','] (renderClipsFields F (substList σ ts)))
  | [], h => by simp [termsAreGround] at h
  | [t], h => by
    have ht := render_diverges σ t (by simpa [termsAreGround] using h)
    simpa [renderClipsFields, substList] using ht
  | t :: t' :: ts, h => by
    simp only [renderClipsFields, substList, Text.join_cons]
    cases ht : termIsGround t with
    | false =>
      rw [List.append_assoc, List.append_assoc]
      exact (render_diverges σ t ht).append _ _
    | true =>
      rw [subst_ground σ t ht]
      refine Diverges.behind ?_ _
      have hrest := renders_diverge σ (t' :: ts) (by simpa [termsAreGround, ht] using h)
      simpa only [renderClipsFields, substList] using hrest
end

/-- A compound with a variable inside is a constant for CLIPS that no instance equals. -/
theorem fieldToken_subst {t : Term φ} (hvar : ∀ x, t ≠ .var x) (σ : Text → Value) :
    fieldToken F t = fieldToken F (subst σ t) ↔ termIsGround t := by
  constructor
  · intro h
    by_contra hg
    cases t with
    | var x => exact hvar x rfl
    | compound functor args =>
      simp only [subst, fieldToken, Token.string.injEq, List.append_cancel_right_eq,
        List.append_cancel_left_eq, List.cons.injEq, true_and] at h
      exact (renders_diverge σ args (by simpa [termIsGround] using hg)).ne h
    | _ => exact hg rfl
  · intro hg
    rw [subst_ground σ t hg]

/-! ### Facts and patterns -/

def arguments : Term φ → List (Term φ)
  | .compound _ args => args
  | _ => []

/-- An atom or a compound. -/
def isCallable : Term φ → Bool
  | .atom _ | .compound _ _ => true
  | _ => false

theorem fields_of_args {args : List (Term φ)} (hvars : ∀ x, .var x ∈ args → IsVarName x) :
    List.Forall₂ IsField (renderClipsFields F args) (args.map (fieldToken F)) := by
  rw [renderClipsFields_eq_map, List.forall₂_map_left_iff, List.forall₂_map_right_iff,
    List.forall₂_same]
  intro a ha
  exact isField_renderClipsField a fun x hx => hvars x (hx ▸ ha)

theorem fieldToken_isConstraint (t : Term φ) : (fieldToken F t).isConstraint := by
  by_cases h : ∃ x, t = .var x
  · obtain ⟨x, rfl⟩ := h
    rw [fieldToken]
    split <;> rfl
  · simp [Token.isConstraint, fieldToken_isConstant fun x hx => h ⟨x, hx⟩]

theorem clipsSymbol_no_space {s : Text} (h : ' ' ∉ s) : clipsSymbolForFunctor s = s := by
  induction s with
  | nil => rfl
  | cons c s ih =>
    have hc : c ≠ ' ' := by
      rintro rfl
      simp at h
    rw [clipsSymbolForFunctor, List.map_cons, if_neg hc]
    exact congrArg (c :: ·) (ih (by simp_all))

theorem named_args {t : Term φ} (h : Named t) : ∀ x, .var x ∈ arguments t → IsVarName x := by
  intro x hx
  cases t with
  | compound functor args =>
    exact h x (mem_collectVarsList.mpr ⟨_, hx, by simp [collectVars]⟩)
  | _ => simp [arguments] at hx

/-- How the text of a form with these arguments scans. -/
theorem scan_orderedFact {relation : Text} (hr : isRelationName relation) {args : List (Term φ)}
    (hvars : ∀ x, .var x ∈ args → IsVarName x) :
    scan (orderedFact relation (renderClipsFields F args)) =
      .lparen :: .symbol relation :: args.map (fieldToken F) ++ [.rparen] := by
  simp only [isRelationName, Bool.and_eq_true] at hr
  exact scan_form (isField_symbol hr.1.1) (fields_of_args hvars)

theorem scan_nullary {relation : Text} (hr : isRelationName relation) :
    scan ('(' :: relation ++ [')']) = .lparen :: .symbol relation :: [] ++ [.rparen] := by
  simp only [isRelationName, Bool.and_eq_true] at hr
  exact scan_form_nil (isField_symbol hr.1.1)

theorem scan_renderClipsFact {t : Term φ} (hc : isCallable t)
    (hr : isRelationName (clipsSymbolForFunctor (termFunctorName t)))
    (hvars : ∀ x, .var x ∈ arguments t → IsVarName x) :
    scan (renderClipsFact F t) = .lparen :: .symbol (clipsSymbolForFunctor (termFunctorName t)) ::
      (arguments t).map (fieldToken F) ++ [.rparen] := by
  cases t with
  | atom s => exact scan_nullary hr
  | compound functor args => exact scan_orderedFact hr hvars
  | _ => cases hc

theorem scan_renderNotClipsPattern {t : Term φ} (hc : isCallable t)
    (hr : isRelationName ("not_".toList ++ termFunctorName t))
    (hvars : ∀ x, .var x ∈ arguments t → IsVarName x) :
    scan (renderNotClipsPattern F t) = .lparen :: .symbol ("not_".toList ++ termFunctorName t) ::
      (arguments t).map (fieldToken F) ++ [.rparen] := by
  cases t with
  | atom s => exact scan_nullary hr
  | compound functor args => exact scan_orderedFact hr hvars
  | _ => cases hc

theorem ground_arguments {t : Term φ} (h : termIsGround t) : ∀ a ∈ arguments t, termIsGround a := by
  cases t with
  | compound functor args => exact (termsAreGround_iff args).mp (by simpa [termIsGround] using h)
  | _ => simp [arguments]

theorem ground_not_var {t : Term φ} (h : termIsGround t) : ∀ x, .var x ∉ arguments t := by
  intro x hx
  have hvar := ground_arguments h _ hx
  simp [termIsGround] at hvar

/-- A ground atom or compound is relayed as an ordered fact with a field for each argument. -/
theorem readFact_renderClipsFact {t : Term φ} (hc : isCallable t)
    (hr : isRelationName (clipsSymbolForFunctor (termFunctorName t))) (hg : termIsGround t) :
    readFact (renderClipsFact F t) =
      some (clipsSymbolForFunctor (termFunctorName t), (arguments t).map (fieldToken F)) := by
  have hnone := ground_not_var hg
  refine readFact_of_scan (scan_renderClipsFact hc hr fun x hx => absurd hx (hnone x)) hr ?_
  intro f hf
  obtain ⟨a, ha, rfl⟩ := List.mem_map.mp hf
  exact fieldToken_isConstant fun x hx => hnone x (hx ▸ ha)

end Fields

/-! ### Matching an instance -/

section Matching
variable {φ : Type} {F : FloatText φ} {args : List (Term φ)} {σ : Text → Value}

/-- An argument whose field matches every instance of it and binds the variable it is. -/
def Flat (a : Term φ) : Prop := (∃ x, a = .var x ∧ x.head? ≠ some '_') ∨ termIsGround a

theorem matchFields_args {β : Bindings} :
    matchFields (args.map (fieldToken F)) (args.map fun a => fieldToken F (subst σ a)) [] = some β ↔
      (∀ a ∈ args, (∃ x, a = .var x) ∨ termIsGround a) ∧
        β = bindAll (fun x => fieldToken F (σ x).term) (args.map (fieldToken F)) [] := by
  rw [matchFields_iff (v := fun x => fieldToken F (σ x).term) (by simp)]
  · refine and_congr_left fun _ => ?_
    rw [List.forall₂_map_left_iff, List.forall₂_map_right_iff, List.forall₂_same]
    refine forall₂_congr fun a ha => ?_
    by_cases h : ∃ x, a = .var x
    · obtain ⟨x, rfl⟩ := h
      refine iff_of_true ?_ (.inl ⟨x, rfl⟩)
      rw [fieldToken]
      split
      · trivial
      · rfl
    · have hvar : ∀ x, a ≠ .var x := fun x hx => h ⟨x, hx⟩
      have hconst := fieldToken_isConstant (F := F) hvar
      rw [or_iff_right h, ← fieldToken_subst hvar σ]
      cases htok : fieldToken F a <;> rw [htok] at hconst <;> first | rfl | cases hconst
  · rw [List.forall₂_map_left_iff, List.forall₂_map_right_iff, List.forall₂_same]
    intro a ha x hx
    obtain ⟨rfl, -⟩ := fieldToken_eq_var.mp hx
    rfl

/-- The bindings after the match: every variable that is an argument and has a name. -/
theorem lookup_bindings {x : Text} {f : Token} :
    (bindAll (fun x => fieldToken F (σ x).term) (args.map (fieldToken F)) []).lookup x = some f ↔
      (.var x ∈ args ∧ x.head? ≠ some '_') ∧ f = fieldToken F (σ x).term := by
  rw [lookup_bindAll]
  have hmem : Token.var x ∈ args.map (fieldToken F) ↔ .var x ∈ args ∧ x.head? ≠ some '_' := by
    rw [List.mem_map]
    constructor
    · rintro ⟨a, ha, hax⟩
      obtain ⟨rfl, hx⟩ := fieldToken_eq_var.mp hax
      exact ⟨ha, hx⟩
    · rintro ⟨ha, hx⟩
      exact ⟨.var x, ha, fieldToken_eq_var.mpr ⟨rfl, hx⟩⟩
  simp [hmem, eq_comm]

end Matching

end Cerebellum.Transpile
