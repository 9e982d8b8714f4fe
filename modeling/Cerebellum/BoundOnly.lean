import Cerebellum.Agreement
import Cerebellum.ReadAhead

/-! The variables of a generated defrule: those its right-hand side refers to, and those that are
left in the goal text it builds. -/
namespace Cerebellum.Transpile

/-! ### Variables in a text -/

def isWordChar (c : Char) : Bool := Text.isAlphanumeric c || c == '_'

/-- A word that begins like this is a variable to the term parser. -/
def startsVar (c : Char) : Bool := c.isUpper || c == '_'

/-- A variable outside quotes, from a position that is inside a word or not. -/
def hasVariableFrom : Within → Bool → Text → Bool
  | _, _, [] => false
  | w, inWord, c :: u =>
    (w == .code && !inWord && startsVar c) ||
      hasVariableFrom (w.next c) (w == .code && isWordChar c) u

def hasVariable (u : Text) : Bool := hasVariableFrom .code false u

example : hasVariable "f('X', a_B, \"Y\")".toList = false ∧ hasVariable "f(g(_x))".toList := by
  decide +kernel

theorem word_next {c : Char} (h : isWordChar c) : Within.next .code c = .code := by
  have hquote : c ≠ '\'' := by
    rintro rfl
    exact absurd h (by decide)
  have hstring : c ≠ '"' := by
    rintro rfl
    exact absurd h (by decide)
  simp [Within.next, hquote, hstring]

theorem startsVar_word {c : Char} (h : startsVar c) : isWordChar c := by
  simp only [startsVar, Bool.or_eq_true, beq_iff_eq] at h
  rcases h with h | rfl
  · simp [isWordChar, Text.isAlphanumeric, Char.isAlphanum, isAlpha_iff.mpr (.inl h)]
  · decide

theorem hasVariable_word {s : Text} (h : ∀ c ∈ s, isWordChar c) (z : Text) :
    hasVariableFrom .code true (s ++ z) = hasVariableFrom .code true z := by
  induction s with
  | nil => rfl
  | cons c s ih =>
    have hc := h c (by simp)
    rw [List.cons_append, hasVariableFrom, word_next hc, hc]
    simpa using ih fun d hd => h d (by simp [hd])

/-- What stands behind a word does not go on with it. -/
def EndsWord (z : Text) : Prop := ∀ c ∈ z.head?, isWordChar c = false

theorem hasVariable_endsWord {z : Text} (h : EndsWord z) (b : Bool) :
    hasVariableFrom .code b z = hasVariable z := by
  cases z with
  | nil => rfl
  | cons c z =>
    have hc : isWordChar c = false := h c rfl
    have hstart : startsVar c = false := by
      by_contra hs
      rw [startsVar_word (by simpa using hs)] at hc
      cases hc
    simp [hasVariable, hasVariableFrom, hstart]

/-- A word is a variable by how it begins. -/
theorem hasVariable_name {c : Char} {s z : Text} (h : ∀ d ∈ c :: s, isWordChar d)
    (hz : EndsWord z) : hasVariable (c :: s ++ z) = (startsVar c || hasVariable z) := by
  have hc := h c (by simp)
  rw [hasVariable, List.cons_append, hasVariableFrom, word_next hc, hc]
  have hs := hasVariable_word (fun d hd => h d (by simp [hd])) z (s := s)
  simp only [beq_self_eq_true, Bool.and_true, Bool.not_false, Bool.true_and, hs,
    hasVariable_endsWord hz]

/-- Text in quotes of one kind, escaped for them, is left unread. -/
theorem hasVariable_escaped {q : Char} {w esc : Within} (hw : w ≠ .code) (he : esc ≠ .code)
    (hq : q ≠ '\\')
    (hnext : ∀ c, w.next c = if c = q then .code else if c = '\\' then esc else w)
    (hesc : ∀ c, esc.next c = w) (s z : Text) (b : Bool) :
    hasVariableFrom w b (escape q s ++ q :: z) = hasVariable z := by
  have hskip : ∀ {v : Within}, v ≠ .code → ∀ b c u,
      hasVariableFrom v b (c :: u) = hasVariableFrom (v.next c) false u := by
    intro v hv b c u
    have hcode : (v == .code) = false := by simpa using hv
    simp [hasVariableFrom, hcode]
  induction s generalizing b with
  | nil =>
    change hasVariableFrom w b (q :: z) = _
    rw [hskip hw, hnext, if_pos rfl]
    rfl
  | cons c s ih =>
    rw [escape_cons]
    split
    · change hasVariableFrom w b ('\\' :: c :: (escape q s ++ q :: z)) = _
      rw [hskip hw, hnext, if_neg hq.symm, if_pos rfl, hskip he, hesc, ih]
    · next hc =>
      simp only [Bool.or_eq_true, decide_eq_true_eq, not_or] at hc
      change hasVariableFrom w b (c :: (escape q s ++ q :: z)) = _
      rw [hskip hw, hnext, if_neg hc.2, if_neg hc.1, ih]

theorem hasVariable_separator {c : Char} (hword : isWordChar c = false) (hquote : c ≠ '\'')
    (hstring : c ≠ '"') (z : Text) : hasVariable (c :: z) = hasVariable z := by
  have hstart : startsVar c = false := by
    by_contra hs
    rw [startsVar_word (by simpa using hs)] at hword
    cases hword
  simp [hasVariable, hasVariableFrom, hstart, hword, Within.next, hquote, hstring]

theorem hasVariable_atomQuoted (s z : Text) :
    hasVariable ('\'' :: escape '\'' s ++ ['\''] ++ z) = hasVariable z := by
  have hescape : Within.atomEscape ≠ .code := by decide
  have hinside := hasVariable_escaped (q := '\'') (w := .atom) (by decide) hescape (by decide)
    (fun _ => rfl) (fun _ => rfl) s z false
  have htext : '\'' :: escape '\'' s ++ ['\''] ++ z = '\'' :: (escape '\'' s ++ '\'' :: z) := by
    simp
  rw [htext, ← hinside]
  rfl

theorem hasVariable_string (s z : Text) : hasVariable (clipsString s ++ z) = hasVariable z := by
  have hescape : Within.stringEscape ≠ .code := by decide
  have hinside := hasVariable_escaped (q := '"') (w := .string) (by decide) hescape (by decide)
    (fun _ => rfl) (fun _ => rfl) s z false
  have htext : clipsString s ++ z = '"' :: (escape '"' s ++ '"' :: z) := by simp [clipsString]
  rw [htext, ← hinside]
  rfl

theorem bare_words {s : Text} (h : prologAtomNeedsQuoting s = false) :
    ∃ c u, s = c :: u ∧ c.isUpper = false ∧ ∀ d ∈ c :: u, isWordChar d := by
  simp only [prologAtomNeedsQuoting, Bool.or_eq_false_iff, List.isEmpty_eq_false_iff] at h
  obtain ⟨⟨hne, hfirst⟩, hall⟩ := h
  cases s with
  | nil => exact absurd rfl hne
  | cons c u =>
    refine ⟨c, u, rfl, ?_, fun d hd => ?_⟩
    · simp only [List.head?_cons, Option.any_some, Bool.or_eq_false_iff] at hfirst
      exact hfirst.1
    · have hd := List.any_eq_false.mp hall d hd
      simp only [isWordChar]
      by_contra hno
      simp only [Bool.not_eq_true, Bool.or_eq_false_iff, beq_eq_false_iff_ne] at hno
      simp [hno] at hd

/-- A name is a variable in the text when it is written bare and begins with an underscore. -/
theorem hasVariable_atomRender (s : Text) {z : Text} (hz : EndsWord z) :
    hasVariable (prologAtomRender s ++ z) = (looksLikeVar s || hasVariable z) := by
  unfold prologAtomRender
  split
  · next hq =>
    rw [hasVariable_atomQuoted]
    simp [looksLikeVar, hq]
  · next hq =>
    have hbare : prologAtomNeedsQuoting s = false := by simpa using hq
    obtain ⟨c, u, rfl, hupper, hword⟩ := bare_words hbare
    rw [hasVariable_name hword hz]
    simp [looksLikeVar, hbare, startsVar, hupper]

theorem hasVariable_i64Text (n : Int64) {z : Text} (hz : EndsWord z) :
    hasVariable (i64Text n ++ z) = hasVariable z := by
  obtain ⟨c, hc, hdigit⟩ := toDigits_head n.toInt.natAbs
  have hwords : ∀ d ∈ Nat.toDigits 10 n.toInt.natAbs, isWordChar d := by
    intro d hd
    have := Nat.isDigit_of_mem_toDigits (by decide) (by decide) hd
    simp [isWordChar, Text.isAlphanumeric, Char.isAlphanum, this]
  have hstart : startsVar c = false := by
    by_contra hs
    have hs : c.isUpper ∨ c = '_' := by
      simpa only [startsVar, Bool.not_eq_false, Bool.or_eq_true, beq_iff_eq] using hs
    rcases hs with hs | rfl
    · have hdigit := isDigit_iff.mp hdigit
      have hupper := isUpper_iff.mp hs
      omega
    · exact absurd hdigit (by decide)
  have hdigits : hasVariable (Nat.toDigits 10 n.toInt.natAbs ++ z) = hasVariable z := by
    cases hd : Nat.toDigits 10 n.toInt.natAbs with
    | nil => exact absurd hd Nat.toDigits_ne_nil
    | cons d ds =>
      rw [hd] at hc hwords
      obtain rfl : d = c := by simpa using hc
      rw [hasVariable_name hwords hz, hstart, Bool.false_or]
  rw [i64Text, List.append_assoc]
  split
  · rw [List.singleton_append, hasVariable_separator (by decide) (by decide) (by decide), hdigits]
  · exact hdigits

/-- Text without quotes, up to the end of its last word. -/
theorem hasVariable_unquoted {p : Text} (hp : ∀ c ∈ p, c ≠ '\'' ∧ c ≠ '"') {z : Text}
    (hz : EndsWord z) (b : Bool) :
    hasVariableFrom .code b (p ++ z) = (hasVariableFrom .code b p || hasVariable z) := by
  induction p generalizing b with
  | nil => simpa [hasVariableFrom] using hasVariable_endsWord hz b
  | cons c p ih =>
    obtain ⟨hquote, hstring⟩ := hp c (by simp)
    have hcode : Within.next .code c = .code := by simp [Within.next, hquote, hstring]
    rw [List.cons_append, hasVariableFrom, hcode, ih fun d hd => hp d (by simp [hd]),
      hasVariableFrom, hcode, Bool.or_assoc]

section Terms
variable {φ : Type} (F : FloatText φ)

mutual
/-- The text of the term shows a variable: one of its own, or a name that is written as one. -/
def writesVar : Term φ → Bool
  | .atom s => looksLikeVar s
  | .var _ => true
  | .float f => hasVariable (F.display f)
  | .compound functor args => looksLikeVar functor || writeVars args
  | .integer _ | .str _ => false
def writeVars : List (Term φ) → Bool
  | [] => false
  | t :: ts => writesVar t || writeVars ts
end

variable {F}

theorem display_unquoted (f : φ) : ∀ c ∈ F.display f, c ≠ '\'' ∧ c ≠ '"' := by
  intro c hc
  have hchar := F.display_chars f c hc
  constructor
  · rintro rfl
    exact absurd hchar (by decide)
  · rintro rfl
    exact absurd hchar (by decide)

theorem endsWord_cons {c : Char} (h : isWordChar c = false) (z : Text) : EndsWord (c :: z) := by
  simpa [EndsWord] using h

mutual
/-- Where the variables have the names of variables, the text shows one exactly when the term
does; a term that shows none has a text that shows none in any case. -/
theorem hasVariable_render : (t : Term φ) → writesVar F t = false ∨ Named t → ∀ z, EndsWord z →
    hasVariable (renderPrologTerm F t ++ z) = (writesVar F t || hasVariable z)
  | .atom s, _, z, hz => hasVariable_atomRender s hz
  | .var x, h, z, hz => by
    have hnamed : Named (.var x : Term φ) := h.resolve_left (by simp [writesVar])
    have hx : IsVarName x := hnamed x (by simp [collectVars])
    obtain ⟨c, u, rfl, hup⟩ := isVarName_cons hx
    have hword : ∀ d ∈ c :: u, isWordChar d := by
      intro d hd
      have hident := isIdent_iff.mp (hx.2 d hd)
      rcases hident with h | h | h | rfl
      · simp [isWordChar, Text.isAlphanumeric, Char.isAlphanum, isAlpha_iff.mpr (.inl h)]
      · simp [isWordChar, Text.isAlphanumeric, Char.isAlphanum, isAlpha_iff.mpr (.inr h)]
      · simp [isWordChar, Text.isAlphanumeric, Char.isAlphanum, h]
      · decide
    have hstart : startsVar c = true := by simpa [startsVar] using hup
    rw [renderPrologTerm, ensurePrologVar_varName hx, hasVariable_name hword hz, hstart]
    rfl
  | .integer n, _, z, hz => by
    rw [renderPrologTerm, hasVariable_i64Text n hz, writesVar, Bool.false_or]
  | .float f, _, z, hz => hasVariable_unquoted (display_unquoted f) hz false
  | .str s, _, z, _ => by
    rw [renderPrologTerm, hasVariable_string, writesVar, Bool.false_or]
  | .compound functor args, h, z, hz => by
    have hargs : writeVars F args = false ∨ ∀ x ∈ collectVarsList args, IsVarName x := by
      refine h.imp (fun hquiet => ?_) fun hnamed x hx => hnamed x (by simpa [collectVars] using hx)
      simp only [writesVar, Bool.or_eq_false_iff] at hquiet
      exact hquiet.2
    have htext : renderPrologTerm F (.compound functor args) ++ z =
        prologAtomRender functor ++ '(' ::
          (Text.join [','] (renderPrologTerms F args) ++ ')' :: z) := by
      simp [renderPrologTerm]
    rw [htext, hasVariable_atomRender functor (endsWord_cons (by decide) _),
      hasVariable_separator (by decide) (by decide) (by decide),
      hasVariable_renders args hargs, writesVar, Bool.or_assoc]
theorem hasVariable_renders : (ts : List (Term φ)) →
    writeVars F ts = false ∨ (∀ x ∈ collectVarsList ts, IsVarName x) → ∀ z,
      hasVariable (Text.join [','] (renderPrologTerms F ts) ++ ')' :: z) =
        (writeVars F ts || hasVariable z)
  | [], _, z => by
    simpa [renderPrologTerms, writeVars] using
      hasVariable_separator (c := ')') (by decide) (by decide) (by decide) z
  | [t], h, z => by
    have hfirst : writesVar F t = false ∨ Named t := by
      refine h.imp (fun hquiet => ?_) fun hnamed x hx => hnamed x (by simp [collectVarsList, hx])
      simpa [writeVars] using hquiet
    simp only [renderPrologTerms, Text.join_singleton]
    rw [hasVariable_render t hfirst _ (endsWord_cons (by decide) z),
      hasVariable_separator (by decide) (by decide) (by decide)]
    simp [writeVars]
  | t :: t' :: ts, h, z => by
    have hfirst : writesVar F t = false ∨ Named t := by
      refine h.imp (fun hquiet => ?_) fun hnamed x hx => hnamed x (by simp [collectVarsList, hx])
      rw [writeVars, Bool.or_eq_false_iff] at hquiet
      exact hquiet.1
    have hrest : writeVars F (t' :: ts) = false ∨
        ∀ x ∈ collectVarsList (t' :: ts), IsVarName x := by
      refine h.imp (fun hquiet => ?_) fun hnamed x hx => hnamed x ?_
      · rw [writeVars, Bool.or_eq_false_iff] at hquiet
        exact hquiet.2
      · rw [collectVarsList, List.mem_append]
        exact .inr hx
    have htext : Text.join [','] (renderPrologTerms F (t :: t' :: ts)) ++ ')' :: z =
        renderPrologTerm F t ++
          ',' :: (Text.join [','] (renderPrologTerms F (t' :: ts)) ++ ')' :: z) := by
      simp only [renderPrologTerms, Text.join_cons]
      simp
    rw [htext, hasVariable_render t hfirst _ (endsWord_cons (by decide) _),
      hasVariable_separator (by decide) (by decide) (by decide), writeVars, Bool.or_assoc,
      hasVariable_renders (t' :: ts) hrest z]
end

end Terms

/-! ### The parts of the goal text -/

/-- What an argument of the head is to the right-hand side: text of its own, or a field of the
fact that fired the rule. -/
inductive Piece where
  | own (s : Text)
  | field (x : Text)

/-- What the goal text is put together from. -/
inductive GoalParts where
  | whole (s : Text)
  | call (functor : Text) (args : List Piece)

namespace GoalParts

/-- The variables that the right-hand side refers to. -/
def fields : GoalParts → List Text
  | whole _ => []
  | call _ args => args.filterMap fun | .field x => some x | .own _ => none

/-- The texts it supplies itself. -/
def texts : GoalParts → List Text
  | whole s => [s]
  | call functor args => functor :: args.filterMap fun | .own s => some s | .field _ => none

end GoalParts

section Parts
variable {φ : Type} (F : FloatText φ) (bound : List Text)

def argPiece : Term φ → Piece
  | .var x => if bound.contains x then .field x else .own x
  | t => .own (renderPrologTerm F t)

def goalParts : Term φ → GoalParts
  | .atom s => .whole s
  | .compound functor args => .call functor (args.map (argPiece F bound))
  | t => .whole (renderPrologTerm F t)

/-- A variable ends the segment, any other argument goes on with it. -/
def Segments.pushPiece (s : Segments) (first : Bool) (p : Piece) : Segments :=
  let cur := if first then s.cur else s.cur ++ [',']
  match p with
  | .field x => ⟨s.parts ++ (if cur.isEmpty then [] else [quoted cur]) ++ ['?' :: x], []⟩
  | .own l => { s with cur := cur ++ l }

def Segments.pushPieces (s : Segments) (first : Bool) : List Piece → Segments
  | [] => s
  | p :: ps => (s.pushPiece first p).pushPieces false ps

/-- The expression that builds the goal text. -/
def GoalParts.expr (parts : GoalParts) : Text :=
  match parts with
  | .whole s => quoted s
  | .call functor args =>
    if parts.fields.isEmpty then quoted (functor ++ '(' :: Text.join [','] parts.texts.tail ++ [')'])
    else
      let s := ({ cur := functor ++ ['('] } : Segments).pushPieces true args
      "(str-cat ".toList ++ Text.join [' '] (s.parts ++ [quoted (s.cur ++ [')'])]) ++ [')']

variable {F bound}

theorem push_eq (s : Segments) (first : Bool) (arg : Term φ) :
    s.push F bound first arg = s.pushPiece first (argPiece F bound arg) := by
  cases arg with
  | var x =>
    unfold Segments.push Segments.pushPiece argPiece
    dsimp only
    split
    · rfl
    · rfl
  | _ => rfl

theorem pushAll_eq (s : Segments) (first : Bool) (args : List (Term φ)) :
    s.pushAll F bound first args = s.pushPieces first (args.map (argPiece F bound)) := by
  induction args generalizing s first with
  | nil => rfl
  | cons arg args ih =>
    rw [Segments.pushAll, push_eq, ih, List.map_cons, Segments.pushPieces]

theorem argPiece_field {arg : Term φ} (h : isBoundVar arg bound) :
    ∃ x, arg = .var x ∧ argPiece F bound arg = .field x := by
  cases arg with
  | var x => exact ⟨x, rfl, if_pos h⟩
  | _ => cases h

theorem argPiece_own {arg : Term φ} (h : isBoundVar arg bound = false) :
    argPiece F bound arg = .own (renderArgAsLiteral F arg) := by
  cases arg with
  | var x => exact if_neg (by simpa [isBoundVar] using h)
  | _ => rfl

theorem renderHeadGoalExpr_parts (head : Term φ) :
    renderHeadGoalExpr F head bound = (goalParts F bound head).expr := by
  cases head with
  | compound functor args =>
    rw [renderHeadGoalExpr, goalParts, GoalParts.expr]
    split
    · next hany =>
      obtain ⟨arg, harg, hbound⟩ := List.any_eq_true.mp hany
      obtain ⟨x, -, hpiece⟩ := argPiece_field (F := F) hbound
      have hmem : x ∈ (GoalParts.call functor (args.map (argPiece F bound))).fields :=
        List.mem_filterMap.mpr ⟨.field x, List.mem_map.mpr ⟨arg, harg, hpiece⟩, rfl⟩
      rw [if_neg (by simpa using List.ne_nil_of_mem hmem), pushAll_eq]
    · next hnone =>
      have hown : args.map (argPiece F bound) = args.map fun a => .own (renderArgAsLiteral F a) :=
        List.map_congr_left fun a ha => argPiece_own (by
          by_contra hb
          exact hnone (List.any_eq_true.mpr ⟨a, ha, by simpa using hb⟩))
      rw [hown]
      simp [GoalParts.fields, GoalParts.texts, List.filterMap_map]
  | _ => rfl

end Parts

/-! ### Which defrules use bound variables only -/

/-- Every variable of the right-hand side is a field of the pattern, and the text of its own shows
no variable. -/
structure BoundOnly (parts : GoalParts) (fields : List Text) : Prop where
  bound : ∀ x ∈ parts.fields, '?' :: x ∈ fields
  closed : ∀ s ∈ parts.texts, hasVariable s = false

section Defrules
variable {φ : Type} (F : FloatText φ)

/-- An argument of the head that the pattern can supply, or that needs nothing of it. -/
def SuppliedArg (trigger : Term φ) : Term φ → Prop
  | .var x => ∃ y, .var y ∈ arguments trigger ∧ renderClipsField F (.var y : Term φ) = '?' :: x
  | t => writesVar F t = false

/-- The head is no variable, its name is none, and each of its arguments is a variable that the
goal has as an argument, not beginning with an underscore, or shows no variable. -/
def Supplied (trigger : Term φ) : Term φ → Prop
  | .atom s => hasVariable s = false
  | .compound functor args => hasVariable functor = false ∧ ∀ a ∈ args, SuppliedArg F trigger a
  | t => writesVar F t = false

variable {F}

/-- Only a variable is written with a question mark. -/
theorem mem_fields_iff {trigger : Term φ} {x : Text} :
    '?' :: x ∈ renderClipsFields F (arguments trigger) ↔
      ∃ y, .var y ∈ arguments trigger ∧ renderClipsField F (.var y : Term φ) = '?' :: x := by
  rw [renderClipsFields_eq_map, List.mem_map]
  constructor
  · rintro ⟨a, ha, hfield⟩
    cases a with
    | var y => exact ⟨y, ha, hfield⟩
    | atom s =>
      exfalso
      rw [renderClipsField] at hfield
      split at hfield
      · next hs =>
        rw [hfield] at hs
        simp [isSimpleClipsSymbol, Text.isAlphanumeric] at hs
      · simp [clipsString] at hfield
    | integer n =>
      exfalso
      have hmem : '?' ∈ i64Text n := by
        rw [renderClipsField] at hfield
        simp [hfield]
      rw [i64Text, List.mem_append] at hmem
      rcases hmem with hmem | hmem
      · split at hmem <;> simp at hmem
      · exact absurd (Nat.isDigit_of_mem_toDigits (by decide) (by decide) hmem) (by decide)
    | float f =>
      exfalso
      rw [renderClipsField] at hfield
      exact absurd (F.display_chars f '?' (by simp [hfield])) (by decide)
    | str s => simp [renderClipsField, clipsString] at hfield
    | compound functor args => simp [renderClipsField, clipsString] at hfield
  · rintro ⟨y, hy, hfield⟩
    exact ⟨_, hy, hfield⟩

theorem hasVariable_text {t : Term φ} (h : writesVar F t = false ∨ Named t) :
    hasVariable (renderPrologTerm F t) = writesVar F t := by
  have hrender := hasVariable_render t h [] (by simp [EndsWord])
  rw [List.append_nil] at hrender
  exact hrender.trans (Bool.or_false _)

/-- What is asked of one argument. -/
def PieceOk (fields : List Text) : Piece → Prop
  | .field x => '?' :: x ∈ fields
  | .own s => hasVariable s = false

theorem boundOnly_whole {s : Text} {fields : List Text} :
    BoundOnly (.whole s) fields ↔ hasVariable s = false :=
  ⟨fun h => h.closed s (by simp [GoalParts.texts]),
    fun h => ⟨by simp [GoalParts.fields], by simpa [GoalParts.texts] using h⟩⟩

theorem boundOnly_call {functor : Text} {args : List Piece} {fields : List Text} :
    BoundOnly (.call functor args) fields ↔
      hasVariable functor = false ∧ ∀ p ∈ args, PieceOk fields p := by
  constructor
  · rintro ⟨hbound, hclosed⟩
    refine ⟨hclosed functor (by simp [GoalParts.texts]), fun p hp => ?_⟩
    cases p with
    | field x => exact hbound x (List.mem_filterMap.mpr ⟨_, hp, rfl⟩)
    | own s =>
      exact hclosed s (List.mem_cons_of_mem _ (List.mem_filterMap.mpr ⟨_, hp, rfl⟩))
  · rintro ⟨hfunctor, hargs⟩
    constructor
    · intro x hx
      obtain ⟨p, hp, hxp⟩ := List.mem_filterMap.mp hx
      cases p with
      | field y =>
        obtain rfl := Option.some.inj hxp
        exact hargs _ hp
      | own s => cases hxp
    · intro s hs
      rcases List.mem_cons.mp hs with rfl | hs
      · exact hfunctor
      · obtain ⟨p, hp, hsp⟩ := List.mem_filterMap.mp hs
        cases p with
        | field y => cases hsp
        | own s' =>
          obtain rfl := Option.some.inj hsp
          exact hargs _ hp

theorem pieceOk_iff {trigger a : Term φ}
    (hbound : ∀ x ∈ collectVars a, x ∈ collectVars trigger)
    (h : SuppliedArg F trigger a ∨ Named a) :
    PieceOk (renderClipsFields F (arguments trigger)) (argPiece F (collectVars trigger) a) ↔
      SuppliedArg F trigger a := by
  cases a with
  | var x =>
    have hx : (collectVars trigger).contains x :=
      List.contains_iff_mem.mpr (hbound x (by simp [collectVars]))
    rw [argPiece, if_pos hx]
    exact mem_fields_iff
  | _ =>
    change hasVariable (renderPrologTerm F _) = false ↔ writesVar F _ = false
    rw [hasVariable_text h]

theorem boundOnly_iff {trigger head : Term φ}
    (hbound : ∀ x ∈ collectVars head, x ∈ collectVars trigger)
    (h : Supplied F trigger head ∨ Named head) :
    BoundOnly (goalParts F (collectVars trigger) head)
      (renderClipsFields F (arguments trigger)) ↔ Supplied F trigger head := by
  cases head with
  | compound functor args =>
    rw [goalParts, boundOnly_call, Supplied, List.forall_mem_map]
    refine and_congr_right fun _ => forall₂_congr fun a ha => ?_
    have hvars : ∀ x ∈ collectVars a, x ∈ collectVars (.compound functor args) := by
      intro x hx
      rw [collectVars]
      exact mem_collectVarsList.mpr ⟨a, ha, hx⟩
    refine pieceOk_iff (fun x hx => hbound x (hvars x hx)) ?_
    exact h.imp (fun hsupplied => hsupplied.2 a ha) fun hnamed x hx => hnamed x (hvars x hx)
  | atom s => exact boundOnly_whole
  | _ =>
    rw [goalParts, boundOnly_whole, hasVariable_text h]
    · rfl
    all_goals simp

theorem mem_transduced {rule : PrologRule φ} {g : BodyGoal φ} (hbody : rule.body = [g])
    (h : (transduceGoal F rule 0 g).1.isSome) :
    ∃ d, (rule, g, some d) ∈ transduceRules F 0 [rule] := by
  obtain ⟨d, hd⟩ := Option.isSome_iff_exists.mp h
  exact ⟨d, by simp [transduceRules, hbody, transduceGoals, hd]⟩

/-- And an anonymous variable is referred to although the pattern does not name it. -/
example : ¬ BoundOnly (goalParts noFloats [['_']] (.compound "foo".toList [.var ['_']]))
    (renderClipsFields noFloats [.var ['_']]) := by
  intro h
  exact absurd (h.bound ['_'] (by decide +kernel)) (by decide +kernel)

end Defrules

end Cerebellum.Transpile
