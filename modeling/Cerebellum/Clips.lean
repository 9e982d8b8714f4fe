import Cerebellum.Text
import Cerebellum.Lib.Span

/-! CLIPS text as CLIPS reads it: the tokens of its scanner (clips-src/core/scanner.c), ordered
facts, the patterns that match them, and the `str-cat` expressions over their fields. -/
namespace Cerebellum.Clips

/-- `isprint` in the C locale. -/
def isPrint (c : Char) : Bool := 32 ≤ c.toNat && c.toNat ≤ 126

def isBlank (c : Char) : Bool :=
  c == ' ' || c == '\n' || c == '\x0C' || c == '\r' || c == '\t'

/-- What `ScanSymbol` takes. A character beyond ASCII is a start byte and its continuation. -/
def isSymbolChar (c : Char) : Bool :=
  !("<\"()&|~ ;".toList.contains c) && (isPrint c || 128 ≤ c.toNat)

inductive Token where
  | lparen
  | rparen
  | symbol (s : Text)
  | instanceName (s : Text)
  | number (s : Text)
  | string (s : Text)
  | var (s : Text)
  | wildcard
  /-- A token of no ordered fact: a connective, a multifield or global variable, an error. -/
  | other
  deriving DecidableEq

/-- White space and comments before a token. -/
def skipBlank (inComment : Bool) : Text → Text
  | [] => []
  | c :: u =>
    if inComment then skipBlank (!(c == '\n' || c == '\r')) u
    else if isBlank c then skipBlank false u
    else if c = ';' then skipBlank true u
    else c :: u

/-- The phases of `ScanNumber`, with whether a digit has been found. -/
inductive NumberPhase where
  | sign
  | integral (found : Bool)
  | decimal (found : Bool)
  | exponent (found : Bool)
  | exponentSign (found : Bool)
  | exponentValue (found : Bool)
  | symbol

def NumberPhase.step (p : NumberPhase) (c : Char) : NumberPhase :=
  match p with
  | sign =>
    if c.isDigit then integral true
    else if c == '+' || c == '-' then integral false
    else if c == '.' then decimal false
    else if c == 'e' || c == 'E' then exponent false
    else symbol
  | integral found =>
    if c.isDigit then integral true
    else if c == '.' then decimal found
    else if c == 'e' || c == 'E' then exponent found
    else symbol
  | decimal found =>
    if c.isDigit then decimal true
    else if c == 'e' || c == 'E' then exponent found
    else symbol
  | exponent found =>
    if c.isDigit then exponentValue found
    else if c == '+' || c == '-' then exponentSign found
    else symbol
  | exponentSign found | exponentValue found =>
    if c.isDigit then exponentValue found else symbol
  | symbol => symbol

/-- `ScanNumber` stops where `ScanSymbol` does; this says which of the two a token is. -/
def isNumber (s : Text) : Bool :=
  match s.foldl NumberPhase.step .sign with
  | .integral found | .decimal found | .exponentValue found => found
  | _ => false

/-- `[name]` is an instance name. -/
def symbolToken (s : Text) : Token :=
  if 2 < s.length && s.head? == some '[' && s.getLast? == some ']' then
    .instanceName (s.drop 1).dropLast
  else .symbol s

/-- The rest of a string token; none when the text ends in it. -/
def scanString : Text → Option (Text × Text)
  | [] => none
  | c :: u =>
    if c = '"' then some ([], u)
    else if c = '\\' then
      match u with
      | [] => none
      | d :: u => (scanString u).map fun (s, u) => (d :: s, u)
    else (scanString u).map fun (s, u) => (c :: s, u)

/-- A token that is not a symbol is a number only when it starts like one. -/
def bareToken (c : Char) (s : Text) : Token :=
  if c.isDigit || c == '-' || c == '.' || c == '+' then
    if isNumber s then .number s else .symbol s
  else if c.isAlpha || 128 ≤ c.toNat then .symbol s
  else symbolToken s

/-- Behind a `?`. -/
def variableToken (u : Text) : Token × Text :=
  match u with
  | [] => (.wildcard, [])
  | c :: u =>
    if c.isAlpha || 128 ≤ c.toNat then
      (.var ((c :: u).takeWhile isSymbolChar), (c :: u).dropWhile isSymbolChar)
    else if isPrint c && c != ' ' && c != '(' && c != ')' then (.other, u)
    else (.wildcard, c :: u)

def getToken (u : Text) : Option (Token × Text) :=
  match skipBlank false u with
  | [] => none
  | c :: u =>
    if c = '(' then some (.lparen, u)
    else if c = ')' then some (.rparen, u)
    else if c = '"' then
      match scanString u with
      | some (s, u) => some (.string s, u)
      | none => some (.other, [])
    else if c = '?' then some (variableToken u)
    else if c = '<' || (c = '$' && u.head? != some '?') then
      some (.symbol (c :: u.takeWhile isSymbolChar), u.dropWhile isSymbolChar)
    else if c = '$' || !isSymbolChar c then some (.other, u)
    else some (bareToken c ((c :: u).takeWhile isSymbolChar), (c :: u).dropWhile isSymbolChar)

/-- Every token takes a character at least, so the length of the text is fuel enough. -/
def tokens : Nat → Text → List Token
  | 0, _ => []
  | fuel + 1, u =>
    match getToken u with
    | none => []
    | some (t, u) => t :: tokens fuel u

def scan (u : Text) : List Token := tokens (u.length + 1) u

/-! ### Facts, patterns, expressions -/

def Token.isConstant : Token → Bool
  | symbol _ | instanceName _ | number _ | string _ => true
  | _ => false

/-- The characters `str-cat` makes of a field. -/
def Token.text : Token → Text
  | symbol s | instanceName s | number s | string s => s
  | _ => []

/-- Fields up to the parenthesis that ends the text. -/
def closed (allowed : Token → Bool) : List Token → Option (List Token)
  | [] => none
  | [.rparen] => some []
  | t :: ts => if allowed t then (closed allowed ts).map (t :: ·) else none

/-- The symbols that name no relation: the conditional elements and the two special ones. -/
def reserved : List String :=
  ["and", "not", "or", "test", "logical", "exists", "forall", "object", "=", ":"]

/-- `FindModuleSeparator`. -/
def hasModuleSeparator : Text → Bool
  | ':' :: ':' :: _ => true
  | _ :: u => hasModuleSeparator u
  | [] => false

/-- A relation name as `GetRHSPattern` takes it. -/
def isRelation (s : Text) : Bool :=
  !(reserved.map String.toList).contains s && !hasModuleSeparator s

/-- An ordered fact: its relation and its fields. -/
def readFact (u : Text) : Option (Text × List Token) :=
  match scan u with
  | .lparen :: .symbol r :: ts =>
    if isRelation r then (closed Token.isConstant ts).map (r, ·) else none
  | _ => none

def Token.isConstraint (t : Token) : Bool :=
  t.isConstant || match t with
    | var _ | wildcard => true
    | _ => false

/-- A pattern over the fields of an ordered fact. The first one of a rule is not a declaration. -/
def readPattern (u : Text) : Option (Text × List Token) :=
  match scan u with
  | .lparen :: .symbol r :: ts =>
    if isRelation r && r != "declare".toList then
      (closed Token.isConstraint ts).map (r, ·)
    else none
  | _ => none

abbrev Bindings := List (Text × Token)

/-- Field by field. A variable seen again has to meet the field it is bound to. -/
def matchFields : List Token → List Token → Bindings → Option Bindings
  | [], [], b => some b
  | .var x :: ps, f :: fs, b =>
    match b.lookup x with
    | some g => if g = f then matchFields ps fs b else none
    | none => matchFields ps fs ((x, f) :: b)
  | .wildcard :: ps, _ :: fs, b => matchFields ps fs b
  | p :: ps, f :: fs, b => if p = f then matchFields ps fs b else none
  | _, _, _ => none

inductive Expr where
  | literal (s : Text)
  | strCat (args : List Token)

def Token.isArgument (t : Token) : Bool :=
  t.isConstant || match t with
    | var _ => true
    | _ => false

/-- A string, or a `str-cat` of constants and variables. -/
def readExpr (u : Text) : Option Expr :=
  match scan u with
  | [.string s] => some (.literal s)
  | .lparen :: .symbol f :: ts =>
    if f = "str-cat".toList then (closed Token.isArgument ts).map .strCat else none
  | _ => none

/-- A variable has to be bound. -/
def argumentText (b : Bindings) : Token → Option Text
  | .var x => (b.lookup x).map Token.text
  | t => some t.text

def concatTexts (b : Bindings) : List Token → Option Text
  | [] => some []
  | t :: ts =>
    match argumentText b t, concatTexts b ts with
    | some s, some r => some (s ++ r)
    | _, _ => none

def Expr.eval (b : Bindings) : Expr → Option Text
  | literal s => some s
  | strCat args => concatTexts b args

/-! ### Scanning token by token -/

theorem skipBlank_length (b : Bool) (u : Text) : (skipBlank b u).length ≤ u.length := by
  induction u generalizing b with
  | nil => simp [skipBlank]
  | cons c u ih =>
    unfold skipBlank
    split
    · exact Nat.le_succ_of_le (ih _)
    split
    · exact Nat.le_succ_of_le (ih _)
    split
    · exact Nat.le_succ_of_le (ih _)
    · exact Nat.le_refl _

theorem scanString_quote (u : Text) : scanString ('"' :: u) = some ([], u) := by
  rw [scanString.eq_def]
  simp

theorem scanString_escaped (c : Char) (u : Text) :
    scanString ('\\' :: c :: u) = (scanString u).map fun p => (c :: p.1, p.2) := rfl

theorem scanString_char {c : Char} (hq : c ≠ '"') (hb : c ≠ '\\') (u : Text) :
    scanString (c :: u) = (scanString u).map fun p => (c :: p.1, p.2) := by
  rw [scanString.eq_def]
  simp only [hq, hb, if_false]

theorem scanString_length {u s v : Text} (h : scanString u = some (s, v)) : v.length < u.length := by
  fun_induction scanString u generalizing s with
  | case1 => cases h
  | case2 u => simp_all
  | case3 => cases h
  | case4 d u hq ih =>
    simp only [Option.map_eq_some_iff, Prod.mk.injEq, Prod.exists] at h
    obtain ⟨s', v', hs, rfl, rfl⟩ := h
    have := ih hs
    simp only [List.length_cons]
    omega
  | case5 c u hq hb ih =>
    simp only [Option.map_eq_some_iff, Prod.mk.injEq, Prod.exists] at h
    obtain ⟨s', v', hs, rfl, rfl⟩ := h
    have := ih hs
    simp only [List.length_cons]
    omega

theorem dropWhile_length_le (p : Char → Bool) (u : Text) : (u.dropWhile p).length ≤ u.length :=
  (List.dropWhile_suffix _).length_le

theorem variableToken_length (u : Text) : (variableToken u).2.length ≤ u.length := by
  unfold variableToken
  split
  · exact Nat.le_refl _
  · split
    · exact dropWhile_length_le _ _
    · split <;> simp

theorem getToken_length {u v : Text} {t : Token} (h : getToken u = some (t, v)) :
    v.length < u.length := by
  have hblank := skipBlank_length false u
  unfold getToken at h
  split at h
  · cases h
  · next c w hw =>
    rw [hw] at hblank
    simp only [List.length_cons] at hblank
    have hdrop := dropWhile_length_le isSymbolChar w
    split at h
    · cases h; omega
    split at h
    · cases h; omega
    split at h
    · split at h
      · next s' v' hs =>
        have := scanString_length hs
        cases h
        omega
      · cases h
        simp only [List.length_nil]
        omega
    split at h
    · have hvar := variableToken_length w
      simp only [Option.some.injEq] at h
      rw [h] at hvar
      exact Nat.lt_of_le_of_lt hvar (by omega)
    split at h
    · cases h; omega
    split at h
    · cases h; omega
    · next hsym =>
      simp only [Bool.or_eq_true, decide_eq_true_eq, Bool.not_eq_true', not_or,
        Bool.not_eq_false] at hsym
      simp only [Option.some.injEq, Prod.mk.injEq, List.dropWhile_cons, hsym.2, if_true] at h
      obtain ⟨-, rfl⟩ := h
      omega

theorem tokens_fuel {n m : Nat} {u : Text} (hn : u.length < n) (hm : u.length < m) :
    tokens n u = tokens m u := by
  induction n generalizing m u with
  | zero => omega
  | succ n ih =>
    obtain ⟨m, rfl⟩ : ∃ k, m = k + 1 := ⟨m - 1, by omega⟩
    rw [tokens, tokens]
    cases h : getToken u with
    | none => rfl
    | some tv =>
      have := getToken_length h
      simp only [List.cons.injEq, true_and]
      exact ih (by omega) (by omega)

theorem scan_of_getToken {u v : Text} {t : Token} (h : getToken u = some (t, v)) :
    scan u = t :: scan v := by
  have := getToken_length h
  rw [scan, tokens, h]
  exact congrArg (t :: ·) (tokens_fuel (by omega) (by omega))

theorem getToken_of_scan {u : Text} {t : Token} {ts : List Token} (h : scan u = t :: ts) :
    ∃ v, getToken u = some (t, v) := by
  rw [scan, tokens] at h
  split at h
  · cases h
  · next t' v hget => exact ⟨v, by rw [hget, (List.cons.inj h).1]⟩

@[simp] theorem scan_nil : scan [] = [] := rfl

theorem scan_lparen (u : Text) : scan ('(' :: u) = .lparen :: scan u := scan_of_getToken rfl

theorem scan_rparen (u : Text) : scan (')' :: u) = .rparen :: scan u := scan_of_getToken rfl

theorem scan_space (u : Text) : scan (' ' :: u) = scan u := by
  have hget : getToken (' ' :: u) = getToken u := rfl
  cases h : getToken u with
  | none =>
    rw [scan, scan, tokens, tokens, hget, h]
  | some tv => rw [scan_of_getToken h, scan_of_getToken (hget.trans h)]

/-! ### Fields -/

/-- What ends a field. -/
def IsEnd (d : Char) : Prop := d = ' ' ∨ d = ')'

/-- The text is one token, wherever a field may stand. -/
def IsField (r : Text) (t : Token) : Prop :=
  ∀ d u, IsEnd d → scan (r ++ d :: u) = t :: scan (d :: u)

theorem end_not_symbolChar {d : Char} (h : IsEnd d) : isSymbolChar d = false := by
  rcases h with rfl | rfl <;> decide

theorem skipBlank_symbolChar {c : Char} (h : isSymbolChar c) (u : Text) :
    skipBlank false (c :: u) = c :: u := by
  have hne : ∀ d : Char, isSymbolChar d = false → c ≠ d := fun d hd he => by simp [he, hd] at h
  simp [skipBlank, isBlank, hne ' ' (by decide), hne '\n' (by decide), hne '\x0C' (by decide),
    hne '\r' (by decide), hne '\t' (by decide), hne ';' (by decide)]

theorem getToken_bare {c : Char} {s : Text} (hc : isSymbolChar c) (hq : c ≠ '?') (hd : c ≠ '$')
    (hs : ∀ d ∈ s, isSymbolChar d) {u : Text} (hu : ∀ d ∈ u.head?, isSymbolChar d = false) :
    getToken (c :: s ++ u) = some (bareToken c (c :: s), u) := by
  have hall : ∀ d ∈ c :: s, isSymbolChar d := by simpa [hc] using hs
  have hne : ∀ d : Char, isSymbolChar d = false → c ≠ d := fun d hd he => by simp [he, hd] at hc
  rw [getToken, List.cons_append, skipBlank_symbolChar hc]
  simp only [hne '(' (by decide), hne ')' (by decide), hne '"' (by decide), hne '<' (by decide), hq,
    hd, hc, if_false, decide_false, Bool.false_or, Bool.false_and, Bool.false_eq_true, Bool.not_true]
  rw [← List.cons_append, Span.takeWhile_append_stop hall hu, Span.dropWhile_append_stop hall hu]

theorem isField_bare {c : Char} {s : Text} (hc : isSymbolChar c) (hq : c ≠ '?') (hd : c ≠ '$')
    (hs : ∀ d ∈ s, isSymbolChar d) : IsField (c :: s) (bareToken c (c :: s)) := fun d u h =>
  scan_of_getToken (getToken_bare hc hq hd hs (by simp [end_not_symbolChar h]))

theorem isField_var {c : Char} {s : Text} (hc : c.isAlpha) (hs : ∀ d ∈ c :: s, isSymbolChar d) :
    IsField ('?' :: c :: s) (.var (c :: s)) := by
  intro d u h
  have hu : ∀ e ∈ (d :: u).head?, isSymbolChar e = false := by simp [end_not_symbolChar h]
  refine scan_of_getToken ?_
  rw [getToken, List.cons_append, skipBlank_symbolChar (by decide)]
  simp only [Char.reduceEq, if_false, if_true, variableToken, List.cons_append, hc, Bool.true_or]
  rw [← List.cons_append, Span.takeWhile_append_stop hs hu, Span.dropWhile_append_stop hs hu]

theorem isField_wildcard : IsField ['?'] .wildcard := by
  intro d u h
  refine scan_of_getToken ?_
  rcases h with rfl | rfl <;> rfl

theorem getToken_quote {u s v : Text} (h : scanString u = some (s, v)) :
    getToken ('"' :: u) = some (.string s, v) := by
  have hblank : skipBlank false ('"' :: u) = '"' :: u := rfl
  rw [getToken.eq_def, hblank]
  simp [h]

theorem isField_string {r s : Text} (h : ∀ u, scanString (r ++ u) = some (s, u)) :
    IsField ('"' :: r) (.string s) := by
  intro d u hd
  exact scan_of_getToken (getToken_quote (h (d :: u)))

theorem foldl_digits {ds : Text} (hds : ∀ c ∈ ds, c.isDigit) :
    ds.foldl NumberPhase.step (.integral true) = .integral true := by
  induction ds with
  | nil => rfl
  | cons d ds ih =>
    have hstep : NumberPhase.step (.integral true) d = .integral true := by
      simp [NumberPhase.step, hds d (by simp)]
    rw [List.foldl_cons, hstep]
    exact ih fun c hc => hds c (by simp [hc])

/-- A sign and digits end in the phase of an integer. -/
theorem foldl_integer {sign : Option Char} (hsign : ∀ c ∈ sign, c = '+' ∨ c = '-') {digits : Text}
    (hne : digits ≠ []) (hdigits : ∀ c ∈ digits, c.isDigit) :
    (sign.toList ++ digits).foldl NumberPhase.step .sign = .integral true := by
  have hfrom : ∀ p, p = .sign ∨ p = .integral false →
      digits.foldl NumberPhase.step p = .integral true := by
    intro p hp
    cases digits with
    | nil => exact absurd rfl hne
    | cons d ds =>
      have hd := hdigits d (by simp)
      have hstep : NumberPhase.step p d = .integral true := by
        rcases hp with rfl | rfl
        · simp [NumberPhase.step, hd]
        · simp [NumberPhase.step, hd]
      rw [List.foldl_cons, hstep]
      exact foldl_digits fun c hc => hdigits c (by simp [hc])
  cases sign with
  | none => exact hfrom _ (.inl rfl)
  | some c =>
    have hc : NumberPhase.step .sign c = .integral false := by
      rcases hsign c rfl with rfl | rfl <;> rfl
    rw [Option.toList_some, List.singleton_append, List.foldl_cons, hc]
    exact hfrom _ (.inr rfl)

theorem isNumber_digits {sign : Option Char} (hsign : ∀ c ∈ sign, c = '+' ∨ c = '-') {digits : Text}
    (hne : digits ≠ []) (hdigits : ∀ c ∈ digits, c.isDigit) :
    isNumber (sign.toList ++ digits) = true := by
  rw [isNumber, foldl_integer hsign hne hdigits]

/-- A symbol, as the scanner takes it. -/
def isSymbol (s : Text) : Bool :=
  match s with
  | [] => false
  | c :: r =>
    r.all isSymbolChar && (c == '<' || (isSymbolChar c && c != '?' &&
      (c != '$' || r.head? != some '?') && (c == '$' || bareToken c s == .symbol s)))

/-- A symbol is one token in front of whatever does not go on with it. -/
theorem scan_symbol_append {s : Text} (h : isSymbol s) {u : Text}
    (hu : ∀ e ∈ u.head?, isSymbolChar e = false) : scan (s ++ u) = .symbol s :: scan u := by
  cases s with
  | nil => simp [isSymbol] at h
  | cons c r =>
    simp only [isSymbol, Bool.and_eq_true, List.all_eq_true, Bool.or_eq_true, beq_iff_eq,
      bne_iff_ne, ne_eq] at h
    obtain ⟨hr, rfl | ⟨⟨⟨hc, hq⟩, hdq⟩, hbare⟩⟩ := h
    · refine scan_of_getToken ?_
      change some (Token.symbol ('<' :: (r ++ u).takeWhile isSymbolChar),
        (r ++ u).dropWhile isSymbolChar) = _
      rw [Span.takeWhile_append_stop hr hu, Span.dropWhile_append_stop hr hu]
    by_cases hdollar : c = '$'
    · subst hdollar
      have hne : (r ++ u).head? ≠ some '?' := by
        cases r with
        | nil =>
          intro hhead
          have hstop := hu '?' hhead
          cases hstop
        | cons e r => simpa using hdq
      refine scan_of_getToken ?_
      rw [getToken, List.cons_append, skipBlank_symbolChar hc]
      simp only [Char.reduceEq, if_false, decide_false, decide_true, Bool.false_or, Bool.true_and,
        bne_iff_ne, ne_eq, hne, not_false_eq_true, if_true]
      rw [Span.takeWhile_append_stop hr hu, Span.dropWhile_append_stop hr hu]
    · have hbare : bareToken c (c :: r) = .symbol (c :: r) := by
        rcases hbare with h | h
        · exact absurd h hdollar
        · exact h
      rw [← hbare]
      exact scan_of_getToken (getToken_bare hc hq hdollar hr hu)

theorem isField_symbol {s : Text} (h : isSymbol s) : IsField s (.symbol s) := fun d u hd =>
  scan_symbol_append h (by simp [end_not_symbolChar hd])

/-- What the scanner takes as one token, be it a symbol or not. -/
def isBare (s : Text) : Bool :=
  match s with
  | [] => false
  | c :: r => (c == '<' || isSymbolChar c) && r.all isSymbolChar

theorem bareToken_symbol {c : Char} {s r : Text} (h : bareToken c s = .symbol r) : r = s := by
  unfold bareToken symbolToken at h
  split at h
  · split at h
    · cases h
    · exact (Token.symbol.inj h).symm
  split at h
  · exact (Token.symbol.inj h).symm
  split at h
  · cases h
  · exact (Token.symbol.inj h).symm

theorem variableToken_not_symbol {u r v : Text} : variableToken u ≠ (.symbol r, v) := by
  unfold variableToken
  split
  · simp
  split
  · simp
  split <;> simp

/-- The first token is a symbol only when all of the name is. -/
theorem getToken_symbol {s r u v : Text} (hs : isBare s)
    (hu : ∀ e ∈ u.head?, isSymbolChar e = false)
    (h : getToken (s ++ u) = some (.symbol r, v)) : isSymbol s ∧ r = s := by
  cases s with
  | nil => simp [isBare] at hs
  | cons c t =>
    simp only [isBare, Bool.and_eq_true, Bool.or_eq_true, beq_iff_eq, List.all_eq_true] at hs
    obtain ⟨hc, ht⟩ := hs
    have hsame : isSymbol (c :: t) → isSymbol (c :: t) ∧ r = c :: t := by
      intro hsym
      have hscan := scan_of_getToken h
      rw [scan_symbol_append hsym hu] at hscan
      exact ⟨hsym, (Token.symbol.inj (List.cons.inj hscan).1).symm⟩
    by_cases hlt : c = '<'
    · subst hlt
      exact hsame (by simpa [isSymbol] using ht)
    replace hc : isSymbolChar c := hc.resolve_left hlt
    by_cases hq : c = '?'
    · subst hq
      change some (variableToken (t ++ u)) = _ at h
      exact absurd (Option.some.inj h) variableToken_not_symbol
    by_cases hdollar : c = '$'
    · subst hdollar
      by_cases ht0 : t.head? = some '?'
      · obtain ⟨t', rfl⟩ : ∃ t', t = '?' :: t' := by
          cases t with
          | nil => cases ht0
          | cons e t => exact ⟨t, by simpa using ht0⟩
        cases h
      · refine hsame ?_
        have hall : t.all isSymbolChar := List.all_eq_true.mpr ht
        simp [isSymbol, hall, ht0, hc]
    · rw [getToken_bare hc hq hdollar ht hu] at h
      have htoken := (Prod.mk.inj (Option.some.inj h)).1
      obtain rfl := bareToken_symbol htoken
      refine ⟨?_, rfl⟩
      have hall : t.all isSymbolChar := List.all_eq_true.mpr ht
      simp [isSymbol, hall, hc, hq, hdollar, htoken]

theorem scan_symbol {s r u : Text} {d : Char} {ts : List Token} (hs : isBare s) (hd : IsEnd d)
    (h : scan ('(' :: (s ++ d :: u)) = .lparen :: .symbol r :: ts) : isSymbol s ∧ r = s := by
  rw [scan_lparen] at h
  obtain ⟨v, hget⟩ := getToken_of_scan (List.cons.inj h).2
  exact getToken_symbol hs (by simp [end_not_symbolChar hd]) hget

/-- Fields in a row, up to the closing parenthesis. -/
theorem scan_join {rs : List Text} {ts : List Token} (h : List.Forall₂ IsField rs ts) (u : Text) :
    scan (Text.join [' '] rs ++ ')' :: u) = ts ++ .rparen :: scan u := by
  induction h with
  | nil => exact scan_rparen u
  | @cons r t rs ts hrt hrest ih =>
    cases rs with
    | nil =>
      cases hrest
      rw [Text.join_singleton, hrt ')' u (.inr rfl), scan_rparen]
      rfl
    | cons r' rs =>
      rw [Text.join_cons, List.append_assoc, List.append_assoc]
      change scan (r ++ ' ' :: (Text.join [' '] (r' :: rs) ++ ')' :: u)) = _
      rw [hrt ' ' _ (.inl rfl), scan_space, ih]
      rfl

theorem closed_append {allowed : Token → Bool} {ts : List Token} (h : ∀ t ∈ ts, allowed t) :
    closed allowed (ts ++ [.rparen]) = some ts := by
  induction ts with
  | nil => rfl
  | cons t ts ih =>
    have hne : ts ++ [.rparen] ≠ [] := by simp
    rw [List.cons_append, closed.eq_def]
    split
    · next heq => cases heq
    · next heq => exact absurd (List.cons.inj heq).2 hne
    · next heq =>
      obtain ⟨rfl, rfl⟩ := List.cons.inj heq
      rw [if_pos (h _ (by simp)), ih fun s hs => h s (by simp [hs])]
      rfl

/-- A form of a symbol and fields. -/
theorem scan_form {relation r : Text} (hr : IsField relation (.symbol r)) {rs : List Text}
    {ts : List Token} (h : List.Forall₂ IsField rs ts) :
    scan ('(' :: relation ++ ' ' :: Text.join [' '] rs ++ [')']) =
      .lparen :: .symbol r :: ts ++ [.rparen] := by
  have htext : '(' :: relation ++ ' ' :: Text.join [' '] rs ++ [')'] =
      '(' :: (relation ++ ' ' :: (Text.join [' '] rs ++ [')'])) := by simp
  rw [htext, scan_lparen, hr ' ' _ (.inl rfl), scan_space, scan_join h]
  rfl

theorem scan_form_nil {relation r : Text} (hr : IsField relation (.symbol r)) :
    scan ('(' :: relation ++ [')']) = [.lparen, .symbol r, .rparen] := by
  rw [List.cons_append, scan_lparen, hr ')' [] (.inr rfl), scan_rparen, scan_nil]

/-! ### Matching -/

/-- A relation that a fact and a pattern can both have. -/
def isRelationName (s : Text) : Bool := isSymbol s && isRelation s && s != "declare".toList

theorem readFact_of_scan {u r : Text} {ts : List Token}
    (h : scan u = .lparen :: .symbol r :: ts ++ [.rparen]) (hr : isRelationName r)
    (hts : ∀ t ∈ ts, t.isConstant) : readFact u = some (r, ts) := by
  simp only [isRelationName, Bool.and_eq_true] at hr
  rw [readFact, h]
  simp [hr.1.2, closed_append hts]

theorem readPattern_of_scan {u r : Text} {ts : List Token}
    (h : scan u = .lparen :: .symbol r :: ts ++ [.rparen]) (hr : isRelationName r)
    (hts : ∀ t ∈ ts, t.isConstraint) : readPattern u = some (r, ts) := by
  simp only [isRelationName, Bool.and_eq_true, bne_iff_ne, ne_eq] at hr
  have hdeclare : (r != "declare".toList) = true := by simpa using hr.2
  rw [readPattern, h]
  simp only [List.cons_append, hr.1.2, hdeclare, Bool.and_self, if_true, closed_append hts]
  rfl

theorem readFact_scan {u r : Text} {ts : List Token} (h : readFact u = some (r, ts)) :
    isRelation r ∧ ∃ ts', scan u = .lparen :: .symbol r :: ts' := by
  unfold readFact at h
  split at h
  · next r' ts' hscan =>
    split at h
    · next hr =>
      obtain ⟨fs, -, hfs⟩ := Option.map_eq_some_iff.mp h
      obtain ⟨rfl, -⟩ := Prod.mk.inj hfs
      exact ⟨hr, ts', hscan⟩
    · cases h
  · cases h

theorem readPattern_scan {u r : Text} {ts : List Token} (h : readPattern u = some (r, ts)) :
    r ≠ "declare".toList ∧ ∃ ts', scan u = .lparen :: .symbol r :: ts' := by
  unfold readPattern at h
  split at h
  · next r' ts' hscan =>
    split at h
    · next hr =>
      obtain ⟨fs, -, hfs⟩ := Option.map_eq_some_iff.mp h
      obtain ⟨rfl, -⟩ := Prod.mk.inj hfs
      simp only [Bool.and_eq_true, bne_iff_ne] at hr
      exact ⟨hr.2, ts', hscan⟩
    · cases h
  · cases h

section Matching
variable (v : Text → Token)

/-- A field of a pattern against a field of a fact, where `v x` stands for every `?x`. -/
def Meets : Token → Token → Prop
  | .var x, f => f = v x
  | .wildcard, _ => True
  | p, f => p = f

/-- The bindings after a match: a variable is bound where it is first met. -/
def bindAll : List Token → Bindings → Bindings
  | [], b => b
  | .var x :: ps, b => bindAll ps (if (b.lookup x).isSome then b else (x, v x) :: b)
  | _ :: ps, b => bindAll ps b

variable {v}

theorem lookup_bindAll (ps : List Token) (b : Bindings) (x : Text) :
    (bindAll v ps b).lookup x =
      (b.lookup x).or (if .var x ∈ ps then some (v x) else none) := by
  induction ps generalizing b with
  | nil => simp [bindAll]
  | cons p ps ih =>
    cases p with
    | var y =>
      rw [bindAll, ih]
      by_cases hxy : x = y
      · subst hxy
        cases hb : b.lookup x with
        | none => simp
        | some t => simp [hb]
      · have hy : (x == y) = false := by simpa using hxy
        split
        · simp [hxy]
        · simp [hxy, List.lookup_cons, hy]
    | _ => simp [bindAll, ih]

/-- Fields match one by one, and the bindings are those of the variables. -/
theorem matchFields_iff {ps fs : List Token} {b β : Bindings}
    (hb : ∀ x t, b.lookup x = some t → t = v x)
    (hvars : List.Forall₂ (fun p f => ∀ x, p = .var x → f = v x) ps fs) :
    matchFields ps fs b = some β ↔ List.Forall₂ (Meets v) ps fs ∧ β = bindAll v ps b := by
  induction hvars generalizing b with
  | nil => simp [matchFields, bindAll, eq_comm]
  | @cons p f ps fs hpf hrest ih =>
    rw [List.forall₂_cons]
    cases p with
    | var x =>
      obtain rfl : f = v x := hpf x rfl
      rw [matchFields, bindAll]
      cases hx : b.lookup x with
      | none =>
        rw [ih]
        · simp [Meets]
        · intro y t hy
          by_cases hxy : y = x
          · subst hxy
            rw [List.lookup_cons_self] at hy
            exact (Option.some.inj hy).symm
          · have hne : (y == x) = false := by simpa using hxy
            exact hb y t (by simpa [List.lookup_cons, hne] using hy)
      | some t =>
        obtain rfl := hb x t hx
        simp [ih hb, Meets]
    | wildcard =>
      rw [matchFields, bindAll, ih hb]
      · simp [Meets]
      · intro x hx
        cases hx
    | _ =>
      simp only [matchFields, bindAll, Meets]
      split
      · next h => simp [h, ih hb]
      · next h => simp [h]

end Matching

end Cerebellum.Clips
