import Cerebellum.ReadBack
import Cerebellum.ClipsFields

/-! CLIPS fact text back to Prolog: the `ClipsParser` of transpile.rs, and the two translations one
after the other. -/
namespace Cerebellum.Transpile

/-- `char::is_alphanumeric` on all characters, of which `Text.isAlphanumeric` is the part below
256: the symbols of a fact are decoded, so any character can be in one. -/
structure Alphanumeric where
  test : Char → Bool
  test_latin : ∀ c, c.toNat < 256 → test c = Text.isAlphanumeric c

/-! ### The renderer on decoded text -/

namespace Alphanumeric
variable (A : Alphanumeric)

def prologAtomNeedsQuoting (s : Text) : Bool :=
  s.isEmpty || s.head?.any (fun c => c.isUpper || c.isDigit) ||
    s.any fun c => !A.test c && c != '_'

def prologAtomRender (s : Text) : Text :=
  if A.prologAtomNeedsQuoting s then '\'' :: escape '\'' s ++ ['\''] else s

variable {φ : Type} (F : FloatText φ)

mutual
def renderPrologTerm : Term φ → Text
  | .atom s => A.prologAtomRender s
  | .var s => ensurePrologVar s
  | .integer n => i64Text n
  | .float f => F.display f
  | .str s => clipsString s
  | .compound functor args =>
    A.prologAtomRender functor ++ '(' :: Text.join [','] (renderPrologTerms args) ++ [')']
def renderPrologTerms : List (Term φ) → List Text
  | [] => []
  | t :: ts => renderPrologTerm t :: renderPrologTerms ts
end

theorem prologAtomNeedsQuoting_ascii {s : Text} (h : Text.IsAscii s) :
    A.prologAtomNeedsQuoting s = Transpile.prologAtomNeedsQuoting s := by
  have hany : s.any (fun c => !A.test c && c != '_') =
      s.any fun c => !Text.isAlphanumeric c && c != '_' := by
    rw [Bool.eq_iff_iff, List.any_eq_true, List.any_eq_true]
    refine exists_congr fun c => and_congr_right fun hc => ?_
    rw [A.test_latin c (Nat.lt_trans (h c hc) (by decide))]
  rw [prologAtomNeedsQuoting, Transpile.prologAtomNeedsQuoting, hany]

theorem prologAtomRender_ascii {s : Text} (h : Text.IsAscii s) :
    A.prologAtomRender s = Transpile.prologAtomRender s := by
  rw [prologAtomRender, Transpile.prologAtomRender, A.prologAtomNeedsQuoting_ascii h]

mutual
/-- On ASCII the two renderers agree. -/
theorem renderPrologTerm_readable : (t : Term φ) → t.Readable →
    A.renderPrologTerm F t = Transpile.renderPrologTerm F t
  | .atom s, h => by
    simp only [Term.Readable] at h
    rw [renderPrologTerm, Transpile.renderPrologTerm, A.prologAtomRender_ascii h.1]
  | .compound functor args, h => by
    simp only [Term.Readable] at h
    rw [renderPrologTerm, Transpile.renderPrologTerm, A.prologAtomRender_ascii h.1.1,
      renderPrologTerms_readable args h.2]
  | .var _, _ | .integer _, _ | .float _, _ | .str _, _ => by
    simp [renderPrologTerm, Transpile.renderPrologTerm]
theorem renderPrologTerms_readable : (ts : List (Term φ)) → Term.AllReadable ts →
    A.renderPrologTerms F ts = Transpile.renderPrologTerms F ts
  | [], _ => rfl
  | t :: ts, h => by
    simp only [Term.AllReadable] at h
    rw [renderPrologTerms, Transpile.renderPrologTerms, renderPrologTerm_readable t h.1,
      renderPrologTerms_readable ts h.2]
end

end Alphanumeric

/-! ### The parser -/

/-- What `parse_symbol` takes. -/
def isSymbolByte (b : Char) : Bool :=
  !Text.isAsciiWhitespace b && b != '(' && b != ')' && b != '"' && b != ';'

/-- The bytes between two ASCII bytes of a text are always those of characters. -/
def parseSymbol (u : Text) : Parsed Text :=
  let name := u.takeWhile isSymbolByte
  let rest := u.dropWhile isSymbolByte
  if name = [] then .error "empty symbol in CLIPS fact" rest
  else
    match Text.fromUtf8 (name.map Char.toUInt8) with
    | some s => .ok s rest
    | none => .error "invalid utf-8 sequence" rest

def isVariableByte (b : Char) : Bool := b.isAlphanum || b == '_' || b == '-'

def capitalizeFirst : Text → Text
  | [] => []
  | c :: s => if c.isLower then c.toUpper :: s else c :: s

/-- The loop of `parse_string`. -/
def stringBody : Text → Parsed Text
  | [] => .error "unterminated string in CLIPS fact" []
  | c :: u =>
    if c = '"' then .ok [] u
    else if c = '\\' then
      match u with
      | [] => .error "unterminated escape in CLIPS string" []
      | d :: u => (stringBody u).map (doubleQuotedEscape d :: ·)
    else (stringBody u).map (c :: ·)

/-- `Option<char>` as `{:?}` writes it, for a byte. -/
def debugByte : Option Char → String
  | none => "None"
  | some c =>
    let text :=
      if c = '\x00' then "\\0"
      else if c = '\t' then "\\t"
      else if c = '\r' then "\\r"
      else if c = '\n' then "\\n"
      else if c = '\'' then "\\'"
      else if c = '\\' then "\\\\"
      else if c.toNat < 32 || (127 ≤ c.toNat && c.toNat < 160) || c.toNat = 0xAD then
        "\\u\x7b" ++ String.ofList (Nat.toDigits 16 c.toNat) ++ "\x7d"
      else c.toString
    "Some('" ++ text ++ "')"

section Parser
variable {φ : Type} (F : FloatText φ)

/-- The first byte says what the field is; `parse_number` is the one of the term parser. -/
def parseField (u : Text) : Parsed (Term φ) :=
  match skipWs u with
  | [] => (parseSymbol []).map .atom
  | c :: u =>
    if c = '"' then (stringBody u).map .str
    else if c = '?' then
      .ok (.var (capitalizeFirst (u.takeWhile isVariableByte))) (u.dropWhile isVariableByte)
    else if c.isDigit || c = '-' then parseNumber F (c :: u)
    else (parseSymbol (c :: u)).map .atom

/-- The loop of `parse_fact`: every field takes a byte at least, so the length of the text is fuel
enough. -/
def parseFields : Nat → Text → Parsed (List (Term φ))
  | 0, u => .error "out of fuel" u
  | fuel + 1, u =>
    match skipWs u with
    | [] => .error "unexpected end in CLIPS fact" []
    | c :: u =>
      if c = ')' then .ok [] u
      else (parseField F (c :: u)).bind fun t u => (parseFields fuel u).map (t :: ·)

def factTerm (functor : Text) (args : List (Term φ)) : Term φ :=
  if args.isEmpty then .atom functor else .compound functor args

def parseFact (u : Text) : Parsed (Term φ) :=
  match skipWs u with
  | '(' :: u =>
    (parseSymbol (skipWs u)).bind fun functor u =>
      (parseFields F (u.length + 1) u).map (factTerm functor)
  | u => .error ("expected '(' at start of CLIPS fact, got " ++ debugByte u.head?) u

/-- The first half of `clips_fact_to_prolog`. What follows the closing parenthesis is not looked
at. -/
def clipsFactTerm (s : Text) : Except String (Term φ) :=
  let s := Text.trim s
  if s.head? = some '(' then (parseFact F (Text.asBytes s)).toExcept
  else .error ("not a CLIPS fact (doesn't start with '('): " ++ String.ofList s)

def clipsFactToProlog (A : Alphanumeric) (s : Text) : Except String Text :=
  (clipsFactTerm F s).map (A.renderPrologTerm F)

end Parser

/-! ### Fields -/

/-- The input goes on with what ends a field: a blank, or the end of the fact. -/
def EndsField (u : Text) : Prop := ∃ d ∈ u.head?, Text.isAsciiWhitespace d ∨ d = ')'

theorem EndsField.head {u : Text} (h : EndsField u) {p : Char → Bool}
    (hp : [' ', '\t', '\n', '\x0C', '\r', ')'].all (! p ·)) : ∀ d ∈ u.head?, p d = false := by
  obtain ⟨e, he, hend⟩ := h
  intro d hd
  obtain rfl : e = d := Option.some.inj (he.symm.trans hd)
  rw [← Bool.not_eq_true']
  refine List.all_eq_true.mp hp e ?_
  simpa [Text.isAsciiWhitespace, or_assoc] using hend

theorem endsField_gap {gap : Text} (hne : gap ≠ []) (hgap : ∀ c ∈ gap, Text.isAsciiWhitespace c)
    (u : Text) : EndsField (gap ++ u) := by
  cases gap with
  | nil => exact absurd rfl hne
  | cons c gap => exact ⟨c, rfl, .inl (hgap c (by simp))⟩

theorem endsField_close (u : Text) : EndsField (')' :: u) := ⟨')', rfl, .inr rfl⟩

theorem symbolByte_plain {b : Char} (h : isSymbolByte b) :
    Text.isAsciiWhitespace b = false ∧ b ≠ ')' ∧ b ≠ '"' := by
  simp only [isSymbolByte, Bool.and_eq_true, Bool.not_eq_true', bne_iff_ne, ne_eq] at h
  exact ⟨h.1.1.1.1, h.1.1.2, h.1.2⟩

theorem symbolByte_asBytes {s : Text} (h : ∀ c ∈ s, c.toNat < 128 → isSymbolByte c) :
    ∀ b ∈ Text.asBytes s, isSymbolByte b := by
  intro b hb
  obtain ⟨c, hc, hbc⟩ := List.mem_flatMap.mp hb
  by_cases hascii : c.toNat < 128
  · rw [Text.utf8_ascii hascii, List.mem_singleton] at hbc
    rw [hbc]
    exact h c hc hascii
  · have hbig := Text.utf8_not_ascii hascii hbc
    simp [isSymbolByte, Text.isAsciiWhitespace, ne_of_not_ascii hbig]

theorem parseSymbol_asBytes {s : Text} (hne : s ≠ [])
    (h : ∀ c ∈ s, c.toNat < 128 → isSymbolByte c) {u : Text}
    (hu : ∀ d ∈ u.head?, isSymbolByte d = false) :
    parseSymbol (Text.asBytes s ++ u) = .ok s u := by
  have hbytes := symbolByte_asBytes h
  have hempty : Text.asBytes s ≠ [] := by
    cases s with
    | nil => exact absurd rfl hne
    | cons c s =>
      obtain ⟨b, v, hbv, -⟩ := Text.asBytes_head c s
      simp [hbv]
  simp only [parseSymbol, Span.takeWhile_append_stop hbytes hu,
    Span.dropWhile_append_stop hbytes hu, hempty, if_false, Text.fromUtf8_asBytes]

section Fields
variable {φ : Type} (F : FloatText φ)

/-- In front of the end of a field the loop takes the text as one argument. -/
def TakesField (r : Text) (t : Term φ) : Prop :=
  ∀ fuel u, EndsField u →
    parseFields F (fuel + 1) (r ++ u) = (parseFields F fuel u).map (t :: ·)

variable {F}

theorem parseFields_skip {gap : Text} (hgap : ∀ c ∈ gap, Text.isAsciiWhitespace c) (fuel : Nat)
    (u : Text) : parseFields F (fuel + 1) (gap ++ u) = parseFields F (fuel + 1) u := by
  have hskip : skipWs (gap ++ u) = skipWs u := List.dropWhile_append_of_pos hgap
  rw [parseFields, parseFields, hskip]

theorem parseFields_close (fuel : Nat) (u : Text) :
    parseFields F (fuel + 1) (')' :: u) = .ok [] u := rfl

theorem parseFields_cons {c : Char} (hws : Text.isAsciiWhitespace c = false) (hclose : c ≠ ')')
    (fuel : Nat) (u : Text) : parseFields F (fuel + 1) (c :: u) =
      (parseField F (c :: u)).bind fun t u => (parseFields F fuel u).map (t :: ·) := by
  rw [parseFields, skipWs_cons hws]
  simp only [hclose, if_false]

/-- A field that begins with `c` and is read as `t`. -/
theorem takesField_cons {c : Char} {r : Text} {t : Term φ}
    (hws : Text.isAsciiWhitespace c = false) (hclose : c ≠ ')')
    (h : ∀ u, EndsField u → parseField F (c :: r ++ u) = .ok t u) : TakesField F (c :: r) t := by
  intro fuel u hu
  have hfield := h u hu
  rw [List.cons_append] at hfield
  rw [List.cons_append, parseFields_cons hws hclose, hfield]
  rfl

/-- A field and the blanks before it. -/
abbrev Spaced := Text × Text

/-- There are blanks before every field. -/
def Gapped (fields : List Spaced) : Prop :=
  ∀ f ∈ fields, f.1 ≠ [] ∧ ∀ c ∈ f.1, Text.isAsciiWhitespace c

def fieldsText (fields : List Spaced) : Text := fields.flatMap fun f => f.1 ++ f.2

theorem fieldsText_cons (f : Spaced) (fields : List Spaced) (u : Text) :
    fieldsText (f :: fields) ++ u = f.1 ++ (f.2 ++ (fieldsText fields ++ u)) := by
  simp [fieldsText]

theorem Gapped.tail {f : Spaced} {fields : List Spaced} (h : Gapped (f :: fields)) :
    Gapped fields := fun g hg => h g (by simp [hg])

theorem Gapped.length_le {fields : List Spaced} (h : Gapped fields) :
    fields.length ≤ (fieldsText fields).length := by
  induction fields with
  | nil => exact Nat.le_refl _
  | cons f fields ih =>
    have hpos := List.length_pos_iff.mpr (h f (by simp)).1
    have htail := ih h.tail
    rw [← List.append_nil (fieldsText (f :: fields)), fieldsText_cons]
    simp only [List.length_append, List.length_cons, List.append_nil]
    omega

/-- Behind a field there is what ends it. -/
theorem Gapped.endsField {fields : List Spaced} (h : Gapped fields) {last : Text}
    (hlast : ∀ c ∈ last, Text.isAsciiWhitespace c) (u : Text) :
    EndsField (fieldsText fields ++ (last ++ ')' :: u)) := by
  cases fields with
  | nil =>
    cases last with
    | nil => exact endsField_close u
    | cons c last => exact endsField_gap (by simp) hlast _
  | cons g fields =>
    rw [fieldsText_cons]
    exact endsField_gap (h g (by simp)).1 (h g (by simp)).2 _

/-- Fields with blanks before each, up to the end of the fact. -/
theorem parseFields_run {fields : List Spaced} {ts : List (Term φ)} (hgaps : Gapped fields)
    (h : List.Forall₂ (fun f t => TakesField F f.2 t) fields ts) {last : Text}
    (hlast : ∀ c ∈ last, Text.isAsciiWhitespace c) {fuel : Nat} (hfuel : fields.length < fuel)
    (u : Text) : parseFields F fuel (fieldsText fields ++ (last ++ ')' :: u)) = .ok ts u := by
  induction h generalizing fuel with
  | nil =>
    obtain ⟨n, rfl⟩ : ∃ n, fuel = n + 1 := ⟨fuel - 1, by omega⟩
    exact (parseFields_skip hlast n (')' :: u)).trans (parseFields_close n u)
  | @cons f t fields ts hft hrest ih =>
    obtain ⟨n, rfl⟩ : ∃ n, fuel = n + 1 := ⟨fuel - 1, by omega⟩
    rw [List.length_cons] at hfuel
    rw [fieldsText_cons, parseFields_skip (hgaps f (by simp)).2,
      hft n _ (hgaps.tail.endsField hlast u), ih hgaps.tail (by omega)]
    rfl

/-! ### The text of a fact -/

/-- `(relation field …)`, with the blanks before each field and before the closing parenthesis. -/
def factText (relation : Text) (fields : List Spaced) (last : Text) : Text :=
  '(' :: relation ++ fieldsText fields ++ last ++ [')']

theorem asBytes_blank {gap : Text} (h : ∀ c ∈ gap, Text.isAsciiWhitespace c) :
    Text.asBytes gap = gap := by
  refine Text.asBytes_ascii fun c hc => ?_
  have hws := h c hc
  simp only [Text.isAsciiWhitespace, Bool.or_eq_true, beq_iff_eq] at hws
  rcases hws with (((rfl | rfl) | rfl) | rfl) | rfl <;> decide

/-- The fields as the parser sees them. -/
def bytesOf (fields : List Spaced) : List Spaced := fields.map fun f => (f.1, Text.asBytes f.2)

theorem Gapped.bytesOf {fields : List Spaced} (h : Gapped fields) : Gapped (bytesOf fields) := by
  intro g hg
  obtain ⟨f, hf, rfl⟩ := List.mem_map.mp hg
  exact h f hf

theorem asBytes_fieldsText {fields : List Spaced} (h : Gapped fields) :
    Text.asBytes (fieldsText fields) = fieldsText (bytesOf fields) := by
  induction fields with
  | nil => rfl
  | cons f fields ih =>
    rw [fieldsText, List.flatMap_cons, Text.asBytes_append, Text.asBytes_append,
      asBytes_blank (h f (by simp)).2]
    change _ ++ Text.asBytes (fieldsText fields) = _
    rw [ih h.tail]
    rfl

/-- What the loop over the fields is given. -/
def fieldsInput (fields : List Spaced) (last : Text) : Text :=
  fieldsText (bytesOf fields) ++ (last ++ [')'])

/-- What the parser does with the text of a fact: the fields are left to the loop. -/
theorem clipsFactTerm_factText {relation : Text} (hne : relation ≠ [])
    (hrelation : ∀ c ∈ relation, c.toNat < 128 → isSymbolByte c) {fields : List Spaced}
    (hgaps : Gapped fields) {last : Text} (hlast : ∀ c ∈ last, Text.isAsciiWhitespace c) :
    clipsFactTerm F (factText relation fields last) =
      (parseFields F ((fieldsInput fields last).length + 1) (fieldsInput fields last)).toExcept.map
        (factTerm relation) := by
  have htrim : Text.trim (factText relation fields last) = factText relation fields last := by
    rw [factText, trim_paren]
    rfl
  have hbytes : Text.asBytes (factText relation fields last) =
      '(' :: (Text.asBytes relation ++ fieldsInput fields last) := by
    rw [factText, Text.asBytes_append, Text.asBytes_append, Text.asBytes_append,
      Text.asBytes_cons (by decide), asBytes_fieldsText hgaps, asBytes_blank hlast]
    simp [fieldsInput, Text.asBytes_cons]
  have hend : EndsField (fieldsInput fields last) := hgaps.bytesOf.endsField hlast []
  have hsymbol := parseSymbol_asBytes hne hrelation (hend.head (p := isSymbolByte) rfl)
  have hskip : skipWs (Text.asBytes relation ++ fieldsInput fields last) =
      Text.asBytes relation ++ fieldsInput fields last := by
    cases relation with
    | nil => exact absurd rfl hne
    | cons c relation =>
      obtain ⟨b, w, hbw, -⟩ := Text.asBytes_head c relation
      have hb := symbolByte_asBytes hrelation b (by simp [hbw])
      rw [hbw, List.cons_append, skipWs_cons (symbolByte_plain hb).1]
  have hparse : parseFact F ('(' :: (Text.asBytes relation ++ fieldsInput fields last)) =
      (parseFields F ((fieldsInput fields last).length + 1) (fieldsInput fields last)).map
        (factTerm relation) := by
    change (parseSymbol (skipWs (Text.asBytes relation ++ fieldsInput fields last))).bind _ = _
    rw [hskip, hsymbol]
    rfl
  rw [clipsFactTerm, htrim, hbytes, hparse]
  cases parseFields F ((fieldsInput fields last).length + 1) (fieldsInput fields last) with
  | ok args rest => rfl
  | error m rest => rfl

/-- A fact whose fields are each taken as an argument. -/
theorem clipsFactTerm_run {relation : Text} (hne : relation ≠ [])
    (hrelation : ∀ c ∈ relation, c.toNat < 128 → isSymbolByte c) {fields : List Spaced}
    (hgaps : Gapped fields) {last : Text} (hlast : ∀ c ∈ last, Text.isAsciiWhitespace c)
    {args : List (Term φ)}
    (h : List.Forall₂ (fun f t => TakesField F (Text.asBytes f.2) t) fields args) :
    clipsFactTerm F (factText relation fields last) = .ok (factTerm relation args) := by
  have hbytes : List.Forall₂ (fun f t => TakesField F f.2 t) (bytesOf fields) args := by
    rw [bytesOf, List.forall₂_map_left_iff]
    exact h
  have hfuel : (bytesOf fields).length < (fieldsInput fields last).length + 1 := by
    have hle := hgaps.bytesOf.length_le
    rw [fieldsInput, List.length_append]
    omega
  rw [clipsFactTerm_factText hne hrelation hgaps hlast]
  rw [fieldsInput] at hfuel ⊢
  rw [parseFields_run hgaps.bytesOf hbytes hlast hfuel []]
  rfl

/-! ### Kinds of fields -/

theorem not_digit_of_endsField {u : Text} (h : EndsField u) : ∀ c ∈ u.head?, c.isDigit = false :=
  h.head rfl

theorem dot_not_endsField {u : Text} (h : EndsField u) : u.head? ≠ some '.' := by
  intro hdot
  have hne := h.head (p := (· == '.')) rfl '.' hdot
  cases hne

theorem parseField_cons {c : Char} (hws : Text.isAsciiWhitespace c = false) (u : Text) :
    parseField F (c :: u) =
      if c = '"' then (stringBody u).map .str
      else if c = '?' then
        .ok (.var (capitalizeFirst (u.takeWhile isVariableByte))) (u.dropWhile isVariableByte)
      else if c.isDigit || c = '-' then parseNumber F (c :: u)
      else (parseSymbol (c :: u)).map .atom := by
  rw [parseField, skipWs_cons hws]

theorem parseField_number {c : Char} (h : c.isDigit ∨ c = '-') (u : Text) :
    parseField F (c :: u) = parseNumber F (c :: u) := by
  rcases h with hdigit | rfl
  · have hother : ∀ d : Char, d.isDigit = false → c ≠ d := by
      rintro d hd rfl
      rw [hdigit] at hd
      cases hd
    rw [parseField_cons (digit_not_ws hdigit)]
    simp only [hother '"' (by decide), hother '?' (by decide), hdigit, if_false, if_true,
      Bool.true_or]
  · rfl

theorem parseField_symbol {c : Char} (hws : Text.isAsciiWhitespace c = false) (hquote : c ≠ '"')
    (hvar : c ≠ '?') (hdigit : c.isDigit = false) (hminus : c ≠ '-') (u : Text) :
    parseField F (c :: u) = (parseSymbol (c :: u)).map .atom := by
  rw [parseField_cons hws]
  simp only [hquote, hvar, hdigit, hminus, if_false, decide_false, Bool.or_false,
    Bool.false_eq_true]

/-- A symbol that begins neither like a number nor like a variable is an atom. -/
theorem takesField_symbol {c : Char} {s : Text}
    (hs : ∀ d ∈ c :: s, d.toNat < 128 → isSymbolByte d) (hdigit : c.isDigit = false)
    (hminus : c ≠ '-') (hvar : c ≠ '?') :
    TakesField F (Text.asBytes (c :: s)) (.atom (c :: s)) := by
  obtain ⟨b, v, hbv, hascii, hother⟩ := Text.asBytes_head c s
  obtain ⟨hws, hclose, hquote⟩ := symbolByte_plain (symbolByte_asBytes hs b (by simp [hbv]))
  have hfirst : b.isDigit = false ∧ b ≠ '-' ∧ b ≠ '?' := by
    by_cases hc : c.toNat < 128
    · rw [hascii hc]
      exact ⟨hdigit, hminus, hvar⟩
    · have hbig := hother hc
      refine ⟨?_, ne_of_not_ascii hbig (by decide), ne_of_not_ascii hbig (by decide)⟩
      simp only [Bool.eq_false_iff, ne_eq, isDigit_iff]
      omega
  have hsymbol : ∀ u, EndsField u → parseSymbol (b :: v ++ u) = .ok (c :: s) u := by
    intro u hu
    rw [← hbv]
    exact parseSymbol_asBytes (by simp) hs (hu.head rfl)
  rw [hbv]
  refine takesField_cons hws hclose fun u hu => ?_
  rw [List.cons_append, parseField_symbol hws hquote hfirst.2.2 hfirst.1 hfirst.2.1,
    ← List.cons_append, hsymbol u hu]
  rfl

theorem takesField_var {s : Text} (hs : ∀ c ∈ s, isVariableByte c) :
    TakesField F ('?' :: s) (.var (capitalizeFirst s)) := by
  refine takesField_cons (by decide) (by decide) fun u hu => ?_
  have hstop := hu.head (p := isVariableByte) rfl
  rw [List.cons_append, parseField_cons (by decide)]
  simp only [Char.reduceEq, if_false, if_true, Span.takeWhile_append_stop hs hstop,
    Span.dropWhile_append_stop hs hstop]

theorem takesField_number {minus : Bool} {digits : Text} {k : Int64}
    (hdigits : ∀ c ∈ digits, c.isDigit) (hk : parseI64 minus digits = .ok k) :
    TakesField F ((if minus then ['-'] else []) ++ digits) (.integer k) := by
  have hunsigned : ∀ u, EndsField u → parseUnsigned F minus (digits ++ u) = .ok (.integer k) u :=
    fun u hu =>
      parseUnsigned_digits hdigits hk (not_digit_of_endsField hu) (dot_not_endsField hu)
  cases minus with
  | true =>
    refine takesField_cons (by decide) (by decide) fun u hu => ?_
    rw [← hunsigned u hu]
    rfl
  | false =>
    cases digits with
    | nil => cases hk
    | cons c digits =>
      have hdigit := hdigits c (by simp)
      have hclose : c ≠ ')' := by
        rintro rfl
        cases hdigit
      refine takesField_cons (digit_not_ws hdigit) hclose fun u hu => ?_
      rw [← hunsigned u hu]
      change parseField F (c :: (digits ++ u)) = _
      rw [parseField_number (.inl hdigit)]
      exact parseNumber_digit hdigit _

theorem takesField_integer (k : Int64) : TakesField F (i64Text k) (.integer k) := by
  rw [i64Text_eq]
  exact takesField_number (fun _ hc => Nat.isDigit_of_mem_toDigits (by decide) (by decide) hc)
    (parseI64_toDigits k)

/-- `parse_string` and `parse_double_quoted` differ in the texts of their errors only. -/
theorem stringBody_eq_ok {u s r : Text} : stringBody u = .ok s r ↔ doubleQuoted u = .ok s r := by
  fun_induction doubleQuoted u generalizing s with
  | case1 => simp [stringBody]
  | case2 u =>
    rw [stringBody.eq_def]
    simp
  | case3 => simp [stringBody]
  | case4 d u hq ih =>
    rw [stringBody.eq_def]
    simp only [hq, if_false, if_true, Parsed.map_eq_ok, ih]
  | case5 c u hq hb ih =>
    rw [stringBody.eq_def]
    simp only [hq, hb, if_false, Parsed.map_eq_ok, ih]

theorem takesField_string {body s : Text} (h : ∀ u, doubleQuoted (body ++ u) = .ok s u) :
    TakesField F ('"' :: body) (.str s) := by
  refine takesField_cons (by decide) (by decide) fun u hu => ?_
  rw [List.cons_append, parseField_cons (by decide), stringBody_eq_ok.mpr (h u)]
  rfl

theorem takesField_clipsString (s : Text) :
    TakesField F (Text.asBytes (clipsString s)) (.str (Text.asBytes s)) := by
  rw [asBytes_clipsString]
  refine takesField_string fun u => ?_
  rw [List.append_assoc, List.singleton_append, doubleQuoted_escape]

end Fields

/-! ### Flat facts -/

section Flat
variable {φ : Type} {F : FloatText φ}

/-- A variable that begins with a capital letter. -/
def IsCapitalName (s : Text) : Prop := (∃ c ∈ s.head?, c.isUpper) ∧ ∀ c ∈ s, isIdent c

def FlatArg : Term φ → Prop
  | .atom s => IsName s
  | .var s => IsCapitalName s
  | .integer _ => True
  | .float _ => False
  | .str s => Text.IsAscii s
  | .compound _ _ => False

/-- An atom or a compound of one level, of plain names, integers, ASCII strings and variables. -/
def FlatFact : Term φ → Prop
  | .atom s => IsName s
  | .compound functor args => IsName functor ∧ args ≠ [] ∧ ∀ t ∈ args, FlatArg t
  | _ => False

theorem IsCapitalName.isVarName {s : Text} (h : IsCapitalName s) : IsVarName s := by
  obtain ⟨⟨c, hc, hup⟩, hall⟩ := h
  exact ⟨⟨c, hc, .inl hup⟩, hall⟩

theorem capitalizeFirst_upper {c : Char} (h : c.isUpper) (s : Text) :
    capitalizeFirst (c :: s) = c :: s := by
  have hlower : ¬ c.isLower := by
    have := isUpper_iff.mp h
    rw [isLower_iff]
    omega
  simp [capitalizeFirst, hlower]

theorem IsCapitalName.capitalizeFirst {s : Text} (h : IsCapitalName s) : capitalizeFirst s = s := by
  obtain ⟨⟨c, hc, hup⟩, -⟩ := h
  cases s with
  | nil => cases hc
  | cons d s =>
    obtain rfl : d = c := by simpa using hc
    exact capitalizeFirst_upper hup s

theorem IsName.readable {s : Text} (h : IsName s) : AtomReadable s := by
  refine ⟨h.ascii, .inr fun hhead => ?_⟩
  obtain ⟨⟨c, hc, hlower⟩, -⟩ := h
  rw [hhead] at hc
  obtain rfl : '_' = c := by simpa using hc
  cases hlower

theorem IsName.simple {s : Text} (h : IsName s) : isSimpleClipsSymbol s = true := by
  obtain ⟨c, u, rfl, -⟩ := h.cons
  simp only [isSimpleClipsSymbol, Bool.and_eq_true, List.all_eq_true]
  refine ⟨rfl, fun d hd => ?_⟩
  have hident := h.2 d hd
  simp only [isIdent, Bool.or_eq_true] at hident
  rcases hident with hd | hd
  · simp [Text.isAlphanumeric, hd]
  · simp [hd]

theorem ident_symbolByte {c : Char} (h : isIdent c) : isSymbolByte c = true := by
  have hws : Text.isAsciiWhitespace c = false := by
    by_contra hws
    have hspace := space_of_ascii (by simpa using hws)
    rw [ident_not_space h] at hspace
    cases hspace
  have hne : ∀ d, isIdent d = false → c ≠ d := by
    rintro d hd rfl
    rw [h] at hd
    cases hd
  simp [isSymbolByte, hws, hne '(' (by decide), hne ')' (by decide), hne '"' (by decide),
    hne ';' (by decide)]

/-- The symbol of a plain functor is the functor. -/
theorem IsName.clipsSymbol {s : Text} (h : IsName s) : clipsSymbolForFunctor s = s := by
  refine clipsSymbol_no_space fun hmem => ?_
  have hident := h.2 ' ' hmem
  cases hident

theorem FlatArg.roundTrips {t : Term φ} (h : FlatArg t) : RoundTrips t := by
  cases t with
  | atom s => exact .atom (IsName.readable h)
  | var s => exact .var (IsCapitalName.isVarName h)
  | integer k => exact .integer k
  | str s => exact .str h
  | float f => exact h.elim
  | compound functor args => exact h.elim

theorem FlatArg.takes {t : Term φ} (h : FlatArg t) :
    TakesField F (Text.asBytes (renderClipsField F t)) t := by
  cases t with
  | atom s =>
    obtain ⟨c, u, rfl, hlower⟩ := IsName.cons h
    rw [renderClipsField, if_pos (IsName.simple h)]
    have hc := isLower_iff.mp hlower
    refine takesField_symbol (fun d hd _ => ident_symbolByte (h.2 d hd)) ?_ ?_ ?_
    · simp only [Bool.eq_false_iff, ne_eq, isDigit_iff]
      omega
    · rintro rfl
      cases hlower
    · rintro rfl
      cases hlower
  | var s =>
    have hname : IsCapitalName s := h
    have hhead : s.head? ≠ some '_' := by
      intro hu
      obtain ⟨⟨c, hc, hup⟩, -⟩ := hname
      rw [hu] at hc
      obtain rfl : '_' = c := by simpa using hc
      cases hup
    have hascii : Text.IsAscii s := fun c hc => ident_ascii (hname.2 c hc)
    have htake := takesField_var (F := F) (s := s) fun c hc => by
      have hident := hname.2 c hc
      simp only [isIdent] at hident
      simp [isVariableByte, hident]
    rw [hname.capitalizeFirst] at htake
    rw [renderClipsField, if_neg hhead, Text.asBytes_cons (by decide), Text.asBytes_ascii hascii]
    exact htake
  | integer k =>
    rw [renderClipsField, Text.asBytes_ascii (plain_i64Text k).ascii]
    exact takesField_integer k
  | str s =>
    have htake := takesField_clipsString (F := F) s
    rw [Text.asBytes_ascii (s := s) h] at htake
    exact htake
  | float f => exact h.elim
  | compound functor args => exact h.elim

theorem FlatFact.roundTrips {t : Term φ} (h : FlatFact t) : RoundTrips t := by
  cases t with
  | atom s => exact .atom (IsName.readable h)
  | compound functor args =>
    obtain ⟨hname, -, hargs⟩ := h
    exact .compound hname.readable fun t ht => (hargs t ht).roundTrips
  | var s => exact h.elim
  | integer k => exact h.elim
  | float f => exact h.elim
  | str s => exact h.elim

/-- Blanks between fields, or one before each. -/
theorem orderedFact_eq (relation : Text) {rs : List Text} (h : rs ≠ []) :
    orderedFact relation rs = factText relation (rs.map fun r => ([' '], r)) [] := by
  have hjoin : ∀ rs : List Text, rs ≠ [] →
      ' ' :: Text.join [' '] rs = fieldsText (rs.map fun r => ([' '], r)) := by
    intro rs hrs
    induction rs with
    | nil => exact absurd rfl hrs
    | cons r rs ih =>
      cases rs with
      | nil => simp [fieldsText]
      | cons r' rs =>
        have htail := ih (by simp)
        rw [Text.join_cons, List.map_cons, ← List.append_nil (fieldsText _), fieldsText_cons,
          List.append_nil, ← htail]
        simp
  rw [orderedFact, factText, ← hjoin rs h]
  simp

theorem IsName.symbolBytes {s : Text} (h : IsName s) :
    s ≠ [] ∧ ∀ c ∈ s, c.toNat < 128 → isSymbolByte c := by
  obtain ⟨c, u, rfl, -⟩ := h.cons
  exact ⟨by simp, fun d hd _ => ident_symbolByte (h.2 d hd)⟩

/-- The fact made of a flat term is translated back to the text of the term. -/
theorem clipsFactToProlog_renderClipsFact (A : Alphanumeric) {t : Term φ} (h : FlatFact t) :
    clipsFactToProlog F A (renderClipsFact F t) = .ok (A.renderPrologTerm F t) := by
  have hlast : ∀ c ∈ ([] : Text), Text.isAsciiWhitespace c := by simp
  cases t with
  | atom s =>
    have hname : IsName s := h
    have hrun := clipsFactTerm_run (F := F) hname.symbolBytes.1 hname.symbolBytes.2
      (by simp [Gapped]) hlast List.Forall₂.nil
    simp only [factText, fieldsText, List.flatMap_nil, List.append_nil] at hrun
    rw [renderClipsFact, hname.clipsSymbol, clipsFactToProlog, hrun]
    rfl
  | compound functor args =>
    obtain ⟨hname, hne, hargs⟩ := h
    have hfields : renderClipsFields F args ≠ [] := by simpa [renderClipsFields_eq_map] using hne
    rw [renderClipsFact, hname.clipsSymbol, orderedFact_eq functor hfields]
    have hgaps : Gapped ((renderClipsFields F args).map fun r => ([' '], r)) := by
      intro f hf
      obtain ⟨r, -, rfl⟩ := List.mem_map.mp hf
      exact ⟨by simp, by simp [Text.isAsciiWhitespace]⟩
    have htakes : List.Forall₂ (fun f t => TakesField F (Text.asBytes f.2) t)
        ((renderClipsFields F args).map fun r => ([' '], r)) args := by
      rw [renderClipsFields_eq_map, List.map_map, List.forall₂_map_left_iff, List.forall₂_same]
      exact fun t ht => (hargs t ht).takes
    rw [clipsFactToProlog, clipsFactTerm_run hname.symbolBytes.1 hname.symbolBytes.2 hgaps hlast
      htakes, factTerm, if_neg (by simpa using hne)]
    rfl
  | var s => exact h.elim
  | integer k => exact h.elim
  | float f => exact h.elim
  | str s => exact h.elim

/-- Prolog to CLIPS and back gives a flat fact again, and so does CLIPS to Prolog and back. -/
theorem flat_fact_round_trips (A : Alphanumeric) {t : Term φ} (h : FlatFact t) :
    ∃ c, prologToClipsFact F (A.renderPrologTerm F t) = .ok c ∧
      clipsFactToProlog F A c = .ok (A.renderPrologTerm F t) ∧
      (clipsFactToProlog F A c).bind (prologToClipsFact F) = .ok c := by
  have hparse : parsePrologTerm F (A.renderPrologTerm F t) = .ok t := by
    rw [A.renderPrologTerm_readable F t h.roundTrips.readable]
    exact h.roundTrips.parse
  have hclips : prologToClipsFact F (A.renderPrologTerm F t) = .ok (renderClipsFact F t) := by
    rw [prologToClipsFact, hparse]
    rfl
  have hback := clipsFactToProlog_renderClipsFact (F := F) A h
  refine ⟨renderClipsFact F t, hclips, hback, ?_⟩
  rw [hback]
  exact hclips

end Flat

/-- Latin letters and digits only. -/
def latin : Alphanumeric := ⟨Text.isAlphanumeric, fun _ _ => rfl⟩

/-- A fact with quotes, a backslash, a newline, parentheses and a semicolon in its string. -/
theorem greeting_round_trips :
    let t : Term Empty := .compound "greet".toList
      [.atom "tom".toList, .str "say \"hi\" \\\n(now);".toList, .var "X_1".toList, .integer (-3)]
    ∃ c, prologToClipsFact noFloats (latin.renderPrologTerm noFloats t) = .ok c ∧
      clipsFactToProlog noFloats latin c = .ok (latin.renderPrologTerm noFloats t) ∧
      (clipsFactToProlog noFloats latin c).bind (prologToClipsFact noFloats) = .ok c := by
  intro t
  have hcapital : IsCapitalName "X_1".toList :=
    ⟨⟨'X', rfl, rfl⟩, List.all_eq_true.mp (by decide)⟩
  have hname : ∀ s : Text, s = "greet".toList ∨ s = "tom".toList → IsName s := by
    rintro s (rfl | rfl)
    · decide
    · decide
  refine flat_fact_round_trips latin ⟨hname _ (.inl rfl), by simp, ?_⟩
  simp only [List.forall_mem_cons, List.not_mem_nil, false_imp_iff, implies_true, and_true]
  refine ⟨hname _ (.inr rfl), ?_, hcapital, trivial⟩
  change Text.IsAscii _
  decide

end Cerebellum.Transpile
