import Cerebellum.ClipsParser

/-! CLIPS facts to Prolog, field by field: which fields of an ordered fact become the argument that
they stand for, and which are split, read as something else or merged with another. -/
namespace Cerebellum.Transpile
open Clips

/-! ### Ordered facts by the lexical rules of CLIPS -/

inductive FieldValue where
  | symbol (s : Text)
  | integer (n : Int64)
  | string (s : Text)
  | var (x : Text)

/-- The text of a field, by the rules of the scanner. -/
inductive Writes : Text → FieldValue → Prop where
  | symbol {s : Text} (h : isSymbol s) : Writes s (.symbol s)
  | integer {sign : Option Char} {digits : Text} {n : Int64} (hsign : ∀ c ∈ sign, c = '+' ∨ c = '-')
      (hne : digits ≠ []) (hdigits : ∀ c ∈ digits, c.isDigit)
      (hn : n.toInt = if sign = some '-' then -(Nat.ofDigitChars 10 digits 0 : Int)
        else Nat.ofDigitChars 10 digits 0) : Writes (sign.toList ++ digits) (.integer n)
  | string {body s : Text} (h : scanString body = some (s, [])) : Writes ('"' :: body) (.string s)
  | var {c : Char} {x : Text} (hc : c.isAlpha ∨ 128 ≤ c.toNat) (hx : ∀ d ∈ c :: x, isSymbolChar d) :
      Writes ('?' :: c :: x) (.var (c :: x))

def FieldValue.token (text : Text) : FieldValue → Token
  | .symbol s => .symbol s
  | .integer _ => .number text
  | .string s => .string s
  | .var x => .var x

theorem scanString_append {u s v : Text} (h : scanString u = some (s, v)) (w : Text) :
    scanString (u ++ w) = some (s, v ++ w) := by
  fun_induction scanString u generalizing s with
  | case1 => cases h
  | case2 u =>
    obtain ⟨rfl, rfl⟩ : [] = s ∧ u = v := by simpa using h
    exact scanString_quote (u ++ w)
  | case3 => cases h
  | case4 d u hq ih =>
    obtain ⟨p, hp, heq⟩ := Option.map_eq_some_iff.mp h
    obtain ⟨rfl, rfl⟩ := Prod.mk.inj heq
    rw [List.cons_append, List.cons_append, scanString_escaped, ih hp]
    rfl
  | case5 c u hq hb ih =>
    obtain ⟨p, hp, heq⟩ := Option.map_eq_some_iff.mp h
    obtain ⟨rfl, rfl⟩ := Prod.mk.inj heq
    rw [List.cons_append, scanString_char hq hb, ih hp]
    rfl

theorem digit_symbolChar {c : Char} (h : c.isDigit) : isSymbolChar c :=
  ident_symbolChar (isIdent_iff.mpr (.inr (.inr (.inl h))))

theorem integer_chars {sign : Option Char} {digits : Text} (hsign : ∀ c ∈ sign, c = '+' ∨ c = '-')
    (hdigits : ∀ c ∈ digits, c.isDigit) :
    ∀ c ∈ sign.toList ++ digits, c = '+' ∨ c = '-' ∨ c.isDigit := by
  intro c hc
  rcases List.mem_append.mp hc with hc | hc
  · rcases hsign c (Option.mem_toList.mp hc) with h | h
    · exact .inl h
    · exact .inr (.inl h)
  · exact .inr (.inr (hdigits c hc))

/-- CLIPS reads the text as one token, which is the field. -/
theorem Writes.isField {r : Text} {v : FieldValue} (h : Writes r v) : IsField r (v.token r) := by
  cases h with
  | symbol h => exact isField_symbol h
  | @integer sign digits n hsign hne hdigits hn =>
    have hnumber := isNumber_digits hsign hne hdigits
    cases htext : sign.toList ++ digits with
    | nil => exact absurd (List.append_eq_nil_iff.mp htext).2 hne
    | cons c r =>
      have hall := integer_chars hsign hdigits
      rw [htext] at hall
      have hchar : ∀ d ∈ c :: r, isSymbolChar d := by
        intro d hd
        rcases hall d hd with rfl | rfl | h
        · decide
        · decide
        · exact digit_symbolChar h
      have hbare : bareToken c (c :: r) = .number (c :: r) := by
        rw [htext] at hnumber
        rcases hall c (by simp) with rfl | rfl | h
        · simp [bareToken, hnumber]
        · simp [bareToken, hnumber]
        · simp [bareToken, hnumber, h]
      have hne : ∀ e : Char, e ≠ '+' → e ≠ '-' → e.isDigit = false → c ≠ e := by
        rintro e h1 h2 h3 rfl
        rcases hall c (by simp) with h | h | h
        · exact h1 h
        · exact h2 h
        · rw [h3] at h
          cases h
      have hfield := isField_bare (hchar c (by simp)) (hne '?' (by decide) (by decide) (by decide))
        (hne '$' (by decide) (by decide) (by decide)) fun d hd =>
        hchar d (List.mem_cons_of_mem c hd)
      rw [hbare] at hfield
      exact hfield
  | string h => exact isField_string fun u => by simpa using scanString_append h u
  | @var c x hc hx =>
    intro d u hd
    have hu : ∀ e ∈ (d :: u).head?, isSymbolChar e = false := by simp [end_not_symbolChar hd]
    have hfirst : (c.isAlpha || decide (128 ≤ c.toNat)) = true := by simpa using hc
    refine scan_of_getToken ?_
    rw [getToken, List.cons_append, skipBlank_symbolChar (by decide)]
    simp only [Char.reduceEq, if_false, if_true, variableToken, List.cons_append, hfirst]
    rw [← List.cons_append, Span.takeWhile_append_stop hx hu, Span.dropWhile_append_stop hx hu]
    rfl

/-- A field with its text and the blanks before it. -/
structure FactField where
  gap : Text
  text : Text
  value : FieldValue
  gap_ne : gap ≠ []
  gap_blank : ∀ c ∈ gap, Text.isAsciiWhitespace c
  writes : Writes text value

/-- An ordered fact, as its text gives it. -/
structure OrderedFact where
  relation : Text
  fields : List FactField
  last : Text
  relation_symbol : isSymbol relation
  last_blank : ∀ c ∈ last, Text.isAsciiWhitespace c

def FactField.spaced (f : FactField) : Spaced := (f.gap, f.text)

def OrderedFact.text (c : OrderedFact) : Text :=
  factText c.relation (c.fields.map FactField.spaced) c.last

/-! ### What a Prolog term says of a fact -/

/-- Which texts without quotes Prolog reads as the atom of those characters. On ASCII the names
are, beyond that it depends on the letters the system knows. -/
structure PrologWords where
  isWord : Text → Prop
  isWord_ascii : ∀ s, Text.IsAscii s → (isWord s ↔ IsName s)

section Meaning
variable {φ : Type}

/-- The argument that stands for a field. -/
def DenotesField : FieldValue → Term φ → Prop
  | .symbol s, t => t = .atom s
  | .integer n, t => t = .integer n
  | .string s, t => t = .str s
  | .var _, t => ∃ y, t = .var y

/-- A variable as it is written. `_` is a new one each time. -/
def SameVariable (y y' : Text) : Prop :=
  ensurePrologVar y = ensurePrologVar y' ∧ ensurePrologVar y ≠ ['_']

/-- The functor is the relation, and the arguments are the fields. -/
structure OrderedFact.DenotedBy (c : OrderedFact) (t : Term φ) : Prop where
  callable : isCallable t
  functor : termFunctorName t = c.relation
  arguments : List.Forall₂ (fun f a => DenotesField f.value a) c.fields (arguments t)
  vars : ∀ p ∈ c.fields.zip (Transpile.arguments t), ∀ q ∈ c.fields.zip (Transpile.arguments t),
    ∀ x y x' y', p.1.value = .var x → p.2 = .var y → q.1.value = .var x' → q.2 = .var y' →
      (x = x' ↔ SameVariable y y')

variable (A : Alphanumeric) (W : PrologWords)

/-- The text `prolog_atom_render` gives is read as the atom: it has quotes, or needs none. -/
def LegibleAtom (s : Text) : Prop := A.prologAtomNeedsQuoting s = true ∨ W.isWord s

def LegibleField : Term φ → Prop
  | .atom s => LegibleAtom A W s
  | .var y => IsVarName (ensurePrologVar y)
  | .integer _ | .float _ | .str _ => True
  | .compound _ _ => False

/-- Prolog reads the rendered text as the term. A fact has no structure inside a field. -/
def Legible (t : Term φ) : Prop :=
  LegibleAtom A W (termFunctorName t) ∧ ∀ a ∈ arguments t, LegibleField A W a

end Meaning

/-! ### The condition -/

/-- No `\n` and no `\t` in a string: CLIPS reads the letter, the parser a newline or a tab. -/
def plainEscapes : Text → Bool
  | '\\' :: d :: u => d != 'n' && d != 't' && plainEscapes u
  | _ :: u => plainEscapes u
  | [] => true

/-- A field that keeps its kind, its value and its extent. -/
def FactField.Kept (A : Alphanumeric) (W : PrologWords) (f : FactField) : Prop :=
  match f.value with
  | .symbol s => (∀ c ∈ s.head?, c.isDigit = false ∧ c ≠ '-') ∧ LegibleAtom A W s
  | .integer _ => f.text.head? ≠ some '+'
  | .string _ => Text.IsAscii f.text ∧ plainEscapes f.text
  | .var x => ∀ c ∈ x, isIdent c

/-- Every field is kept, and no two variables become one by their capital letter. -/
structure OrderedFact.Plain (A : Alphanumeric) (W : PrologWords) (c : OrderedFact) : Prop where
  relation : LegibleAtom A W c.relation
  fields : ∀ f ∈ c.fields, f.Kept A W
  vars : ∀ f ∈ c.fields, ∀ g ∈ c.fields, ∀ x y, f.value = .var x → g.value = .var y →
    capitalizeFirst x = capitalizeFirst y → x = y

/-! ### Strings -/

theorem doubleQuotedEscape_eq_self {d : Char} : doubleQuotedEscape d = d ↔ d ≠ 'n' ∧ d ≠ 't' := by
  unfold doubleQuotedEscape
  split
  · next h => simp [h]
  split
  · next h => simp [h]
  · next hn ht => simp [hn, ht]

theorem doubleQuoted_bytes {p : Text} (hp : ∀ b ∈ p, ¬ b.toNat < 128) {u s w : Text}
    (h : doubleQuoted u = .ok s w) : doubleQuoted (p ++ u) = .ok (p ++ s) w :=
  map_plain hp (fun _ _ hb => doubleQuoted_other (ne_of_not_ascii hb (by decide))
    (ne_of_not_ascii hb (by decide)) _) h

theorem plainEscapes_other {c : Char} (h : c ≠ '\\') (u : Text) :
    plainEscapes (c :: u) = plainEscapes u := by
  rw [plainEscapes.eq_def]
  split
  · next heq => exact absurd (List.cons.inj heq).1 h
  · next heq => rw [(List.cons.inj heq).2]
  · next heq => cases heq

/-- A character beyond ASCII is read as more than one. -/
theorem bytes_length {c : Char} (h : ¬ c.toNat < 128) :
    2 ≤ ((String.utf8EncodeChar c).map Char.ofUInt8).length := by
  rw [List.length_map, String.length_utf8EncodeChar]
  by_contra hlt
  have hpos := Char.utf8Size_pos c
  have hone : c.utf8Size = 1 := by omega
  exact h (Nat.lt_succ_of_le (UInt32.le_iff_toNat_le.mp (Char.utf8Size_eq_one_iff.mp hone)))

/-- What the parser makes of a string of CLIPS: no less than its characters, and those only when
they are ASCII and no escape is one of the two it reads its own way. -/
theorem doubleQuoted_clips {body s : Text} (h : scanString body = some (s, [])) :
    ∃ v, (∀ u, doubleQuoted (Text.asBytes body ++ u) = .ok v u) ∧ s.length ≤ v.length ∧
      (v = s ↔ Text.IsAscii body ∧ plainEscapes body) := by
  -- behind a character beyond ASCII the result is too long
  have hother : ∀ {c : Char} {body s v : Text}, ¬ c.toNat < 128 → s.length ≤ v.length → c ∈ body →
      (c :: s).length ≤ ((String.utf8EncodeChar c).map Char.ofUInt8 ++ v).length ∧
        ((String.utf8EncodeChar c).map Char.ofUInt8 ++ v = c :: s ↔
          Text.IsAscii body ∧ plainEscapes body) := by
    intro c body s v hc hlen hmem
    have hbytes := bytes_length hc
    refine ⟨?_, iff_of_false (fun heq => ?_) fun hgood => hc (hgood.1 c hmem)⟩
    · simp only [List.length_append, List.length_cons]
      omega
    · have hlength := congrArg List.length heq
      simp only [List.length_append, List.length_cons] at hlength
      omega
  fun_induction scanString body generalizing s with
  | case1 => cases h
  | case2 u =>
    obtain ⟨rfl, rfl⟩ : [] = s ∧ u = [] := by simpa using h
    refine ⟨[], fun u => ?_, Nat.le_refl _, iff_of_true rfl ⟨by simp [Text.IsAscii], rfl⟩⟩
    rw [Text.asBytes_cons (by decide)]
    exact doubleQuoted_quote u
  | case3 => cases h
  | case4 d u hq ih =>
    obtain ⟨⟨s', w⟩, hs', heq⟩ := Option.map_eq_some_iff.mp h
    obtain ⟨rfl, rfl⟩ := Prod.mk.inj heq
    obtain ⟨v, hv, hlen, hiff⟩ := ih hs'
    have hplain : plainEscapes ('\\' :: d :: u) ↔ (d ≠ 'n' ∧ d ≠ 't') ∧ plainEscapes u := by
      simp [plainEscapes]
    by_cases hd : d.toNat < 128
    · refine ⟨doubleQuotedEscape d :: v, fun w => ?_, by simpa using hlen, ?_⟩
      · rw [Text.asBytes_cons (by decide), Text.asBytes_cons hd, List.cons_append, List.cons_append,
          doubleQuoted_slash, hv w]
        rfl
      · rw [List.cons.injEq, hiff, doubleQuotedEscape_eq_self, hplain, Text.IsAscii, Text.IsAscii,
          List.forall_mem_cons, List.forall_mem_cons]
        exact ⟨fun h => ⟨⟨by decide, hd, h.2.1⟩, h.1, h.2.2⟩,
          fun h => ⟨h.2.1, h.1.2.2, h.2.2⟩⟩
    · refine ⟨(String.utf8EncodeChar d).map Char.ofUInt8 ++ v, fun w => ?_,
        hother hd hlen (by simp)⟩
      obtain ⟨b, p, hbp, hbig⟩ := Text.utf8_other hd
      have hb : doubleQuotedEscape b = b := doubleQuotedEscape_eq_self.mpr
        ⟨ne_of_not_ascii (hbig b (by simp)) (by decide),
          ne_of_not_ascii (hbig b (by simp)) (by decide)⟩
      have hrest := doubleQuoted_bytes (fun e he => hbig e (List.mem_cons_of_mem b he)) (hv w)
      have hbytes : Text.asBytes (d :: u) = b :: p ++ Text.asBytes u := by
        rw [Text.asBytes, List.flatMap_cons, hbp]
        rfl
      rw [Text.asBytes_cons (by decide), hbytes, hbp, List.cons_append, List.cons_append,
        List.cons_append, List.append_assoc, doubleQuoted_slash, hrest, hb]
      rfl
  | case5 c u hq hb ih =>
    obtain ⟨⟨s', w⟩, hs', heq⟩ := Option.map_eq_some_iff.mp h
    obtain ⟨rfl, rfl⟩ := Prod.mk.inj heq
    obtain ⟨v, hv, hlen, hiff⟩ := ih hs'
    by_cases hc : c.toNat < 128
    · refine ⟨c :: v, fun u => ?_, by simpa using hlen, ?_⟩
      · rw [Text.asBytes_cons hc, List.cons_append, doubleQuoted_other hq hb, hv u]
        rfl
      · rw [plainEscapes_other hb, List.cons_inj_right, hiff, Text.IsAscii, Text.IsAscii,
          List.forall_mem_cons, and_iff_right hc]
    · refine ⟨(String.utf8EncodeChar c).map Char.ofUInt8 ++ v, fun w => ?_,
        hother hc hlen (by simp)⟩
      rw [Text.asBytes, List.flatMap_cons, List.append_assoc]
      exact doubleQuoted_bytes (fun b hb => Text.utf8_not_ascii hc hb) (hv w)

/-! ### Where a field may be left -/

section Splitting
variable {φ : Type} {F : FloatText φ}

theorem dropWhile_append_endsField {p : Char → Bool}
    (hp : [' ', '\t', '\n', '\x0C', '\r', ')'].all (! p ·)) {u : Text} (hu : EndsField u)
    (r : Text) : (r ++ u).dropWhile p = r.dropWhile p ++ u := by
  have hstop := hu.head hp
  cases u with
  | nil => simp
  | cons d u => exact Span.dropWhile_append_cons (hstop d rfl) r u

/-- A number ends where its digits do, or behind the digits of its fraction. -/
theorem parseUnsigned_suffix {minus : Bool} {r u v : Text} {t : Term φ} (hu : EndsField u)
    (h : parseUnsigned F minus (r ++ u) = .ok t v) :
    ∃ w, v = w ++ u ∧ w <:+ r.dropWhile Char.isDigit := by
  have hdrop : ∀ r : Text, (r ++ u).dropWhile Char.isDigit = r.dropWhile Char.isDigit ++ u :=
    dropWhile_append_endsField rfl hu
  simp only [parseUnsigned, hdrop] at h
  cases hr : r.dropWhile Char.isDigit with
  | nil =>
    rw [hr, List.nil_append] at h
    split at h
    · next u' => exact absurd rfl (dot_not_endsField hu)
    · split at h
      · obtain ⟨-, rfl⟩ := Parsed.ok.inj h
        exact ⟨[], rfl, List.suffix_rfl⟩
      · cases h
  | cons c w =>
    rw [hr] at h
    by_cases hdot : c = '.'
    · subst hdot
      simp only [List.cons_append] at h
      split at h
      · obtain ⟨-, rfl⟩ := Parsed.ok.inj h
        exact ⟨w.dropWhile Char.isDigit, hdrop w,
          (List.dropWhile_suffix _).trans (List.suffix_cons _ _)⟩
      · cases h
    · simp only [List.cons_append] at h
      split at h
      · next heq => exact absurd (List.cons.inj heq).1 hdot
      · split at h
        · obtain ⟨-, rfl⟩ := Parsed.ok.inj h
          exact ⟨c :: w, rfl, List.suffix_rfl⟩
        · cases h

/-- A field of symbol bytes is left within them, behind one byte at least. -/
theorem parseField_within {c : Char} {r u v : Text} {t : Term φ} (hc : isSymbolByte c)
    (hr : ∀ b ∈ r, isSymbolByte b) (hu : EndsField u) (h : parseField F (c :: r ++ u) = .ok t v) :
    ∃ w, v = w ++ u ∧ w <:+ r := by
  obtain ⟨hws, -, hquote⟩ := symbolByte_plain hc
  rw [List.cons_append, parseField_cons hws] at h
  simp only [hquote, if_false] at h
  split at h
  · obtain ⟨-, rfl⟩ := Parsed.ok.inj h
    exact ⟨_, dropWhile_append_endsField rfl hu r, List.dropWhile_suffix _⟩
  split at h
  · next hnumber =>
    by_cases hminus : c = '-'
    · subst hminus
      obtain ⟨w, rfl, hw⟩ := parseUnsigned_suffix hu h
      exact ⟨w, rfl, hw.trans (List.dropWhile_suffix _)⟩
    · have hdigit : c.isDigit := by simpa [hminus] using hnumber
      rw [parseNumber_digit hdigit, ← List.cons_append] at h
      obtain ⟨w, rfl, hw⟩ := parseUnsigned_suffix hu h
      rw [List.dropWhile_cons, if_pos hdigit] at hw
      exact ⟨w, rfl, hw.trans (List.dropWhile_suffix _)⟩
  · obtain ⟨s, hs, -⟩ := Parsed.map_eq_ok.mp h
    have hall : ∀ b ∈ c :: r, isSymbolByte b := List.forall_mem_cons.mpr ⟨hc, hr⟩
    have hrest := dropWhile_append_endsField (p := isSymbolByte) rfl hu (c :: r)
    rw [List.dropWhile_eq_nil_iff.mpr hall, List.cons_append] at hrest
    simp only [parseSymbol] at hs
    split at hs
    · cases hs
    split at hs
    · obtain ⟨-, rfl⟩ := Parsed.ok.inj hs
      exact ⟨[], hrest, List.nil_suffix⟩
    · cases hs

/-- What is left of a field gives arguments of its own. -/
theorem parseFields_within {fuel : Nat} {r u v : Text} {ts : List (Term φ)}
    (hr : ∀ b ∈ r, isSymbolByte b) (hu : EndsField u)
    (h : parseFields F fuel (r ++ u) = .ok ts v) :
    ∃ fuel' ts₁ ts₂, ts = ts₁ ++ ts₂ ∧ (r ≠ [] → ts₁ ≠ []) ∧ parseFields F fuel' u = .ok ts₂ v := by
  induction fuel generalizing r ts with
  | zero => cases h
  | succ n ih =>
    cases r with
    | nil => exact ⟨n + 1, [], ts, rfl, fun hne => absurd rfl hne, h⟩
    | cons c r =>
      obtain ⟨hc, hr⟩ := List.forall_mem_cons.mp hr
      obtain ⟨hws, hclose, -⟩ := symbolByte_plain hc
      rw [List.cons_append, parseFields_cons hws hclose] at h
      obtain ⟨t, v', ht, htail⟩ := Parsed.bind_eq_ok.mp h
      obtain ⟨ts', hts', rfl⟩ := Parsed.map_eq_ok.mp htail
      obtain ⟨w, rfl, hw⟩ := parseField_within hc hr hu ht
      obtain ⟨fuel', ts₁, ts₂, rfl, -, hrest⟩ := ih (fun b hb => hr b (hw.subset hb)) hts'
      exact ⟨fuel', t :: ts₁, ts₂, rfl, fun _ => by simp, hrest⟩

end Splitting

/-! ### One field -/

theorem symbolChar_symbolByte {c : Char} (h : isSymbolChar c) : isSymbolByte c := by
  have hne : ∀ d : Char, isSymbolChar d = false → c ≠ d := by
    rintro d hd rfl
    rw [h] at hd
    cases hd
  simp [isSymbolByte, Text.isAsciiWhitespace, hne ' ' (by decide), hne '\t' (by decide),
    hne '\n' (by decide), hne '\x0C' (by decide), hne '\r' (by decide), hne '(' (by decide),
    hne ')' (by decide), hne '"' (by decide), hne ';' (by decide)]

theorem isSymbol_bytes {s : Text} (h : isSymbol s) : s ≠ [] ∧ ∀ c ∈ s, isSymbolByte c := by
  cases s with
  | nil => cases h
  | cons c s =>
    simp only [isSymbol, Bool.and_eq_true, List.all_eq_true, Bool.or_eq_true, beq_iff_eq] at h
    refine ⟨by simp, List.forall_mem_cons.mpr ⟨?_, fun d hd => symbolChar_symbolByte (h.1 d hd)⟩⟩
    rcases h.2 with rfl | hc
    · decide
    · exact symbolChar_symbolByte hc.1.1.1

theorem isSymbol_not_var {s : Text} (h : isSymbol s) : s.head? ≠ some '?' := by
  rintro hs
  cases s with
  | nil => cases hs
  | cons c s =>
    obtain rfl : c = '?' := by simpa using hs
    simp [isSymbol] at h

def FieldValue.term {φ : Type} : FieldValue → Term φ
  | .symbol s => .atom s
  | .integer n => .integer n
  | .string s => .str s
  | .var x => .var (capitalizeFirst x)

section OneField
variable {φ : Type} {F : FloatText φ} {A : Alphanumeric} {W : PrologWords}

/-- The text of a field that is no string consists of symbol bytes. -/
theorem FactField.symbolBytes (f : FactField) :
    (∃ body s, f.text = '"' :: body ∧ f.value = .string s ∧ scanString body = some (s, [])) ∨
      f.text ≠ [] ∧ ∀ c ∈ f.text, isSymbolByte c := by
  obtain ⟨gap, text, value, hne, hblank, hw⟩ := f
  cases hw with
  | symbol h => exact .inr (isSymbol_bytes h)
  | integer hsign hdigitsNe hdigits hn =>
    refine .inr ⟨fun h => hdigitsNe (List.append_eq_nil_iff.mp h).2, fun c hc => ?_⟩
    rcases integer_chars hsign hdigits c hc with rfl | rfl | hdigit
    · decide
    · decide
    · exact symbolChar_symbolByte (digit_symbolChar hdigit)
  | string h => exact .inl ⟨_, _, rfl, rfl, h⟩
  | var hc hx =>
    exact .inr ⟨by simp, List.forall_mem_cons.mpr
      ⟨by decide, fun d hd => symbolChar_symbolByte (hx d hd)⟩⟩

theorem FactField.asBytes_cons (f : FactField) : ∃ b v, Text.asBytes f.text = b :: v ∧
    Text.isAsciiWhitespace b = false ∧ b ≠ ')' := by
  rcases f.symbolBytes with ⟨body, s, htext, -, -⟩ | ⟨hne, hall⟩
  · rw [htext, Text.asBytes_cons (by decide)]
    exact ⟨'"', _, rfl, rfl, by decide⟩
  · cases htext : f.text with
    | nil => exact absurd htext hne
    | cons c r =>
      obtain ⟨b, v, hbv, -⟩ := Text.asBytes_head c r
      have hb := symbolByte_asBytes (fun d hd _ => hall d hd) b (by simp [htext, hbv])
      obtain ⟨hws, hclose, -⟩ := symbolByte_plain hb
      exact ⟨b, v, hbv, hws, hclose⟩

/-- The value of an integer is the one `str::parse::<i64>` gives. -/
theorem parseI64_eq_ok {minus : Bool} {digits : Text} {n : Int64} (hne : digits ≠ [])
    (hn : n.toInt = if minus then -(Nat.ofDigitChars 10 digits 0 : Int)
      else Nat.ofDigitChars 10 digits 0) : parseI64 minus digits = .ok n := by
  have hlt := n.toInt_lt
  have hle := n.le_toInt
  have hval := Int64.ofInt_toInt n
  cases minus with
  | true =>
    simp only [if_true] at hn
    have hbound : Nat.ofDigitChars 10 digits 0 ≤ 2 ^ 63 := by omega
    simp only [parseI64, hne, if_false, if_true, hbound, ← hn, hval]
  | false =>
    simp only [Bool.false_eq_true, if_false] at hn
    have hbound : Nat.ofDigitChars 10 digits 0 < 2 ^ 63 := by omega
    simp only [parseI64, hne, Bool.false_eq_true, if_false, if_true, hbound, ← hn, hval]

/-- A kept field is taken as one argument. -/
theorem FactField.Kept.takes {f : FactField} (h : f.Kept A W) :
    TakesField F (Text.asBytes f.text) f.value.term := by
  obtain ⟨gap, text, value, hne, hblank, hw⟩ := f
  cases hw with
  | symbol hs =>
    obtain ⟨hfirst, -⟩ := h
    have hvar := isSymbol_not_var hs
    cases text with
    | nil => exact absurd rfl (isSymbol_bytes hs).1
    | cons c s =>
      obtain ⟨hdigit, hminus⟩ := hfirst c rfl
      exact takesField_symbol (fun d hd _ => (isSymbol_bytes hs).2 d hd) hdigit hminus
        (by simpa using hvar)
  | @integer sign digits n hsign hdigitsNe hdigits hn =>
    have hascii : Text.IsAscii (sign.toList ++ digits) := by
      intro c hc
      rcases integer_chars hsign hdigits c hc with rfl | rfl | hdigit
      · decide
      · decide
      · have := isDigit_iff.mp hdigit
        omega
    rw [Text.asBytes_ascii hascii]
    cases sign with
    | none =>
      have hparse : parseI64 false digits = .ok n := parseI64_eq_ok hdigitsNe (by simpa using hn)
      exact takesField_number (F := F) hdigits hparse
    | some c =>
      rcases hsign c rfl with rfl | rfl
      · exact absurd rfl h
      · have hparse : parseI64 true digits = .ok n := parseI64_eq_ok hdigitsNe (by simpa using hn)
        exact takesField_number (F := F) hdigits hparse
  | @string body s hs =>
    obtain ⟨hascii, hplain⟩ := h
    obtain ⟨v, hv, -, hiff⟩ := doubleQuoted_clips hs
    have hbody : Text.IsAscii body := fun c hc => hascii c (List.mem_cons_of_mem _ hc)
    obtain rfl := hiff.mpr ⟨hbody, by rwa [plainEscapes_other (by decide)] at hplain⟩
    rw [Text.asBytes_cons (by decide)]
    exact takesField_string hv
  | @var c x hc hx =>
    have hident : ∀ d ∈ c :: x, isIdent d := h
    rw [Text.asBytes_ascii (List.forall_mem_cons.mpr
      ⟨by decide, fun d hd => ident_ascii (hident d hd)⟩)]
    refine takesField_var fun d hd => ?_
    have hd' := hident d hd
    simp only [isIdent] at hd'
    simp [isVariableByte, hd']

theorem isUpper_toUpper {c : Char} (h : c.isLower) : c.toUpper.isUpper := by
  have hc := isLower_iff.mp h
  have hrange : c.val ≥ 'a'.val ∧ c.val ≤ 'z'.val := by
    simp only [ge_iff_le, UInt32.le_iff_toNat_le]
    exact hc
  have hupper : c.toUpper.val = c.val + ('A'.val - 'a'.val) := by
    delta Char.toUpper
    rw [dif_pos hrange]
  rw [isUpper_iff, Char.toNat, hupper]
  have hval : (c.val + ('A'.val - 'a'.val)).toNat = c.toNat - 32 := by
    have hsub : ('A'.val - 'a'.val).toNat = 2 ^ 32 - 32 := by decide
    rw [UInt32.toNat_add, hsub]
    change (c.toNat + (2 ^ 32 - 32)) % 2 ^ 32 = _
    omega
  change 65 ≤ (c.val + ('A'.val - 'a'.val)).toNat ∧ (c.val + ('A'.val - 'a'.val)).toNat ≤ 90
  omega

/-- A variable of CLIPS becomes one of Prolog by its first letter. -/
theorem capitalizeFirst_alpha {c : Char} (h : c.isAlpha) (x : Text) :
    ∃ d, capitalizeFirst (c :: x) = d :: x ∧ d.isUpper := by
  rcases isAlpha_iff.mp h with hup | hlow
  · exact ⟨c, capitalizeFirst_upper hup x, hup⟩
  · exact ⟨c.toUpper, by simp [capitalizeFirst, hlow], isUpper_toUpper hlow⟩

theorem ensurePrologVar_capital {c : Char} {x : Text} (h : c.isAlpha) :
    ensurePrologVar (capitalizeFirst (c :: x)) = capitalizeFirst (c :: x) := by
  obtain ⟨d, hd, hup⟩ := capitalizeFirst_alpha h x
  rw [hd]
  simp [ensurePrologVar, hup]

/-- Bytes of variables are ASCII, and so are the characters they are the bytes of. -/
theorem ascii_of_variableBytes {x : Text} (h : ∀ b ∈ Text.asBytes x, isVariableByte b) :
    Text.IsAscii x := by
  intro c hc
  by_contra hbig
  obtain ⟨b, v, hbv, hother⟩ := Text.utf8_other hbig
  have hb := hother b (by simp)
  have hmem : b ∈ Text.asBytes x := List.mem_flatMap.mpr ⟨c, hc, by simp [hbv]⟩
  have hvariable := h b hmem
  simp only [isVariableByte, Bool.or_eq_true, beq_iff_eq] at hvariable
  rcases hvariable with (halnum | rfl) | rfl
  · exact hb (ident_ascii (by simp [isIdent, halnum]))
  · exact hb (by decide)
  · exact hb (by decide)

/-- What the first argument read from a field says of the field. -/
theorem FactField.first (f : FactField) {u v : Text} {t : Term φ} (hu : EndsField u)
    (h : parseField F (Text.asBytes f.text ++ u) = .ok t v) :
    ∃ w, v = w ++ u ∧ (∀ b ∈ w, isSymbolByte b) ∧
      (w = [] → DenotesField f.value t → LegibleField A W t → f.Kept A W) := by
  rcases f.symbolBytes with ⟨body, s, htext, hvalue, hs⟩ | ⟨hne, hall⟩
  · obtain ⟨x, hx, -, hiff⟩ := doubleQuoted_clips hs
    rw [htext, Text.asBytes_cons (by decide), List.cons_append, parseField_cons (by decide),
      if_pos rfl, stringBody_eq_ok.mpr (hx u)] at h
    obtain ⟨rfl, rfl⟩ := Parsed.ok.inj h
    refine ⟨[], rfl, by simp, fun _ hden _ => ?_⟩
    simp only [hvalue, DenotesField, Term.str.injEq] at hden
    obtain ⟨hascii, hplain⟩ := hiff.mp hden
    simp only [FactField.Kept, hvalue, htext]
    exact ⟨List.forall_mem_cons.mpr ⟨by decide, hascii⟩,
      by rwa [plainEscapes_other (by decide)]⟩
  · have hbytes := symbolByte_asBytes fun c hc _ => hall c hc
    obtain ⟨b, r, hbr, hws, -⟩ := f.asBytes_cons
    rw [hbr] at hbytes h
    obtain ⟨hb, hr⟩ := List.forall_mem_cons.mp hbytes
    obtain ⟨w, rfl, hw⟩ := parseField_within hb hr hu h
    refine ⟨w, rfl, fun e he => hr e (hw.subset he), fun hnil hden hleg => ?_⟩
    subst hnil
    obtain ⟨gap, text, value, hgap, hblank, hwrites⟩ := f
    have hfirst : ∀ c, text.head? = some c → c.toNat < 128 → b = c := by
      intro c hc hascii
      cases text with
      | nil => cases hc
      | cons d s =>
        obtain rfl : d = c := Option.some.inj hc
        rw [Text.asBytes_cons hascii] at hbr
        exact (List.cons.inj hbr).1.symm
    cases hwrites with
    | symbol hs =>
      obtain rfl : t = .atom text := hden
      refine ⟨fun c hc => ?_, hleg⟩
      by_contra hno
      have hnumber : c.isDigit ∨ c = '-' := by
        by_contra hor
        simp only [not_or, Bool.not_eq_true] at hor
        exact hno hor
      have hascii : c.toNat < 128 := by
        rcases hnumber with hdigit | rfl
        · have := isDigit_iff.mp hdigit
          omega
        · decide
      rw [hfirst c hc hascii, List.cons_append, parseField_number hnumber] at h
      rcases parseNumber_cases h with ⟨k, hk⟩ | ⟨⟨g, hg⟩, -⟩
      · cases hk
      · cases hg
    | @integer sign digits n hsign hdigitsNe hdigits hn =>
      obtain rfl : t = .integer n := hden
      intro hplus
      rw [hfirst '+' hplus (by decide), List.cons_append, parseField_symbol (by decide) (by decide)
        (by decide) (by decide) (by decide)] at h
      obtain ⟨s, -, hs⟩ := Parsed.map_eq_ok.mp h
      cases hs
    | string hs => exact absurd (hall '"' (by simp)) (by decide)
    | @var c x hc hx =>
      obtain ⟨rfl, rfl⟩ : '?' = b ∧ Text.asBytes (c :: x) = r := by
        rw [Text.asBytes_cons (by decide)] at hbr
        exact List.cons.inj hbr
      rw [List.cons_append, parseField_cons hws] at h
      simp only [Char.reduceEq, if_false, if_true, Parsed.ok.injEq] at h
      obtain ⟨ht, hrest⟩ := h
      rw [dropWhile_append_endsField rfl hu, List.append_cancel_right_eq,
        List.dropWhile_eq_nil_iff] at hrest
      have hascii := ascii_of_variableBytes hrest
      have halpha : c.isAlpha := by
        rcases hc with hc | hc
        · exact hc
        · exact absurd (hascii c (by simp)) (by omega)
      rw [Span.takeWhile_append_stop hrest (hu.head rfl), Text.asBytes_ascii hascii] at ht
      subst ht
      obtain ⟨d, hd, hup⟩ := capitalizeFirst_alpha halpha x
      have hname : IsVarName (ensurePrologVar (capitalizeFirst (c :: x))) := hleg
      rw [ensurePrologVar_capital halpha, hd] at hname
      refine List.forall_mem_cons.mpr ⟨?_, fun e he => hname.2 e (by simp [he])⟩
      rcases isAlpha_iff.mp halpha with h | h
      · exact isIdent_iff.mpr (.inl h)
      · exact isIdent_iff.mpr (.inr (.inl h))

end OneField

/-! ### All fields -/

section AllFields
variable {φ : Type} {F : FloatText φ} {A : Alphanumeric} {W : PrologWords}

theorem FactField.gapped (fields : List FactField) : Gapped (fields.map FactField.spaced) := by
  intro g hg
  obtain ⟨f, -, rfl⟩ := List.mem_map.mp hg
  exact ⟨f.gap_ne, f.gap_blank⟩

/-- A fact has no fewer arguments than fields. Where it has no more, every field is read whole. -/
theorem FactField.run {fields : List FactField} {last : Text}
    (hlast : ∀ c ∈ last, Text.isAsciiWhitespace c) {fuel : Nat} {ts : List (Term φ)} {v : Text}
    (h : parseFields F fuel (fieldsInput (fields.map FactField.spaced) last) = .ok ts v) :
    fields.length ≤ ts.length ∧ (ts.length = fields.length →
      List.Forall₂ (fun f t => DenotesField f.value t → LegibleField A W t → f.Kept A W)
        fields ts) := by
  induction fields generalizing fuel ts with
  | nil => exact ⟨Nat.zero_le _, fun hlen => by simp [List.length_eq_zero_iff.mp hlen]⟩
  | cons f fields ih =>
    have hinput : fieldsInput ((f :: fields).map FactField.spaced) last =
        f.gap ++ (Text.asBytes f.text ++ fieldsInput (fields.map FactField.spaced) last) := by
      rw [fieldsInput, List.map_cons, bytesOf, List.map_cons, fieldsText_cons]
      rfl
    have hend : EndsField (fieldsInput (fields.map FactField.spaced) last) :=
      (FactField.gapped fields).bytesOf.endsField hlast []
    cases fuel with
    | zero => cases h
    | succ n =>
      obtain ⟨b, r, hbr, hws, hclose⟩ := f.asBytes_cons
      rw [hinput, parseFields_skip f.gap_blank, hbr, List.cons_append, parseFields_cons hws hclose,
        ← List.cons_append, ← hbr] at h
      obtain ⟨t, v', ht, htail⟩ := Parsed.bind_eq_ok.mp h
      obtain ⟨ts', hts', rfl⟩ := Parsed.map_eq_ok.mp htail
      obtain ⟨w, rfl, hw, hkept⟩ := f.first hend ht
      obtain ⟨fuel', ts₁, ts₂, rfl, hne, hrest⟩ := parseFields_within hw hend hts'
      obtain ⟨hle, hall⟩ := ih hrest
      simp only [List.length_cons, List.length_append]
      refine ⟨by omega, fun hlen => ?_⟩
      -- no room for an argument of what is left of the field
      have hnil : ts₁ = [] := List.length_eq_zero_iff.mp (by omega)
      subst hnil
      refine .cons (hkept ?_) (hall ?_)
      · by_contra hwne
        exact hne hwne rfl
      · simpa using hlen

theorem arguments_factTerm (relation : Text) (args : List (Term φ)) :
    isCallable (factTerm relation args) ∧ termFunctorName (factTerm relation args) = relation ∧
      arguments (factTerm relation args) = args := by
  cases args <;> simp [factTerm, isCallable, termFunctorName, arguments]

/-- A variable that is kept gets a name by its capital letter. -/
theorem FactField.Kept.var {f : FactField} (h : f.Kept A W) {x : Text} (hx : f.value = .var x) :
    IsVarName (capitalizeFirst x) ∧ ensurePrologVar (capitalizeFirst x) = capitalizeFirst x ∧
      capitalizeFirst x ≠ ['_'] := by
  obtain ⟨gap, text, value, hgap, hblank, hw⟩ := f
  cases hw with
  | @var c y hc hy =>
    obtain rfl : c :: y = x := FieldValue.var.inj hx
    have hident : ∀ d ∈ c :: y, isIdent d := h
    have halpha : c.isAlpha := by
      rcases hc with hc | hc
      · exact hc
      · exact absurd (ident_ascii (hident c (by simp))) (by omega)
    refine ⟨?_, ensurePrologVar_capital halpha, ?_⟩
    · obtain ⟨d, hd, hup⟩ := capitalizeFirst_alpha halpha y
      rw [hd]
      exact ⟨⟨d, rfl, .inl hup⟩, List.forall_mem_cons.mpr
        ⟨isIdent_iff.mpr (.inl hup), fun e he => hident e (by simp [he])⟩⟩
    · obtain ⟨d, hd, hup⟩ := capitalizeFirst_alpha halpha y
      rw [hd]
      rintro heq
      obtain ⟨rfl, -⟩ := List.cons.inj heq
      cases hup
  | symbol hs => cases hx
  | integer hsign hdigitsNe hdigits hn => cases hx
  | string hs => cases hx

/-- A kept field is denoted by the argument read from it, and that is legible. -/
theorem FactField.Kept.denotes {f : FactField} (h : f.Kept A W) :
    DenotesField f.value (f.value.term : Term φ) ∧ LegibleField A W (f.value.term : Term φ) := by
  cases hv : f.value with
  | symbol s =>
    refine ⟨rfl, ?_⟩
    rw [FactField.Kept, hv] at h
    exact h.2
  | integer n => exact ⟨rfl, trivial⟩
  | string s => exact ⟨rfl, trivial⟩
  | var x =>
    obtain ⟨hname, hensure, -⟩ := h.var hv
    refine ⟨⟨_, rfl⟩, ?_⟩
    rw [FieldValue.term, LegibleField, hensure]
    exact hname

theorem FactField.Kept.same {f g : FactField} (hf : f.Kept A W) (hg : g.Kept A W) {x y : Text}
    (hx : f.value = .var x) (hy : g.value = .var y) :
    SameVariable (capitalizeFirst x) (capitalizeFirst y) ↔
      capitalizeFirst x = capitalizeFirst y := by
  obtain ⟨-, hxe, hxne⟩ := hf.var hx
  obtain ⟨-, hye, -⟩ := hg.var hy
  rw [SameVariable, hxe, hye, and_iff_left hxne]

theorem OrderedFact.relation_bytes (c : OrderedFact) :
    c.relation ≠ [] ∧ ∀ d ∈ c.relation, d.toNat < 128 → isSymbolByte d :=
  ⟨(isSymbol_bytes c.relation_symbol).1, fun d hd _ => (isSymbol_bytes c.relation_symbol).2 d hd⟩

/-- Where every field is kept the parser builds the term of the fields. -/
theorem OrderedFact.clipsFactTerm {c : OrderedFact} (h : ∀ f ∈ c.fields, f.Kept A W) :
    clipsFactTerm F c.text =
      .ok (factTerm c.relation (c.fields.map fun f => f.value.term)) := by
  refine clipsFactTerm_run c.relation_bytes.1 c.relation_bytes.2 (FactField.gapped c.fields)
    c.last_blank ?_
  rw [List.forall₂_map_left_iff, List.forall₂_map_right_iff, List.forall₂_same]
  exact fun f hf => (h f hf).takes

theorem zip_map_self {α β : Type} (g : α → β) (l : List α) :
    l.zip (l.map g) = l.map fun a => (a, g a) := by
  have h : (l.map id).zip (l.map g) = l.map fun a => (id a, g a) := List.zip_map'
  simpa using h

/-- What the translation of a fact has to be: a text, of a term that denotes the fact, which Prolog
reads as that term. -/
def OrderedFact.Translated (F : FloatText φ) (A : Alphanumeric) (W : PrologWords)
    (c : OrderedFact) : Prop :=
  ∃ t, Transpile.clipsFactTerm F c.text = .ok t ∧
    clipsFactToProlog F A c.text = .ok (A.renderPrologTerm F t) ∧ c.DenotedBy t ∧ Legible A W t

/-- A fact is translated field by field exactly when each field is kept, the relation is legible and
no two variables get the same capital letter. -/
theorem OrderedFact.translated_iff (F : FloatText φ) (A : Alphanumeric) (W : PrologWords)
    (c : OrderedFact) : c.Translated F A W ↔ c.Plain A W := by
  have hmem : ∀ f ∈ c.fields, (f, (f.value.term : Term φ)) ∈
      c.fields.zip (c.fields.map fun f => f.value.term) := by
    intro f hf
    rw [zip_map_self]
    exact List.mem_map_of_mem hf
  constructor
  · rintro ⟨t, hterm, -, hden, hleg⟩
    have hparse := hterm
    rw [text, clipsFactTerm_factText c.relation_bytes.1 c.relation_bytes.2
      (FactField.gapped c.fields) c.last_blank] at hparse
    cases hrun : parseFields F
        ((fieldsInput (c.fields.map FactField.spaced) c.last).length + 1)
        (fieldsInput (c.fields.map FactField.spaced) c.last) with
    | error m v =>
      rw [hrun] at hparse
      cases hparse
    | ok args v =>
      rw [hrun] at hparse
      obtain rfl : factTerm c.relation args = t := Except.ok.inj hparse
      have hdenFields := hden.arguments
      rw [(arguments_factTerm c.relation args).2.2] at hdenFields
      obtain ⟨hname, hlegArgs⟩ := hleg
      rw [(arguments_factTerm c.relation args).2.2] at hlegArgs
      rw [(arguments_factTerm c.relation args).2.1] at hname
      obtain ⟨-, hall⟩ := FactField.run (A := A) (W := W) c.last_blank hrun
      have hkept : ∀ f ∈ c.fields, f.Kept A W := by
        have hargs := hall hdenFields.length_eq.symm
        intro f hf
        obtain ⟨i, hi, rfl⟩ := List.mem_iff_getElem.mp hf
        have hlen := hdenFields.length_eq
        have h1 := List.forall₂_iff_get.mp hargs
        have h2 := List.forall₂_iff_get.mp hdenFields
        exact h1.2 i hi (by omega) (h2.2 i hi (by omega)) (hlegArgs _ (List.getElem_mem _))
      refine ⟨hname, hkept, fun f hf g hg x y hx hy hcap => ?_⟩
      have hargs := c.clipsFactTerm (F := F) hkept
      rw [hterm] at hargs
      have hvars := hden.vars
      rw [Except.ok.inj hargs, (arguments_factTerm c.relation _).2.2] at hvars
      refine (hvars _ (hmem f hf) _ (hmem g hg) x _ y _ hx ?_ hy ?_).mpr
        (((hkept f hf).same (hkept g hg) hx hy).mpr hcap)
      · rw [hx, FieldValue.term]
      · rw [hy, FieldValue.term]
  · rintro ⟨hname, hkept, hvars⟩
    have hterm := c.clipsFactTerm (F := F) hkept
    obtain ⟨hcallable, hfunctor, hargs⟩ := arguments_factTerm (φ := φ) c.relation
      (c.fields.map fun f => f.value.term)
    refine ⟨_, hterm, by rw [clipsFactToProlog, hterm]; rfl, ⟨hcallable, hfunctor, ?_, ?_⟩, ?_, ?_⟩
    · rw [hargs, List.forall₂_map_right_iff, List.forall₂_same]
      exact fun f hf => (hkept f hf).denotes.1
    · rw [hargs, zip_map_self]
      intro p hp q hq x y x' y' hx hy hx' hy'
      obtain ⟨f, hf, rfl⟩ := List.mem_map.mp hp
      obtain ⟨g, hg, rfl⟩ := List.mem_map.mp hq
      simp only at hx hy hx' hy'
      rw [hx, FieldValue.term] at hy
      rw [hx', FieldValue.term] at hy'
      rw [← Term.var.inj hy, ← Term.var.inj hy', (hkept f hf).same (hkept g hg) hx hx']
      constructor
      · rintro rfl
        rfl
      · exact hvars f hf g hg x x' hx hx'
    · rw [hfunctor]
      exact hname
    · rw [hargs]
      intro a ha
      obtain ⟨f, hf, rfl⟩ := List.mem_map.mp ha
      exact (hkept f hf).denotes.2

theorem scanString_mem {u s v : Text} (h : scanString u = some (s, v)) : ∀ c ∈ s, c ∈ u := by
  fun_induction scanString u generalizing s with
  | case1 => cases h
  | case2 u =>
    obtain ⟨rfl, -⟩ : [] = s ∧ u = v := by simpa using h
    simp
  | case3 => cases h
  | case4 d u hq ih =>
    obtain ⟨p, hp, heq⟩ := Option.map_eq_some_iff.mp h
    obtain ⟨rfl, rfl⟩ := Prod.mk.inj heq
    refine List.forall_mem_cons.mpr ⟨by simp, fun c hc => ?_⟩
    simp [ih hp c hc]
  | case5 d u hq hb ih =>
    obtain ⟨p, hp, heq⟩ := Option.map_eq_some_iff.mp h
    obtain ⟨rfl, rfl⟩ := Prod.mk.inj heq
    refine List.forall_mem_cons.mpr ⟨by simp, fun c hc => ?_⟩
    simp [ih hp c hc]

theorem LegibleAtom.readable {s : Text} (h : LegibleAtom A W s) (hascii : Text.IsAscii s) :
    AtomReadable s := by
  rcases h with hq | hword
  · rw [A.prologAtomNeedsQuoting_ascii hascii] at hq
    exact ⟨hascii, .inl hq⟩
  · exact ((W.isWord_ascii s hascii).mp hword).readable

theorem FactField.Kept.roundTrips {f : FactField} (h : f.Kept A W) (hascii : Text.IsAscii f.text) :
    RoundTrips (f.value.term : Term φ) := by
  cases hv : f.value with
  | var x => exact .var (h.var hv).1
  | integer n => exact .integer n
  | symbol s =>
    obtain ⟨gap, text, value, hgap, hblank, hw⟩ := f
    obtain rfl : value = .symbol s := hv
    cases hw with
    | symbol hs => exact .atom (h.2.readable hascii)
  | string s =>
    obtain ⟨gap, text, value, hgap, hblank, hw⟩ := f
    obtain rfl : value = .string s := hv
    cases hw with
    | string hs =>
      exact .str fun c hc => hascii c (List.mem_cons_of_mem _ (scanString_mem hs c hc))

/-- On ASCII the translation of such a fact is what the term parser reads as the term. -/
theorem OrderedFact.Plain.reads {c : OrderedFact} (h : c.Plain A W)
    (hrelation : Text.IsAscii c.relation) (hfields : ∀ f ∈ c.fields, Text.IsAscii f.text) :
    (clipsFactToProlog F A c.text).bind (parsePrologTerm F) = Transpile.clipsFactTerm F c.text := by
  have hname := h.relation.readable hrelation
  have hargs : ∀ a ∈ c.fields.map (fun f => (f.value.term : Term φ)), RoundTrips a := by
    intro a ha
    obtain ⟨f, hf, rfl⟩ := List.mem_map.mp ha
    exact (h.fields f hf).roundTrips (hfields f hf)
  have hterm : RoundTrips (factTerm c.relation (c.fields.map fun f => (f.value.term : Term φ))) := by
    unfold factTerm
    split
    · exact .atom hname
    · exact .compound hname hargs
  rw [clipsFactToProlog, c.clipsFactTerm h.fields]
  change parsePrologTerm F (A.renderPrologTerm F _) = _
  rw [A.renderPrologTerm_readable F _ hterm.readable]
  exact hterm.parse

end AllFields

/-- `(op -)`: a minus sign alone is a symbol. -/
def minusFact : OrderedFact where
  relation := "op".toList
  fields := [⟨[' '], ['-'], .symbol ['-'], by simp, by simp [Text.isAsciiWhitespace],
    .symbol (by decide)⟩]
  last := []
  relation_symbol := by decide
  last_blank := by simp

/-- The names, and nothing beyond ASCII. -/
def asciiWords : PrologWords := ⟨IsName, fun _ _ => Iff.rfl⟩

/-- The parser looks for a number there, and the fact is rejected. -/
theorem minus_rejected : ¬ ∀ c : OrderedFact, c.Translated noFloats latin asciiWords := by
  intro h
  obtain ⟨t, hterm, -⟩ := h minusFact
  have hbytes := minusFact.relation_bytes
  rw [OrderedFact.text, clipsFactTerm_factText hbytes.1 hbytes.2 (FactField.gapped _)
    minusFact.last_blank] at hterm
  have hrun : parseFields noFloats
      ((fieldsInput (minusFact.fields.map FactField.spaced) minusFact.last).length + 1)
      (fieldsInput (minusFact.fields.map FactField.spaced) minusFact.last) =
      .error "invalid digit found in string" [')'] := by
    rfl
  rw [hrun] at hterm
  cases hterm

end Cerebellum.Transpile
