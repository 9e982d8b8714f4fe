import Cerebellum.Transpile
import Cerebellum.Lib.Span

/-! What the term parser makes of the texts the renderers write: the pieces it reads back, and
those it never reads as the term they stand for. -/
namespace Cerebellum.Transpile

/-- An atom that reads as itself without quotes, other than the empty list. -/
def IsName (s : Text) : Prop := (∃ c ∈ s.head?, c.isLower) ∧ ∀ c ∈ s, isIdent c

instance (s : Text) : Decidable (IsName s) :=
  decidable_of_iff ((s.head?.any Char.isLower && s.all isIdent) = true)
    (by simp [IsName, Option.any_eq_true])

/-- What ends an argument. -/
def IsSep (c : Char) : Prop := c = ',' ∨ c = ')'

/-- What may stand behind a term: the end of an argument, or nothing. -/
def Follows (w : Text) : Prop := ∀ c ∈ w.head?, IsSep c

theorem follows_nil : Follows [] := by simp [Follows]

theorem follows_cons {c : Char} (h : IsSep c) (w : Text) : Follows (c :: w) := by
  simpa [Follows] using h

/-! ### Characters -/

theorem isLower_iff {c : Char} : c.isLower ↔ 97 ≤ c.toNat ∧ c.toNat ≤ 122 := by
  change (decide (c.val ≥ 97) && decide (c.val ≤ 122)) = true ↔ _
  simp [UInt32.le_iff_toNat_le]

theorem isUpper_iff {c : Char} : c.isUpper ↔ 65 ≤ c.toNat ∧ c.toNat ≤ 90 := by
  change decide (c.val ≥ 65 ∧ c.val ≤ 90) = true ↔ _
  simp [UInt32.le_iff_toNat_le]

theorem isDigit_iff {c : Char} : c.isDigit ↔ 48 ≤ c.toNat ∧ c.toNat ≤ 57 := by
  simp [Char.isDigit, UInt32.le_iff_toNat_le]

theorem isAlpha_iff {c : Char} : c.isAlpha ↔ c.isUpper ∨ c.isLower := by
  change (c.isUpper || c.isLower) = true ↔ _
  simp

theorem char_eq_iff {c d : Char} : c = d ↔ c.toNat = d.toNat := Char.toNat_inj.symm

theorem skipWs_cons {c : Char} (h : Text.isAsciiWhitespace c = false) (u : Text) :
    skipWs (c :: u) = c :: u := by
  simp [skipWs, h]

theorem sep_not_ws {c : Char} (h : IsSep c) : Text.isAsciiWhitespace c = false := by
  rcases h with rfl | rfl <;> rfl

theorem sep_not_ident {c : Char} (h : IsSep c) : isIdent c = false := by
  rcases h with rfl | rfl <;> rfl

theorem lower_not_ws {c : Char} (h : c.isLower) : Text.isAsciiWhitespace c = false := by
  have hc := isLower_iff.mp h
  simp only [Text.isAsciiWhitespace, Bool.or_eq_false_iff, beq_eq_false_iff_ne, ne_eq, char_eq_iff]
  simp only [Char.reduceToNat]
  omega

section Reading
variable {φ : Type} (F : FloatText φ)

theorem parseTerm_lower {c : Char} (h : c.isLower) (n : Nat) (u : Text) :
    parseTerm F (n + 1) (c :: u) =
      maybeCompound (argsLoop F n) ((c :: u).takeWhile isIdent) ((c :: u).dropWhile isIdent) := by
  have hc := isLower_iff.mp h
  have hother : ∀ d : Char, d.toNat < 97 → c ≠ d := fun d hd he => by
    rw [he] at hc
    omega
  have hdigit : c.isDigit = false := by
    simp only [Bool.eq_false_iff, ne_eq, isDigit_iff]
    omega
  have hupper : c.isUpper = false := by
    simp only [Bool.eq_false_iff, ne_eq, isUpper_iff]
    omega
  rw [parseTerm, skipWs_cons (lower_not_ws h)]
  simp [hother '\'' (by decide), hother '"' (by decide), hother '[' (by decide),
    hother '-' (by decide), hother '_' (by decide), hdigit, hupper, h]

/-- The text is read as the term, whichever argument it is. -/
def Reads (u : Text) (t : Term φ) : Prop :=
  ∀ fuel w, u.length < fuel → Follows w → parseTerm F fuel (u ++ w) = .ok t w

/-- The text is not read as the term, whatever stands behind it. -/
def Never (u : Text) (t : Term φ) : Prop :=
  ∀ fuel w r, u.length < fuel → Follows w → parseTerm F fuel (u ++ w) ≠ .ok t r

variable {F}

theorem Reads.not_never {u : Text} {t : Term φ} (h : Reads F u t) : ¬ Never F u t :=
  fun hn => hn (u.length + 1) [] _ (Nat.lt_succ_self _) follows_nil
    (h (u.length + 1) [] (Nat.lt_succ_self _) follows_nil)

theorem maybeCompound_follows {w : Text} (h : Follows w) (loop : Text → Parsed (List (Term φ)))
    (s : Text) : maybeCompound loop s w = .ok (.atom s) w := by
  cases w with
  | nil => rfl
  | cons c w =>
    have hc : IsSep c := h c rfl
    rw [maybeCompound, skipWs_cons (sep_not_ws hc)]
    rcases hc with rfl | rfl <;> rfl

theorem IsName.cons {s : Text} (h : IsName s) : ∃ c u, s = c :: u ∧ c.isLower := by
  obtain ⟨⟨c, hc, hlow⟩, -⟩ := h
  cases s with
  | nil => simp at hc
  | cons d u => exact ⟨d, u, rfl, by simp_all⟩

theorem parseTerm_name {s : Text} (h : IsName s) (n : Nat) {u : Text}
    (hu : ∀ c ∈ u.head?, isIdent c = false) :
    parseTerm F (n + 1) (s ++ u) = maybeCompound (argsLoop F n) s u := by
  obtain ⟨c, v, rfl, hlow⟩ := h.cons
  rw [List.cons_append, parseTerm_lower F hlow, ← List.cons_append,
    Span.takeWhile_append_stop h.2 hu, Span.dropWhile_append_stop h.2 hu]

theorem reads_name {s : Text} (h : IsName s) : Reads F s (.atom s) := by
  intro fuel w hfuel hw
  obtain ⟨n, rfl⟩ : ∃ n, fuel = n + 1 := ⟨fuel - 1, by omega⟩
  rw [parseTerm_name h n fun c hc => sep_not_ident (hw c hc), maybeCompound_follows hw]

theorem reads_emptyList : Reads F "[]".toList (.atom "[]".toList) := by
  intro fuel w hfuel hw
  obtain ⟨n, rfl⟩ : ∃ n, fuel = n + 1 := ⟨fuel - 1, by omega⟩
  rfl

/-! ### Numbers -/

theorem sep_not_digit {c : Char} (h : IsSep c) : c.isDigit = false := by
  rcases h with rfl | rfl <;> rfl

theorem parseI64_toDigits (k : Int64) :
    parseI64 (decide (k.toInt < 0)) (Nat.toDigits 10 k.toInt.natAbs) = .ok k := by
  have hlt := k.toInt_lt
  have hle := k.le_toInt
  unfold parseI64
  simp only [Nat.ofDigitChars_ten_toDigits, Nat.toDigits_ne_nil, if_false]
  by_cases hneg : k.toInt < 0
  · have hbound : k.toInt.natAbs ≤ 2 ^ 63 := by omega
    have hval : -(k.toInt.natAbs : Int) = k.toInt := by omega
    simp only [hneg, decide_true, if_true, hbound, hval, Int64.ofInt_toInt]
  · have hbound : k.toInt.natAbs < 2 ^ 63 := by omega
    have hval : (k.toInt.natAbs : Int) = k.toInt := by omega
    simp only [hneg, decide_false, Bool.false_eq_true, if_false, hbound, if_true, hval,
      Int64.ofInt_toInt]

theorem parseUnsigned_digits {minus : Bool} {digits : Text} {k : Int64}
    (hdigits : ∀ c ∈ digits, c.isDigit) (hk : parseI64 minus digits = .ok k) {u : Text}
    (hu : ∀ c ∈ u.head?, c.isDigit = false) (hdot : u.head? ≠ some '.') :
    parseUnsigned F minus (digits ++ u) = .ok (.integer k) u := by
  unfold parseUnsigned
  simp only [Span.takeWhile_append_stop hdigits hu, Span.dropWhile_append_stop hdigits hu, hk]
  split
  · simp at hdot
  · rfl

theorem parseUnsigned_integer (k : Int64) {u : Text} (hu : ∀ c ∈ u.head?, c.isDigit = false)
    (hdot : u.head? ≠ some '.') :
    parseUnsigned F (decide (k.toInt < 0)) (Nat.toDigits 10 k.toInt.natAbs ++ u) =
      .ok (.integer k) u :=
  parseUnsigned_digits (fun _ hc => Nat.isDigit_of_mem_toDigits (by decide) (by decide) hc)
    (parseI64_toDigits k) hu hdot

theorem digit_not_ws {c : Char} (h : c.isDigit) : Text.isAsciiWhitespace c = false := by
  have hc := isDigit_iff.mp h
  simp only [Text.isAsciiWhitespace, Bool.or_eq_false_iff, beq_eq_false_iff_ne, ne_eq, char_eq_iff]
  simp only [Char.reduceToNat]
  omega

theorem parseTerm_digit {c : Char} (h : c = '-' ∨ c.isDigit) (n : Nat) (u : Text) :
    parseTerm F (n + 1) (c :: u) = parseNumber F (c :: u) := by
  rcases h with rfl | h
  · rfl
  · have hc := isDigit_iff.mp h
    have hother : ∀ d : Char, d.toNat < 48 ∨ 57 < d.toNat → c ≠ d := fun d hd he => by
      rw [he] at hc
      omega
    rw [parseTerm, skipWs_cons (digit_not_ws h)]
    simp [hother '\'' (by decide), hother '"' (by decide), hother '[' (by decide), h]

theorem parseNumber_digit {c : Char} (h : c.isDigit) (u : Text) :
    parseNumber F (c :: u) = parseUnsigned F false (c :: u) := by
  have hne : c ≠ '-' := by
    rintro rfl
    exact absurd h (by decide)
  simp [parseNumber, hne]

theorem parseTerm_signed (minus : Bool) {s : Text} (hs : ∃ c ∈ s.head?, c.isDigit) (n : Nat)
    (u : Text) : parseTerm F (n + 1) ((if minus then ['-'] else []) ++ s ++ u) =
      parseUnsigned F minus (s ++ u) := by
  obtain ⟨c, hc, hdigit⟩ := hs
  cases s with
  | nil => simp at hc
  | cons d s =>
    obtain rfl : d = c := by simpa using hc
    cases minus with
    | true =>
      change parseTerm F (n + 1) ('-' :: (d :: s ++ u)) = _
      rw [parseTerm_digit (.inl rfl)]
      rfl
    | false =>
      change parseTerm F (n + 1) (d :: (s ++ u)) = _
      rw [parseTerm_digit (.inr hdigit), parseNumber_digit hdigit]
      rfl

theorem i64Text_eq (k : Int64) : i64Text k =
    (if decide (k.toInt < 0) then ['-'] else []) ++ Nat.toDigits 10 k.toInt.natAbs := by
  simp [i64Text]

theorem toDigits_head (k : Nat) : ∃ c ∈ (Nat.toDigits 10 k).head?, c.isDigit := by
  cases h : Nat.toDigits 10 k with
  | nil => exact absurd h Nat.toDigits_ne_nil
  | cons c s =>
    exact ⟨c, rfl, Nat.isDigit_of_mem_toDigits (by decide) (by decide) (h ▸ List.mem_cons_self)⟩

theorem parseTerm_integer (k : Int64) (n : Nat) {u : Text}
    (hu : ∀ c ∈ u.head?, c.isDigit = false) (hdot : u.head? ≠ some '.') :
    parseTerm F (n + 1) (i64Text k ++ u) = .ok (.integer k) u := by
  rw [i64Text_eq, parseTerm_signed _ (toDigits_head _), parseUnsigned_integer k hu hdot]

theorem reads_integer (k : Int64) : Reads F (i64Text k) (.integer k) := by
  intro fuel w hfuel hw
  obtain ⟨n, rfl⟩ : ∃ n, fuel = n + 1 := ⟨fuel - 1, by omega⟩
  refine parseTerm_integer k n (fun c hc => sep_not_digit (hw c hc)) fun hdot => ?_
  rcases hw '.' hdot with h | h <;> exact absurd h (by decide)

theorem reads_float {f : φ} (h : '.' ∈ F.display f) : Reads F (F.display f) (.float f) := by
  obtain ⟨minus, whole, frac, heq, hwhole, hfrac, hne, hparse⟩ := F.display_point f h
  intro fuel w hfuel hw
  obtain ⟨n, rfl⟩ : ∃ n, fuel = n + 1 := ⟨fuel - 1, by omega⟩
  have hhead : ∃ c ∈ whole.head?, c.isDigit := by
    cases whole with
    | nil => exact absurd rfl hne
    | cons c whole => exact ⟨c, rfl, hwhole c (by simp)⟩
  have htext : F.display f ++ w =
      (if minus then ['-'] else []) ++ whole ++ ('.' :: (frac ++ w)) := by simp [heq]
  have hdot : ∀ c ∈ ('.' :: (frac ++ w)).head?, c.isDigit = false := by simp
  have hsepDigit : ∀ c ∈ w.head?, c.isDigit = false := fun c hc => sep_not_digit (hw c hc)
  rw [htext, parseTerm_signed _ hhead]
  unfold parseUnsigned
  simp only [Span.takeWhile_append_stop hwhole hdot, Span.dropWhile_append_stop hwhole hdot,
    Span.takeWhile_append_stop hfrac hsepDigit, Span.dropWhile_append_stop hfrac hsepDigit]
  rw [← heq, hparse]

/-! ### What a reading can be -/

theorem Parsed.map_eq_ok {α β : Type} {p : Parsed α} {f : α → β} {b : β} {r : Text} :
    p.map f = .ok b r ↔ ∃ a, p = .ok a r ∧ f a = b := by
  cases p <;> simp [Parsed.map, and_comm]

theorem Parsed.bind_eq_ok {α β : Type} {p : Parsed α} {f : α → Text → Parsed β} {b : β} {r : Text} :
    p.bind f = .ok b r ↔ ∃ a u, p = .ok a u ∧ f a u = .ok b r := by
  cases p <;> simp [Parsed.bind]

theorem maybeCompound_cases {loop : Text → Parsed (List (Term φ))} {s u r : Text} {t : Term φ}
    (h : maybeCompound loop s u = .ok t r) :
    (t = .atom s ∧ r = skipWs u) ∨
      ∃ w args, skipWs u = '(' :: w ∧ parseArgs loop w = .ok args r ∧ t = .compound s args := by
  unfold maybeCompound at h
  split at h
  · next w hw =>
    obtain ⟨args, hargs, rfl⟩ := Parsed.map_eq_ok.mp h
    exact .inr ⟨w, args, hw, hargs, rfl⟩
  · simp only [Parsed.ok.injEq] at h
    exact .inl ⟨h.1.symm, h.2.symm⟩

theorem parseTerm_cases {n : Nat} {u r : Text} {t : Term φ} (h : parseTerm F (n + 1) u = .ok t r) :
    ∃ c v, skipWs u = c :: v ∧
      ((c = '\'' ∧ ∃ s w, quotedAtom v = .ok s w ∧ maybeCompound (argsLoop F n) s w = .ok t r) ∨
      (c = '"' ∧ ∃ s, doubleQuoted v = .ok s r ∧ t = .str s) ∨
      (c = '[' ∧ t = .atom "[]".toList) ∨
      ((c = '-' ∨ c.isDigit) ∧ parseNumber F (c :: v) = .ok t r) ∨
      ((c.isUpper ∨ c = '_') ∧ t = .var ((c :: v).takeWhile isIdent)) ∨
      (c.isLower ∧ maybeCompound (argsLoop F n) ((c :: v).takeWhile isIdent)
        ((c :: v).dropWhile isIdent) = .ok t r)) := by
  rw [parseTerm] at h
  split at h
  · cases h
  · next c v hcv =>
    refine ⟨c, v, hcv, ?_⟩
    split at h
    · next hc => exact .inl ⟨hc, Parsed.bind_eq_ok.mp h⟩
    split at h
    · next hc =>
      obtain ⟨s, hs, rfl⟩ := Parsed.map_eq_ok.mp h
      exact .inr (.inl ⟨hc, s, hs, rfl⟩)
    split at h
    · next hc =>
      unfold parseList at h
      split at h
      · simp only [Parsed.ok.injEq] at h
        exact .inr (.inr (.inl ⟨hc, h.1.symm⟩))
      · cases h
    split at h
    · next hc => exact .inr (.inr (.inr (.inl ⟨by simpa using hc, h⟩)))
    split at h
    · next hc =>
      simp only [parseVariable, Parsed.ok.injEq] at h
      exact .inr (.inr (.inr (.inr (.inl ⟨by simpa using hc, h.1.symm⟩))))
    split at h
    · next hc => exact .inr (.inr (.inr (.inr (.inr ⟨hc, h⟩))))
    · cases h

theorem parseUnsigned_cases {minus : Bool} {u r : Text} {t : Term φ}
    (h : parseUnsigned F minus u = .ok t r) :
    (∃ k, t = .integer k) ∨ ((∃ f, t = .float f) ∧ (u.dropWhile Char.isDigit).head? = some '.') := by
  simp only [parseUnsigned] at h
  split at h
  · next v hv =>
    split at h
    · next f hf =>
      simp only [Parsed.ok.injEq] at h
      exact .inr ⟨⟨f, h.1.symm⟩, by simp [hv]⟩
    · cases h
  · split at h
    · next k hk =>
      simp only [Parsed.ok.injEq] at h
      exact .inl ⟨k, h.1.symm⟩
    · cases h

theorem parseNumber_cases {u r : Text} {t : Term φ} (h : parseNumber F u = .ok t r) :
    (∃ k, t = .integer k) ∨
      ((∃ f, t = .float f) ∧ ∃ v, (u = v ∨ u = '-' :: v) ∧
        (v.dropWhile Char.isDigit).head? = some '.') := by
  unfold parseNumber at h
  split at h
  · next v =>
    rcases parseUnsigned_cases h with hk | ⟨hf, hdot⟩
    · exact .inl hk
    · exact .inr ⟨hf, v, .inr rfl, hdot⟩
  · rcases parseUnsigned_cases h with hk | ⟨hf, hdot⟩
    · exact .inl hk
    · exact .inr ⟨hf, u, .inl rfl, hdot⟩

/-- A quoted text, behind white space. -/
def BeginsQuoted (u s : Text) : Prop := ∃ v w, skipWs u = '\'' :: v ∧ quotedAtom v = .ok s w

/-- A name, behind white space. -/
def BeginsNamed (u s : Text) : Prop := IsName s ∧ s = (skipWs u).takeWhile isIdent

/-- What an input begins with from which a term is read. -/
def Begins (F : FloatText φ) (u r : Text) : Term φ → Prop
  | .atom s => BeginsQuoted u s ∨ s = "[]".toList ∨ BeginsNamed u s
  | .compound functor _ => BeginsQuoted u functor ∨ BeginsNamed u functor
  | .str s => ∃ v, skipWs u = '"' :: v ∧ doubleQuoted v = .ok s r
  | .var s => s = (skipWs u).takeWhile isIdent
  | .integer k => parseNumber F (skipWs u) = .ok (.integer k) r
  | .float f => parseNumber F (skipWs u) = .ok (.float f) r

theorem parseTerm_begins {n : Nat} {u r : Text} {t : Term φ}
    (h : parseTerm F (n + 1) u = .ok t r) : Begins F u r t := by
  obtain ⟨c, v, hcv, h | h | h | h | h | h⟩ := parseTerm_cases h
  · obtain ⟨rfl, s, w, hs, hmc⟩ := h
    rcases maybeCompound_cases hmc with ⟨rfl, -⟩ | ⟨-, args, -, -, rfl⟩
    · exact .inl ⟨v, w, hcv, hs⟩
    · exact .inl ⟨v, w, hcv, hs⟩
  · obtain ⟨rfl, s, hs, rfl⟩ := h
    exact ⟨v, hcv, hs⟩
  · rw [h.2]
    exact .inr (.inl rfl)
  · obtain ⟨-, hnumber⟩ := h
    rw [← hcv] at hnumber
    rcases parseNumber_cases hnumber with ⟨k, rfl⟩ | ⟨⟨f, rfl⟩, -⟩
    · exact hnumber
    · exact hnumber
  · rw [h.2, ← hcv]
    rfl
  · obtain ⟨hlower, hmc⟩ := h
    have hident : isIdent c := by simp [isIdent, Char.isAlphanum, isAlpha_iff.mpr (.inr hlower)]
    have hname : IsName ((c :: v).takeWhile isIdent) :=
      ⟨⟨c, by simp [hident], hlower⟩, fun d hd => List.mem_takeWhile_imp hd⟩
    rcases maybeCompound_cases hmc with ⟨rfl, -⟩ | ⟨-, args, -, -, rfl⟩
    · exact .inr (.inr ⟨hname, by rw [hcv]⟩)
    · exact .inr ⟨hname, by rw [hcv]⟩

end Reading

/-! ### What quoting takes

A quoted text is shorter than what it is read from, and holds every comma and every closing
parenthesis of it: an argument that is not quoted as a whole is not read as itself. -/

def isAsciiChar (c : Char) : Bool := c.toNat < 128

def isSepChar (c : Char) : Bool := c == ',' || c == ')'

theorem quotedEscape_ascii (d : Char) :
    (quotedEscape d).countP isAsciiChar ≤ ['\\', d].countP isAsciiChar := by
  unfold quotedEscape
  split
  · next h => subst h; decide
  split
  · next h => subst h; decide
  split
  · simp [List.countP_cons]
  · exact Nat.le_refl _

theorem quotedEscape_sep (d : Char) :
    (quotedEscape d).countP isSepChar = ['\\', d].countP isSepChar := by
  unfold quotedEscape
  split
  · next h => subst h; decide
  split
  · next h => subst h; decide
  split
  · simp [List.countP_cons, isSepChar]
  · rfl

/-- What `s` is read from, ahead of `r`, is longer and has the same commas and parentheses. -/
def Takes (u s r : Text) : Prop := ∃ p, u = p ++ r ∧
  s.countP isAsciiChar + 1 ≤ p.countP isAsciiChar ∧ s.countP isSepChar = p.countP isSepChar

theorem Takes.behind {u s r q t : Text} (h : Takes u s r)
    (hascii : t.countP isAsciiChar ≤ q.countP isAsciiChar)
    (hsep : t.countP isSepChar = q.countP isSepChar) : Takes (q ++ u) (t ++ s) r := by
  obtain ⟨p, rfl, hp, hpsep⟩ := h
  refine ⟨q ++ p, by simp, ?_, ?_⟩
  · rw [List.countP_append, List.countP_append]
    omega
  · rw [List.countP_append, List.countP_append, hsep, hpsep]

theorem quotedAtom_takes {u s r : Text} (h : quotedAtom u = .ok s r) : Takes u s r := by
  fun_induction quotedAtom u generalizing s with
  | case1 => cases h
  | case2 u ih =>
    obtain ⟨s', hs, rfl⟩ := Parsed.map_eq_ok.mp h
    exact (ih hs).behind (q := ['\'', '\'']) (t := ['\'']) (by decide) (by decide)
  | case3 u hu =>
    simp only [Parsed.ok.injEq] at h
    obtain ⟨rfl, rfl⟩ := h
    exact ⟨['\''], rfl, by decide, by decide⟩
  | case4 => cases h
  | case5 d u hq ih =>
    obtain ⟨s', hs, rfl⟩ := Parsed.map_eq_ok.mp h
    exact (ih hs).behind (q := ['\\', d]) (quotedEscape_ascii d) (quotedEscape_sep d)
  | case6 c u hq hb ih =>
    obtain ⟨s', hs, rfl⟩ := Parsed.map_eq_ok.mp h
    exact (ih hs).behind (q := [c]) (t := [c]) (Nat.le_refl _) rfl

theorem doubleQuotedEscape_sep (d : Char) :
    [doubleQuotedEscape d].countP isSepChar = ['\\', d].countP isSepChar := by
  have hd : isSepChar (doubleQuotedEscape d) = isSepChar d := by
    unfold doubleQuotedEscape
    split
    · next h => subst h; decide
    split
    · next h => subst h; decide
    · rfl
  have hback : isSepChar '\\' = false := rfl
  simp [List.countP_cons, hd, hback]

theorem doubleQuoted_takes {u s r : Text} (h : doubleQuoted u = .ok s r) : Takes u s r := by
  fun_induction doubleQuoted u generalizing s with
  | case1 => cases h
  | case2 u =>
    simp only [Parsed.ok.injEq] at h
    obtain ⟨rfl, rfl⟩ := h
    exact ⟨['"'], rfl, by decide, by decide⟩
  | case3 => cases h
  | case4 d u hq ih =>
    obtain ⟨s', hs, rfl⟩ := Parsed.map_eq_ok.mp h
    refine (ih hs).behind (q := ['\\', d]) (t := [doubleQuotedEscape d]) ?_
      (doubleQuotedEscape_sep d)
    simp only [List.countP_cons, List.countP_nil]
    split <;> simp [isAsciiChar]
  | case5 c u hq hb ih =>
    obtain ⟨s', hs, rfl⟩ := Parsed.map_eq_ok.mp h
    exact (ih hs).behind (q := [c]) (t := [c]) (Nat.le_refl _) rfl

theorem skipWs_append {w : Text} (hw : Follows w) (u : Text) : skipWs (u ++ w) = skipWs u ++ w := by
  cases w with
  | nil => simp
  | cons c w => exact Span.dropWhile_append_cons (sep_not_ws (hw c rfl)) u w

/-- The bytes of a text that starts with a quote are not the quoted form of it. -/
theorem not_quoted_self {v u p r w : Text} {q : Char} (hw : Follows w)
    (hq : q = '\'' ∨ q = '"') (hv : skipWs (Text.asBytes v ++ w) = q :: u) (hp : u = p ++ r)
    (hascii : v.countP isAsciiChar + 1 ≤ p.countP isAsciiChar)
    (hsepCount : v.countP isSepChar = p.countP isSepChar) : False := by
  rw [skipWs_append hw] at hv
  -- the quote is one of the bytes of `v`, behind white space
  cases hdrop : skipWs (Text.asBytes v) with
  | nil =>
    rw [hdrop, List.nil_append] at hv
    rcases hw q (by simp [hv]) with rfl | rfl <;> simp at hq
  | cons d y =>
    rw [hdrop] at hv
    simp only [List.cons_append, List.cons.injEq] at hv
    obtain ⟨rfl, rfl⟩ := hv
    have hsplit : Text.asBytes v = (Text.asBytes v).takeWhile Text.isAsciiWhitespace ++ d :: y := by
      rw [← hdrop, skipWs, List.takeWhile_append_dropWhile]
    have hvascii : v.countP isAsciiChar = (Text.asBytes v).countP isAsciiChar :=
      (Text.countP_asBytes (fun c hc => by simpa [isAsciiChar] using hc) v).symm
    have hvsep : v.countP isSepChar = (Text.asBytes v).countP isSepChar := by
      refine (Text.countP_asBytes (fun c hc => ?_) v).symm
      simp only [isSepChar, Bool.or_eq_true, beq_iff_eq] at hc
      rcases hc with rfl | rfl <;> decide
    have hws : ((Text.asBytes v).takeWhile Text.isAsciiWhitespace).countP isSepChar = 0 := by
      refine List.countP_eq_zero.mpr fun c hc hcs => ?_
      have hcw := List.mem_takeWhile_imp hc
      simp only [isSepChar, Bool.or_eq_true, beq_iff_eq] at hcs
      rcases hcs with rfl | rfl <;> exact absurd hcw (by decide)
    have hdq : isSepChar d = false := by rcases hq with rfl | rfl <;> rfl
    have hda : isAsciiChar d = true := by rcases hq with rfl | rfl <;> rfl
    rw [hsplit] at hvascii hvsep
    simp only [List.countP_append, List.countP_cons, hws, hdq, hda, if_true, Bool.false_eq_true,
      if_false] at hvascii hvsep
    -- the closing quote is in `y`, or what ends the argument was taken
    rcases List.append_eq_append_iff.mp hp with ⟨z, rfl, hz⟩ | ⟨z, rfl, hz⟩
    · cases z with
      | nil =>
        simp only [List.append_nil] at hascii
        omega
      | cons e z =>
        have hsepTrue : isSepChar e = true := by
          rcases hw e (by simp [hz]) with rfl | rfl <;> rfl
        simp only [List.countP_append, List.countP_cons, hsepTrue, if_true] at hsepCount
        omega
    · simp only [List.countP_append] at hvascii
      omega

section NeverQuoted
variable {φ : Type} {F : FloatText φ}

theorem Reads.never_of_ne {u : Text} {t t' : Term φ} (h : Reads F u t) (hne : t ≠ t') :
    Never F u t' := by
  intro fuel w r hfuel hw heq
  rw [h fuel w hfuel hw] at heq
  exact hne (Parsed.ok.inj heq).1

/-- A string is never read back from its own characters. -/
theorem never_str (v : Text) : Never F (Text.asBytes v) (.str v) := by
  intro fuel w r hfuel hw heq
  obtain ⟨n, rfl⟩ : ∃ n, fuel = n + 1 := ⟨fuel - 1, by omega⟩
  obtain ⟨u, hu, hs⟩ := parseTerm_begins heq
  obtain ⟨p, hp, hascii, hcount⟩ := doubleQuoted_takes hs
  exact not_quoted_self hw (.inr rfl) hu hp hascii hcount

/-- An atom is read back from its own characters only when it needs no quotes. -/
theorem never_atom {v : Text} (hname : ¬ IsName v) (hnil : v ≠ "[]".toList) :
    Never F (Text.asBytes v) (.atom v) := by
  intro fuel w r hfuel hw heq
  obtain ⟨n, rfl⟩ : ∃ n, fuel = n + 1 := ⟨fuel - 1, by omega⟩
  rcases parseTerm_begins heq with ⟨u, w', hu, hs⟩ | hv | ⟨hv, -⟩
  · obtain ⟨p, hp, hascii, hcount⟩ := quotedAtom_takes hs
    exact not_quoted_self hw (.inl rfl) hu hp hascii hcount
  · exact hnil hv
  · exact hname hv

/-- Without a point a float is displayed as an integer, a name or a variable is. -/
theorem never_float {f : φ} (h : '.' ∉ F.display f) : Never F (F.display f) (.float f) := by
  intro fuel w r hfuel hw heq
  obtain ⟨n, rfl⟩ : ∃ n, fuel = n + 1 := ⟨fuel - 1, by omega⟩
  have hws : skipWs (F.display f ++ w) = F.display f ++ w := by
    rw [skipWs_append hw]
    congr 1
    cases hd : F.display f with
    | nil => rfl
    | cons c s =>
      have hc := F.display_chars f c (by simp [hd])
      have hcw : Text.isAsciiWhitespace c = false := by
        by_contra hcw
        simp only [Text.isAsciiWhitespace, Bool.or_eq_true, beq_iff_eq, Bool.not_eq_false] at hcw
        rcases hcw with (((rfl | rfl) | rfl) | rfl) | rfl <;> exact absurd hc (by decide)
      rw [skipWs_cons hcw]
  have hnumber := parseTerm_begins heq
  rw [Begins, hws] at hnumber
  rcases parseNumber_cases hnumber with ⟨k, hk⟩ | ⟨-, v, hv, hdot⟩
  · cases hk
  -- the point is in what is displayed: the separator is none
  obtain ⟨d, rfl, hsub⟩ : ∃ d, v = d ++ w ∧ ∀ c ∈ d, c ∈ F.display f := by
    rcases hv with hv | hv
    · exact ⟨F.display f, hv.symm, fun c hc => hc⟩
    · cases hdisp : F.display f with
      | nil => exact absurd hdisp (F.display_ne f)
      | cons e d =>
        rw [hdisp, List.cons_append] at hv
        exact ⟨d, (List.cons.inj hv).2.symm, fun c hc => by simp [hc]⟩
  have hsplit : (d ++ w).dropWhile Char.isDigit = d.dropWhile Char.isDigit ++ w := by
    cases w with
    | nil => simp
    | cons c w => exact Span.dropWhile_append_cons (sep_not_digit (hw c rfl)) d w
  rw [hsplit] at hdot
  cases hrest : d.dropWhile Char.isDigit with
  | nil =>
    rw [hrest, List.nil_append] at hdot
    rcases hw '.' hdot with h | h <;> exact absurd h (by decide)
  | cons e z =>
    rw [hrest] at hdot
    obtain rfl : e = '.' := by simpa using hdot
    exact h (hsub _ ((List.dropWhile_suffix _).subset (hrest ▸ List.mem_cons_self)))

end NeverQuoted

/-! ### Arguments -/

section Arguments
variable {φ : Type} {F : FloatText φ}

theorem skipWs_skipWs (u : Text) : skipWs (skipWs u) = skipWs u := by
  exact List.dropWhile_idempotent _ _

theorem parseTerm_skipWs (n : Nat) (u : Text) :
    parseTerm F (n + 1) (skipWs u) = parseTerm F (n + 1) u := by
  rw [parseTerm, parseTerm, skipWs_skipWs]

theorem argsTail_head {loop : Text → Parsed (List (Term φ))} {t : Term φ} {u r : Text}
    {ts : List (Term φ)} (h : argsTail loop t u = .ok ts r) : ts.head? = some t := by
  unfold argsTail at h
  split at h
  · obtain ⟨ts', -, rfl⟩ := Parsed.map_eq_ok.mp h
    rfl
  · simp only [Parsed.ok.injEq] at h
    simp [← h.1]
  · cases h
  · cases h

/-- An argument that is never read as its term spoils the list it starts. -/
theorem Never.argsLoop {u : Text} {t : Term φ} (h : Never F u t) {fuel : Nat}
    (hfuel : u.length < fuel) {w : Text} (hw : Follows w) (r : Text) (ts : List (Term φ)) :
    argsLoop F (fuel + 1) (u ++ w) ≠ .ok (t :: ts) r := by
  intro heq
  rw [Transpile.argsLoop] at heq
  obtain ⟨a, v, ha, htail⟩ := Parsed.bind_eq_ok.mp heq
  obtain rfl : t = a := by simpa using argsTail_head htail
  exact h fuel w v hfuel hw ha

/-- Arguments are read one by one: all of them, or not that list. -/
theorem argsLoop_iff {us : List Text} {ts : List (Term φ)}
    (h : List.Forall₂ (fun u t => Reads F u t ∨ Never F u t) us ts) (hne : us ≠ []) {fuel : Nat}
    {r r' : Text} (hfuel : (Text.join [','] us).length + 1 < fuel) :
    argsLoop F fuel (Text.join [','] us ++ ')' :: r) = .ok ts r' ↔
      List.Forall₂ (Reads F) us ts ∧ r' = r := by
  induction h generalizing fuel with
  | nil => exact absurd rfl hne
  | @cons u t us ts hut hrest ih =>
    obtain ⟨n, rfl⟩ : ∃ n, fuel = n + 1 := ⟨fuel - 1, by omega⟩
    cases us with
    | nil =>
      cases hrest
      simp only [Text.join_singleton] at hfuel ⊢
      rcases hut with hread | hnever
      · rw [Transpile.argsLoop, hread n (')' :: r) (by omega) (follows_cons (.inr rfl) r)]
        simp [Parsed.bind, argsTail, skipWs, Text.isAsciiWhitespace, hread, eq_comm]
      · refine iff_of_false (hnever.argsLoop (by omega) (follows_cons (.inr rfl) r) r' []) ?_
        rintro ⟨hall, -⟩
        exact (List.forall₂_cons.mp hall).1.not_never hnever
    | cons v us =>
      rw [Text.join_cons] at hfuel ⊢
      simp only [List.append_assoc, List.length_append, List.length_cons, List.cons_append]
        at hfuel ⊢
      rcases hut with hread | hnever
      · rw [Transpile.argsLoop, hread n _ (by omega) (follows_cons (.inl rfl) _)]
        simp only [Parsed.bind, argsTail, skipWs_cons (sep_not_ws (.inl rfl)), Parsed.map_eq_ok]
        have hih := @ih (by simp) n (by omega)
        constructor
        · rintro ⟨ts', hts', hcons⟩
          obtain ⟨-, rfl⟩ := List.cons.inj hcons
          obtain ⟨hall, rfl⟩ := hih.mp hts'
          exact ⟨.cons hread hall, rfl⟩
        · rintro ⟨hall, rfl⟩
          exact ⟨ts, hih.mpr ⟨(List.forall₂_cons.mp hall).2, rfl⟩, rfl⟩
      · refine iff_of_false (hnever.argsLoop (by omega) (follows_cons (.inl rfl) _) r' ts) ?_
        rintro ⟨hall, -⟩
        exact (List.forall₂_cons.mp hall).1.not_never hnever

theorem not_paren_of_ok {n : Nat} {u w r : Text} {t : Term φ} (h : parseTerm F n u = .ok t r) :
    skipWs u ≠ ')' :: w := by
  intro hw
  cases n with
  | zero => cases h
  | succ n =>
    rw [parseTerm, hw] at h
    simp at h

theorem argsLoop_skipWs {n : Nat} (hn : 2 ≤ n) (u : Text) :
    argsLoop F n (skipWs u) = argsLoop F n u := by
  obtain ⟨m, rfl⟩ : ∃ m, n = m + 2 := ⟨n - 2, by omega⟩
  rw [argsLoop, argsLoop, parseTerm_skipWs]

theorem parseArgs_iff {us : List Text} {ts : List (Term φ)}
    (h : List.Forall₂ (fun u t => Reads F u t ∨ Never F u t) us ts) {fuel : Nat}
    {r r' : Text} (hfuel : (Text.join [','] us).length + 1 < fuel) :
    parseArgs (argsLoop F fuel) (Text.join [','] us ++ ')' :: r) = .ok ts r' ↔
      List.Forall₂ (Reads F) us ts ∧ r' = r := by
  cases us with
  | nil =>
    cases h
    simp [parseArgs, skipWs, Text.isAsciiWhitespace, eq_comm]
  | cons u us =>
    rw [← argsLoop_iff h (by simp) hfuel]
    unfold parseArgs
    split
    · next w hw =>
      refine iff_of_false ?_ ?_
      · intro heq
        cases (Parsed.ok.inj heq).1
        cases h
      · intro heq
        rw [show fuel = fuel - 1 + 1 by omega, argsLoop] at heq
        obtain ⟨a, v, ha, -⟩ := Parsed.bind_eq_ok.mp heq
        exact not_paren_of_ok ha hw
    · rw [argsLoop_skipWs (by omega)]

end Arguments

end Cerebellum.Transpile
