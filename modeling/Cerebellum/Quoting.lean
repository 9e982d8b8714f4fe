import Cerebellum.Clips
import Cerebellum.Lib.Template

/-! How Prolog and CLIPS tell code, comments and quoted text apart: `raw_read2` and
`escape_char` of swipl-src/src/pl-read.c, and the scanner of CLIPS. -/
namespace Cerebellum
open Template

namespace Prolog

def isBlank (c : Char) : Bool := Text.isWhitespace c && c.toNat != 0x85

/-- The symbol characters of ASCII. -/
def isSymbol (c : Char) : Bool := "#$&*+-./:<=>?@\\^~".toList.contains c

def isIdCont (c : Char) : Bool := c.isAlphanum || c == '_'

/-- `digitValue`. -/
def digitValue (base : Nat) (c : Char) : Option Nat :=
  let v := if c.isDigit then c.toNat - 48 else if c.isLower then c.toNat - 87
    else if c.isUpper then c.toNat - 55 else base
  if v < base then some v else none

/-- A code point that is a character; a surrogate is none. -/
def charOf (n : Nat) : Option Char := if n.isValidChar then some (Char.ofNat n) else none

def digitsValue (base : Nat) (ds : Text) : Nat :=
  ds.foldl (fun n c => n * base + (digitValue base c).getD 0) 0

/-- The escapes of one letter, and the characters that are escaped to themselves. -/
def simpleEscape (c : Char) : Option Char :=
  if c = 'a' then some (Char.ofNat 7)
  else if c = 'b' then some (Char.ofNat 8)
  else if c = 'e' then some (Char.ofNat 27)
  else if c = 'f' then some (Char.ofNat 12)
  else if c = 'n' then some '\n'
  else if c = 'r' then some '\r'
  else if c = 's' then some ' '
  else if c = 't' then some '\t'
  else if c = 'v' then some (Char.ofNat 11)
  else if c = '\\' || c = '\'' || c = '"' || c = Char.ofNat 96 then some c
  else none

/-- `\uXXXX` and `\UXXXXXXXX`. -/
def fixedEscape (width : Nat) (t : Text) : Option (Char × Text) :=
  let ds := t.take width
  if ds.length = width ∧ ds.all fun c => (digitValue 16 c).isSome then
    (charOf (digitsValue 16 ds)).map fun c => (c, t.drop width)
  else none

/-- `\xXX…\` and `\NNN\`; the closing backslash may be left out. -/
def numberEscape (base : Nat) (t : Text) : Option (Char × Text) :=
  let ds := t.takeWhile fun c => (digitValue base c).isSome
  let rest := t.dropWhile fun c => (digitValue base c).isSome
  if ds.isEmpty then none
  else (charOf (digitsValue base ds)).map fun c =>
    (c, if rest.head? = some '\\' then rest.tail else rest)

/-- What stands behind a backslash: the character it makes, or none when the text ends with
it (`\c` before the closing quote). -/
def escapeChar (q : Char) : Nat → Text → Option (Option Char × Text)
  | 0, _ | _ + 1, [] => none
  | n + 1, c :: t =>
    -- `skip_cont`: after `\c` and an escaped line end
    let cont (t : Text) : Option (Option Char × Text) :=
      match t with
      | [] => none
      | d :: u => if d = '\\' then escapeChar q n u else if d = q then some (none, u)
        else some (some d, u)
    let lineBlank (d : Char) : Bool := isBlank d && d != '\n'
    match simpleEscape c with
    | some e => some (some e, t)
    | none =>
      if c = 'c' then cont (t.dropWhile isBlank)
      else if c = '\n' then cont (t.dropWhile lineBlank)
      else if c = '\r' then
        cont ((if t.head? = some '\n' then t.tail else t).dropWhile lineBlank)
      else if c = 'u' then (fixedEscape 4 t).map fun p => (some p.1, p.2)
      else if c = 'U' then (fixedEscape 8 t).map fun p => (some p.1, p.2)
      else if c = 'x' then (numberEscape 16 t).map fun p => (some p.1, p.2)
      else (numberEscape 8 (c :: t)).map fun p => (some p.1, p.2)

/-- The value of a quoted text up to its closing quote; a quote is also written as two. -/
def quotedBody (q : Char) : Nat → Text → Option (Text × Text)
  | 0, _ | _ + 1, [] => none
  | n + 1, c :: t =>
    if c = q then
      match t with
      | [] => some ([], [])
      | d :: u => if d = q then (quotedBody q n u).map fun p => (q :: p.1, p.2) else some ([], t)
    else if c = '\\' then
      match escapeChar q t.length t with
      | some (some e, u) => (quotedBody q n u).map fun p => (e :: p.1, p.2)
      | some (none, u) => some ([], u)
      | none => none
    else (quotedBody q n t).map fun p => (c :: p.1, p.2)

/-- The number that stands directly before a quote, in one or two digits. -/
def radixBefore (before : Text) : Option Nat :=
  let ds := (before.take 2).takeWhile Char.isDigit
  if ds.isEmpty || (before.drop ds.length).head?.any isIdCont then none
  else some (Nat.ofDigitChars 10 ds.reverse 0)

/-- The rest of a character or number literal whose quote has been read: `0'c`, `16'F`. -/
def literalTail (radix : Nat) (t : Text) : Option Text :=
  if radix = 0 then
    match t with
    | [] => none
    | c :: u => if c = '\\' || ((c = '\'' || c = '|') && u.head? = some c) then some (t.take 2)
      else some [c]
  else if radix ≤ 36 then
    match t with
    | c :: _ => if (digitValue radix c).isSome then some [c] else none
    | [] => none
  else none

/-- A block comment behind its `/*`, to the end of the outermost one. -/
def blockComment : Nat → Char → Text → Option Text
  | _, _, [] => none
  | level, last, c :: t =>
    if c = '*' && last = '/' then (blockComment (level + 1) c t).map fun s => c :: s
    else if c = '/' && last = '*' then
      if level ≤ 1 then some [c] else (blockComment (level - 1) c t).map fun s => c :: s
    else (blockComment level c t).map fun s => c :: s

def isQuote (c : Char) : Bool := c == '\'' || c == '"' || c == Char.ofNat 96

def next (before : Text) : Text → Option (Lexeme Char × Text)
  | [] => none
  | c :: t =>
    if c = '%' then some (.comment (t.takeWhile (· ≠ '\n')), t.dropWhile (· ≠ '\n'))
    else if c = '/' && t.head? = some '*' && !before.head?.any isSymbol then
      match t.drop 1 with
      | [] => none
      | last :: u => (blockComment 1 last u).map fun s =>
          (.other (c :: '*' :: last :: s), u.drop s.length)
    else if isQuote c then
      match (if c = '\'' then (radixBefore before).bind fun r => literalTail r t else none) with
      | some s => some (.other (c :: s), t.drop s.length)
      | none => (quotedBody c t.length t).map fun p => (.quoted c p.1, p.2)
    else some (.code c, t)

theorem fixedEscape_length {width : Nat} {t u : Text} {c : Char}
    (h : fixedEscape width t = some (c, u)) : u.length ≤ t.length := by
  unfold fixedEscape at h
  simp only at h
  split at h
  · obtain ⟨e, -, he⟩ := Option.map_eq_some_iff.mp h
    cases he
    simp
  · cases h

theorem numberEscape_length {base : Nat} {t u : Text} {c : Char}
    (h : numberEscape base t = some (c, u)) : u.length < t.length := by
  unfold numberEscape at h
  simp only at h
  split at h
  · cases h
  · rename_i hne
    obtain ⟨e, -, he⟩ := Option.map_eq_some_iff.mp h
    cases he
    have hsplit := congrArg List.length
      (List.takeWhile_append_dropWhile (p := fun c => (digitValue base c).isSome) (l := t))
    rw [List.length_append] at hsplit
    have hpos : 0 < (t.takeWhile fun c => (digitValue base c).isSome).length :=
      List.length_pos_iff.mpr (by simpa using hne)
    split
    · rw [List.length_tail]
      omega
    · omega

/-- An escape takes at least the character behind the backslash. -/
theorem escapeChar_length {q : Char} {n : Nat} {t u : Text} {e : Option Char}
    (h : escapeChar q n t = some (e, u)) : u.length < t.length := by
  induction n generalizing t u e with
  | zero => cases h
  | succ n ih =>
    cases t with
    | nil => cases h
    | cons c t =>
      have hcont : ∀ v : Text, v.length ≤ t.length → (match v with
          | [] => none
          | d :: u => if d = '\\' then escapeChar q n u else if d = q then some (none, u)
            else some (some d, u)) = some (e, u) → u.length < t.length + 1 := by
        intro v hv hsome
        cases v with
        | nil => cases hsome
        | cons d v =>
          simp only [List.length_cons] at hv
          simp only at hsome
          split_ifs at hsome
          · have := ih hsome
            omega
          · cases hsome
            omega
          · cases hsome
            omega
      have hdrop : ∀ p : Char → Bool, (t.dropWhile p).length ≤ t.length := fun p =>
        (List.dropWhile_sublist p).length_le
      have hcode : ∀ {found : Option (Char × Text)},
          found.map (fun p => (some p.1, p.2)) = some (e, u) →
          (∀ d v, found = some (d, v) → v.length ≤ t.length) → u.length < t.length + 1 := by
        intro found hmap hle
        obtain ⟨⟨d, v⟩, hfound, hp⟩ := Option.map_eq_some_iff.mp hmap
        cases hp
        exact Nat.lt_succ_of_le (hle d v hfound)
      unfold escapeChar at h
      simp only at h
      split at h
      · cases h
        simp
      · split_ifs at h with h₁ h₂ h₃ h₄ h₅ h₆ h₇
        · exact hcont _ (hdrop _) h
        · exact hcont _ (hdrop _) h
        · refine hcont _ ?_ h
          exact ((List.dropWhile_sublist _).length_le).trans (by simp)
        · exact hcont _ (hdrop _) h
        · exact hcode h fun _ _ => fixedEscape_length
        · exact hcode h fun _ _ => fixedEscape_length
        · exact hcode h fun _ _ hp => (numberEscape_length hp).le
        · exact hcode h fun _ _ hp => Nat.le_of_lt_succ (numberEscape_length hp)

/-- Every character of a value takes one of the text, a quote takes two, and only an escape
wastes any. -/
theorem quotedBody_length {q : Char} (hq : q ≠ '\\') {n : Nat} {t v u : Text}
    (h : quotedBody q n t = some (v, u)) : v.length + v.count q + 1 + u.length ≤ t.length ∧
      (t.length ≤ v.length + v.count q + 1 + u.length → '\\' ∉ v) := by
  induction n generalizing t v u with
  | zero => cases h
  | succ n ih =>
    cases t with
    | nil => cases h
    | cons c t =>
      -- a character of the value, from `k` characters of the text
      have hstep : ∀ (e : Char) (w : Text) (k : Nat), w.length + k = t.length + 1 →
          (if e = q then 2 else 1) ≤ k → (e = '\\' → 2 ≤ k) →
          (quotedBody q n w).map (fun p => (e :: p.1, p.2)) = some (v, u) →
          v.length + v.count q + 1 + u.length ≤ t.length + 1 ∧
            (t.length + 1 ≤ v.length + v.count q + 1 + u.length → '\\' ∉ v) := by
        intro e w k hk hcost hesc hmap
        obtain ⟨⟨v, u⟩, hbody, hp⟩ := Option.map_eq_some_iff.mp hmap
        cases hp
        obtain ⟨hle, hclean⟩ := ih hbody
        by_cases he : e = q
        · subst he
          simp only [if_true, List.count_cons_self, List.length_cons] at hcost ⊢
          refine ⟨by omega, fun hall hmem => ?_⟩
          rcases List.mem_cons.mp hmem with hslash | hmem
          · exact hq hslash.symm
          · exact hclean (by omega) hmem
        · simp only [he, if_false, List.count_cons_of_ne he, List.length_cons] at hcost ⊢
          refine ⟨by omega, fun hall hmem => ?_⟩
          rcases List.mem_cons.mp hmem with hslash | hmem
          · have := hesc hslash.symm
            omega
          · exact hclean (by omega) hmem
      unfold quotedBody at h
      split_ifs at h with hquote hslash
      · cases t with
        | nil =>
          cases h
          simp
        | cons d t =>
          simp only at h
          split_ifs at h with hd
          · exact hstep q t 2 (by simp) (by simp) (fun hc => absurd hc hq) h
          · cases h
            simp
            omega
      · cases hesc : escapeChar q t.length t with
        | none => simp [hesc] at h
        | some p =>
          obtain ⟨e, w⟩ := p
          have hlen := escapeChar_length hesc
          cases e with
          | none =>
            simp only [hesc, Option.some.injEq, Prod.mk.injEq] at h
            obtain ⟨rfl, rfl⟩ := h
            simp
            omega
          | some e =>
            simp only [hesc] at h
            exact hstep e w (t.length + 1 - w.length) (by omega) (by split <;> omega)
              (fun _ => by omega) h
      · exact hstep c t 1 rfl (by simp [hquote]) (fun hc => absurd hc hslash) h

theorem blockComment_length {level : Nat} {last : Char} {t s : Text}
    (h : blockComment level last t = some s) : s.length ≤ t.length := by
  induction t generalizing level last s with
  | nil => cases h
  | cons c t ih =>
    have hmap : ∀ level, (blockComment level c t).map (fun s => c :: s) = some s →
        s.length ≤ t.length + 1 := by
      intro level hm
      obtain ⟨s, hs, rfl⟩ := Option.map_eq_some_iff.mp hm
      simpa using ih hs
    unfold blockComment at h
    split_ifs at h
    · exact hmap _ h
    · cases h
      simp
    · exact hmap _ h
    · exact hmap _ h

theorem literalTail_length {radix : Nat} {t s : Text} (h : literalTail radix t = some s) :
    s.length ≤ t.length := by
  unfold literalTail at h
  split_ifs at h
  · cases t with
    | nil => cases h
    | cons c t =>
      simp only at h
      split_ifs at h <;> cases h <;> simp
  · cases t with
    | nil => cases h
    | cons c t =>
      simp only at h
      split_ifs at h
      cases h
      simp

theorem next_length {before t rest : Text} {l : Lexeme Char} (h : next before t = some (l, rest)) :
    l.cost + rest.length ≤ t.length ∧
      (t.length ≤ l.cost + rest.length → l.Clean (· = '\n') '\\') := by
  cases t with
  | nil => cases h
  | cons c t =>
    have hquoted : c ≠ '\\' → (quotedBody c t.length t).map
        (fun p => (Lexeme.quoted c p.1, p.2)) = some (l, rest) →
        l.cost + rest.length ≤ t.length + 1 ∧
          (t.length + 1 ≤ l.cost + rest.length → l.Clean (· = '\n') '\\') := by
      intro hc hmap
      obtain ⟨⟨v, u⟩, hbody, hp⟩ := Option.map_eq_some_iff.mp hmap
      cases hp
      obtain ⟨hle, hclean⟩ := quotedBody_length hc hbody
      simp only [Lexeme.cost, Lexeme.Clean]
      exact ⟨by omega, fun hall => hclean (by omega)⟩
    unfold next at h
    simp only at h
    split_ifs at h with hcomment hblock hquote hradix
    · cases h
      have hsplit := congrArg List.length
        (List.takeWhile_append_dropWhile (p := fun c => decide (c ≠ '\n')) (l := t))
      rw [List.length_append] at hsplit
      simp only [Lexeme.cost, Lexeme.Clean, List.length_cons]
      refine ⟨by omega, fun _ a ha => ?_⟩
      simpa using List.mem_takeWhile_imp ha
    · cases hd : t.drop 1 with
      | nil => simp [hd] at h
      | cons last u =>
        have hlen := congrArg List.length hd
        simp only [hd] at h
        obtain ⟨s, hs, hp⟩ := Option.map_eq_some_iff.mp h
        cases hp
        have := blockComment_length hs
        simp only [List.length_drop, List.length_cons] at hlen
        simp only [Lexeme.cost, Lexeme.Clean, List.length_cons, List.length_drop]
        exact ⟨by omega, fun _ => trivial⟩
    · split at h
      · rename_i s hs
        cases h
        obtain ⟨r, -, hr⟩ := Option.bind_eq_some_iff.mp hs
        have hle := literalTail_length hr
        simp only [Lexeme.cost, Lexeme.Clean, List.length_cons, List.length_drop]
        exact ⟨by omega, fun _ => trivial⟩
      · exact hquoted (by rw [hradix]; decide) h
    · refine hquoted ?_ h
      rintro rfl
      exact absurd hquote (by decide)
    · cases h
      simp only [Lexeme.cost, Lexeme.Clean, List.length_cons]
      exact ⟨by omega, fun _ => trivial⟩

theorem simpleEscape_quote {q : Char} (hq : isQuote q) : simpleEscape q = some q := by
  simp only [isQuote, Bool.or_eq_true, beq_iff_eq] at hq
  rcases hq with (rfl | rfl) | rfl <;> decide

/-- A text without backslashes is read back from between quotes. -/
theorem quotedBody_escape {q : Char} (hq : isQuote q) {v t : Text} (hv : '\\' ∉ v)
    (ht : t.head? ≠ some q) {n : Nat} (hn : (escape '\\' q v).length < n) :
    quotedBody q n (escape '\\' q v ++ q :: t) = some (v, t) := by
  have hslash : q ≠ '\\' := by
    rintro rfl
    exact absurd hq (by decide)
  induction v generalizing n with
  | nil =>
    obtain ⟨n, rfl⟩ : ∃ m, n = m + 1 := ⟨n - 1, by omega⟩
    cases t with
    | nil => simp [escape, quotedBody]
    | cons d t =>
      have hd : d ≠ q := by simpa using ht
      simp [escape, quotedBody, hd]
  | cons a v ih =>
    obtain ⟨n, rfl⟩ : ∃ m, n = m + 1 := ⟨n - 1, by omega⟩
    have ha : a ≠ '\\' := fun h => hv (by simp [h])
    have hrest : '\\' ∉ v := fun h => hv (List.mem_cons_of_mem _ h)
    by_cases haq : a = q
    · subst haq
      have hn' : (escape '\\' a v).length < n := by
        simp only [escape, List.flatMap_cons, if_true, List.length_append, List.length_cons,
          List.length_nil] at hn ⊢
        omega
      have hesc : escapeChar a (a :: (escape '\\' a v ++ a :: t)).length
          (a :: (escape '\\' a v ++ a :: t)) = some (some a, escape '\\' a v ++ a :: t) := by
        simp [escapeChar, simpleEscape_quote hq]
      have hbody := ih hrest hn'
      have hshape : escape '\\' a (a :: v) ++ a :: t =
          '\\' :: a :: (escape '\\' a v ++ a :: t) := by simp [escape]
      rw [hshape]
      simp only [quotedBody, if_neg (Ne.symm hslash), if_true, hesc, hbody, Option.map_some]
    · have hn' : (escape '\\' q v).length < n := by
        simp only [escape, List.flatMap_cons, haq, if_false, List.length_append, List.length_cons,
          List.length_nil] at hn ⊢
        omega
      have hshape : escape '\\' q (a :: v) ++ q :: t = a :: (escape '\\' q v ++ q :: t) := by
        simp [escape, haq]
      rw [hshape]
      simp only [quotedBody, if_neg haq, if_neg ha, ih hrest hn', Option.map_some]

theorem next_quotedBody {before t : Text} {q : Char} (hq : isQuote q)
    (hb : ∀ a ∈ before.head?, a.isDigit = false) :
    next before (q :: t) = (quotedBody q t.length t).map fun p => (.quoted q p.1, p.2) := by
  have hmark : q ≠ '%' ∧ q ≠ '/' := by
    constructor <;>
      · rintro rfl
        exact absurd hq (by decide)
  have hradix : radixBefore before = none := by
    cases before with
    | nil => rfl
    | cons d before =>
      have hd := hb d rfl
      simp [radixBefore, hd]
  simp [next, hmark, hq, hradix]

def isCode (c : Char) : Bool := c != '%' && c != '/' && !isQuote c

theorem next_code {before t : Text} {c : Char} (h : isCode c) :
    next before (c :: t) = some (.code c, t) := by
  simp only [isCode, Bool.and_eq_true, bne_iff_ne, Bool.not_eq_true'] at h
  simp [next, h.1.1, h.1.2, h.2]

theorem next_comment {before s t : Text} (h : ∀ a ∈ s, ¬ a = '\n') :
    next before ('%' :: (s ++ '\n' :: t)) = some (.comment s, '\n' :: t) := by
  have hs : ∀ a ∈ s, decide (a ≠ '\n') = true := by simpa using h
  have ht : ∀ a ∈ ('\n' :: t).head?, decide (a ≠ '\n') = false := by simp
  simp only [next, if_true, Span.takeWhile_append_stop hs ht, Span.dropWhile_append_stop hs ht]

theorem next_escape {before v t : Text} {q : Char} (hq : isQuote q)
    (hb : ∀ a ∈ before.head?, a.isDigit = false) (hv : '\\' ∉ v) (ht : t.head? ≠ some q) :
    next before (q :: (escape '\\' q v ++ q :: t)) = some (.quoted q v, t) := by
  rw [next_quotedBody hq hb, quotedBody_escape hq hv ht (by simp), Option.map_some]

def lexis : Lexis Char where
  next := next
  mark := '%'
  eol := '\n'
  esc := '\\'
  ends := (· = '\n')
  isCode c := isCode c
  isQuote c := isQuote c
  opens c := c.isDigit = false
  eol_code := by decide
  opens_eol := by decide
  cost_le h := (next_length h).1
  clean_of_le h := (next_length h).2
  next_code := next_code
  next_comment := next_comment
  next_quoted := next_escape

end Prolog

namespace Clips

def isLineEnd (c : Char) : Bool := c == '\n' || c == '\r'

def lexNext (_ : Text) : Text → Option (Lexeme Char × Text)
  | [] => none
  | c :: t =>
    if c = ';' then some (.comment (t.takeWhile (!isLineEnd ·)), t.dropWhile (!isLineEnd ·))
    else if c = '"' then (scanString t).map fun p => (.quoted '"' p.1, p.2)
    else some (.code c, t)

theorem scanString_cost {t v u : Text} (h : scanString t = some (v, u)) :
    v.length + v.count '"' + 1 + u.length ≤ t.length ∧
      (t.length ≤ v.length + v.count '"' + 1 + u.length → '\\' ∉ v) := by
  fun_induction scanString t generalizing v with
  | case1 => cases h
  | case2 t =>
    cases h
    simp
    omega
  | case3 => cases h
  | case4 d t hq ih =>
    simp only [Option.map_eq_some_iff, Prod.mk.injEq, Prod.exists] at h
    obtain ⟨w, u', hw, rfl, rfl⟩ := h
    obtain ⟨hle, hclean⟩ := ih hw
    by_cases hd : d = '"'
    · subst hd
      simp only [List.count_cons_self, List.length_cons]
      exact ⟨by omega, fun hall => by simpa using hclean (by omega)⟩
    · simp only [List.count_cons_of_ne hd, List.length_cons]
      exact ⟨by omega, fun hall => absurd hall (by omega)⟩
  | case5 c t hq hb ih =>
    simp only [Option.map_eq_some_iff, Prod.mk.injEq, Prod.exists] at h
    obtain ⟨w, u', hw, rfl, rfl⟩ := h
    obtain ⟨hle, hclean⟩ := ih hw
    simp only [List.count_cons_of_ne hq, List.length_cons]
    refine ⟨by omega, fun hall hmem => ?_⟩
    rcases List.mem_cons.mp hmem with hslash | hmem
    · exact hb hslash.symm
    · exact hclean (by omega) hmem

theorem lexNext_length {before t rest : Text} {l : Lexeme Char}
    (h : lexNext before t = some (l, rest)) : l.cost + rest.length ≤ t.length ∧
      (t.length ≤ l.cost + rest.length → l.Clean (fun c => isLineEnd c) '\\') := by
  cases t with
  | nil => cases h
  | cons c t =>
    unfold lexNext at h
    simp only at h
    split_ifs at h
    · cases h
      have hsplit := congrArg List.length
        (List.takeWhile_append_dropWhile (p := fun c => !isLineEnd c) (l := t))
      rw [List.length_append] at hsplit
      simp only [Lexeme.cost, Lexeme.Clean, List.length_cons]
      refine ⟨by omega, fun _ a ha => ?_⟩
      simpa using List.mem_takeWhile_imp ha
    · obtain ⟨⟨v, u⟩, hv, hp⟩ := Option.map_eq_some_iff.mp h
      cases hp
      obtain ⟨hle, hclean⟩ := scanString_cost hv
      simp only [Lexeme.cost, Lexeme.Clean, List.length_cons]
      exact ⟨by omega, fun hall => hclean (by omega)⟩
    · cases h
      simp only [Lexeme.cost, Lexeme.Clean, List.length_cons]
      exact ⟨by omega, fun _ => trivial⟩

/-- A text without backslashes is read back from between quotes. -/
theorem scanString_escape_quotes {v : Text} (hv : '\\' ∉ v) (t : Text) :
    scanString (Template.escape '\\' '"' v ++ '"' :: t) = some (v, t) := by
  induction v with
  | nil => exact scanString_quote t
  | cons a v ih =>
    have ha : a ≠ '\\' := fun h => hv (by simp [h])
    have hrest := ih fun h => hv (List.mem_cons_of_mem _ h)
    by_cases haq : a = '"'
    · subst haq
      have hshape : Template.escape '\\' '"' ('"' :: v) ++ '"' :: t =
          '\\' :: '"' :: (Template.escape '\\' '"' v ++ '"' :: t) := by simp [Template.escape]
      rw [hshape, scanString_escaped, hrest]
      rfl
    · have hshape : Template.escape '\\' '"' (a :: v) ++ '"' :: t =
          a :: (Template.escape '\\' '"' v ++ '"' :: t) := by simp [Template.escape, haq]
      rw [hshape, scanString_char haq ha, hrest]
      rfl

def isCode (c : Char) : Bool := c != ';' && c != '"'

theorem lexNext_code {before t : Text} {c : Char} (h : isCode c) :
    lexNext before (c :: t) = some (.code c, t) := by
  simp only [isCode, Bool.and_eq_true, bne_iff_ne] at h
  simp [lexNext, h.1, h.2]

theorem lexNext_comment {before s t : Text} (h : ∀ a ∈ s, ¬ (isLineEnd a) = true) :
    lexNext before (';' :: (s ++ '\n' :: t)) = some (.comment s, '\n' :: t) := by
  have hs : ∀ a ∈ s, (!isLineEnd a) = true := by simpa using h
  have ht : ∀ a ∈ ('\n' :: t).head?, (!isLineEnd a) = false := by simp [isLineEnd]
  simp only [lexNext, if_true, Span.takeWhile_append_stop hs ht, Span.dropWhile_append_stop hs ht]

theorem lexNext_escape {before v t : Text} {q : Char} (hq : q = '"') (_ : ∀ a ∈ before.head?, True)
    (hv : '\\' ∉ v) (_ : t.head? ≠ some q) :
    lexNext before (q :: (Template.escape '\\' q v ++ q :: t)) = some (.quoted q v, t) := by
  subst hq
  simp [lexNext, scanString_escape_quotes hv]

def lexis : Lexis Char where
  next := lexNext
  mark := ';'
  eol := '\n'
  esc := '\\'
  ends c := isLineEnd c
  isCode c := isCode c
  isQuote c := c = '"'
  opens _ := True
  eol_code := by decide
  opens_eol := trivial
  cost_le h := (lexNext_length h).1
  clean_of_le h := (lexNext_length h).2
  next_code := lexNext_code
  next_comment := lexNext_comment
  next_quoted := lexNext_escape

end Clips
end Cerebellum
