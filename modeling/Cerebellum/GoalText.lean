import Cerebellum.Agenda
import Cerebellum.RelayedFacts

/-! The functor and the arity that the controller reads off the text of a goal, and the term that
the parser reads from it. -/
namespace Cerebellum
open Transpile

/-! ### Text without quotes -/

/-- The text with its quoted atoms and strings left out. -/
def unquoted : Within → Text → Text
  | _, [] => []
  | w, c :: u => (if w = .code ∧ w.next c = .code then [c] else []) ++ unquoted (w.next c) u

/-- Commas outside parentheses and quotes, from a place at this depth. -/
def codeCommas (depth : Nat) (u : Text) : Nat := topCommas depth (unquoted .code u)

example : codeCommas 0 "a,'b,c',f(d,e)".toList = 2 := by decide +kernel

/-- A character that neither separates nor quotes. -/
def isPlainChar (c : Char) : Bool :=
  c != '(' && c != ')' && c != ',' && c != '\'' && c != '"'

theorem isPlainChar_iff {c : Char} :
    isPlainChar c ↔ c ≠ '(' ∧ c ≠ ')' ∧ c ≠ ',' ∧ c ≠ '\'' ∧ c ≠ '"' := by
  simp [isPlainChar, and_assoc]

theorem plainChar_of_ident {c : Char} (h : isIdent c) : isPlainChar c := by
  rw [isPlainChar_iff]
  refine ⟨?_, ?_, ?_, ?_, ?_⟩ <;> (rintro rfl; exact absurd h (by decide))

theorem plainChar_of_ws {c : Char} (h : Text.isAsciiWhitespace c) : isPlainChar c := by
  rw [isPlainChar_iff]
  refine ⟨?_, ?_, ?_, ?_, ?_⟩ <;> (rintro rfl; exact absurd h (by decide))

theorem plainChar_of_digit {c : Char} (h : c.isDigit) : isPlainChar c := by
  rw [isPlainChar_iff]
  refine ⟨?_, ?_, ?_, ?_, ?_⟩ <;> (rintro rfl; exact absurd h (by decide))

theorem codeCommas_plain {c : Char} (h : isPlainChar c) (d : Nat) (u : Text) :
    codeCommas d (c :: u) = codeCommas d u := by
  obtain ⟨h1, h2, h3, h4, h5⟩ := isPlainChar_iff.mp h
  simp [codeCommas, unquoted, Within.next, topCommas, h1, h2, h3, h4, h5]

theorem codeCommas_open (d : Nat) (u : Text) : codeCommas d ('(' :: u) = codeCommas (d + 1) u := by
  simp [codeCommas, unquoted, Within.next, topCommas]

theorem codeCommas_close (d : Nat) (u : Text) : codeCommas d (')' :: u) = codeCommas (d - 1) u := by
  simp [codeCommas, unquoted, Within.next, topCommas]

theorem codeCommas_comma (d : Nat) (u : Text) :
    codeCommas d (',' :: u) = (if d = 0 then 1 else 0) + codeCommas d u := by
  by_cases hd : d = 0 <;> simp [codeCommas, unquoted, Within.next, topCommas, hd, Nat.add_comm]

/-- Between the ends of `p` nothing separates what is around it. -/
def Neutral (p : Text) : Prop := ∀ d z, codeCommas d (p ++ z) = codeCommas d z

theorem neutral_plain {p : Text} (h : ∀ c ∈ p, isPlainChar c) : Neutral p := by
  intro d z
  induction p with
  | nil => rfl
  | cons c p ih =>
    rw [List.cons_append, codeCommas_plain (h c (by simp)), ih fun e he => h e (by simp [he])]

theorem Neutral.append {p q : Text} (hp : Neutral p) (hq : Neutral q) : Neutral (p ++ q) := by
  intro d z
  rw [List.append_assoc, hp, hq]

theorem neutral_dropWhile {q : Char → Bool} (hq : ∀ c, q c → isPlainChar c) (u : Text) :
    ∃ p, u = p ++ u.dropWhile q ∧ Neutral p :=
  ⟨u.takeWhile q, (List.takeWhile_append_dropWhile).symm,
    neutral_plain fun c hc => hq c (List.mem_takeWhile_imp hc)⟩

theorem skipWs_split (u : Text) :
    ∃ p, u = p ++ skipWs u ∧ ∀ c ∈ p, Text.isAsciiWhitespace c :=
  ⟨u.takeWhile Text.isAsciiWhitespace, (List.takeWhile_append_dropWhile).symm,
    fun _ hc => List.mem_takeWhile_imp hc⟩

theorem neutral_ws (u : Text) : ∃ p, u = p ++ skipWs u ∧ Neutral p := by
  obtain ⟨p, hp, hspace⟩ := skipWs_split u
  exact ⟨p, hp, neutral_plain fun c hc => plainChar_of_ws (hspace c hc)⟩

theorem neutral_singleton {c : Char} (h : isPlainChar c) : Neutral [c] :=
  neutral_plain fun _ hd => List.mem_singleton.mp hd ▸ h

theorem ascii_of_ws {c : Char} (h : Text.isAsciiWhitespace c) : c.toNat < 128 := by
  simp only [Text.isAsciiWhitespace, Bool.or_eq_true, beq_iff_eq] at h
  rcases h with (((rfl | rfl) | rfl) | rfl) | rfl <;> decide

section Reading
variable {φ : Type} {F : FloatText φ}

theorem quotedAtom_within {u s r : Text} (h : quotedAtom u = .ok s r) :
    ∃ p, u = p ++ r ∧ ∀ z, unquoted .atom (p ++ z) = unquoted .code z := by
  fun_induction quotedAtom u generalizing s with
  | case1 => cases h
  | case2 u ih =>
    obtain ⟨s', hs, rfl⟩ := Parsed.map_eq_ok.mp h
    obtain ⟨p, rfl, hp⟩ := ih hs
    refine ⟨'\'' :: '\'' :: p, rfl, fun z => ?_⟩
    simp [unquoted, Within.next, hp]
  | case3 u hu =>
    obtain ⟨rfl, rfl⟩ := Parsed.ok.inj h
    exact ⟨['\''], rfl, fun z => by simp [unquoted, Within.next]⟩
  | case4 => cases h
  | case5 d u hq ih =>
    obtain ⟨s', hs, rfl⟩ := Parsed.map_eq_ok.mp h
    obtain ⟨p, rfl, hp⟩ := ih hs
    refine ⟨'\\' :: d :: p, rfl, fun z => ?_⟩
    simp [unquoted, Within.next, hp]
  | case6 c u hq hb ih =>
    obtain ⟨s', hs, rfl⟩ := Parsed.map_eq_ok.mp h
    obtain ⟨p, rfl, hp⟩ := ih hs
    refine ⟨c :: p, rfl, fun z => ?_⟩
    simp [unquoted, Within.next, hq, hb, hp]

theorem doubleQuoted_within {u s r : Text} (h : doubleQuoted u = .ok s r) :
    ∃ p, u = p ++ r ∧ ∀ z, unquoted .string (p ++ z) = unquoted .code z := by
  fun_induction doubleQuoted u generalizing s with
  | case1 => cases h
  | case2 u =>
    obtain ⟨rfl, rfl⟩ := Parsed.ok.inj h
    exact ⟨['"'], rfl, fun z => by simp [unquoted, Within.next]⟩
  | case3 => cases h
  | case4 d u hq ih =>
    obtain ⟨s', hs, rfl⟩ := Parsed.map_eq_ok.mp h
    obtain ⟨p, rfl, hp⟩ := ih hs
    refine ⟨'\\' :: d :: p, rfl, fun z => ?_⟩
    simp [unquoted, Within.next, hp]
  | case5 c u hq hb ih =>
    obtain ⟨s', hs, rfl⟩ := Parsed.map_eq_ok.mp h
    obtain ⟨p, rfl, hp⟩ := ih hs
    refine ⟨c :: p, rfl, fun z => ?_⟩
    simp [unquoted, Within.next, hq, hb, hp]

theorem parseList_neutral {u r : Text} {t : Transpile.Term φ} (h : parseList u = .ok t r) :
    ∃ p, u = p ++ r ∧ Neutral p := by
  unfold parseList at h
  split at h
  · next v hv =>
    obtain ⟨-, rfl⟩ := Parsed.ok.inj h
    obtain ⟨p, hp, hneutral⟩ := neutral_ws u
    have hend : Neutral [']'] := neutral_singleton rfl
    exact ⟨p ++ [']'], by rw [hp, hv]; simp, hneutral.append hend⟩
  · cases h

theorem parseUnsigned_neutral {minus : Bool} {u r : Text} {t : Transpile.Term φ}
    (h : parseUnsigned F minus u = .ok t r) : ∃ p, u = p ++ r ∧ Neutral p := by
  have hdigits : ∀ c : Char, c.isDigit → isPlainChar c := fun _ => plainChar_of_digit
  obtain ⟨p, hp, hneutral⟩ := neutral_dropWhile hdigits u
  simp only [parseUnsigned] at h
  split at h
  · next v hv =>
    split at h
    · obtain ⟨-, rfl⟩ := Parsed.ok.inj h
      obtain ⟨q, hq, hneutral'⟩ := neutral_dropWhile hdigits v
      have hdot : Neutral ['.'] := neutral_singleton rfl
      refine ⟨p ++ ['.'] ++ q, ?_, (hneutral.append hdot).append hneutral'⟩
      rw [hp, hv]
      conv_lhs => rw [hq]
      simp
    · cases h
  · split at h
    · obtain ⟨-, rfl⟩ := Parsed.ok.inj h
      exact ⟨p, hp, hneutral⟩
    · cases h

theorem parseNumber_neutral {u r : Text} {t : Transpile.Term φ} (h : parseNumber F u = .ok t r) :
    ∃ p, u = p ++ r ∧ Neutral p := by
  unfold parseNumber at h
  split at h
  · obtain ⟨p, rfl, hp⟩ := parseUnsigned_neutral h
    have hminus : Neutral ['-'] := neutral_singleton rfl
    exact ⟨['-'] ++ p, rfl, hminus.append hp⟩
  · exact parseUnsigned_neutral h

/-- The commas of an argument list, up to the parenthesis that closes it. -/
def Separates (p : Text) (n : Nat) : Prop :=
  ∀ d z, codeCommas d (p ++ z) = (if d = 0 then n - 1 else 0) + codeCommas (d - 1) z

theorem separates_close {p : Text} (h : Neutral p) {n : Nat} (hn : n ≤ 1) :
    Separates (p ++ [')']) n := by
  intro d z
  have hzero : n - 1 = 0 := by omega
  rw [List.append_assoc, h, List.singleton_append, codeCommas_close, hzero]
  simp

theorem Separates.cons {p q : Text} (hp : Neutral p) {n : Nat} (hn : 0 < n)
    (hq : Separates q n) : Separates (p ++ ',' :: q) (n + 1) := by
  intro d z
  rw [List.append_assoc, hp, List.cons_append, codeCommas_comma, hq]
  split <;> omega

variable {loop : Text → Parsed (List (Transpile.Term φ))}

/-- The loop takes whole arguments with the commas between them. -/
def TakesArgs (loop : Text → Parsed (List (Transpile.Term φ))) : Prop :=
  ∀ u ts r, loop u = .ok ts r → ts ≠ [] ∧ ∃ p, u = p ++ r ∧ Separates p ts.length

theorem argsTail_separates (hloop : TakesArgs loop) {t : Transpile.Term φ} {u r : Text}
    {ts : List (Transpile.Term φ)} (h : argsTail loop t u = .ok ts r) {p : Text} (hp : Neutral p) :
    ts ≠ [] ∧ ∃ q, p ++ u = q ++ r ∧ Separates q ts.length := by
  obtain ⟨w, hw, hneutral⟩ := neutral_ws u
  have hpw : p ++ u = p ++ w ++ skipWs u := by
    rw [List.append_assoc]
    exact congrArg (p ++ ·) hw
  unfold argsTail at h
  split at h
  · next v hv =>
    obtain ⟨ts', hts, rfl⟩ := Parsed.map_eq_ok.mp h
    obtain ⟨hne, q, rfl, hq⟩ := hloop _ _ _ hts
    refine ⟨by simp, p ++ w ++ ',' :: q, by simp [hpw, hv], ?_⟩
    exact Separates.cons (hp.append hneutral) (List.length_pos_of_ne_nil hne) hq
  · next v hv =>
    obtain ⟨rfl, rfl⟩ := Parsed.ok.inj h
    exact ⟨by simp, p ++ w ++ [')'], by simp [hpw, hv],
      separates_close (hp.append hneutral) (Nat.le_refl 1)⟩
  · cases h
  · cases h

theorem parseArgs_separates (hloop : TakesArgs loop) {u r : Text} {ts : List (Transpile.Term φ)}
    (h : parseArgs loop u = .ok ts r) : ∃ p, u = p ++ r ∧ Separates p ts.length := by
  obtain ⟨w, hw, hneutral⟩ := neutral_ws u
  unfold parseArgs at h
  split at h
  · next v hv =>
    obtain ⟨rfl, rfl⟩ := Parsed.ok.inj h
    exact ⟨w ++ [')'], by rw [hw, hv]; simp, separates_close hneutral (Nat.zero_le 1)⟩
  · obtain ⟨-, p, hp, hsep⟩ := hloop _ _ _ h
    refine ⟨w ++ p, by rw [List.append_assoc, ← hp]; exact hw, fun d z => ?_⟩
    rw [List.append_assoc, hneutral, hsep]

theorem maybeCompound_neutral (hloop : TakesArgs loop) {s u r : Text} {t : Transpile.Term φ}
    (h : maybeCompound loop s u = .ok t r) : ∃ p, u = p ++ r ∧ Neutral p := by
  obtain ⟨w, hw, hneutral⟩ := neutral_ws u
  rcases maybeCompound_cases h with ⟨-, rfl⟩ | ⟨v, args, hv, hargs, -⟩
  · exact ⟨w, hw, hneutral⟩
  · obtain ⟨p, rfl, hsep⟩ := parseArgs_separates hloop hargs
    refine ⟨w ++ '(' :: p, by rw [hw, hv]; simp, fun d z => ?_⟩
    -- one level down no comma counts
    rw [List.append_assoc, hneutral, List.cons_append, codeCommas_open, hsep]
    simp

theorem parse_neutral (n : Nat) :
    (∀ u (t : Transpile.Term φ) r, parseTerm F n u = .ok t r → ∃ p, u = p ++ r ∧ Neutral p) ∧
      TakesArgs (argsLoop F n) := by
  induction n with
  | zero =>
    refine ⟨fun u t r h => ?_, fun u ts r h => ?_⟩
    · cases h
    · cases h
  | succ n ih =>
    obtain ⟨hterm, hloop⟩ := ih
    refine ⟨fun u t r h => ?_, fun u ts r h => ?_⟩
    · obtain ⟨w, hw, hneutral⟩ := neutral_ws u
      have hbehind : ∀ {v}, skipWs u = v → (∃ p, v = p ++ r ∧ Neutral p) →
          ∃ p, u = p ++ r ∧ Neutral p := by
        rintro v hv ⟨p, rfl, hp⟩
        exact ⟨w ++ p, by rw [hw, hv, List.append_assoc], hneutral.append hp⟩
      obtain ⟨c, v, hcv, hcases⟩ := parseTerm_cases h
      rw [← parseTerm_skipWs, hcv] at h
      refine hbehind hcv ?_
      rcases hcases with ⟨rfl, s, x, hs, hrest⟩ | ⟨rfl, s, hs, -⟩ | ⟨rfl, -⟩ | ⟨hc, hnumber⟩ |
        ⟨hc, -⟩ | ⟨hc, hrest⟩
      · obtain ⟨p, rfl, hp⟩ := quotedAtom_within hs
        obtain ⟨q, rfl, hq⟩ := maybeCompound_neutral hloop hrest
        have hquoted : Neutral ('\'' :: p) := fun d z => by
          simp [codeCommas, unquoted, Within.next, hp]
        exact ⟨'\'' :: p ++ q, by simp, hquoted.append hq⟩
      · obtain ⟨p, rfl, hp⟩ := doubleQuoted_within hs
        have hquoted : Neutral ('"' :: p) := fun d z => by
          simp [codeCommas, unquoted, Within.next, hp]
        exact ⟨'"' :: p, rfl, hquoted⟩
      · obtain ⟨p, rfl, hp⟩ := parseList_neutral (t := t) (u := v) (r := r) h
        have hopen : Neutral ['['] := neutral_singleton rfl
        exact ⟨['['] ++ p, rfl, hopen.append hp⟩
      · exact parseNumber_neutral hnumber
      · rw [parseTerm_upper hc] at h
        obtain ⟨-, rfl⟩ := Parsed.ok.inj h
        exact neutral_dropWhile (fun _ => plainChar_of_ident) _
      · obtain ⟨p, hp, hname⟩ := neutral_dropWhile (fun _ => plainChar_of_ident) (c :: v)
        obtain ⟨q, hq, hneutral'⟩ := maybeCompound_neutral hloop hrest
        exact ⟨p ++ q, by rw [List.append_assoc, ← hq]; exact hp, hname.append hneutral'⟩
    · rw [argsLoop] at h
      obtain ⟨t, x, ht, htail⟩ := Parsed.bind_eq_ok.mp h
      obtain ⟨p, rfl, hp⟩ := hterm _ _ _ ht
      exact argsTail_separates hloop htail hp

/-- The arguments of a compound and the commas outside quotes and inner parentheses. -/
theorem codeCommas_args {n : Nat} {u : Text} {ts : List (Transpile.Term φ)}
    (h : parseArgs (argsLoop F n) u = .ok ts []) : codeCommas 0 u = ts.length - 1 := by
  obtain ⟨p, rfl, hp⟩ := parseArgs_separates (parse_neutral n).2 h
  have hcount := hp 0 []
  simpa [codeCommas, unquoted, topCommas] using hcount

end Reading

/-! ### Characters and bytes -/

/-- A character of several bytes is nothing to look at: it ends an escape at most. -/
def Transpile.Within.other : Within → Within
  | .atomEscape => .atom
  | .stringEscape => .string
  | w => w

theorem ne_of_other {c : Char} (h : ¬ c.toNat < 128) {d : Char} (hd : d.toNat < 128) : c ≠ d := by
  rintro rfl
  exact h hd

theorem within_other {c : Char} (h : ¬ c.toNat < 128) (w : Within) : w.next c = w.other := by
  cases w <;> simp [Within.next, Within.other, ne_of_other h (d := '\'') (by decide),
    ne_of_other h (d := '"') (by decide), ne_of_other h (d := '\\') (by decide)]

theorem topCommas_other {c : Char} (h : ¬ c.toNat < 128) (d : Nat) (u : Text) :
    topCommas d (c :: u) = topCommas d u := by
  simp [topCommas, ne_of_other h (d := '(') (by decide), ne_of_other h (d := ')') (by decide),
    ne_of_other h (d := ',') (by decide)]

theorem topCommas_congr {x y : Text} (h : ∀ d, topCommas d x = topCommas d y) (c : Char) (d : Nat) :
    topCommas d (c :: x) = topCommas d (c :: y) := by
  simp only [topCommas, h]

theorem unquoted_other {c : Char} (h : ¬ c.toNat < 128) (w : Within) (d : Nat) (u : Text) :
    topCommas d (unquoted w (c :: u)) = topCommas d (unquoted w.other u) := by
  rw [unquoted, within_other h]
  split
  · exact topCommas_other h d _
  · rfl

theorem unquoted_others {p : Text} (h : ∀ c ∈ p, ¬ c.toNat < 128) {w : Within} (hw : w.other = w)
    (d : Nat) (u : Text) : topCommas d (unquoted w (p ++ u)) = topCommas d (unquoted w u) := by
  induction p with
  | nil => rfl
  | cons c p ih =>
    rw [List.cons_append, unquoted_other (h c (by simp)), hw, ih fun e he => h e (by simp [he])]

theorem unquoted_asBytes (w : Within) (d : Nat) (u : Text) :
    topCommas d (unquoted w (Text.asBytes u)) = topCommas d (unquoted w u) := by
  induction u generalizing w d with
  | nil => rfl
  | cons c u ih =>
    by_cases hc : c.toNat < 128
    · rw [Text.asBytes_cons hc, unquoted, unquoted]
      split
      · exact topCommas_congr (ih (w.next c)) c d
      · exact ih (w.next c) d
    · obtain ⟨b, p, hbp, hbytes⟩ := Text.utf8_other hc
      have happend : Text.asBytes (c :: u) = b :: (p ++ Text.asBytes u) := by
        rw [Text.asBytes, List.flatMap_cons, hbp]
        rfl
      have hw : w.other.other = w.other := by cases w <;> rfl
      rw [happend, unquoted_other (hbytes b (by simp)),
        unquoted_others (fun e he => hbytes e (by simp [he])) hw, ih, unquoted_other hc]

/-! ### The functor and the arity of a goal -/

/-- What stands before the first parenthesis of the goal, and what stands behind it. -/
def goalName (goal : Text) : Text := (Text.trim goal).takeWhile (· != '(')

def goalArgs (goal : Text) : Text := ((Text.trim goal).dropWhile (· != '(')).tail

/-- The name is written without quotes, with nothing between it and the parenthesis. -/
def PlainName (goal : Text) : Prop :=
  ∀ c ∈ goalName goal, c ≠ '\'' ∧ Text.isAsciiWhitespace c = false

/-- Quoted atoms and strings make no difference to the commas outside parentheses. -/
def PlainCommas (goal : Text) : Prop :=
  topCommas 0 (unquoted .code (goalArgs goal)) = topCommas 0 (goalArgs goal)

theorem goal_split (goal : Text) :
    (Text.trim goal = goalName goal ∧ '(' ∉ Text.trim goal ∧ goalArgs goal = []) ∨
      Text.trim goal = goalName goal ++ '(' :: goalArgs goal := by
  have hspan := List.takeWhile_append_dropWhile (p := (· != '(')) (l := Text.trim goal)
  cases hdrop : (Text.trim goal).dropWhile (· != '(') with
  | nil =>
    left
    rw [hdrop, List.append_nil] at hspan
    refine ⟨hspan.symm, fun hmem => ?_, by rw [goalArgs, hdrop]; rfl⟩
    rw [← hspan] at hmem
    exact absurd (List.mem_takeWhile_imp hmem) (by simp)
  | cons c x =>
    right
    have hc := List.head?_dropWhile_not (· != '(') (Text.trim goal)
    rw [hdrop] at hc
    obtain rfl : c = '(' := by simpa using hc
    rw [goalArgs, hdrop, List.tail_cons, goalName]
    exact hdrop ▸ hspan.symm

theorem goalName_no_paren (goal : Text) : '(' ∉ goalName goal :=
  fun h => absurd (List.mem_takeWhile_imp h) (by simp)

theorem extractFunctor_eq (goal : String) (name : Text) :
    extractFunctorFromGoal goal = String.ofList name ↔ goalName goal.toList = name := by
  rw [extractFunctorFromGoal, String.ofList_inj]
  rfl

theorem topCommas_close {q : Text} (hq : ∀ c ∈ q, c = ')') (d : Nat) (u : Text) :
    topCommas d (u ++ q) = topCommas d u := by
  induction u generalizing d with
  | nil =>
    induction q generalizing d with
    | nil => rfl
    | cons c q ih =>
      have hc : c = ')' := hq c (by simp)
      simp only [List.nil_append] at ih ⊢
      simp [topCommas, hc, ih fun e he => hq e (by simp [he])]
  | cons c u ih => exact topCommas_congr ih c d

theorem goal_inner (x : Text) : ∃ q, (∀ c ∈ q, c = ')') ∧
    x = (x.reverse.dropWhile (· == ')')).reverse ++ q := by
  refine ⟨(x.reverse.takeWhile (· == ')')).reverse, fun c hc => ?_, ?_⟩
  · simpa using List.mem_takeWhile_imp (List.mem_reverse.mp hc)
  · rw [← List.reverse_append, List.takeWhile_append_dropWhile, List.reverse_reverse]

/-- What the arity is read off: the arguments without the parentheses at the end. -/
def goalInner (goal : Text) : Text := ((goalArgs goal).reverse.dropWhile (· == ')')).reverse

theorem extractArity_eq (goal : String) : extractArityFromGoal goal =
    if '(' ∈ Text.trim goal.toList then
      if Text.trim (goalInner goal.toList) = [] then 0
      else topCommas 0 (goalInner goal.toList) + 1
    else 0 := by
  unfold extractArityFromGoal
  cases hdrop : (Text.trim goal.toList).dropWhile (· != '(') with
  | nil =>
    have hno : '(' ∉ Text.trim goal.toList := by
      intro hmem
      exact absurd (List.dropWhile_eq_nil_iff.mp hdrop '(' hmem) (by decide)
    rw [if_neg hno]
  | cons c x =>
    have hmem : '(' ∈ Text.trim goal.toList := by
      have hc := List.head?_dropWhile_not (· != '(') (Text.trim goal.toList)
      rw [hdrop] at hc
      obtain rfl : c = '(' := by simpa using hc
      exact (List.dropWhile_suffix _).subset (hdrop ▸ List.mem_cons_self)
    have hargs : goalArgs goal.toList = x := by rw [goalArgs, hdrop, List.tail_cons]
    rw [if_pos hmem, goalInner, hargs]
    simp only [List.isEmpty_iff]

theorem topCommas_inner (goal : Text) :
    topCommas 0 (goalInner goal) = topCommas 0 (goalArgs goal) := by
  obtain ⟨q, hq, hsplit⟩ := goal_inner (goalArgs goal)
  conv_rhs => rw [hsplit]
  rw [topCommas_close hq, goalInner]

/-- A character that is neither blank nor a parenthesis is an argument's. -/
theorem inner_ne_nil {goal : Text} {c : Char} (hc : c ∈ goalArgs goal)
    (hspace : Text.isWhitespace c = false) (hclose : c ≠ ')') :
    Text.trim (goalInner goal) ≠ [] := by
  obtain ⟨q, hq, hsplit⟩ := goal_inner (goalArgs goal)
  intro hnil
  rw [hsplit] at hc
  rcases List.mem_append.mp hc with hc | hc
  · rw [Text.trim_eq_nil.mp hnil c hc] at hspace
    cases hspace
  · exact hclose (hq c hc)

section Goals
variable {φ : Type} {F : FloatText φ}

/-- A quoted text has fewer quotes than what it is read from, and the same parentheses. -/
theorem quotedAtom_quotes {u s r : Text} (h : quotedAtom u = .ok s r) : ∃ p, u = p ++ r ∧
    s.count '\'' + 1 ≤ p.count '\'' ∧ ('(' ∈ p → '(' ∈ s) := by
  fun_induction quotedAtom u generalizing s with
  | case1 => cases h
  | case2 u ih =>
    obtain ⟨s', hs, rfl⟩ := Parsed.map_eq_ok.mp h
    obtain ⟨p, rfl, hcount, hparen⟩ := ih hs
    exact ⟨'\'' :: '\'' :: p, rfl, by simp; omega, by simpa using hparen⟩
  | case3 u hu =>
    obtain ⟨rfl, rfl⟩ := Parsed.ok.inj h
    exact ⟨['\''], rfl, by simp, by simp⟩
  | case4 => cases h
  | case5 d u hq ih =>
    obtain ⟨s', hs, rfl⟩ := Parsed.map_eq_ok.mp h
    obtain ⟨p, rfl, hcount, hparen⟩ := ih hs
    have hescape : (quotedEscape d).count '\'' ≤ [d].count '\'' ∧
        ('(' = d → '(' ∈ quotedEscape d) := by
      unfold quotedEscape
      split
      · next hd => subst hd; decide
      split
      · next hd => subst hd; decide
      split
      · next hd => exact ⟨Nat.le_refl _, by simp⟩
      · exact ⟨by simp [List.count_cons], by simp⟩
    refine ⟨'\\' :: d :: p, rfl, ?_, ?_⟩
    · have hd : ('\\' :: d :: p).count '\'' = [d].count '\'' + p.count '\'' := by
        simp [List.count_cons, Nat.add_comm]
      rw [List.count_append, hd]
      omega
    · simp only [List.mem_cons, List.mem_append]
      rintro (hback | hd | hp)
      · cases hback
      · exact .inl (hescape.2 hd)
      · exact .inr (hparen hp)
  | case6 c u hq hb ih =>
    obtain ⟨s', hs, rfl⟩ := Parsed.map_eq_ok.mp h
    obtain ⟨p, rfl, hcount, hparen⟩ := ih hs
    refine ⟨c :: p, rfl, ?_, ?_⟩
    · simp only [List.count_cons]
      omega
    · simp only [List.mem_cons]
      exact Or.imp_right hparen

/-- The functor and the arity of the goal are those of the term. -/
def GoalAgrees (goal : String) (t : Transpile.Term φ) : Prop :=
  extractFunctorFromGoal goal = String.ofList (termFunctorName t) ∧
    extractArityFromGoal goal = (arguments t).length

/-- The white space behind a name keeps the functor from being read, and nothing else does. -/
theorem name_agrees {goal name ws : Text} (hname : ∀ c ∈ name, isIdent c)
    (hws : ∀ c ∈ ws, Text.isAsciiWhitespace c)
    (hbytes : Text.asBytes (goalName goal) = name ++ ws) :
    goalName goal = name ↔ PlainName goal := by
  have hascii : Text.IsAscii name := fun c hc => ident_ascii (hname c hc)
  constructor
  · intro h c hc
    rw [h] at hc
    refine ⟨?_, ?_⟩
    · rintro rfl
      exact absurd (hname _ hc) (by decide)
    · by_contra hspace
      have := space_of_ascii (by simpa using hspace)
      rw [ident_not_space (hname c hc)] at this
      cases this
  · intro h
    -- a blank of the bytes is one of the name
    have hnil : ws = [] := by
      cases ws with
      | nil => rfl
      | cons c ws =>
        have hc := hws c (by simp)
        have hmem : c ∈ goalName goal := by
          refine (Text.mem_asBytes (ascii_of_ws hc)).mp ?_
          rw [hbytes]
          simp
        rw [(h c hmem).2] at hc
        cases hc
    rw [hnil, List.append_nil, ← Text.asBytes_ascii hascii] at hbytes
    exact Text.asBytes_inj.mp hbytes

/-- A quoted functor is read with its quotes. -/
theorem quoted_disagrees {goal s v w : Text}
    (hv : Text.asBytes (Text.trim goal) = '\'' :: v) (hs : quotedAtom v = .ok s w) :
    goalName goal ≠ s ∧ ¬ PlainName goal := by
  obtain ⟨p, rfl, hcount, hparen⟩ := quotedAtom_quotes hs
  -- the bytes of what is read as the functor
  have hsplit : ∃ z, Text.asBytes (Text.trim goal) = Text.asBytes (goalName goal) ++ z ∧
      (z = [] ∨ ∃ y, z = '(' :: y) := by
    rcases goal_split goal with ⟨h, -, -⟩ | h
    · exact ⟨[], by rw [← h, List.append_nil], .inl rfl⟩
    · refine ⟨'(' :: Text.asBytes (goalArgs goal), ?_, .inr ⟨_, rfl⟩⟩
      conv_lhs => rw [h]
      rw [Text.asBytes_append, Text.asBytes_cons (by decide)]
  obtain ⟨z, hz, hzhead⟩ := hsplit
  have hno : '(' ∉ Text.asBytes (goalName goal) := fun h =>
    goalName_no_paren goal ((Text.mem_asBytes (by decide)).mp h)
  rw [hv] at hz
  refine ⟨fun hsame => ?_, fun hplain => ?_⟩
  · have hps : '(' ∉ p := fun h => goalName_no_paren goal (hsame ▸ hparen h)
    -- the quoted text is part of it, with more quotes than the functor has
    have hprefix : ('\'' :: p) <+: Text.asBytes (goalName goal) := by
      rcases List.append_eq_append_iff.mp (show '\'' :: p ++ w = _ from hz) with
        ⟨x, hx, -⟩ | ⟨x, hx, hx'⟩
      · exact ⟨x, hx.symm⟩
      · cases x with
        | nil => exact ⟨[], by simpa using hx⟩
        | cons c x =>
          rcases hzhead with rfl | ⟨y, rfl⟩
          · simp at hx'
          · obtain ⟨rfl, -⟩ := List.cons.inj hx'
            have hmem : '(' ∈ '\'' :: p := by
              rw [hx]
              simp
            exact absurd ((List.mem_cons.mp hmem).resolve_left (by decide)) hps
    have hle := hprefix.sublist.count_le '\''
    have hbytes := Text.countP_asBytes (p := (· == '\''))
      (fun c hc => by simp only [beq_iff_eq] at hc; subst hc; decide) (goalName goal)
    change (Text.asBytes (goalName goal)).count '\'' = (goalName goal).count '\'' at hbytes
    rw [hbytes, hsame, List.count_cons] at hle
    simp only [beq_self_eq_true, if_true] at hle
    omega
  · -- the first character is the quote
    have hmem : '\'' ∈ Text.asBytes (goalName goal) := by
      cases hname : Text.asBytes (goalName goal) with
      | nil =>
        rw [hname, List.nil_append] at hz
        rcases hzhead with rfl | ⟨y, rfl⟩
        · cases hz
        · exact absurd (List.cons.inj hz).1 (by decide)
      | cons c x =>
        rw [hname] at hz
        rw [(List.cons.inj hz).1]
        simp
    exact (hplain _ ((Text.mem_asBytes (by decide)).mp hmem)).1 rfl

/-- A term begins with a character of its own. -/
theorem parseTerm_begin {n : Nat} {u r : Text} {t : Transpile.Term φ}
    (h : parseTerm F n u = .ok t r) : ∃ c v, skipWs u = c :: v ∧ c.toNat < 128 ∧
      Text.isWhitespace c = false ∧ c ≠ ')' := by
  cases n with
  | zero => cases h
  | succ n =>
    obtain ⟨c, v, hcv, hcases⟩ := parseTerm_cases h
    refine ⟨c, v, hcv, ?_⟩
    have hident : isIdent c → c.toNat < 128 ∧ Text.isWhitespace c = false ∧ c ≠ ')' := by
      intro hc
      refine ⟨ident_ascii hc, ident_not_space hc, ?_⟩
      rintro rfl
      exact absurd hc (by decide)
    rcases hcases with ⟨rfl, -⟩ | ⟨rfl, -⟩ | ⟨rfl, -⟩ | ⟨rfl | hc, -⟩ | ⟨hc | rfl, -⟩ | ⟨hc, -⟩
    · decide
    · decide
    · decide
    · decide
    · exact hident (isIdent_iff.mpr (.inr (.inr (.inl hc))))
    · exact hident (isIdent_iff.mpr (.inl hc))
    · decide
    · exact hident (isIdent_iff.mpr (.inr (.inl hc)))

theorem topCommas_eq_zero {u : Text} (h : ',' ∉ u) (d : Nat) : topCommas d u = 0 := by
  induction u generalizing d with
  | nil => rfl
  | cons c u ih =>
    have hc : c ≠ ',' := fun he => h (by rw [he]; simp)
    have hu : ',' ∉ u := fun hu => h (by simp [hu])
    simp [topCommas, hc, ih hu]

/-- Without a parenthesis only the name counts. -/
theorem agrees_of_no_paren {goal : String} {t : Transpile.Term φ} (hargs : arguments t = [])
    (hno : '(' ∉ Text.trim goal.toList)
    (hname : goalName goal.toList = termFunctorName t ↔ PlainName goal.toList) :
    GoalAgrees goal t ↔ PlainName goal.toList ∧ PlainCommas goal.toList := by
  have hnil : goalArgs goal.toList = [] := by
    rcases goal_split goal.toList with ⟨-, -, h⟩ | h
    · exact h
    · rw [h] at hno
      simp at hno
  have hcommas : PlainCommas goal.toList := by
    rw [PlainCommas, hnil]
    rfl
  rw [GoalAgrees, extractFunctor_eq, extractArity_eq, if_neg hno, hargs, hname]
  simp [hcommas]

/-- The commas of the arguments are their number, if quotes make no difference to them. -/
theorem arity_agrees {goal : String} {n : Nat} {args : List (Transpile.Term φ)}
    (hparen : '(' ∈ Text.trim goal.toList)
    (hread : parseArgs (argsLoop F n) (Text.asBytes (goalArgs goal.toList)) = .ok args []) :
    extractArityFromGoal goal = args.length ↔ PlainCommas goal.toList := by
  have hcode : topCommas 0 (unquoted .code (goalArgs goal.toList)) = args.length - 1 := by
    rw [← unquoted_asBytes]
    exact codeCommas_args hread
  rw [extractArity_eq, if_pos hparen, topCommas_inner, PlainCommas, hcode]
  unfold parseArgs at hread
  split at hread
  · next v hv =>
    obtain ⟨rfl, rfl⟩ := Parsed.ok.inj hread
    -- nothing but blanks between the parentheses
    obtain ⟨ws, hbytes, hspace⟩ := skipWs_split (Text.asBytes (goalArgs goal.toList))
    rw [hv] at hbytes
    have hascii : Text.IsAscii (ws ++ [')']) := by
      intro c hc
      rcases List.mem_append.mp hc with hc | hc
      · exact ascii_of_ws (hspace c hc)
      · rw [List.mem_singleton.mp hc]
        decide
    have hargs : goalArgs goal.toList = ws ++ [')'] := by
      rw [← Text.asBytes_inj, hbytes, Text.asBytes_ascii hascii]
    have hinner : Text.trim (goalInner goal.toList) = [] := by
      refine Text.trim_eq_nil.mpr fun c hc => ?_
      rw [goalInner, hargs, List.reverse_append, List.reverse_singleton, List.singleton_append,
        List.dropWhile_cons, if_pos (by simp), List.mem_reverse] at hc
      have hmem := (List.dropWhile_suffix _).subset hc
      exact space_of_ascii (hspace c (List.mem_reverse.mp hmem))
    have hcomma : ',' ∉ goalArgs goal.toList := by
      rw [hargs]
      intro hmem
      rcases List.mem_append.mp hmem with hmem | hmem
      · exact absurd (hspace _ hmem) (by decide)
      · exact absurd (List.mem_singleton.mp hmem) (by decide)
    simp [hinner, topCommas_eq_zero hcomma]
  · next hnot =>
    obtain ⟨hne, -⟩ := (parse_neutral n).2 _ _ _ hread
    have hpos := List.length_pos_of_ne_nil hne
    cases n with
    | zero => cases hread
    | succ n =>
      rw [argsLoop] at hread
      obtain ⟨t, x, ht, -⟩ := Parsed.bind_eq_ok.mp hread
      obtain ⟨c, v, hcv, hascii, hspace, hclose⟩ := parseTerm_begin ht
      rw [skipWs_skipWs] at hcv
      have hmem : c ∈ Text.asBytes (goalArgs goal.toList) :=
        (List.dropWhile_suffix _).subset (show c ∈ skipWs _ by rw [hcv]; simp)
      rw [if_neg (inner_ne_nil ((Text.mem_asBytes hascii).mp hmem) hspace hclose)]
      omega

/-- The empty list may have blanks between its brackets. -/
theorem empty_list_agrees {goal : String} {v : Text}
    (hv : Text.asBytes (Text.trim goal.toList) = '[' :: v)
    (hread : parseList v = .ok (.atom "[]".toList : Transpile.Term φ) []) :
    GoalAgrees goal (.atom "[]".toList : Transpile.Term φ) ↔
      PlainName goal.toList ∧ PlainCommas goal.toList := by
  unfold parseList at hread
  split at hread
  · next y hy =>
    obtain ⟨-, rfl⟩ := Parsed.ok.inj hread
    obtain ⟨ws, hws, hspace⟩ := skipWs_split v
    have hbytes : Text.asBytes (Text.trim goal.toList) = '[' :: (ws ++ [']']) := by
      rw [hv, hws, hy]
    have hno : '(' ∉ Text.trim goal.toList := by
      rw [← Text.mem_asBytes (by decide), hbytes]
      intro hmem
      rcases List.mem_cons.mp hmem with h | hmem
      · cases h
      rcases List.mem_append.mp hmem with hmem | hmem
      · exact absurd (hspace _ hmem) (by decide)
      · exact absurd (List.mem_singleton.mp hmem) (by decide)
    refine agrees_of_no_paren rfl hno ?_
    have hname : goalName goal.toList = Text.trim goal.toList := by
      rcases goal_split goal.toList with ⟨h, -⟩ | h
      · exact h.symm
      · rw [h] at hno
        simp at hno
    rw [PlainName, hname]
    constructor
    · intro h
      rw [h]
      intro c hc
      obtain rfl | rfl : c = '[' ∨ c = ']' := by simpa [termFunctorName] using hc
      · decide
      · decide
    · intro h
      have hnil : ws = [] := by
        cases ws with
        | nil => rfl
        | cons c ws =>
          have hc := hspace c (by simp)
          have hmem : c ∈ Text.trim goal.toList := by
            rw [← Text.mem_asBytes (ascii_of_ws hc), hbytes]
            simp
          rw [(h c hmem).2] at hc
          cases hc
      rw [← Text.asBytes_inj, hbytes, hnil]
      rfl
  · cases hread

/-- A goal that begins with a name. -/
theorem named_agrees {goal : String} {n : Nat} {t : Transpile.Term φ}
    (hrest : maybeCompound (argsLoop F n)
      ((Text.asBytes (Text.trim goal.toList)).takeWhile isIdent)
      ((Text.asBytes (Text.trim goal.toList)).dropWhile isIdent) = .ok t []) :
    GoalAgrees goal t ↔ PlainName goal.toList ∧ PlainCommas goal.toList := by
  obtain ⟨name, rest, hbytes, hident, hread⟩ : ∃ name rest,
      Text.asBytes (Text.trim goal.toList) = name ++ rest ∧ (∀ c ∈ name, isIdent c) ∧
        maybeCompound (argsLoop F n) name rest = .ok t [] :=
    ⟨_, _, (List.takeWhile_append_dropWhile).symm, fun _ hc => List.mem_takeWhile_imp hc, hrest⟩
  obtain ⟨ws, hws, hspace⟩ := skipWs_split rest
  have hno : '(' ∉ name ++ ws := by
    intro hmem
    rcases List.mem_append.mp hmem with hmem | hmem
    · exact absurd (hident _ hmem) (by decide)
    · exact absurd (hspace _ hmem) (by decide)
  rcases maybeCompound_cases hread with ⟨rfl, hnil⟩ | ⟨w, args, hw, hargs, rfl⟩
  · rw [hws, ← hnil, List.append_nil] at hbytes
    have hnoGoal : '(' ∉ Text.trim goal.toList := by
      rw [← Text.mem_asBytes (by decide), hbytes]
      exact hno
    refine agrees_of_no_paren rfl hnoGoal (name_agrees hident hspace ?_)
    rcases goal_split goal.toList with ⟨h, -⟩ | h
    · rw [← h, hbytes]
      rfl
    · rw [h] at hnoGoal
      simp at hnoGoal
  · rw [hws, hw, ← List.append_assoc] at hbytes
    have hparen : '(' ∈ Text.trim goal.toList := by
      rw [← Text.mem_asBytes (by decide), hbytes]
      simp
    have hsplit : Text.trim goal.toList = goalName goal.toList ++ '(' :: goalArgs goal.toList := by
      rcases goal_split goal.toList with ⟨-, h, -⟩ | h
      · exact absurd hparen h
      · exact h
    rw [hsplit, Text.asBytes_append, Text.asBytes_cons (by decide)] at hbytes
    have hnoName : '(' ∉ Text.asBytes (goalName goal.toList) := fun h =>
      goalName_no_paren _ ((Text.mem_asBytes (by decide)).mp h)
    obtain ⟨hname, hbehind⟩ := Text.append_cons_inj hnoName hno hbytes
    rw [GoalAgrees, extractFunctor_eq]
    exact and_congr (name_agrees hident hspace hname) (arity_agrees hparen (hbehind ▸ hargs))

/-- The controller reads the functor and the arity of a goal exactly when the functor stands
without quotes and blanks before the first parenthesis, and quoted commas and parentheses of the
arguments make no difference. -/
theorem goal_agrees_iff (F : FloatText φ) {goal : String} {t : Transpile.Term φ}
    (hread : ReadsWhole F (Text.trim goal.toList) t) (hc : isCallable t) :
    GoalAgrees goal t ↔ PlainName goal.toList ∧ PlainCommas goal.toList := by
  have hskip := skipWs_asBytes (Text.trim_head goal.toList)
  obtain ⟨c, v, hcv, hcases⟩ := parseTerm_cases hread
  rw [hskip] at hcv
  rcases hcases with ⟨rfl, s, w, hs, hrest⟩ | ⟨-, s, -, rfl⟩ | ⟨rfl, rfl⟩ | ⟨-, hnumber⟩ |
    ⟨-, rfl⟩ | ⟨hlower, hrest⟩
  · obtain ⟨hne, hplain⟩ := quoted_disagrees hcv hs
    have hname : termFunctorName t = s := by
      rcases maybeCompound_cases hrest with ⟨rfl, -⟩ | ⟨x, args, -, -, rfl⟩ <;> rfl
    refine iff_of_false (fun h => hne ?_) fun h => hplain h.1
    rw [← hname, ← extractFunctor_eq]
    exact h.1
  · cases hc
  · rw [ReadsWhole, ruleTerm, hcv] at hread
    exact empty_list_agrees hcv hread
  · rcases parseNumber_cases hnumber with ⟨k, rfl⟩ | ⟨⟨f, rfl⟩, -⟩ <;> cases hc
  · cases hc
  · rw [← hcv] at hrest
    exact named_agrees hrest

/-- Nested parentheses and blanks between the arguments do no harm. -/
theorem path_agrees : GoalAgrees "path(f(a,b), X)"
    (.compound "path".toList [.compound ['f'] [.atom ['a'], .atom ['b']], .var ['X']] :
      Transpile.Term Empty) := by
  refine (goal_agrees_iff noFloats ?_ rfl).mpr ⟨?_, ?_⟩
  · unfold ReadsWhole
    decide +kernel
  · have hname : (goalName "path(f(a,b), X)".toList).all (fun c =>
        c != '\'' && !Text.isAsciiWhitespace c) = true := by decide +kernel
    intro c hc
    simpa using List.all_eq_true.mp hname c hc
  · unfold PlainCommas
    decide +kernel

/-- A comma in quotes counts as one between two arguments. -/
theorem quoted_comma_counts : ¬∀ (goal : String) (t : Transpile.Term Empty),
    ReadsWhole noFloats (Text.trim goal.toList) t → isCallable t → GoalAgrees goal t := by
  intro h
  have hread : ReadsWhole noFloats (Text.trim "f('a,b')".toList)
      (.compound ['f'] [.atom "a,b".toList]) := by
    unfold ReadsWhole
    decide +kernel
  have hagrees := (h "f('a,b')" _ hread rfl).2
  have htwo : extractArityFromGoal "f('a,b')" = 2 := by decide +kernel
  rw [htwo] at hagrees
  cases hagrees

end Goals

end Cerebellum
