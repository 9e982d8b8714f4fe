import Cerebellum.QuotedLines

/-! What a Prolog text says: its lexemes, and whether there is layout between two of them. -/
namespace Cerebellum.Prolog
open Template Text Reflow

inductive Sign where
  | gap
  | lexeme (l : Lexeme Char)
  deriving DecidableEq

/-- A lexeme that is not listed otherwise is a block comment or a literal with a quote. -/
def isLayout : Lexeme Char → Bool
  | .code c => isBlank c
  | .comment _ => true
  | .quoted _ _ => false
  | .other raw => raw.head? = some '/'

/-- The literal of a white character is over with it, whatever layout follows. -/
def endsWhite : Lexeme Char → Bool
  | .other raw => raw.getLast?.any isWhitespace
  | .code _ | .comment _ | .quoted _ _ => false

def shown (gap : Bool) (l : Lexeme Char) : List Sign :=
  if isLayout l then [] else if gap then [.gap, .lexeme l] else [.lexeme l]

def signs : Bool → List (Lexeme Char) → List Sign
  | _, [] => []
  | gap, l :: ls => shown gap l ++ signs (isLayout l || endsWhite l) ls

/-- U+0085 is an illegal character, and an escaped line end is no character for a literal. -/
def legal : Lexeme Char → Bool
  | .code c => !isWhitespace c || isBlank c
  | .other ['\'', '\\', c] => !isWhitespace c
  | _ => true

/-- The clauses of a text as they are written: the start and the end count as layout. -/
def denote (t : Text) : Option (List Sign) :=
  (lexis.scan t).bind fun ls => if ls.all legal then some (signs true ls) else none

/-! ### Reading -/

theorem quote_ne {q : Char} (hq : isQuote q) : q ≠ '\\' ∧ q ≠ '%' ∧ q ≠ '/' := by
  refine ⟨?_, ?_, ?_⟩ <;>
    · rintro rfl
      cases hq

/-- The literal whose quote has been read behind `b`. -/
def literal (b t : Text) : Option Text := (radixBefore b).bind fun r => literalTail r t

/-- The first lexeme of `c :: t` behind `b`, and what is left. -/
inductive Next (b : Text) (c : Char) (t : Text) : Lexeme Char → Text → Prop
  | comment : c = '%' → Next b c t (.comment (t.takeWhile (· ≠ '\n'))) (t.dropWhile (· ≠ '\n'))
  | block {last v s} : c = '/' → b.head?.any isSymbol = false → t = '*' :: last :: v →
      blockComment 1 last v = some s → Next b c t (.other ('/' :: '*' :: last :: s)) (v.drop s.length)
  | literal {s} : c = '\'' → literal b t = some s →
      Next b c t (.other ('\'' :: s)) (t.drop s.length)
  | quoted {v u} : isQuote c → (c = '\'' → literal b t = none) → Body c t v u →
      Next b c t (.quoted c v) u
  | code : c ≠ '%' → (c = '/' → t.head? = some '*' → b.head?.any isSymbol = true) →
      isQuote c = false → Next b c t (.code c) t

theorem next_iff {b t u : Text} {c : Char} {l : Lexeme Char} :
    next b (c :: t) = some (l, u) ↔ Next b c t l u := by
  unfold next
  simp only
  by_cases hcomment : c = '%'
  · rw [if_pos hcomment]
    constructor
    · intro h
      cases h
      exact .comment hcomment
    · intro h
      cases h with
      | comment => rfl
      | block hc => simp [hcomment] at hc
      | literal hc => simp [hcomment] at hc
      | quoted hq => exact absurd hcomment (quote_ne hq).2.1
      | code hc => exact absurd hcomment hc
  rw [if_neg hcomment]
  by_cases hblock : c = '/' && t.head? = some '*' && !b.head?.any isSymbol
  · rw [if_pos hblock]
    simp only [Bool.and_eq_true, decide_eq_true_eq, Bool.not_eq_true'] at hblock
    obtain ⟨⟨hc, hstar⟩, hbefore⟩ := hblock
    obtain ⟨t, rfl⟩ := List.head?_eq_some_iff.mp hstar
    constructor
    · intro h
      cases t with
      | nil => cases h
      | cons last v =>
        obtain ⟨s, hs, hp⟩ := Option.map_eq_some_iff.mp h
        cases hp
        rw [hc]
        exact .block rfl hbefore rfl hs
    · intro h
      cases h with
      | comment hc => exact absurd hc hcomment
      | block _ _ ht hs =>
        cases ht
        simp [hs, hc]
      | literal hquote => simp [hc] at hquote
      | quoted hq => exact absurd hc (quote_ne hq).2.2
      | code _ hsymbol =>
        rw [hsymbol hc rfl] at hbefore
        cases hbefore
  rw [if_neg hblock]
  by_cases hquote : isQuote c
  · rw [if_pos hquote]
    have hliteral : (if c = '\'' then (radixBefore b).bind fun r => literalTail r t else none) =
        if c = '\'' then literal b t else none := rfl
    rw [hliteral]
    constructor
    · intro h
      split at h
      · next s hs =>
        cases h
        split_ifs at hs with hc
        subst hc
        exact .literal rfl hs
      · next hs =>
        obtain ⟨⟨v, u⟩, hbody, hp⟩ := Option.map_eq_some_iff.mp h
        cases hp
        refine .quoted hquote (fun hc => ?_) (body_of_quotedBody (quote_ne hquote).1 hbody)
        rw [if_pos hc] at hs
        exact hs
    · intro h
      cases h with
      | comment hc => exact absurd hc hcomment
      | block hc => exact absurd hc (quote_ne hquote).2.2
      | literal hc hs => simp [hc, hs]
      | quoted _ hs hbody =>
        have hnone : (if c = '\'' then literal b t else none) = none := by
          split
          · exact hs ‹_›
          · rfl
        rw [hnone]
        simp [quotedBody_of_body (quote_ne hquote).1 le_rfl hbody]
      | code _ _ hq =>
        rw [hquote] at hq
        cases hq
  rw [if_neg hquote]
  constructor
  · intro h
    cases h
    refine .code hcomment (fun hc hstar => ?_) (by simpa using hquote)
    by_contra hbefore
    exact hblock (by simp [hc, hstar, hbefore])
  · intro h
    cases h with
    | comment hc => exact absurd hc hcomment
    | block hc hbefore ht =>
      subst ht
      exact absurd (by simp [hc, hbefore]) hblock
    | literal hc =>
      subst hc
      exact absurd rfl hquote
    | quoted hq => exact absurd hq hquote
    | code => rfl

theorem Next.shrinks {b t u : Text} {c : Char} {l : Lexeme Char} (h : Next b c t l u) :
    u.length ≤ t.length := by
  cases h with
  | comment => exact (List.dropWhile_sublist _).length_le
  | block _ _ ht =>
    subst ht
    simp only [List.length_drop, List.length_cons]
    omega
  | literal => simp
  | quoted hq _ hbody =>
    have hslash := (quote_ne hq).1
    have := (quotedBody_length hslash (quotedBody_of_body hslash le_rfl hbody)).1
    omega
  | code => exact le_rfl

/-- The lexemes of a text, read behind another one. -/
inductive Scans : Text → Text → List (Lexeme Char) → Prop
  | nil {b} : Scans b [] []
  | cons {b c t l u ls} : Next b c t l u → Scans (l.after b) u ls →
      Scans b (c :: t) (l :: ls)

theorem read_iff {n : Nat} {b t : Text} {ls : List (Lexeme Char)} (hn : t.length ≤ n) :
    lexis.read n b t = some ls ↔ Scans b t ls := by
  induction n generalizing b t ls with
  | zero =>
    obtain rfl : t = [] := List.eq_nil_of_length_eq_zero (by omega)
    constructor
    · intro h
      cases h
      exact .nil
    · intro h
      cases h
      rfl
  | succ n ih =>
    cases t with
    | nil =>
      constructor
      · intro h
        cases h
        exact .nil
      · intro h
        cases h
        rfl
    | cons c t =>
      rw [List.length_cons] at hn
      rw [Lexis.read]
      constructor
      · intro h
        split at h
        · next l u hnext =>
          obtain ⟨ls, hread, rfl⟩ := Option.map_eq_some_iff.mp h
          have hlen := (next_iff.mp hnext).shrinks
          exact .cons (next_iff.mp hnext) ((ih (by omega)).mp hread)
        · cases h
      · intro h
        cases h with
        | @cons _ _ _ l u ls hnext hrest =>
          have hlen := hnext.shrinks
          have hread := (ih (by omega)).mpr hrest
          have hlexis : lexis.next b (c :: t) = some (l, u) := next_iff.mpr hnext
          rw [hlexis]
          simp only [hread, Option.map_some]

theorem denote_eq_some {t : Text} {d : List Sign} : denote t = some d ↔
    ∃ ls, Scans [] t ls ∧ (∀ l ∈ ls, legal l) ∧ signs true ls = d := by
  unfold denote Lexis.scan
  constructor
  · intro h
    obtain ⟨ls, hread, hd⟩ := Option.bind_eq_some_iff.mp h
    split_ifs at hd with hlegal
    exact ⟨ls, (read_iff le_rfl).mp hread, List.all_eq_true.mp hlegal, Option.some.inj hd⟩
  · rintro ⟨ls, hscans, hlegal, rfl⟩
    rw [(read_iff le_rfl).mpr hscans, Option.bind_some, if_pos (List.all_eq_true.mpr hlegal)]

/-- One more lexeme is read. -/
def Advances (s s' : Text × Text) : Prop := ∃ l, next s.1 s.2 = some (l, s'.2) ∧ s'.1 = l.after s.1

/-- The character of a literal is not white space at the end of a line that becomes another one,
or at the end of the text. -/
def KeepsCharacter (t : Text) : Prop := t.dropWhile isWhitespace ≠ [] ∧
  ('\n' ∈ t.takeWhile isWhitespace → t.head? = some '\n')

/-- What a lexeme behind its first character keeps of its white space. -/
def Keeps (c : Char) (t : Text) : Lexeme Char → Prop
  | .quoted _ _ => KeepsRuns c [] t
  | .other raw => raw.head? = some '\'' → KeepsCharacter t
  | .code _ | .comment _ => True

/-- All that is quoted in a text, and its literals, keep their white space. -/
def Steady (b t : Text) : Prop :=
  ∀ b' c t' l u, Relation.ReflTransGen Advances (b, t) (b', c :: t') →
    next b' (c :: t') = some (l, u) → Keeps c t' l

theorem Steady.nil {b : Text} : Steady b [] := by
  intro b' c t' l u hreach _
  rcases hreach.cases_head with heq | ⟨⟨b'', u'⟩, ⟨l, hnext, -⟩, -⟩
  · cases heq
  · cases hnext

theorem steady_cons {b t u : Text} {c : Char} {l : Lexeme Char} (h : Next b c t l u) :
    Steady b (c :: t) ↔ Keeps c t l ∧ Steady (l.after b) u := by
  have hnext := next_iff.mpr h
  constructor
  · intro hsteady
    refine ⟨hsteady b c t l u .refl hnext, fun b' c' t' l' u' hreach hl => ?_⟩
    exact hsteady b' c' t' l' u' (.head ⟨l, hnext, rfl⟩ hreach) hl
  · rintro ⟨hkeeps, hsteady⟩ b' c' t' l' u' hreach hl
    rcases hreach.cases_head with heq | ⟨⟨b'', u''⟩, ⟨l'', hfirst, hb⟩, hreach⟩
    · cases heq
      rw [hnext] at hl
      cases hl
      exact hkeeps
    · rw [hnext] at hfirst
      cases hfirst
      dsimp only at hb
      subst hb
      exact hsteady b' c' t' l' u' hreach hl

/-! ### What stands before -/

/-- What a reader sees of the text before. -/
def SameBefore (b b' : Text) : Prop := b.takeWhile isIdCont = b'.takeWhile isIdCont ∧
  b.head?.any isSymbol = b'.head?.any isSymbol

theorem SameBefore.cons {b b' : Text} (h : SameBefore b b') (c : Char) :
    SameBefore (c :: b) (c :: b') := by
  refine ⟨?_, rfl⟩
  rw [List.takeWhile_cons, List.takeWhile_cons, h.1]

theorem SameBefore.append {b b' : Text} (h : SameBefore b b') (s : Text) :
    SameBefore (s ++ b) (s ++ b') := by
  induction s with
  | nil => exact h
  | cons c s ih => exact ih.cons c

theorem white_apart {c : Char} (h : isWhitespace c) : isIdCont c = false ∧ isSymbol c = false := by
  constructor
  · by_contra hno
    have hid : isIdCont c = true := by simpa using hno
    simp only [isIdCont, Char.isAlphanum, Char.isAlpha, Bool.or_eq_true, beq_iff_eq] at hid
    have hdark : isWhitespace c = false := by
      rcases hid with ((hid | hid) | hid) | rfl
      · exact alphanum_dark (.inr (.inr hid))
      · exact alphanum_dark (.inr (.inl hid))
      · exact alphanum_dark (.inl hid)
      · rfl
    rw [h] at hdark
    cases hdark
  · cases hsymbol : isSymbol c with
    | false => rfl
    | true =>
      simp only [isSymbol, List.contains_iff_mem] at hsymbol
      simp only [String.reduceToList, List.mem_cons, List.not_mem_nil,
        or_false] at hsymbol
      rcases hsymbol with rfl | rfl | rfl | rfl | rfl | rfl | rfl | rfl | rfl | rfl | rfl | rfl |
        rfl | rfl | rfl | rfl | rfl <;> cases h

/-- White space hides what stands before it. -/
theorem SameBefore.white {w w' b b' : Text} (hw : ∀ c ∈ w, isWhitespace c)
    (hw' : ∀ c ∈ w', isWhitespace c) (hne : w ≠ []) (hne' : w' ≠ []) :
    SameBefore (w ++ b) (w' ++ b') := by
  have hstop : ∀ w b : Text, (∀ c ∈ w, isWhitespace c) → w ≠ [] →
      (w ++ b).takeWhile isIdCont = [] ∧ (w ++ b).head?.any isSymbol = false := by
    intro w b hw hne
    cases w with
    | nil => exact absurd rfl hne
    | cons c w =>
      obtain ⟨hid, hsymbol⟩ := white_apart (hw c (by simp))
      simp [hid, hsymbol]
  rw [SameBefore, (hstop w b hw hne).1, (hstop w b hw hne).2, (hstop w' b' hw' hne').1,
    (hstop w' b' hw' hne').2]
  exact ⟨rfl, rfl⟩

theorem SameBefore.white_nil {w b : Text} (hw : ∀ c ∈ w, isWhitespace c) (hne : w ≠ []) :
    SameBefore (w ++ b) [] := by
  cases w with
  | nil => exact absurd rfl hne
  | cons c w =>
    obtain ⟨hid, hsymbol⟩ := white_apart (hw c (by simp))
    simp [SameBefore, hid, hsymbol]

theorem head_takeWhile (p : Char → Bool) (t : Text) :
    (t.takeWhile p).head?.any p = t.head?.any p := by
  cases t with
  | nil => rfl
  | cons c t => by_cases hc : p c <;> simp [hc]

theorem radixBefore_eq (b : Text) : radixBefore b = radixBefore (b.takeWhile isIdCont) := by
  have hdigit : ∀ {c : Char}, isIdCont c = false → c.isDigit = false := by
    intro c hc
    by_contra hno
    simp [isIdCont, Char.isAlphanum, hno] at hc
  rcases b with _ | ⟨c, _ | ⟨c', b⟩⟩
  · rfl
  · by_cases hc : isIdCont c
    · rw [List.takeWhile_cons_of_pos hc]
      rfl
    · rw [List.takeWhile_cons_of_neg hc]
      simp [radixBefore, hdigit (by simpa using hc)]
  · by_cases hc : isIdCont c
    · rw [List.takeWhile_cons_of_pos hc]
      by_cases hc' : isIdCont c'
      · rw [List.takeWhile_cons_of_pos hc']
        have hhead := head_takeWhile isIdCont b
        unfold radixBefore
        by_cases hd : c.isDigit
        · by_cases hd' : c'.isDigit
          · simp [hd, hd', hhead]
          · simp [hd, hd', hc']
        · simp [hd]
      · have hd' := hdigit (by simpa using hc' : isIdCont c' = false)
        rw [List.takeWhile_cons_of_neg hc']
        unfold radixBefore
        by_cases hd : c.isDigit
        · simp [hd, hd', hc']
        · simp [hd]
    · have hd := hdigit (by simpa using hc : isIdCont c = false)
      rw [List.takeWhile_cons_of_neg hc]
      simp [radixBefore, hd]

theorem SameBefore.literal_eq {b b' : Text} (h : SameBefore b b') (t : Text) :
    literal b t = literal b' t := by
  rw [literal, literal, radixBefore_eq b, radixBefore_eq b', h.1]

end Cerebellum.Prolog
