import Cerebellum.Lib.Reflow
import Cerebellum.QuotedBody
import Cerebellum.TranspileSpec

/-! A quoted text in a text whose white space is squeezed: it is read as before, up to the same
closing quote, or its value gets shorter. -/
namespace Cerebellum.Prolog
open Text Reflow

/-! ### Squeezed white space in front of other characters -/

section Heads

theorem white_quote {c : Char} (h : isQuote c) : isWhitespace c = false := by
  simp only [isQuote, Bool.or_eq_true, beq_iff_eq] at h
  rcases h with (rfl | rfl) | rfl <;> rfl

/-- A text is a run of white space and what follows it. -/
theorem split_run (t : Text) : ∃ w r, t = w ++ r ∧ (∀ c ∈ w, isWhitespace c) ∧
    ∀ c ∈ r.head?, isWhitespace c = false := by
  refine ⟨t.takeWhile isWhitespace, t.dropWhile isWhitespace,
    List.takeWhile_append_dropWhile.symm, fun c hc => List.mem_takeWhile_imp hc, ?_⟩
  intro c hc
  have hnot := List.head?_dropWhile_not isWhitespace t
  rw [hc] at hnot
  simpa using hnot

/-- Nothing comes in front of another character, and nothing of it is lost. -/
theorem tidy_head {c : Char} (hc : isWhitespace c = false) (t : Text) :
    (tidy isWhitespace '\n' t).head? = some c ↔ t.head? = some c := by
  obtain ⟨w, r, rfl, hw, hr⟩ := split_run t
  cases r with
  | nil =>
    rw [List.append_nil, tidy, tidyFrom_blank hw]
    cases w with
    | nil => rfl
    | cons d w =>
      have hd : d ≠ c := by
        rintro rfl
        rw [hw d (by simp)] at hc
        cases hc
      simp [hd]
  | cons d r =>
    have hd := hr d rfl
    rw [tidy_run hw hd]
    cases w with
    | nil => simp [squeeze]
    | cons e w =>
      have hne : ∀ x : Char, isWhitespace x → x ≠ c := by
        rintro x hx rfl
        rw [hx] at hc
        cases hc
      have hblank := squeeze_blank (e := '\n') rfl hw
      cases hs : squeeze '\n' (e :: w) with
      | nil => exact absurd hs (squeeze_ne_nil (List.cons_ne_nil _ _))
      | cons x y =>
        rw [hs] at hblank
        simp [hne x (hblank x (by simp)), hne e (hw e (by simp))]

theorem tidy_dark {s : Text} (hs : ∀ c ∈ s, isWhitespace c = false) (t : Text) :
    tidy isWhitespace '\n' (s ++ t) = s ++ tidy isWhitespace '\n' t := by
  induction s with
  | nil => rfl
  | cons c s ih =>
    obtain ⟨hc, hs⟩ := List.forall_mem_cons.mp hs
    rw [List.cons_append, tidy_cons hc, ih hs, List.cons_append]

/-- What stands at the front without white space is found again. -/
theorem span_tidy {p : Char → Bool} (hp : ∀ c, p c → isWhitespace c = false) (t : Text) :
    (tidy isWhitespace '\n' t).takeWhile p = t.takeWhile p ∧
      (tidy isWhitespace '\n' t).dropWhile p = tidy isWhitespace '\n' (t.dropWhile p) := by
  have hs : ∀ c ∈ t.takeWhile p, p c := fun c hc => List.mem_takeWhile_imp hc
  have htidy := tidy_dark (fun c hc => hp c (hs c hc)) (t.dropWhile p)
  rw [List.takeWhile_append_dropWhile] at htidy
  have hstop : ∀ c ∈ (tidy isWhitespace '\n' (t.dropWhile p)).head?, p c = false := by
    intro c hc
    by_contra hno
    have hpc : p c := by simpa using hno
    have hhead := (tidy_head (hp c hpc) _).mp hc
    have hnot := List.head?_dropWhile_not p t
    rw [hhead] at hnot
    exact hno (by simpa using hnot)
  rw [htidy]
  exact ⟨Span.takeWhile_append_stop hs hstop, Span.dropWhile_append_stop hs hstop⟩

end Heads

/-! ### Escapes in a tidy text -/

theorem alphanum_dark {c : Char} (h : c.isDigit ∨ c.isLower ∨ c.isUpper) :
    isWhitespace c = false := by
  rw [Transpile.isDigit_iff, Transpile.isLower_iff, Transpile.isUpper_iff] at h
  simp only [isWhitespace, Bool.or_eq_false_iff, Bool.and_eq_false_iff, decide_eq_false_iff_not,
    beq_eq_false_iff_ne]
  omega

theorem digit_dark {base : Nat} {c : Char} (h : (digitValue base c).isSome) :
    isWhitespace c = false := by
  refine alphanum_dark ?_
  by_contra hno
  rw [not_or, not_or] at hno
  simp [digitValue, hno] at h

theorem simpleEscape_dark {c e : Char} (h : simpleEscape c = some e) : isWhitespace c = false := by
  unfold simpleEscape at h
  split_ifs at h with h₁ h₂ h₃ h₄ h₅ h₆ h₇ h₈ h₉ h₁₀
  any_goals (subst_vars; rfl)
  simp only [Bool.or_eq_true, decide_eq_true_eq] at h₁₀
  rcases h₁₀ with ((rfl | rfl) | rfl) | rfl <;> rfl

theorem fixedEscape_tidy {width : Nat} {t u : Text} {e : Char}
    (h : fixedEscape width t = some (e, u)) :
    fixedEscape width (tidy isWhitespace '\n' t) = some (e, tidy isWhitespace '\n' u) := by
  unfold fixedEscape at h
  simp only at h
  split_ifs at h with hds
  obtain ⟨hlength, hall⟩ := hds
  have hdark : ∀ c ∈ t.take width, isWhitespace c = false := fun c hc =>
    digit_dark (List.all_eq_true.mp hall c hc)
  have htidy := tidy_dark hdark (t.drop width)
  rw [List.take_append_drop] at htidy
  have htake : (tidy isWhitespace '\n' t).take width = t.take width := by
    rw [htidy, List.take_append_of_le_length (by rw [hlength]), List.take_of_length_le (by rw [hlength])]
  have hdrop : (tidy isWhitespace '\n' t).drop width =
      tidy isWhitespace '\n' (t.drop width) := by
    rw [htidy, List.drop_append_of_le_length (by rw [hlength]), List.drop_of_length_le (by rw [hlength])]
    rfl
  obtain ⟨x, hx, hp⟩ := Option.map_eq_some_iff.mp h
  cases hp
  unfold fixedEscape
  simp only [htake, hdrop]
  rw [if_pos ⟨hlength, hall⟩, hx]
  rfl

theorem numberEscape_tidy {base : Nat} {t u : Text} {e : Char}
    (h : numberEscape base t = some (e, u)) :
    numberEscape base (tidy isWhitespace '\n' t) = some (e, tidy isWhitespace '\n' u) := by
  obtain ⟨htake, hdrop⟩ := span_tidy (p := fun c => (digitValue base c).isSome)
    (fun c hc => digit_dark hc) t
  have htail : ∀ r : Text, tidy isWhitespace '\n' (if r.head? = some '\\' then r.tail else r) =
      if (tidy isWhitespace '\n' r).head? = some '\\' then (tidy isWhitespace '\n' r).tail
      else tidy isWhitespace '\n' r := by
    intro r
    simp only [tidy_head (show isWhitespace '\\' = false from rfl)]
    split
    · next hslash =>
      obtain ⟨r', rfl⟩ := List.head?_eq_some_iff.mp hslash
      rw [tidy_cons rfl]
      rfl
    · rfl
  unfold numberEscape at h ⊢
  simp only [htake, hdrop] at h ⊢
  by_cases hds : (t.takeWhile fun c => (digitValue base c).isSome).isEmpty
  · rw [if_pos hds] at h
    cases h
  · rw [if_neg hds] at h ⊢
    obtain ⟨x, hx, hp⟩ := Option.map_eq_some_iff.mp h
    cases hp
    rw [hx, htail]
    rfl

/-- A number is written with a digit first. -/
theorem numberEscape_head {base : Nat} {c e : Char} {t u : Text}
    (h : numberEscape base (c :: t) = some (e, u)) : (digitValue base c).isSome := by
  by_contra hno
  simp [numberEscape, hno] at h

theorem directEscape_tidy {t u : Text} {e : Char} (h : directEscape t = some (e, u)) :
    directEscape (tidy isWhitespace '\n' t) = some (e, tidy isWhitespace '\n' u) := by
  cases t with
  | nil => cases h
  | cons c t =>
    rw [directEscape] at h
    cases hsimple : simpleEscape c with
    | some x =>
      rw [hsimple] at h
      cases h
      rw [tidy_cons (simpleEscape_dark hsimple), directEscape, hsimple]
    | none =>
      rw [hsimple] at h
      simp only at h
      split_ifs at h with hskip hu hU hx
      · subst hu
        rw [tidy_cons rfl, directEscape, hsimple]
        exact fixedEscape_tidy h
      · subst hU
        rw [tidy_cons rfl, directEscape, hsimple]
        exact fixedEscape_tidy h
      · subst hx
        rw [tidy_cons rfl, directEscape, hsimple]
        exact numberEscape_tidy h
      · have hc : isWhitespace c = false := digit_dark (numberEscape_head h)
        have hnumber := numberEscape_tidy h
        rw [tidy_cons hc] at hnumber
        simp only [Bool.or_eq_true, decide_eq_true_eq, not_or] at hskip
        rw [tidy_cons hc, directEscape, hsimple]
        simp only [hskip, hu, hU, hx, decide_false, Bool.or_self, Bool.false_eq_true, if_false]
        exact hnumber

/-- What stands behind a span, up to the character that stops it, is of no account. -/
theorem span_replace {p : Char → Bool} {t w : Text} {d : Char} {r : Text}
    (hd : p d = false) (h : t.dropWhile p = w ++ d :: r) (r' : Text) :
    (t.takeWhile p ++ (w ++ d :: r')).takeWhile p = t.takeWhile p ∧
      (t.takeWhile p ++ (w ++ d :: r')).dropWhile p = w ++ d :: r' := by
  have htake : ∀ c ∈ t.takeWhile p, p c := fun c hc => List.mem_takeWhile_imp hc
  have hstop : ∀ c ∈ (w ++ d :: r').head?, p c = false := by
    intro c hc
    have hnot := List.head?_dropWhile_not p t
    cases w with
    | nil =>
      obtain rfl : d = c := by simpa using hc
      exact hd
    | cons e w =>
      obtain rfl : e = c := by simpa using hc
      rw [h] at hnot
      simpa using hnot
  exact ⟨Span.takeWhile_append_stop htake hstop, Span.dropWhile_append_stop htake hstop⟩

theorem blank_white {c : Char} (h : isBlank c) : isWhitespace c := by
  simp only [isBlank, Bool.and_eq_true] at h
  exact h.1

theorem lineBlank_white {c : Char} (h : isLineBlank c) : isWhitespace c ∧ c ≠ '\n' := by
  simp only [isLineBlank, Bool.and_eq_true, bne_iff_ne] at h
  exact ⟨blank_white h.1, h.2⟩

theorem skipped_line {d : Char} (hd : isWhitespace d = false) (r : Text) :
    skipped ('\n' :: d :: r) = some (['\n'], d :: r) := by
  have hno : isLineBlank d = false := by simp [isLineBlank, isBlank, hd]
  simp [skipped, hno]

/-- What an escape skips in the tidy text: a line end for all the white space there, or the
same. -/
theorem skipped_tidy {t s w r : Text} {d : Char} (h : skipped t = some (s, w ++ d :: r))
    (hw : ∀ c ∈ w, isWhitespace c) (hd : isWhitespace d = false) :
    (∀ c ∈ s, isWhitespace c) ∧
      ('\n' ∈ s ++ w → skipped (tidy isWhitespace '\n' t) =
        some (['\n'], d :: tidy isWhitespace '\n' r)) ∧
      ('\n' ∉ s ++ w → skipped (tidy isWhitespace '\n' t) =
        some (s, w ++ d :: tidy isWhitespace '\n' r)) := by
  have hblank : isBlank d = false := by simp [isBlank, hd]
  have hline : isLineBlank d = false := by simp [isLineBlank, hblank]
  -- the whole run, in front of the character that ends it
  have hrun : ∀ (s t : Text), t = s ++ (w ++ d :: r) → (∀ c ∈ s, isWhitespace c) →
      tidy isWhitespace '\n' t = squeeze '\n' (s ++ w) ++ d :: tidy isWhitespace '\n' r := by
    rintro s t rfl hs
    rw [← List.append_assoc]
    exact tidy_run (fun c hc => (List.mem_append.mp hc).elim (hs c) (hw c)) hd r
  have hlines : ∀ (t : Text), ∀ c ∈ t.takeWhile isLineBlank, isWhitespace c := fun t c hc =>
    (lineBlank_white (List.mem_takeWhile_imp hc)).1
  have hend : ∀ s : Text, '\n' ∈ s → squeeze '\n' s = ['\n'] := fun s hs => if_pos hs
  cases t with
  | nil => cases h
  | cons c t =>
    have hsplit : ∀ (p : Char → Bool) (t : Text), t.dropWhile p = w ++ d :: r →
        t = t.takeWhile p ++ (w ++ d :: r) := by
      intro p t hdrop
      rw [← hdrop, List.takeWhile_append_dropWhile]
    rw [skipped] at h
    split_ifs at h with hc hn hr hhead
    · subst hc
      obtain ⟨hs, hdrop⟩ := Prod.mk.inj (Option.some.inj h)
      have hwhite : ∀ c ∈ s, isWhitespace c := by
        rw [← hs]
        exact fun c hc => blank_white (List.mem_takeWhile_imp hc)
      have htidy := hrun s t (hs ▸ hsplit _ t hdrop) hwhite
      refine ⟨hwhite, fun hmem => ?_, fun hmem => ?_⟩
      · have hstop : isBlank '\n' := rfl
        rw [tidy_cons rfl, htidy, hend _ hmem]
        simp [skipped, hstop, hblank]
      · obtain ⟨htake, hdrop'⟩ := span_replace hblank hdrop (tidy isWhitespace '\n' r)
        rw [hs] at htake hdrop'
        rw [tidy_cons rfl, htidy, squeeze_of_not_mem hmem, List.append_assoc]
        simp only [skipped, if_true, htake, hdrop']
    · subst hn
      obtain ⟨hs, hdrop⟩ := Prod.mk.inj (Option.some.inj h)
      have hwhite : ∀ c ∈ s, isWhitespace c := by
        rw [← hs]
        exact List.forall_mem_cons.mpr ⟨rfl, hlines t⟩
      have htidy := hrun s ('\n' :: t) (by rw [← hs, List.cons_append, ← hsplit _ t hdrop]) hwhite
      have hmem : '\n' ∈ s ++ w := by simp [← hs]
      refine ⟨hwhite, fun _ => ?_, fun hno => absurd hmem hno⟩
      rw [htidy, hend _ hmem]
      exact skipped_line hd _
    · subst hr
      obtain ⟨hs, hdrop⟩ := Prod.mk.inj (Option.some.inj h)
      obtain ⟨t, rfl⟩ := List.head?_eq_some_iff.mp hhead
      have hwhite : ∀ c ∈ s, isWhitespace c := by
        rw [← hs]
        exact List.forall_mem_cons.mpr ⟨rfl, List.forall_mem_cons.mpr ⟨rfl, hlines t⟩⟩
      have htidy := hrun s ('\r' :: '\n' :: t)
        (by rw [← hs, List.cons_append, List.cons_append]; rw [List.tail_cons] at hdrop ⊢
            rw [← hsplit _ t hdrop]) hwhite
      have hmem : '\n' ∈ s ++ w := by simp [← hs]
      refine ⟨hwhite, fun _ => ?_, fun hno => absurd hmem hno⟩
      rw [htidy, hend _ hmem]
      exact skipped_line hd _
    · subst hr
      obtain ⟨hs, hdrop⟩ := Prod.mk.inj (Option.some.inj h)
      have hwhite : ∀ c ∈ s, isWhitespace c := by
        rw [← hs]
        exact List.forall_mem_cons.mpr ⟨rfl, hlines t⟩
      have htidy := hrun s ('\r' :: t) (by rw [← hs, List.cons_append, ← hsplit _ t hdrop]) hwhite
      refine ⟨hwhite, fun hmem => ?_, fun hmem => ?_⟩
      · rw [htidy, hend _ hmem]
        exact skipped_line hd _
      · obtain ⟨htake, hdrop'⟩ := span_replace hline hdrop (tidy isWhitespace '\n' r)
        have hno : (t.takeWhile isLineBlank ++ (w ++ d :: tidy isWhitespace '\n' r)).head? ≠
            some '\n' := by
          intro hbreak
          rw [← List.append_assoc, List.head?_append] at hbreak
          cases hx : (t.takeWhile isLineBlank ++ w).head? with
          | some e =>
            rw [hx] at hbreak
            obtain rfl : e = '\n' := by simpa using hbreak
            refine hmem ?_
            rw [← hs, List.cons_append]
            exact List.mem_cons_of_mem _ (List.mem_of_mem_head? hx)
          | none =>
            rw [hx] at hbreak
            obtain rfl : d = '\n' := by simpa using hbreak
            cases hd
        rw [htidy, squeeze_of_not_mem hmem, ← hs, List.append_assoc, List.cons_append]
        simp only [skipped, hno, if_false, htake, hdrop']
        rfl

/-- An escape never leaves a line end when it skips nothing. -/
theorem skipped_ne_nil {t s u : Text} (h : skipped t = some (s, '\n' :: u)) : s ≠ [] := by
  cases t with
  | nil => cases h
  | cons c t =>
    rw [skipped] at h
    split_ifs at h
    · obtain ⟨-, hdrop⟩ := Prod.mk.inj (Option.some.inj h)
      have hnot := List.head?_dropWhile_not isBlank t
      rw [hdrop] at hnot
      cases hnot
    all_goals
      obtain ⟨hs, -⟩ := Prod.mk.inj (Option.some.inj h)
      rw [← hs]
      exact List.cons_ne_nil _ _

/-! ### Runs of white space in a quoted text -/

/-- A run of white space without a line end, or a line end alone. -/
def Settled (w : Text) : Prop := '\n' ∈ w → w = ['\n']

theorem squeeze_settled {w : Text} (h : Settled w) : squeeze '\n' w = w := by
  unfold squeeze
  split
  · next hmem => exact (h hmem).symm
  · rfl

theorem length_squeeze_lt {w : Text} (h : ¬ Settled w) : (squeeze '\n' w).length < w.length := by
  refine (length_squeeze w).resolve_right fun heq => h fun hmem => ?_
  rw [← heq, squeeze, if_pos hmem]

/-- One more step in reading a quoted text. Beside what is left stands the white space right
before it. -/
inductive Goes (q : Char) : Text × Text → Text × Text → Prop
  | double {w u} : Goes q (w, q :: q :: u) ([], u)
  | white {w c u} : isWhitespace c → Goes q (w, c :: u) (w ++ [c], u)
  | plain {w c u} : isWhitespace c = false → c ≠ q → c ≠ '\\' → Goes q (w, c :: u) ([], u)
  | direct {w t e u} : directEscape t = some (e, u) → Goes q (w, '\\' :: t) ([], u)
  | skip {w t s u} : skipped t = some (s, u) → u.head? ≠ some q → Goes q (w, '\\' :: t) (s, u)

/-- Every run of white space that the quoted text takes a character from is settled. -/
def KeepsRuns (q : Char) (w t : Text) : Prop :=
  ∀ w' t', Relation.ReflTransGen (Goes q) (w, t) (w', t') → ∀ c ∈ t'.head?, isWhitespace c →
    Settled (w' ++ t'.takeWhile isWhitespace)

theorem keepsRuns_iff {q : Char} {w t : Text} : KeepsRuns q w t ↔
    (∀ c ∈ t.head?, isWhitespace c → Settled (w ++ t.takeWhile isWhitespace)) ∧
      ∀ w' u, Goes q (w, t) (w', u) → KeepsRuns q w' u := by
  constructor
  · intro h
    exact ⟨h w t .refl, fun w' u hgo w'' t'' hreach => h w'' t'' (.head hgo hreach)⟩
  · rintro ⟨hhead, hstep⟩ w' t' hreach
    rcases hreach.cases_head with heq | ⟨⟨w'', u⟩, hgo, hreach⟩
    · cases heq
      exact hhead
    · exact hstep w'' u hgo w' t' hreach

theorem goes_unique {q : Char} (hq : isQuote q) {s p p' : Text × Text} (h : Goes q s p)
    (h' : Goes q s p') : p = p' := by
  have hwhite := white_quote hq
  have hslash : q ≠ '\\' := by
    rintro rfl
    cases hq
  have hback : isWhitespace '\\' = false := rfl
  cases h with
  | double =>
    cases h' with
    | double => rfl
    | white hc => simp [hwhite] at hc
    | plain _ hne => exact absurd rfl hne
    | direct | skip => exact absurd rfl hslash
  | white hc =>
    cases h' with
    | double => simp [hwhite] at hc
    | white => rfl
    | plain hdark => simp [hdark] at hc
    | direct | skip => simp [hback] at hc
  | plain hdark hne hc =>
    cases h' with
    | double => exact absurd rfl hne
    | white hw => simp [hdark] at hw
    | plain => rfl
    | direct | skip => exact absurd rfl hc
  | direct hdirect =>
    cases h' with
    | double => exact absurd rfl hslash
    | white hc => simp [hback] at hc
    | plain _ _ hc => exact absurd rfl hc
    | direct hdirect' =>
      rw [hdirect] at hdirect'
      cases hdirect'
      rfl
    | skip hskip =>
      rw [direct_or_skip hdirect] at hskip
      cases hskip
  | skip hskip =>
    cases h' with
    | double => exact absurd rfl hslash
    | white hc => simp [hback] at hc
    | plain _ _ hc => exact absurd rfl hc
    | direct hdirect =>
      rw [direct_or_skip hdirect] at hskip
      cases hskip
    | skip hskip' =>
      rw [hskip] at hskip'
      cases hskip'
      rfl

/-- Nothing is taken from a run before the next step. -/
theorem keepsRuns_step {q : Char} (hq : isQuote q) {w w' t u : Text}
    (ht : ∀ c ∈ t.head?, isWhitespace c = false) (h : Goes q (w, t) (w', u)) :
    KeepsRuns q w t ↔ KeepsRuns q w' u := by
  rw [keepsRuns_iff]
  constructor
  · exact fun hkeeps => hkeeps.2 w' u h
  · intro hkeeps
    refine ⟨fun c hc hwhite => ?_, fun w'' u' hgo => ?_⟩
    · rw [ht c hc] at hwhite
      cases hwhite
    · cases goes_unique hq h hgo
      exact hkeeps

theorem keepsRuns_end {q : Char} {w t : Text} (ht : ∀ c ∈ t.head?, isWhitespace c = false)
    (h : ∀ p, ¬ Goes q (w, t) p) : KeepsRuns q w t := by
  rw [keepsRuns_iff]
  refine ⟨fun c hc hwhite => ?_, fun w' u hgo => absurd hgo (h _)⟩
  rw [ht c hc] at hwhite
  cases hwhite

/-- Behind a character that is not white space it does not matter what was before it. -/
theorem keepsRuns_dark {q d : Char} (hd : isWhitespace d = false) (w w' r : Text) :
    KeepsRuns q w (d :: r) → KeepsRuns q w' (d :: r) := by
  intro h
  rw [keepsRuns_iff] at h ⊢
  refine ⟨fun c hc hwhite => ?_, fun w'' u hgo => h.2 w'' u ?_⟩
  · obtain rfl : d = c := by simpa using hc
    rw [hd] at hwhite
    cases hwhite
  · cases hgo with
    | double => exact .double
    | white hc => simp [hd] at hc
    | plain hdark hne hc => exact .plain hdark hne hc
    | direct hdirect => exact .direct hdirect
    | skip hskip hhead => exact .skip hskip hhead

/-- A run of white space in front of another character. -/
theorem keepsRuns_run {q d : Char} (hq : isQuote q) (hd : isWhitespace d = false) {s : Text}
    (hs : ∀ c ∈ s, isWhitespace c) (hne : s ≠ []) (w r : Text) :
    KeepsRuns q w (s ++ d :: r) ↔ Settled (w ++ s) ∧ KeepsRuns q [] (d :: r) := by
  induction s generalizing w with
  | nil => exact absurd rfl hne
  | cons c s ih =>
    have hrun : ((c :: s) ++ d :: r).takeWhile isWhitespace = c :: s :=
      Span.takeWhile_append_stop hs (by simpa using hd)
    obtain ⟨hc, hs⟩ := List.forall_mem_cons.mp hs
    have hstep : (∀ w' u, Goes q (w, c :: s ++ d :: r) (w', u) → KeepsRuns q w' u) ↔
        KeepsRuns q (w ++ [c]) (s ++ d :: r) := by
      constructor
      · exact fun h => h _ _ (.white hc)
      · intro h w' u hgo
        cases goes_unique hq (.white hc) hgo
        exact h
    rw [keepsRuns_iff, hstep, hrun]
    cases s with
    | nil =>
      refine and_congr ⟨fun h => h c rfl hc, fun h _ _ _ => h⟩ ?_
      exact ⟨keepsRuns_dark hd _ _ _, keepsRuns_dark hd _ _ _⟩
    | cons e s =>
      rw [ih hs (List.cons_ne_nil _ _), List.append_assoc, List.singleton_append]
      exact ⟨fun h => h.2, fun h => ⟨fun _ _ _ => h.1, h⟩⟩

/-! ### The quoted text in a tidy text -/

theorem body_white {q c : Char} (hq : isQuote q) (hc : isWhitespace c) {t v r : Text} :
    Body q (c :: t) v r ↔ ∃ v', v = c :: v' ∧ Body q t v' r := by
  have hquote : c ≠ q := by
    rintro rfl
    rw [white_quote hq] at hc
    cases hc
  have hslash : c ≠ '\\' := by
    rintro rfl
    cases hc
  constructor
  · intro h
    cases h with
    | last | close | double => exact absurd rfl hquote
    | plain _ _ hbody => exact ⟨_, rfl, hbody⟩
    | direct | skip | skipClose => exact absurd rfl hslash
  · rintro ⟨v', rfl, hbody⟩
    exact .plain hquote hslash hbody

theorem body_run {q : Char} (hq : isQuote q) {s : Text} (hs : ∀ c ∈ s, isWhitespace c)
    {t v r : Text} : Body q (s ++ t) v r ↔ ∃ v', v = s ++ v' ∧ Body q t v' r := by
  induction s generalizing v with
  | nil => simp
  | cons c s ih =>
    obtain ⟨hc, hs⟩ := List.forall_mem_cons.mp hs
    rw [List.cons_append, body_white hq hc]
    constructor
    · rintro ⟨v', rfl, hbody⟩
      obtain ⟨v'', rfl, hrest⟩ := (ih hs).mp hbody
      exact ⟨v'', rfl, hrest⟩
    · rintro ⟨v', rfl, hbody⟩
      exact ⟨s ++ v', rfl, (ih hs).mpr ⟨v', rfl, hbody⟩⟩

/-- The rest of a quoted text is read in the tidy text too, as before or with fewer characters. -/
def Survives (q : Char) (t v r : Text) : Prop :=
  ∃ v' r', Body q (tidy isWhitespace '\n' t) v' r' ∧
    (KeepsRuns q [] t → v' = v ∧ r' = tidy isWhitespace '\n' r) ∧
    (¬ KeepsRuns q [] t → v'.length < v.length)

/-- Behind a step that takes `e`. -/
theorem Survives.step {q : Char} (hq : isQuote q) {t u e v r : Text}
    (h : Survives q u v r) (ht : ∀ c ∈ t.head?, isWhitespace c = false)
    (hgo : Goes q ([], t) ([], u))
    (hbody : ∀ v' r', Body q (tidy isWhitespace '\n' u) v' r' →
      Body q (tidy isWhitespace '\n' t) (e ++ v') r') : Survives q t (e ++ v) r := by
  obtain ⟨v', r', hread, hkept, hlost⟩ := h
  refine ⟨e ++ v', r', hbody v' r' hread, ?_, ?_⟩
  · rw [keepsRuns_step hq ht hgo]
    intro hkeeps
    obtain ⟨rfl, hr⟩ := hkept hkeeps
    exact ⟨rfl, hr⟩
  · rw [keepsRuns_step hq ht hgo]
    intro hkeeps
    have := hlost hkeeps
    simpa using this

theorem survives_run {q d : Char} (hq : isQuote q) (hd : isWhitespace d = false) {s r v r₀ : Text}
    (hs : ∀ c ∈ s, isWhitespace c) (h : Survives q (d :: r) v r₀) :
    Survives q (s ++ d :: r) (s ++ v) r₀ := by
  obtain ⟨v', r', hread, hkept, hlost⟩ := h
  rw [tidy_cons hd] at hread
  by_cases hne : s = []
  · subst hne
    refine ⟨v', r', ?_, hkept, hlost⟩
    rw [List.nil_append, tidy_cons hd]
    exact hread
  · refine ⟨squeeze '\n' s ++ v', r', ?_, ?_, ?_⟩
    · rw [tidy_run hs hd, body_run hq (squeeze_blank rfl hs)]
      exact ⟨v', rfl, hread⟩
    · rw [keepsRuns_run hq hd hs hne, List.nil_append]
      rintro ⟨hsettled, hkeeps⟩
      obtain ⟨rfl, hr⟩ := hkept hkeeps
      exact ⟨by rw [squeeze_settled hsettled], hr⟩
    · rw [keepsRuns_run hq hd hs hne, List.nil_append, List.length_append, List.length_append]
      intro hnot
      by_cases hsettled : Settled s
      · have := hlost fun hkeeps => hnot ⟨hsettled, hkeeps⟩
        rw [squeeze_settled hsettled]
        omega
      · have hshort := length_squeeze_lt hsettled
        by_cases hkeeps : KeepsRuns q [] (d :: r)
        · obtain ⟨rfl, -⟩ := hkept hkeeps
          omega
        · have := hlost hkeeps
          omega

/-- An escape that skips white space, in front of what goes on the quoted text. -/
theorem survives_skip {q d : Char} (hq : isQuote q) (hd : isWhitespace d = false)
    {t s w r v r₀ : Text} (hskip : skipped t = some (s, w ++ d :: r))
    (hw : ∀ c ∈ w, isWhitespace c) (hhead : (w ++ d :: r).head? ≠ some q)
    (h : Survives q (d :: r) v r₀) : Survives q ('\\' :: t) (w ++ v) r₀ := by
  obtain ⟨hs, hline, hsame⟩ := skipped_tidy hskip hw hd
  have hgo : Goes q ([], '\\' :: t) (s, w ++ d :: r) := .skip hskip hhead
  have hstart : ∀ c ∈ ('\\' :: t : Text).head?, isWhitespace c = false := by
    intro c hc
    obtain rfl : '\\' = c := by simpa using hc
    rfl
  obtain ⟨v', r', hread, hkept, hlost⟩ := h
  rw [tidy_cons hd] at hread
  have hkeeps_nil : w = [] → (KeepsRuns q [] ('\\' :: t) ↔ KeepsRuns q [] (d :: r)) := by
    rintro rfl
    rw [keepsRuns_step hq hstart hgo]
    exact ⟨keepsRuns_dark hd _ _ _, keepsRuns_dark hd _ _ _⟩
  have hkeeps_run : w ≠ [] → (KeepsRuns q [] ('\\' :: t) ↔
      Settled (s ++ w) ∧ KeepsRuns q [] (d :: r)) := by
    intro hne
    rw [keepsRuns_step hq hstart hgo, keepsRuns_run hq hd hw hne]
  have htidy : tidy isWhitespace '\n' ('\\' :: t) = '\\' :: tidy isWhitespace '\n' t :=
    tidy_cons rfl t
  by_cases hmem : '\n' ∈ s ++ w
  · -- the tidy text skips all the white space there
    have hlength : v'.length ≤ v.length := by
      by_cases hkeeps : KeepsRuns q [] (d :: r)
      · exact (congrArg List.length (hkept hkeeps).1).le
      · exact (hlost hkeeps).le
    by_cases hne : w = []
    · have hdq : d ≠ q := by simpa [hne] using hhead
      refine ⟨v', r', ?_, ?_, ?_⟩
      · rw [htidy]
        exact .skip (hline hmem) (by simpa using hdq) hread
      · rw [hkeeps_nil hne]
        intro hkeeps
        rw [hne]
        exact hkept hkeeps
      · rw [hkeeps_nil hne]
        intro hkeeps
        rw [hne]
        exact hlost hkeeps
    · have hunsettled : ¬ Settled (s ++ w) := by
        intro hsettled
        have hone := hsettled hmem
        cases s with
        | nil =>
          rw [List.nil_append] at hone
          rw [hone] at hskip
          exact skipped_ne_nil hskip rfl
        | cons c s =>
          have hnil := (List.append_eq_nil_iff.mp (List.cons.inj hone).2).2
          exact hne hnil
      have hlost' : ¬ KeepsRuns q [] ('\\' :: t) := fun hkeeps =>
        hunsettled ((hkeeps_run hne).mp hkeeps).1
      have hpos : 0 < w.length := List.length_pos_iff.mpr hne
      by_cases hdq : d = q
      · -- and is closed there
        subst hdq
        refine ⟨[], tidy isWhitespace '\n' r, ?_, fun hkeeps => absurd hkeeps hlost', fun _ => ?_⟩
        · rw [htidy]
          exact .skipClose (hline hmem)
        · simp only [List.length_nil, List.length_append]
          omega
      · refine ⟨v', r', ?_, fun hkeeps => absurd hkeeps hlost', fun _ => ?_⟩
        · rw [htidy]
          exact .skip (hline hmem) (by simpa using hdq) hread
        · rw [List.length_append]
          omega
  · have hhead' : (w ++ d :: tidy isWhitespace '\n' r).head? ≠ some q := by
      cases w <;> simpa using hhead
    have hkeeps_iff : KeepsRuns q [] ('\\' :: t) ↔ KeepsRuns q [] (d :: r) := by
      by_cases hne : w = []
      · exact hkeeps_nil hne
      · rw [hkeeps_run hne]
        exact and_iff_right fun hin => absurd hin hmem
    refine ⟨w ++ v', r', ?_, ?_, ?_⟩
    · rw [htidy]
      exact .skip (hsame hmem) hhead' ((body_run hq hw).mpr ⟨v', rfl, hread⟩)
    · rw [hkeeps_iff]
      intro hkeeps
      obtain ⟨rfl, hr⟩ := hkept hkeeps
      exact ⟨rfl, hr⟩
    · rw [hkeeps_iff]
      intro hkeeps
      have := hlost hkeeps
      simpa using this

/-- A closing quote ends the quoted text in the tidy text too. -/
theorem survives_close {q : Char} {t r : Text} (ht : ∀ c ∈ t.head?, isWhitespace c = false)
    (hnone : ∀ p, ¬ Goes q ([], t) p)
    (h : Body q (tidy isWhitespace '\n' t) [] (tidy isWhitespace '\n' r)) :
    Survives q t [] r :=
  ⟨[], _, h, fun _ => ⟨rfl, rfl⟩, fun hno => absurd (keepsRuns_end ht hnone) hno⟩

theorem split_body {q : Char} {t v r : Text} (hq : isQuote q) (h : Body q t v r) :
    ∃ w d u v', t = w ++ d :: u ∧ (∀ c ∈ w, isWhitespace c) ∧ isWhitespace d = false ∧
      v = w ++ v' ∧ Body q (d :: u) v' r := by
  obtain ⟨w, u, rfl, hw, hu⟩ := split_run t
  obtain ⟨v', rfl, hbody⟩ := (body_run hq hw).mp h
  cases u with
  | nil => cases hbody
  | cons d u => exact ⟨w, d, u, v', rfl, hw, hu d rfl, rfl, hbody⟩

theorem survives_dark {q d : Char} (hq : isQuote q) (hd : isWhitespace d = false) {t v r : Text}
    (ih : ∀ u v r, u.length < (d :: t).length → Body q u v r → Survives q u v r)
    (h : Body q (d :: t) v r) : Survives q (d :: t) v r := by
  have hstart : ∀ c ∈ (d :: t).head?, isWhitespace c = false := by
    intro c hc
    obtain rfl : d = c := by simpa using hc
    exact hd
  have hslash : q ≠ '\\' := by
    rintro rfl
    cases hq
  have htidy : tidy isWhitespace '\n' (d :: t) = d :: tidy isWhitespace '\n' t := tidy_cons hd t
  cases h with
  | last =>
    refine survives_close hstart ?_ ?_
    · intro p hgo
      cases hgo with
      | white hc => simp [hd] at hc
      | plain _ hne => exact hne rfl
      | direct | skip => exact hslash rfl
    · rw [htidy]
      exact .last
  | @close e u he =>
    refine survives_close hstart ?_ ?_
    · intro p hgo
      cases hgo with
      | double => exact he rfl
      | white hc => simp [hd] at hc
      | plain _ hne => exact hne rfl
      | direct | skip => exact hslash rfl
    · have hnext : (tidy isWhitespace '\n' (e :: u)).head? ≠ some q := by
        rw [ne_eq, tidy_head hd]
        simpa using he
      rw [htidy]
      cases hrest : tidy isWhitespace '\n' (e :: u) with
      | nil => exact .last
      | cons x y =>
        rw [hrest] at hnext
        exact .close (by simpa using hnext)
  | @double u v r hbody =>
    refine (ih u v r (by simp) hbody).step hq hstart .double (e := [q]) fun v' r' hread => ?_
    rw [htidy, tidy_cons hd]
    exact .double hread
  | @plain _ u v r hne hc hbody =>
    refine (ih t v r (by simp) hbody).step hq hstart (.plain hd hne hc) (e := [d])
      fun v' r' hread => ?_
    rw [htidy]
    exact .plain hne hc hread
  | @direct _ e u v r hdirect hbody =>
    have hlen : u.length < t.length := by
      have hesc : escapeChar q 1 t = some (some e, u) := by
        rw [escapeChar_eq, hdirect]
      exact escapeChar_length hesc
    refine (ih u v r (by simp; omega) hbody).step hq hstart (.direct hdirect) (e := [e])
      fun v' r' hread => ?_
    rw [htidy]
    exact .direct (directEscape_tidy hdirect) hread
  | @skip _ s u v r hskip hhead hbody =>
    have hlen := skipped_length hskip
    obtain ⟨w, x, y, v', rfl, hw, hx, rfl, hrest⟩ := split_body hq hbody
    rw [List.length_append] at hlen
    exact survives_skip hq hx hskip hw hhead (ih _ _ _ (by simp at hlen ⊢; omega) hrest)
  | @skipClose _ s r hskip =>
    obtain ⟨hs, hline, hsame⟩ := skipped_tidy (w := []) hskip (by simp) (white_quote hq)
    refine survives_close hstart ?_ ?_
    · intro p hgo
      cases hgo with
      | double => exact hslash rfl
      | white hc => simp [hd] at hc
      | plain _ _ hc => exact hc rfl
      | direct hdirect =>
        rw [direct_or_skip hdirect] at hskip
        cases hskip
      | skip hskip' hhead =>
        rw [hskip] at hskip'
        cases hskip'
        exact hhead rfl
    · rw [htidy]
      by_cases hmem : '\n' ∈ s ++ []
      · exact .skipClose (hline hmem)
      · exact .skipClose (hsame hmem)

theorem body_tidy {q : Char} (hq : isQuote q) {t v r : Text} (h : Body q t v r) :
    Survives q t v r := by
  induction hlen : t.length using Nat.strong_induction_on generalizing t v r with
  | _ n ih =>
  obtain ⟨w, d, u, v', rfl, hw, hd, rfl, hrest⟩ := split_body hq h
  refine survives_run hq hd hw (survives_dark hq hd (fun x v r hx hbody => ?_) hrest)
  rw [List.length_append] at hlen
  exact ih x.length (by omega) hbody rfl

end Cerebellum.Prolog
