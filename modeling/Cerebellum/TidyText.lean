import Cerebellum.Layout

/-! A Prolog text and its tidy text say the same exactly when the white space in what is quoted,
and in the literals, is kept. -/
namespace Cerebellum.Prolog
open Template Text Reflow

/-! ### Comments -/

/-- The tidy text goes on behind the line of a comment as the text does. -/
theorem dropWhile_tidy (t : Text) : (tidy isWhitespace '\n' t).dropWhile (· ≠ '\n') =
    tidy isWhitespace '\n' (t.dropWhile (· ≠ '\n')) := by
  induction hlen : t.length using Nat.strong_induction_on generalizing t with
  | _ n ih =>
  obtain ⟨w, r, rfl, hw, hr⟩ := split_run t
  have hafter : ∀ c ∈ w.dropWhile (· ≠ '\n'), isWhitespace c := fun c hc =>
    hw c ((List.dropWhile_sublist _).subset hc)
  cases r with
  | nil =>
    rw [List.append_nil, tidy, tidyFrom_blank hw, tidy, tidyFrom_blank hafter]
    rfl
  | cons d r =>
    have hd := hr d rfl
    by_cases hmem : '\n' ∈ w
    · obtain ⟨w', w'', rfl, hnot⟩ := List.eq_append_cons_of_mem hmem
      have hbefore : ∀ c ∈ w', decide (c ≠ '\n') = true := by
        intro c hc
        have hne : c ≠ '\n' := by
          rintro rfl
          exact hnot hc
        simpa using hne
      have hrest : (w' ++ '\n' :: w'' ++ d :: r).dropWhile (· ≠ '\n') = '\n' :: w'' ++ d :: r := by
        rw [List.append_assoc]
        exact Span.dropWhile_append_stop hbefore (by simp)
      have hw'' : ∀ c ∈ '\n' :: w'', isWhitespace c := fun c hc =>
        hw c (List.mem_append_right _ hc)
      have hline : squeeze '\n' ('\n' :: w'') = ['\n'] := if_pos (by simp)
      rw [hrest, tidy_run hw hd, squeeze, if_pos hmem, tidy_run hw'' hd, hline]
      rfl
    · have hall : ∀ c ∈ w ++ [d], decide (c ≠ '\n') = true := by
        intro c hc
        have hne : c ≠ '\n' := by
          rintro rfl
          rcases List.mem_append.mp hc with hc | hc
          · exact hmem hc
          · obtain rfl : '\n' = d := by simpa using hc
            cases hd
        simpa using hne
      have hskip : ∀ u : Text, (w ++ d :: u).dropWhile (· ≠ '\n') = u.dropWhile (· ≠ '\n') := by
        intro u
        have hsplit : w ++ d :: u = (w ++ [d]) ++ u := by simp
        rw [hsplit, List.dropWhile_append_of_pos hall]
      rw [hskip, tidy_run hw hd, squeeze_of_not_mem hmem, hskip]
      exact ih r.length (by rw [← hlen]; simp; omega) r rfl

/-- What is left behind a block comment. -/
def blockRest (level : Nat) (last : Char) (t : Text) : Option Text :=
  (blockComment level last t).map fun s => t.drop s.length

theorem blockRest_cons (level : Nat) (last c : Char) (t : Text) :
    blockRest level last (c :: t) =
      if c = '*' && last = '/' then blockRest (level + 1) c t
      else if c = '/' && last = '*' then
        if level ≤ 1 then some t else blockRest (level - 1) c t
      else blockRest level c t := by
  have hmap : ∀ level, ((blockComment level c t).map fun s => c :: s).map
      (fun s => (c :: t).drop s.length) = blockRest level c t := by
    intro level
    rw [blockRest, Option.map_map]
    rfl
  rw [blockRest, blockComment]
  split_ifs
  · exact hmap _
  · rfl
  · exact hmap _
  · exact hmap _

theorem blockRest_white {level : Nat} {c : Char} (hc : isWhitespace c) (last : Char) (t : Text) :
    blockRest level last (c :: t) = blockRest level c t := by
  have hstar : c ≠ '*' := by
    rintro rfl
    cases hc
  have hslash : c ≠ '/' := by
    rintro rfl
    cases hc
  rw [blockRest_cons, if_neg (by simp [hstar]), if_neg (by simp [hslash])]

theorem blockRest_last {level : Nat} {c c' : Char} (hc : isWhitespace c) (hc' : isWhitespace c')
    (t : Text) : blockRest level c t = blockRest level c' t := by
  have hdark : ∀ c : Char, isWhitespace c → c ≠ '/' ∧ c ≠ '*' := by
    intro c hc
    constructor <;>
      · rintro rfl
        cases hc
  cases t with
  | nil => rfl
  | cons d t =>
    rw [blockRest_cons, blockRest_cons]
    simp [hdark c hc, hdark c' hc']

/-- A run of white space in a block comment. -/
theorem blockRest_run {level : Nat} {w : Text} (hw : ∀ c ∈ w, isWhitespace c) (hne : w ≠ [])
    (last : Char) (t : Text) : blockRest level last (w ++ t) = blockRest level ' ' t := by
  induction w generalizing last with
  | nil => exact absurd rfl hne
  | cons c w ih =>
    obtain ⟨hc, hw⟩ := List.forall_mem_cons.mp hw
    rw [List.cons_append, blockRest_white hc]
    cases w with
    | nil => exact blockRest_last hc rfl t
    | cons d w => exact ih hw (List.cons_ne_nil _ _) c

theorem blockRest_tidy {level : Nat} {last : Char} {t u : Text}
    (h : blockRest level last t = some u) :
    blockRest level last (tidy isWhitespace '\n' t) = some (tidy isWhitespace '\n' u) := by
  induction hlen : t.length using Nat.strong_induction_on generalizing level last t with
  | _ n ih =>
  obtain ⟨w, r, rfl, hw, hr⟩ := split_run t
  -- from the character behind the run on
  have hdark : ∀ (d : Char) (r : Text) (level : Nat) (last : Char),
      isWhitespace d = false → r.length < n → blockRest level last (d :: r) = some u →
      blockRest level last (d :: tidy isWhitespace '\n' r) =
        some (tidy isWhitespace '\n' u) := by
    intro d r level last hd hlt hrest
    rw [blockRest_cons] at hrest ⊢
    split_ifs at hrest ⊢
    · exact ih _ hlt hrest rfl
    · cases hrest
      rfl
    · exact ih _ hlt hrest rfl
    · exact ih _ hlt hrest rfl
  cases r with
  | nil =>
    by_cases hne : w = []
    · subst hne
      cases h
    · rw [blockRest_run hw hne] at h
      cases h
  | cons d r =>
    have hd := hr d rfl
    have hlt : r.length < n := by
      rw [← hlen]
      simp
      omega
    rw [tidy_run hw hd]
    by_cases hne : w = []
    · subst hne
      exact hdark d r level last hd hlt h
    · rw [blockRest_run hw hne] at h
      rw [blockRest_run (squeeze_blank rfl hw) (squeeze_ne_nil hne)]
      exact hdark d r level ' ' hd hlt h

/-- A block comment behind its `/*`. -/
theorem blockComment_tidy {last : Char} {v s : Text} (h : blockComment 1 last v = some s) :
    ∃ last' v' s', tidy isWhitespace '\n' (last :: v) = last' :: v' ∧
      blockComment 1 last' v' = some s' ∧
      v'.drop s'.length = tidy isWhitespace '\n' (v.drop s.length) := by
  have hrest : blockRest 1 last v = some (v.drop s.length) := by
    rw [blockRest, h]
    rfl
  -- whatever the tidy comment begins with, it ends there
  have hfound : ∀ last' v', blockRest 1 last' v' =
      some (tidy isWhitespace '\n' (v.drop s.length)) →
      ∃ s', blockComment 1 last' v' = some s' ∧
        v'.drop s'.length = tidy isWhitespace '\n' (v.drop s.length) := by
    intro last' v' hsome
    exact Option.map_eq_some_iff.mp hsome
  by_cases hlast : isWhitespace last
  · obtain ⟨w, r, rfl, hw, hr⟩ := split_run v
    have hrun : ∀ c ∈ last :: w, isWhitespace c := List.forall_mem_cons.mpr ⟨hlast, hw⟩
    have hfirst : ∀ t, blockRest 1 last (w ++ t) = blockRest 1 ' ' t := by
      intro t
      rw [← blockRest_white (c := last) hlast ' ']
      exact blockRest_run hrun (List.cons_ne_nil _ _) ' ' t
    rw [hfirst] at hrest
    cases r with
    | nil => cases hrest
    | cons d r =>
      have hd := hr d rfl
      have htidy := blockRest_tidy hrest
      rw [tidy_cons hd] at htidy
      have hshape := tidy_run (e := '\n') hrun hd r
      cases hs : squeeze '\n' (last :: w) with
      | nil => exact absurd hs (squeeze_ne_nil (List.cons_ne_nil _ _))
      | cons e w' =>
        have hblank := squeeze_blank (e := '\n') rfl hrun
        rw [hs] at hblank
        have hagain : blockRest 1 e (w' ++ d :: tidy isWhitespace '\n' r) =
            some (tidy isWhitespace '\n' ((w ++ d :: r).drop s.length)) := by
          rw [← htidy, ← blockRest_white (hblank e (by simp)) ' ']
          exact blockRest_run hblank (List.cons_ne_nil _ _) ' ' _
        obtain ⟨s', hs', hdrop⟩ := hfound _ _ hagain
        refine ⟨e, w' ++ d :: tidy isWhitespace '\n' r, s', ?_, hs', hdrop⟩
        rw [← List.cons_append, hshape, hs]
        rfl
  · have hdark : isWhitespace last = false := by simpa using hlast
    obtain ⟨s', hs', hdrop⟩ := hfound _ _ (blockRest_tidy hrest)
    exact ⟨last, _, s', tidy_cons hdark v, hs', hdrop⟩

theorem blockComment_last {level : Nat} {last : Char} {t s : Text}
    (h : blockComment level last t = some s) : s.getLast? = some '/' := by
  induction t generalizing level last s with
  | nil => cases h
  | cons c t ih =>
    have hcons : ∀ level, (blockComment level c t).map (fun s => c :: s) = some s →
        s.getLast? = some '/' := by
      intro level hmap
      obtain ⟨s', hs', rfl⟩ := Option.map_eq_some_iff.mp hmap
      rw [List.getLast?_cons, ih hs']
      rfl
    rw [blockComment] at h
    split_ifs at h with hopen hclose
    · exact hcons _ h
    · simp only [Bool.and_eq_true, decide_eq_true_eq] at hclose
      cases h
      rw [hclose.1]
      rfl
    · exact hcons _ h
    · exact hcons _ h

/-- Behind a block comment. -/
theorem same_block {b b' raw raw' : Text} (h : raw.getLast? = some '/')
    (h' : raw'.getLast? = some '/') : SameBefore (raw.reverse ++ b) (raw'.reverse ++ b') := by
  have hseen : ∀ raw b : Text, raw.getLast? = some '/' →
      (raw.reverse ++ b).takeWhile isIdCont = [] ∧
        (raw.reverse ++ b).head?.any isSymbol = true := by
    intro raw b hlast
    rw [← List.head?_reverse] at hlast
    obtain ⟨u, hu⟩ := List.head?_eq_some_iff.mp hlast
    rw [hu, List.cons_append]
    exact ⟨rfl, rfl⟩
  rw [SameBefore, (hseen raw b h).1, (hseen raw b h).2, (hseen raw' b' h').1, (hseen raw' b' h').2]
  exact ⟨rfl, rfl⟩

/-! ### Literals -/

/-- A literal takes two characters behind its quote only when the first one asks for it. -/
theorem literalTail_cases {r : Nat} {t s : Text} (h : literalTail r t = some s) : ∃ c u, t = c :: u ∧
    ((r = 0 ∧ (c = '\\' ∨ (c = '\'' ∨ c = '|') ∧ u.head? = some c) ∧ s = (c :: u).take 2) ∨
      (r = 0 ∧ ¬(c = '\\' ∨ (c = '\'' ∨ c = '|') ∧ u.head? = some c) ∧ s = [c]) ∨
      (r ≠ 0 ∧ r ≤ 36 ∧ (digitValue r c).isSome ∧ s = [c])) := by
  unfold literalTail at h
  cases t with
  | nil => split_ifs at h
  | cons c u =>
    refine ⟨c, u, rfl, ?_⟩
    simp only [Bool.or_eq_true, Bool.and_eq_true, decide_eq_true_eq] at h
    split_ifs at h with hr hsecond hle hdigit
    · exact .inl ⟨hr, hsecond, (Option.some.inj h).symm⟩
    · exact .inr (.inl ⟨hr, hsecond, (Option.some.inj h).symm⟩)
    · exact .inr (.inr ⟨hr, hle, hdigit, (Option.some.inj h).symm⟩)

/-- A literal without white space. -/
theorem literalTail_tidy {r : Nat} {t s : Text} (h : literalTail r t = some s)
    (hs : ∀ c ∈ s, isWhitespace c = false) :
    literalTail r (tidy isWhitespace '\n' t) = some s ∧
      (tidy isWhitespace '\n' t).drop s.length = tidy isWhitespace '\n' (t.drop s.length) ∧
      KeepsCharacter t := by
  obtain ⟨c, u, rfl, hcases⟩ := literalTail_cases h
  have hmem : c ∈ s := by
    rcases hcases with ⟨-, -, rfl⟩ | ⟨-, -, rfl⟩ | ⟨-, -, -, rfl⟩ <;> simp
  have hc := hs c hmem
  have hkeeps : KeepsCharacter (c :: u) := by
    refine ⟨?_, fun hno => ?_⟩
    · rw [List.dropWhile_cons_of_neg (by simp [hc])]
      exact List.cons_ne_nil _ _
    · rw [List.takeWhile_cons_of_neg (by simp [hc])] at hno
      cases hno
  have hsame : ∀ d, isWhitespace d = false →
      ((tidy isWhitespace '\n' u).head? = some d ↔ u.head? = some d) := fun d hd => tidy_head hd u
  rw [tidy_cons hc]
  rcases hcases with ⟨rfl, hsecond, rfl⟩ | ⟨rfl, hsecond, rfl⟩ | ⟨hr, hle, hdigit, rfl⟩
  · have hsecond' : c = '\\' ∨ (c = '\'' ∨ c = '|') ∧
        (tidy isWhitespace '\n' u).head? = some c := by
      rw [hsame c hc]
      exact hsecond
    cases u with
    | nil =>
      refine ⟨?_, rfl, hkeeps⟩
      simp only [literalTail, if_true, Bool.or_eq_true, Bool.and_eq_true, decide_eq_true_eq]
      rw [if_pos hsecond']
      rfl
    | cons d u =>
      have hd := hs d (by simp)
      rw [tidy_cons hd] at hsecond' ⊢
      refine ⟨?_, rfl, hkeeps⟩
      simp only [literalTail, if_true, Bool.or_eq_true, Bool.and_eq_true, decide_eq_true_eq]
      rw [if_pos hsecond']
      rfl
  · refine ⟨?_, rfl, hkeeps⟩
    rw [← hsame c hc] at hsecond
    simp only [literalTail, if_true, Bool.or_eq_true, Bool.and_eq_true, decide_eq_true_eq]
    rw [if_neg hsecond]
  · refine ⟨?_, rfl, hkeeps⟩
    simp only [literalTail, if_neg hr, if_pos hle, hdigit, if_true]

/-- A literal of a white character. -/
theorem literalTail_white {r : Nat} {t s : Text} (h : literalTail r t = some s)
    (hlegal : legal (.other ('\'' :: s))) (hs : ¬ ∀ c ∈ s, isWhitespace c = false) :
    r = 0 ∧ ∃ c u, t = c :: u ∧ s = [c] ∧ isWhitespace c := by
  obtain ⟨c, u, rfl, ⟨rfl, hsecond, rfl⟩ | ⟨rfl, -, rfl⟩ | ⟨-, -, hdigit, rfl⟩⟩ :=
    literalTail_cases h
  · refine absurd (fun d hd => ?_) hs
    rcases hsecond with rfl | ⟨hquote, hhead⟩
    · cases u with
      | nil =>
        obtain rfl : d = '\\' := by simpa using hd
        rfl
      | cons e u =>
        have he : isWhitespace e = false := by simpa [legal] using hlegal
        rcases (by simpa using hd : d = '\\' ∨ d = e) with rfl | rfl
        · rfl
        · exact he
    · obtain ⟨u, rfl⟩ := List.head?_eq_some_iff.mp hhead
      obtain rfl : d = c := by simpa using hd
      rcases hquote with rfl | rfl <;> rfl
  · exact ⟨rfl, c, u, rfl, rfl, by simpa using hs⟩
  · refine absurd (fun d hd => ?_) hs
    obtain rfl : d = c := by simpa using hd
    exact digit_dark hdigit

theorem literalTail_none {r : Nat} {t : Text} (h : literalTail r t = none) (ht : t ≠ []) :
    literalTail r (tidy isWhitespace '\n' t) = none := by
  cases t with
  | nil => exact absurd rfl ht
  | cons c t =>
    unfold literalTail at h ⊢
    by_cases hr : r = 0
    · simp only [if_pos hr] at h
      split at h <;> cases h
    rw [if_neg hr] at h ⊢
    by_cases hle : r ≤ 36
    · rw [if_pos hle] at h ⊢
      have hdigit : ¬ (digitValue r c).isSome := by
        intro hsome
        simp [hsome] at h
      cases hu : tidy isWhitespace '\n' (c :: t) with
      | nil => rfl
      | cons d u =>
        -- the digit would have been there before
        refine if_neg fun hd => ?_
        have hhead := (tidy_head (digit_dark hd) (c :: t)).mp (by rw [hu]; rfl)
        obtain rfl : c = d := by simpa using hhead
        exact hdigit hd
    · rw [if_neg hle]

end Cerebellum.Prolog
