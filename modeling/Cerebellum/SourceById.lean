import Cerebellum.SourceLines
import Cerebellum.Sources
import Cerebellum.TidyText

/-! Prolog clauses that are registered inline and run again by their source id: the text that is
consulted then, and when it says the same. -/
namespace Cerebellum
open Template Text Reflow

namespace Prolog

/-! ### Two readings side by side -/

/-- The second text says what the first one says, exactly when the first one keeps its white
space. -/
def Agrees (gap : Bool) (b t b' t' : Text) : Prop :=
  ∀ ls, Scans b t ls → (∀ l ∈ ls, legal l) →
    (Steady b t → ∃ ls', Scans b' t' ls' ∧ (∀ l ∈ ls', legal l) ∧ signs gap ls' = signs gap ls) ∧
    (¬ Steady b t → ∀ ls', Scans b' t' ls' → signs gap ls' ≠ signs gap ls)

theorem scans_cons_iff {b t u : Text} {c : Char} {l : Lexeme Char} {ls : List (Lexeme Char)}
    (h : Next b c t l u) :
    Scans b (c :: t) ls ↔ ∃ ls', ls = l :: ls' ∧ Scans (l.after b) u ls' := by
  constructor
  · intro hscans
    cases hscans with
    | cons hnext hrest =>
      have hsame := (next_iff.mpr hnext).symm.trans (next_iff.mpr h)
      cases hsame
      exact ⟨_, rfl, hrest⟩
  · rintro ⟨ls', rfl, hrest⟩
    exact .cons h hrest

theorem Agrees.cons {gap : Bool} {b t u b' t' u' : Text} {c : Char} {l l' : Lexeme Char}
    (hnext : Next b c t l u) (hnext' : Next b' c t' l' u')
    (hshown : ∀ gap, shown gap l' = shown gap l)
    (hgap : (isLayout l' || endsWhite l') = (isLayout l || endsWhite l)) (hlegal' : legal l')
    (hkeeps : Keeps c t l)
    (h : Agrees (isLayout l || endsWhite l) (l.after b) u (l'.after b') u') :
    Agrees gap b (c :: t) b' (c :: t') := by
  intro ls hscans hlegal
  obtain ⟨ls, rfl, hrest⟩ := (scans_cons_iff hnext).mp hscans
  obtain ⟨hsteady, hlost⟩ := h ls hrest fun x hx => hlegal x (List.mem_cons_of_mem _ hx)
  have hsigns : ∀ ls', signs gap (l' :: ls') =
      shown gap l ++ signs (isLayout l || endsWhite l) ls' := by
    intro ls'
    rw [signs, hshown, hgap]
  rw [steady_cons hnext]
  refine ⟨fun hall => ?_, fun hno ls' hscans' => ?_⟩
  · obtain ⟨ls', hscans', hlegals, heq⟩ := hsteady hall.2
    refine ⟨l' :: ls', .cons hnext' hscans', List.forall_mem_cons.mpr ⟨hlegal', hlegals⟩, ?_⟩
    rw [hsigns, heq]
    rfl
  · obtain ⟨ls', rfl, hrest'⟩ := (scans_cons_iff hnext').mp hscans'
    rw [hsigns, signs]
    intro heq
    exact hlost (fun hsteady => hno ⟨hkeeps, hsteady⟩) ls' hrest' (List.append_cancel_left heq)

/-- A lexeme that does not keep its white space and is read as another one. -/
theorem Agrees.lost {gap : Bool} {b t u b' t' : Text} {c : Char} {l : Lexeme Char}
    (hnext : Next b c t l u) (hkeeps : ¬ Keeps c t l) (hl : isLayout l = false)
    (hother : ∀ ls', Scans b' t' ls' → ∃ l' ls'', ls' = l' :: ls'' ∧ isLayout l' = false ∧ l' ≠ l) :
    Agrees gap b (c :: t) b' t' := by
  intro ls hscans _
  obtain ⟨ls, rfl, -⟩ := (scans_cons_iff hnext).mp hscans
  rw [steady_cons hnext]
  refine ⟨fun hall => absurd hall.1 hkeeps, fun _ ls' hscans' => ?_⟩
  obtain ⟨l', ls'', rfl, hl', hne⟩ := hother ls' hscans'
  rw [signs, signs, shown, shown, hl, hl']
  intro heq
  cases gap <;> simp [hne] at heq

theorem next_white {b t : Text} {c : Char} (hc : isWhitespace c) : Next b c t (.code c) t := by
  refine .code ?_ ?_ ?_
  · rintro rfl
    cases hc
  · rintro rfl
    cases hc
  · by_contra hno
    rw [white_quote (by simpa using hno)] at hc
    cases hc

theorem scans_run {w : Text} (hw : ∀ c ∈ w, isWhitespace c) {b t : Text}
    {ls : List (Lexeme Char)} : Scans b (w ++ t) ls ↔
      ∃ ls', ls = w.map .code ++ ls' ∧ Scans (w.reverse ++ b) t ls' := by
  induction w generalizing b ls with
  | nil => simp
  | cons c w ih =>
    obtain ⟨hc, hw⟩ := List.forall_mem_cons.mp hw
    rw [List.cons_append, scans_cons_iff (next_white hc), List.reverse_cons, List.append_assoc]
    constructor
    · rintro ⟨ls, rfl, hrest⟩
      obtain ⟨ls', rfl, hscans⟩ := (ih hw).mp hrest
      exact ⟨ls', rfl, hscans⟩
    · rintro ⟨ls', rfl, hscans⟩
      exact ⟨w.map .code ++ ls', rfl, (ih hw).mpr ⟨ls', rfl, hscans⟩⟩

theorem steady_run {w : Text} (hw : ∀ c ∈ w, isWhitespace c) {b t : Text} :
    Steady b (w ++ t) ↔ Steady (w.reverse ++ b) t := by
  induction w generalizing b with
  | nil => rfl
  | cons c w ih =>
    obtain ⟨hc, hw⟩ := List.forall_mem_cons.mp hw
    rw [List.cons_append, steady_cons (next_white hc), ih hw, List.reverse_cons, List.append_assoc]
    exact and_iff_right trivial

theorem signs_run {w : Text} (hw : ∀ c ∈ w, isBlank c) (gap : Bool) (ls : List (Lexeme Char)) :
    signs gap (w.map .code ++ ls) = signs (gap || !w.isEmpty) ls := by
  induction w generalizing gap with
  | nil => simp
  | cons c w ih =>
    obtain ⟨hc, hw⟩ := List.forall_mem_cons.mp hw
    have hlayout : isLayout (.code c) = true := hc
    rw [List.map_cons, List.cons_append, signs, ih hw, shown, hlayout]
    simp

theorem blank_of_legal {w : Text} (hw : ∀ c ∈ w, isWhitespace c) {ls : List (Lexeme Char)}
    (h : ∀ l ∈ w.map Lexeme.code ++ ls, legal l) : ∀ c ∈ w, isBlank c := by
  intro c hc
  have hl := h (.code c) (List.mem_append_left _ (List.mem_map_of_mem hc))
  simpa [legal, hw c hc] using hl

/-- White space in front on both sides. -/
theorem Agrees.run {gap : Bool} {w w' b t b' t' : Text} (hw : ∀ c ∈ w, isWhitespace c)
    (hw' : ∀ c ∈ w', isWhitespace c) (hblank : (∀ c ∈ w, isBlank c) → ∀ c ∈ w', isBlank c)
    (hgap : (gap || !w'.isEmpty) = (gap || !w.isEmpty))
    (h : Agrees (gap || !w.isEmpty) (w.reverse ++ b) t (w'.reverse ++ b') t') :
    Agrees gap b (w ++ t) b' (w' ++ t') := by
  intro ls hscans hlegal
  obtain ⟨ls, rfl, hrest⟩ := (scans_run hw).mp hscans
  have hcode := blank_of_legal hw hlegal
  obtain ⟨hsteady, hlost⟩ := h ls hrest fun l hl => hlegal l (List.mem_append_right _ hl)
  rw [steady_run hw, signs_run hcode]
  refine ⟨fun hall => ?_, fun hno ls' hscans' => ?_⟩
  · obtain ⟨ls', hscans', hlegals, heq⟩ := hsteady hall
    refine ⟨w'.map .code ++ ls', (scans_run hw').mpr ⟨ls', rfl, hscans'⟩, ?_, ?_⟩
    · intro l hl
      rcases List.mem_append.mp hl with hl | hl
      · obtain ⟨c, hc, rfl⟩ := List.mem_map.mp hl
        simp [legal, hblank hcode c hc]
      · exact hlegals l hl
    · rw [signs_run (hblank hcode), hgap, heq]
  · obtain ⟨ls', rfl, hrest'⟩ := (scans_run hw').mp hscans'
    rw [signs_run (hblank hcode), hgap]
    exact hlost hno ls' hrest'

/-- White space at the end. -/
theorem Agrees.blank {gap : Bool} {w b b' : Text} (hw : ∀ c ∈ w, isWhitespace c) :
    Agrees gap b w b' [] := by
  intro ls hscans hlegal
  rw [← List.append_nil w] at hscans ⊢
  obtain ⟨ls, rfl, hrest⟩ := (scans_run hw).mp hscans
  cases hrest
  have hcode := blank_of_legal hw hlegal
  rw [steady_run hw, signs_run hcode]
  exact ⟨fun _ => ⟨[], .nil, by simp, rfl⟩, fun hno => absurd .nil hno⟩

/-! ### The tidy text -/

/-- A literal of a white character, and the one in the tidy text. -/
theorem agrees_literal {gap : Bool} {b b' u : Text} {c : Char} (hb : SameBefore b b')
    (hradix : radixBefore b = some 0) (hc : isWhitespace c)
    (ih : ∀ gap b b' v, v.length ≤ u.length → SameBefore b b' →
      Agrees gap b v b' (tidy isWhitespace '\n' v)) :
    Agrees gap b ('\'' :: c :: u) b' ('\'' :: tidy isWhitespace '\n' (c :: u)) := by
  have hplain : ∀ (d : Char) (v : Text), isWhitespace d → literalTail 0 (d :: v) = some [d] := by
    intro d v hd
    have hno : d ≠ '\\' ∧ d ≠ '\'' ∧ d ≠ '|' := by
      refine ⟨?_, ?_, ?_⟩ <;>
        · rintro rfl
          cases hd
    simp [literalTail, hno]
  have hliteral : ∀ v, literal b v = literalTail 0 v := by
    intro v
    rw [literal, hradix]
    rfl
  have hnext : Next b '\'' (c :: u) (.other ['\'', c]) u :=
    .literal rfl ((hliteral _).trans (hplain c u hc))
  have hsolid : ∀ d : Char, isLayout (.other ['\'', d]) = false := fun _ => rfl
  obtain ⟨w, r, hu, hw, hr⟩ := split_run u
  have hrun : ∀ d ∈ c :: w, isWhitespace d := List.forall_mem_cons.mpr ⟨hc, hw⟩
  have hsplit : c :: u = (c :: w) ++ r := by rw [hu]; rfl
  cases r with
  | nil =>
    -- the tidy text ends behind the quote
    rw [List.append_nil] at hsplit
    refine .lost hnext (fun hkeeps => (hkeeps rfl).1 ?_) (hsolid c) ?_
    · rw [hsplit]
      exact List.dropWhile_eq_nil_iff.mpr hrun
    · intro ls' hscans
      rw [hsplit, tidy, tidyFrom_blank hrun] at hscans
      cases hscans with
      | cons hfirst =>
        cases hfirst with
        | comment h | block h => cases h
        | literal _ h =>
          rw [← hb.literal_eq, hliteral] at h
          cases h
        | quoted _ _ h => cases h
        | code _ _ h => cases h
  | cons d r =>
    have hd := hr d rfl
    have htidy : tidy isWhitespace '\n' (c :: u) =
        squeeze '\n' (c :: w) ++ d :: tidy isWhitespace '\n' r := by
      rw [hsplit, tidy_run hrun hd]
    have hnext' : ∀ (e : Char) (v : Text), isWhitespace e →
        Next b' '\'' (e :: v) (.other ['\'', e]) v := fun e v he =>
      .literal rfl (by rw [← hb.literal_eq, hliteral, hplain e v he])
    have hwhole : (c :: u).takeWhile isWhitespace = c :: w := by
      rw [hsplit]
      exact Span.takeWhile_append_stop hrun (by simpa using hd)
    by_cases hmem : '\n' ∈ c :: w
    · rw [htidy, squeeze, if_pos hmem, List.singleton_append]
      by_cases hline : c = '\n'
      · subst hline
        have hkeeps : KeepsCharacter ('\n' :: u) := by
          refine ⟨?_, fun _ => rfl⟩
          rw [hsplit, Span.dropWhile_append_stop hrun (by simpa using hd)]
          exact List.cons_ne_nil _ _
        have hnl : ∀ c ∈ ['\n'], isWhitespace c := List.forall_mem_singleton.mpr rfl
        have hback : ∀ c ∈ w.reverse ++ ['\n'], isWhitespace c := fun c hc =>
          (List.mem_append.mp hc).elim (fun hc => hw c (List.mem_reverse.mp hc)) (hnl c)
        have hbefore : SameBefore (w.reverse ++ ['\n'] ++ '\'' :: b) (['\n'] ++ '\'' :: b') :=
          .white hback hnl (by simp) (by simp)
        rw [List.append_assoc] at hbefore
        have hrest := ih true _ _ (d :: r) (by rw [hu]; simp) hbefore
        rw [tidy_cons hd] at hrest
        refine .cons hnext (hnext' _ _ rfl) (fun _ => rfl) rfl rfl (fun _ => hkeeps) ?_
        rw [hu]
        exact .run hw (List.forall_mem_nil _) (fun _ => by simp) rfl hrest
      · -- another character
        refine .lost hnext (fun hkeeps => ?_) (hsolid c) fun ls' hscans => ?_
        · have hhead := (hkeeps rfl).2 (by rw [hwhole]; exact hmem)
          exact hline (by simpa using hhead)
        · obtain ⟨ls'', rfl, -⟩ := (scans_cons_iff (hnext' _ _ rfl)).mp hscans
          refine ⟨_, ls'', rfl, hsolid _, ?_⟩
          simpa using Ne.symm hline
    · have hkeeps : KeepsCharacter (c :: u) := by
        refine ⟨?_, fun hno => ?_⟩
        · rw [hsplit, Span.dropWhile_append_stop hrun (by simpa using hd)]
          exact List.cons_ne_nil _ _
        · rw [hwhole] at hno
          exact absurd hno hmem
      have hrest : w ++ d :: tidy isWhitespace '\n' r = tidy isWhitespace '\n' u := by
        rw [hu, tidy_run hw hd, squeeze_of_not_mem fun hno => hmem (List.mem_cons_of_mem _ hno)]
      rw [htidy, squeeze_of_not_mem hmem, List.cons_append, hrest]
      refine .cons hnext (hnext' c _ hc) (fun _ => rfl) rfl ?_ (fun _ => hkeeps) ?_
      · simp [legal]
      · exact ih _ _ _ u le_rfl (hb.append [c, '\''])

/-- A text that begins with another character than white space. -/
theorem agrees_dark {gap : Bool} {b b' t : Text} {c : Char} (hb : SameBefore b b')
    (hc : isWhitespace c = false)
    (ih : ∀ gap b b' v, v.length ≤ t.length → SameBefore b b' →
      Agrees gap b v b' (tidy isWhitespace '\n' v)) :
    Agrees gap b (c :: t) b' (c :: tidy isWhitespace '\n' t) := by
  intro ls hscans hlegal
  cases hscans with
  | @cons _ _ _ l u ls hnext hrest =>
    have hl : legal l := hlegal l (by simp)
    have hlen := hnext.shrinks
    have hfirst := hnext
    refine (?_ : Agrees gap b (c :: t) b' (c :: tidy isWhitespace '\n' t)) _ (.cons hnext hrest) hlegal
    clear hlegal hrest
    cases hnext with
    | comment hmark =>
      have hnext' := Next.comment (b := b') (t := tidy isWhitespace '\n' t) hmark
      rw [dropWhile_tidy] at hnext'
      exact .cons hfirst hnext' (fun _ => rfl) rfl rfl trivial (ih _ _ _ _ hlen ⟨rfl, rfl⟩)
    | @block last v s hslash hsymbol ht hs =>
      subst ht
      obtain ⟨last', v', s', htidy, hs', hdrop⟩ := blockComment_tidy hs
      have hshape : tidy isWhitespace '\n' ('*' :: last :: v) = '*' :: last' :: v' := by
        rw [tidy_cons rfl, htidy]
      have hnext' := Next.block (t := '*' :: last' :: v') hslash (hb.2 ▸ hsymbol) rfl hs'
      rw [hdrop, ← hshape] at hnext'
      have hends : ∀ (d : Char) {s v : Text} {last : Char}, blockComment 1 last v = some s →
          ('/' :: '*' :: d :: s).getLast? = some '/' := by
        intro d s v last hsome
        have hlast := blockComment_last hsome
        cases s with
        | nil => cases hlast
        | cons e s => simpa using hlast
      exact .cons hfirst hnext' (fun _ => rfl) rfl rfl (fun hquote => by cases hquote)
        (ih _ _ _ _ hlen (same_block (hends _ hs) (hends _ hs')))
    | @literal s hquote hs =>
      subst hquote
      obtain ⟨r, hr, htail⟩ := Option.bind_eq_some_iff.mp hs
      by_cases hdark : ∀ d ∈ s, isWhitespace d = false
      · obtain ⟨htail', hdrop, hkeeps⟩ := literalTail_tidy htail hdark
        have hnext' : Next b' '\'' (tidy isWhitespace '\n' t) (.other ('\'' :: s)) _ :=
          .literal rfl (by rw [← hb.literal_eq, literal, hr]; exact htail')
        rw [hdrop] at hnext'
        exact .cons hfirst hnext' (fun _ => rfl) rfl hl (fun _ => hkeeps)
          (ih _ _ _ _ hlen (hb.append _))
      · obtain ⟨rfl, d, v, rfl, rfl, hd⟩ := literalTail_white htail hl hdark
        exact agrees_literal hb hr hd fun gap b b' x hx hbb => ih gap b b' x (by simp; omega) hbb
    | @quoted v u hquote hliteral hbody =>
      obtain ⟨v', r', hread, hkept, hlost⟩ := body_tidy hquote hbody
      have hnone : c = '\'' → literal b' (tidy isWhitespace '\n' t) = none := by
        intro hc
        have hno := hliteral hc
        have ht : t ≠ [] := by
          rintro rfl
          cases hbody
        rw [← hb.literal_eq]
        rw [literal] at hno ⊢
        cases hradix : radixBefore b with
        | none => rfl
        | some r =>
          rw [hradix] at hno
          exact literalTail_none hno ht
      have hnext' : Next b' c (tidy isWhitespace '\n' t) (.quoted c v') r' :=
        .quoted hquote hnone hread
      by_cases hkeeps : KeepsRuns c [] t
      · obtain ⟨rfl, rfl⟩ := hkept hkeeps
        exact .cons hfirst hnext' (fun _ => rfl) rfl rfl hkeeps (ih _ _ _ _ hlen ⟨rfl, rfl⟩)
      · have hshort := hlost hkeeps
        refine .lost hfirst hkeeps rfl fun ls' hscans' => ?_
        obtain ⟨ls'', rfl, -⟩ := (scans_cons_iff hnext').mp hscans'
        refine ⟨_, ls'', rfl, rfl, fun hsame => ?_⟩
        cases hsame
        exact lt_irrefl _ hshort
    | code hmark hslash hquote =>
      have hnext' : Next b' c (tidy isWhitespace '\n' t) (.code c) (tidy isWhitespace '\n' t) := by
        refine .code hmark (fun hc hstar => ?_) hquote
        rw [← hb.2]
        exact hslash hc ((tidy_head rfl t).mp hstar)
      exact .cons hfirst hnext' (fun _ => rfl) rfl hl trivial (ih _ _ _ _ hlen (hb.cons c))

theorem agrees_tidy (gap : Bool) {b b' : Text} (hb : SameBefore b b') (t : Text) :
    Agrees gap b t b' (tidy isWhitespace '\n' t) := by
  induction hlen : t.length using Nat.strong_induction_on generalizing gap b b' t with
  | _ n ih =>
  obtain ⟨w, r, rfl, hw, hr⟩ := split_run t
  cases r with
  | nil =>
    rw [List.append_nil, tidy, tidyFrom_blank hw]
    exact .blank hw
  | cons d r =>
    have hd := hr d rfl
    have hblank : ∀ d ∈ squeeze '\n' w, isWhitespace d := squeeze_blank rfl hw
    have hempty : (squeeze '\n' w).isEmpty = w.isEmpty := by
      cases w with
      | nil => rfl
      | cons e w =>
        have hne := squeeze_ne_nil (e := '\n') (List.cons_ne_nil e w)
        simpa using hne
    rw [tidy_run hw hd]
    refine .run hw hblank (fun hcode => ?_) (by rw [hempty]) ?_
    · unfold squeeze
      split
      · exact List.forall_mem_singleton.mpr rfl
      · exact hcode
    · have hbefore : SameBefore (w.reverse ++ b) ((squeeze '\n' w).reverse ++ b') := by
        by_cases hne : w = []
        · subst hne
          exact hb
        · exact .white (fun c hc => hw c (List.mem_reverse.mp hc))
            (fun c hc => hblank c (List.mem_reverse.mp hc)) (by simpa using hne)
            (by simpa using squeeze_ne_nil hne)
      refine agrees_dark hbefore hd fun gap b b' v hv hbb => ih v.length ?_ gap hbb v rfl
      rw [← hlen]
      simp
      omega

/-- A text whose lines are trimmed says the same exactly when it keeps its white space where it
is quoted, if it says anything. -/
theorem denote_reflow_iff (t : Text) :
    (∀ d, denote t = some d → denote (reflow isWhitespace '\n' t) = some d) ↔
      ((denote t).isSome → Steady [] t) := by
  have hagrees : Agrees true [] t [] (reflow isWhitespace '\n' t) := by
    have hsplit : t = t.takeWhile isWhitespace ++ t.dropWhile isWhitespace :=
      List.takeWhile_append_dropWhile.symm
    have hw : ∀ c ∈ t.takeWhile isWhitespace, isWhitespace c := fun c hc =>
      List.mem_takeWhile_imp hc
    have hbefore : SameBefore ((t.takeWhile isWhitespace).reverse ++ []) [] := by
      by_cases hne : t.takeWhile isWhitespace = []
      · rw [hne]
        exact ⟨rfl, rfl⟩
      · exact .white_nil (fun c hc => hw c (List.mem_reverse.mp hc)) (by simpa using hne)
    have hrun : Agrees true [] (t.takeWhile isWhitespace ++ t.dropWhile isWhitespace) []
        ([] ++ tidy isWhitespace '\n' (t.dropWhile isWhitespace)) :=
      .run hw (List.forall_mem_nil _) (fun _ => by simp) rfl
        (agrees_tidy true hbefore (t.dropWhile isWhitespace))
    rw [← hsplit] at hrun
    exact hrun
  constructor
  · intro h hsome
    obtain ⟨d, hd⟩ := Option.isSome_iff_exists.mp hsome
    obtain ⟨ls, hscans, hlegal, hsigns⟩ := denote_eq_some.mp hd
    obtain ⟨ls', hscans', -, hsigns'⟩ := denote_eq_some.mp (h d hd)
    by_contra hno
    exact (hagrees ls hscans hlegal).2 hno ls' hscans' (hsigns'.trans hsigns.symm)
  · intro h d hd
    obtain ⟨ls, hscans, hlegal, rfl⟩ := denote_eq_some.mp hd
    obtain ⟨ls', hscans', hlegal', hsigns⟩ :=
      (hagrees ls hscans hlegal).1 (h (Option.isSome_iff_exists.mpr ⟨_, hd⟩))
    exact denote_eq_some.mpr ⟨ls', hscans', hlegal', hsigns⟩

end Prolog

open Prolog Transition

/-- The text that is consulted for a list of clauses. -/
def seedProlog (clauses : List String) : Option String :=
  if clauses.isEmpty then none else some (joinLines clauses)

/-- What the consulted text says; nothing is said where nothing is consulted. -/
def seedSigns (clauses : List String) : Option (List Sign) :=
  match seedProlog clauses with
  | none => some []
  | some code => denote code.toList

theorem seedSigns_eq (clauses : List String) :
    seedSigns clauses = denote (joinLines clauses).toList := by
  unfold seedSigns seedProlog
  cases clauses with
  | nil => rfl
  | cons clause clauses => rfl

/-- A request that passes the id under which the clauses were registered, while the registry has
the source, consults a text that says what the clauses say. -/
def RunsAlike (env : SourceEnv) (reg : SourceRegistry) (clauses : List String) : Prop :=
  ∀ seeds sid reg', resolvePrologSource env reg none clauses = (seeds, some sid, reg') →
    ∀ (env' : SourceEnv) (later : SourceRegistry) (other : List String),
      later.get sid = reg'.get sid → ∀ d, seedSigns seeds = some d →
        seedSigns (resolvePrologSource env' later (some sid) other).1 = some d

/-- The id of a registered text finds the text. -/
theorem register_content {hash : String → String} {newId : Uuid} {reg : SourceRegistry}
    {sourceType content : String} (hkeys : (reg.rows.map (·.sourceId)).Nodup)
    (hfresh : newId ∉ reg.rows.map (·.sourceId))
    (hheld : ∀ e ∈ reg.rows, e.contentHash = hash content → e.content = content) :
    ((reg.register hash newId sourceType content).2.get
      (reg.register hash newId sourceType content).1).map (·.content) = some content := by
  unfold SourceRegistry.register
  split
  · next e he =>
    have hmem := List.mem_of_find?_eq_some he
    have hhash := List.find?_some he
    simp only [Bool.and_eq_true, beq_iff_eq] at hhash
    have hget : reg.get e.sourceId = some e :=
      (Keyed.find_eq_some_iff hkeys).mpr ⟨hmem, rfl⟩
    rw [hget, Option.map_some, hheld e hmem hhash.1]
  · have hnone : reg.rows.find? (·.sourceId == newId) = none := by
      refine List.find?_eq_none.mpr fun e he => ?_
      have hne : e.sourceId ≠ newId := fun heq => hfresh (heq ▸ List.mem_map_of_mem he)
      simpa using hne
    simp [SourceRegistry.get, List.find?_append, hnone]

/-- What is to be compared are the joined clauses and their lines, trimmed. -/
theorem runsAlike_iff {env : SourceEnv} {reg : SourceRegistry} {clauses : List String}
    (hkeys : (reg.rows.map (·.sourceId)).Nodup)
    (hfresh : env.newPrologId ∉ reg.rows.map (·.sourceId))
    (hheld : ∀ e ∈ reg.rows, e.contentHash = env.hash (joinLines clauses) →
      e.content = joinLines clauses) :
    RunsAlike env reg clauses ↔ ∀ d, denote (joinLines clauses).toList = some d →
      denote (reflow isWhitespace '\n' (joinLines clauses).toList) = some d := by
  by_cases hempty : clauses = []
  · subst hempty
    refine iff_of_true (fun seeds sid reg' hresolve => by cases hresolve) fun d hd => hd
  have hresolve : resolvePrologSource env reg none clauses =
      (clauses, some (reg.register env.hash env.newPrologId "prolog" (joinLines clauses)).1,
        (reg.register env.hash env.newPrologId "prolog" (joinLines clauses)).2) := by
    have hno : clauses.isEmpty = false := by simpa using hempty
    simp [resolvePrologSource, registerClauses, hno]
  obtain ⟨entry, hentry, hcontent⟩ := Option.map_eq_some_iff.mp
    (@register_content _ _ _ "prolog" _ hkeys hfresh hheld)
  have hloaded : ∀ (env' : SourceEnv) (later : SourceRegistry) (other : List String) (sid : Uuid),
      later.get sid = some entry →
      seedSigns (resolvePrologSource env' later (some sid) other).1 =
        denote (reflow isWhitespace '\n' (joinLines clauses).toList) := by
    intro env' later other sid hget
    have hfst : (resolvePrologSource env' later (some sid) other).1 =
        loadedClauses entry.content := by
      simp [resolvePrologSource, hget]
    rw [hfst, seedSigns_eq, loadedClauses_text, hcontent]
  unfold RunsAlike
  rw [hresolve]
  constructor
  · intro h d hd
    rw [← hloaded env _ [] _ hentry]
    exact h _ _ _ rfl env _ [] rfl d (by rw [seedSigns_eq]; exact hd)
  · rintro h seeds sid reg' heq env' later other hget d hd
    cases heq
    rw [hloaded env' later other _ (hget.trans hentry)]
    exact h d (by rw [← seedSigns_eq]; exact hd)

def plainEnv : SourceEnv := ⟨id, ⟨1⟩, ⟨2⟩, fun _ => none⟩

end Cerebellum
