import Cerebellum.Quoting

/-! The body of a quoted text as a relation, character by character and escape by escape. -/
namespace Cerebellum.Prolog

/-- The escapes that stand for a character. -/
def directEscape : Text → Option (Char × Text)
  | [] => none
  | c :: t =>
    match simpleEscape c with
    | some e => some (e, t)
    | none =>
      if c = 'c' || c = '\n' || c = '\r' then none
      else if c = 'u' then fixedEscape 4 t
      else if c = 'U' then fixedEscape 8 t
      else if c = 'x' then numberEscape 16 t
      else numberEscape 8 (c :: t)

def isLineBlank (c : Char) : Bool := isBlank c && c != '\n'

/-- The white space that `\c` and an escaped line end skip, and what is left. -/
def skipped : Text → Option (Text × Text)
  | [] => none
  | c :: t =>
    if c = 'c' then some (t.takeWhile isBlank, t.dropWhile isBlank)
    else if c = '\n' then some (c :: t.takeWhile isLineBlank, t.dropWhile isLineBlank)
    else if c = '\r' then
      if t.head? = some '\n' then
        some (c :: '\n' :: t.tail.takeWhile isLineBlank, t.tail.dropWhile isLineBlank)
      else some (c :: t.takeWhile isLineBlank, t.dropWhile isLineBlank)
    else none

theorem direct_or_skip {t : Text} {p : Char × Text} (h : directEscape t = some p) :
    skipped t = none := by
  cases t with
  | nil => rfl
  | cons c t =>
    rw [directEscape] at h
    have hsimple : ∀ c, (c = 'c' || c = '\n' || c = '\r') → simpleEscape c = none := by
      intro c hc
      simp only [Bool.or_eq_true, decide_eq_true_eq] at hc
      rcases hc with (rfl | rfl) | rfl <;> decide +kernel
    by_cases hc : c = 'c' || c = '\n' || c = '\r'
    · rw [hsimple c hc] at h
      simp [hc] at h
    · simp only [Bool.or_eq_true, decide_eq_true_eq, not_or] at hc
      simp [skipped, hc.1.1, hc.1.2, hc.2]

theorem directEscape_skipped {t : Text} {p : Text × Text} (h : skipped t = some p) :
    directEscape t = none := by
  by_contra hsome
  obtain ⟨e, he⟩ := Option.ne_none_iff_exists'.mp hsome
  rw [direct_or_skip he] at h
  cases h

/-- The rest of a quoted text, its value, and what follows the closing quote. -/
inductive Body (q : Char) : Text → Text → Text → Prop
  | last : Body q [q] [] []
  | close {d u} : d ≠ q → Body q (q :: d :: u) [] (d :: u)
  | double {u v r} : Body q u v r → Body q (q :: q :: u) (q :: v) r
  | plain {c u v r} : c ≠ q → c ≠ '\\' → Body q u v r → Body q (c :: u) (c :: v) r
  | direct {t e u v r} : directEscape t = some (e, u) → Body q u v r →
      Body q ('\\' :: t) (e :: v) r
  | skip {t s u v r} : skipped t = some (s, u) → u.head? ≠ some q → Body q u v r →
      Body q ('\\' :: t) v r
  | skipClose {t s r} : skipped t = some (s, q :: r) → Body q ('\\' :: t) [] r

/-- Behind what an escape skips: one more escape, the closing quote, or a character. -/
def continued (q : Char) (n : Nat) : Text → Option (Option Char × Text)
  | [] => none
  | d :: u =>
    if d = '\\' then escapeChar q n u else if d = q then some (none, u) else some (some d, u)

theorem escapeChar_eq (q : Char) (n : Nat) (t : Text) : escapeChar q (n + 1) t =
    match directEscape t with
    | some p => some (some p.1, p.2)
    | none => (skipped t).bind fun p => continued q n p.2 := by
  cases t with
  | nil => rfl
  | cons c t =>
    rw [escapeChar, directEscape, skipped]
    cases simpleEscape c with
    | some e => rfl
    | none =>
      by_cases hc : c = 'c'
      · subst hc
        rfl
      · by_cases hn : c = '\n'
        · subst hn
          rfl
        · by_cases hr : c = '\r'
          · subst hr
            by_cases ht : t.head? = some '\n'
            · simp only [ht, if_true]
              rfl
            · simp only [ht, if_false]
              rfl
          · simp only [hc, hn, hr, if_false, Bool.or_self, decide_false, Bool.false_eq_true,
              Option.bind_none]
            split_ifs
            · cases fixedEscape 4 t <;> rfl
            · cases fixedEscape 8 t <;> rfl
            · cases numberEscape 16 t <;> rfl
            · cases numberEscape 8 (c :: t) <;> rfl

theorem body_of_escape {q : Char} (hq : q ≠ '\\') {n : Nat} {t u : Text} {o : Option Char}
    (h : escapeChar q n t = some (o, u)) :
    (∀ e, o = some e → ∀ v r, Body q u v r → Body q ('\\' :: t) (e :: v) r) ∧
      (o = none → Body q ('\\' :: t) [] u) := by
  induction n generalizing t u o with
  | zero => cases h
  | succ n ih =>
    rw [escapeChar_eq] at h
    split at h
    · next p hp =>
      cases h
      refine ⟨fun e he v r hbody => ?_, fun hnone => by cases hnone⟩
      cases he
      exact .direct hp hbody
    · obtain ⟨⟨s, x⟩, hx, hcont⟩ := Option.bind_eq_some_iff.mp h
      dsimp only at hcont
      cases x with
      | nil => cases hcont
      | cons d x =>
        rw [continued] at hcont
        split_ifs at hcont with hslash hquote
        · -- one more escape
          subst hslash
          obtain ⟨hsome, hnone⟩ := ih hcont
          have hhead : ('\\' :: x).head? ≠ some q := by simpa using hq.symm
          exact ⟨fun e he v r hbody => .skip hx hhead (hsome e he v r hbody),
            fun ho => .skip hx hhead (hnone ho)⟩
        · subst hquote
          cases hcont
          exact ⟨fun e he => by (cases he), fun _ => .skipClose hx⟩
        · cases hcont
          refine ⟨fun e he v r hbody => ?_, fun hnone => by cases hnone⟩
          cases he
          exact .skip hx (by simpa using hquote) (.plain hquote hslash hbody)

theorem body_of_quotedBody {q : Char} (hq : q ≠ '\\') {n : Nat} {t v r : Text}
    (h : quotedBody q n t = some (v, r)) : Body q t v r := by
  induction n generalizing t v r with
  | zero => cases h
  | succ n ih =>
    cases t with
    | nil => cases h
    | cons c t =>
      unfold quotedBody at h
      split_ifs at h with hquote hslash
      · subst hquote
        cases t with
        | nil =>
          cases h
          exact .last
        | cons d u =>
          dsimp only at h
          split_ifs at h with hd
          · subst hd
            obtain ⟨⟨v', r'⟩, hbody, hp⟩ := Option.map_eq_some_iff.mp h
            cases hp
            exact .double (ih hbody)
          · cases h
            exact .close hd
      · subst hslash
        split at h
        · next e u he =>
          obtain ⟨⟨v', r'⟩, hbody, hp⟩ := Option.map_eq_some_iff.mp h
          cases hp
          exact (body_of_escape hq he).1 e rfl _ _ (ih hbody)
        · next u he =>
          cases h
          exact (body_of_escape hq he).2 rfl
        · cases h
      · obtain ⟨⟨v', r'⟩, hbody, hp⟩ := Option.map_eq_some_iff.mp h
        cases hp
        exact .plain hquote hslash (ih hbody)

theorem skipped_length {t s u : Text} (h : skipped t = some (s, u)) : u.length < t.length := by
  have hdrop : ∀ (p : Char → Bool) (t : Text), (t.dropWhile p).length ≤ t.length := fun p t =>
    (List.dropWhile_sublist p).length_le
  cases t with
  | nil => cases h
  | cons c t =>
    rw [skipped] at h
    split_ifs at h
    all_goals (cases h; rw [List.length_cons])
    · exact Nat.lt_succ_of_le (hdrop _ _)
    · exact Nat.lt_succ_of_le (hdrop _ _)
    · exact Nat.lt_succ_of_le ((hdrop _ _).trans (by simp))
    · exact Nat.lt_succ_of_le (hdrop _ _)

/-- What an escape stands for, with the rest of the text behind it. -/
theorem escape_of_body {q : Char} (hq : q ≠ '\\') {n : Nat} {t v r : Text} (hn : t.length ≤ n)
    (h : Body q ('\\' :: t) v r) : (∃ e u v', escapeChar q n t = some (some e, u) ∧
        u.length < t.length ∧ v = e :: v' ∧ Body q u v' r) ∨
      (escapeChar q n t = some (none, r) ∧ v = []) := by
  induction n generalizing t v r with
  | zero =>
    obtain rfl : t = [] := List.eq_nil_of_length_eq_zero (by omega)
    generalize hx : ('\\' : Char) :: [] = x at h
    cases h with
    | last => exact absurd (List.cons.inj hx).1.symm hq
    | close | double => cases hx
    | plain _ hslash => exact absurd (List.cons.inj hx).1.symm hslash
    | direct hdirect =>
      cases hx
      cases hdirect
    | skip hskip | skipClose hskip =>
      cases hx
      cases hskip
  | succ n ih =>
    rw [escapeChar_eq]
    generalize hx : '\\' :: t = x at h
    cases h with
    | last | close | double => exact absurd (List.cons.inj hx).1.symm hq
    | plain _ hslash => exact absurd (List.cons.inj hx).1.symm hslash
    | @direct t' e u v _ hdirect hbody =>
      cases hx
      have hlen : u.length < t.length := by
        have hesc : escapeChar q 1 t = some (some e, u) := by
          rw [escapeChar_eq, hdirect]
        exact escapeChar_length hesc
      rw [hdirect]
      exact .inl ⟨e, u, v, rfl, hlen, rfl, hbody⟩
    | @skip t' s u _ _ hskip hhead hbody =>
      cases hx
      have hlen := skipped_length hskip
      rw [directEscape_skipped hskip, hskip]
      cases u with
      | nil => cases hbody
      | cons d u =>
        rw [List.length_cons] at hlen
        by_cases hslash : d = '\\'
        · subst hslash
          -- one more escape
          rcases ih (by omega) hbody with ⟨e, w, v', hesc, hw, hv, hrest⟩ | ⟨hesc, hv⟩
          · exact .inl ⟨e, w, v', by simpa [continued] using hesc, by omega, hv, hrest⟩
          · exact .inr ⟨by simpa [continued] using hesc, hv⟩
        · have hdq : d ≠ q := by simpa using hhead
          cases hbody with
          | last | close | double => exact absurd rfl hdq
          | plain _ _ hrest =>
            exact .inl ⟨d, u, _, by simp [continued, hslash, hdq], by omega, rfl, hrest⟩
          | direct | skip | skipClose => exact absurd rfl hslash
    | @skipClose t' s r hskip =>
      cases hx
      rw [directEscape_skipped hskip, hskip]
      exact .inr ⟨by simp [continued, hq], rfl⟩

theorem quotedBody_of_body {q : Char} (hq : q ≠ '\\') {n : Nat} {t v r : Text}
    (hn : t.length ≤ n) (h : Body q t v r) : quotedBody q n t = some (v, r) := by
  induction n generalizing t v r with
  | zero =>
    obtain rfl : t = [] := List.eq_nil_of_length_eq_zero (by omega)
    cases h
  | succ n ih =>
    have hescape : ∀ t, t.length ≤ n → Body q ('\\' :: t) v r →
        quotedBody q (n + 1) ('\\' :: t) = some (v, r) := by
      intro t ht hbody
      unfold quotedBody
      rw [if_neg hq.symm, if_pos rfl]
      rcases escape_of_body hq le_rfl hbody with ⟨e, u, v', hesc, hu, rfl, hrest⟩ | ⟨hesc, rfl⟩
      · simp only [hesc]
        rw [ih (by omega) hrest]
        rfl
      · simp only [hesc]
    have hbody := h
    cases h with
    | last => simp [quotedBody]
    | close hd => simp [quotedBody, hd]
    | double hrest =>
      simp only [List.length_cons] at hn
      simp [quotedBody, ih (by omega) hrest]
    | plain hne hslash hrest =>
      simp only [List.length_cons] at hn
      simp [quotedBody, hne, hslash, ih (by omega) hrest]
    | direct | skip | skipClose => exact hescape _ (by simpa using hn) hbody

end Cerebellum.Prolog
