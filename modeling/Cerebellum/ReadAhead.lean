import Cerebellum.ReadBack
import Cerebellum.ClipsFields

/-! How far the term parser looks ahead: what stands behind a term it has read makes no
difference, unless it would go on with the term's last token. -/
namespace Cerebellum.Transpile

/-- Where a position of a Prolog text is. -/
inductive Within where
  | code
  | atom
  | atomEscape
  | string
  | stringEscape
  deriving DecidableEq

def Within.next : Within → Char → Within
  | code, c => if c = '\'' then atom else if c = '"' then string else code
  | atom, c => if c = '\'' then code else if c = '\\' then atomEscape else atom
  | atomEscape, _ => atom
  | string, c => if c = '"' then code else if c = '\\' then stringEscape else string
  | stringEscape, _ => string

/-- Neither goes on with a name nor is skipped behind one. -/
def endsName (c : Char) : Bool :=
  !isIdent c && !Text.isAsciiWhitespace c && c != '\'' && c != '('

/-- `w` may stand directly behind the term. -/
def EndsTerm {φ : Type} (w : Text) : Term φ → Prop
  | .atom _ => ∀ c ∈ w.head?, endsName c
  | .var _ => ∀ c ∈ w.head?, isIdent c = false
  | .integer _ => ∀ c ∈ w.head?, c.isDigit = false ∧ c ≠ '.'
  | .float _ => ∀ c ∈ w.head?, c.isDigit = false
  | .str _ | .compound _ _ => True

section Ahead
variable {φ : Type} {F : FloatText φ}

theorem quotedAtom_append {u s r w : Text} (h : quotedAtom u = .ok s r)
    (hw : r ≠ [] ∨ w.head? ≠ some '\'') : quotedAtom (u ++ w) = .ok s (r ++ w) := by
  fun_induction quotedAtom u generalizing s with
  | case1 => cases h
  | case2 u ih =>
    obtain ⟨s', hs, rfl⟩ := Parsed.map_eq_ok.mp h
    simp [quotedAtom, ih hs, Parsed.map]
  | case3 u hu =>
    simp only [Parsed.ok.injEq] at h
    obtain ⟨rfl, rfl⟩ := h
    -- behind the closing quote there is no second one
    have hnot : ∀ v, u ++ w = '\'' :: v → False := by
      intro v hv
      cases u with
      | nil =>
        rw [List.nil_append] at hv
        exact hw.elim (fun hne => hne rfl) fun hhead => hhead (by rw [hv]; rfl)
      | cons c u =>
        obtain ⟨rfl, -⟩ := List.cons.inj hv
        exact hu u rfl
    rw [List.cons_append, quotedAtom.eq_def]
    simp only [if_true]
  | case4 => cases h
  | case5 d u hq ih =>
    obtain ⟨s', hs, rfl⟩ := Parsed.map_eq_ok.mp h
    rw [List.cons_append, List.cons_append, quotedAtom_slash, ih hs]
    rfl
  | case6 c u hq hb ih =>
    obtain ⟨s', hs, rfl⟩ := Parsed.map_eq_ok.mp h
    rw [List.cons_append, quotedAtom_other hq hb, ih hs]
    rfl

theorem doubleQuoted_append {u s r : Text} (h : doubleQuoted u = .ok s r) (w : Text) :
    doubleQuoted (u ++ w) = .ok s (r ++ w) := by
  fun_induction doubleQuoted u generalizing s with
  | case1 => cases h
  | case2 u =>
    simp only [Parsed.ok.injEq] at h
    obtain ⟨rfl, rfl⟩ := h
    exact doubleQuoted_quote _
  | case3 => cases h
  | case4 d u hq ih =>
    obtain ⟨s', hs, rfl⟩ := Parsed.map_eq_ok.mp h
    rw [List.cons_append, List.cons_append, doubleQuoted_slash, ih hs]
    rfl
  | case5 c u hq hb ih =>
    obtain ⟨s', hs, rfl⟩ := Parsed.map_eq_ok.mp h
    rw [List.cons_append, doubleQuoted_other hq hb, ih hs]
    rfl

theorem skipWs_append_cons {u v : Text} {c : Char} (h : skipWs u = c :: v) (w : Text) :
    skipWs (u ++ w) = c :: (v ++ w) := by
  have hne : skipWs u ≠ [] := by simp [h]
  have happend : skipWs (u ++ w) = skipWs u ++ w := Span.dropWhile_append_left (.inl hne)
  rw [happend, h, List.cons_append]

theorem parseList_append {u r : Text} {t : Term φ} (h : parseList u = .ok t r) (w : Text) :
    parseList (u ++ w) = .ok t (r ++ w) := by
  unfold parseList at h
  split at h
  · next v hv =>
    simp only [Parsed.ok.injEq] at h
    obtain ⟨rfl, rfl⟩ := h
    rw [parseList, skipWs_append_cons hv]
    rfl
  · cases h

theorem parseUnsigned_append {minus : Bool} {u r w : Text} {t : Term φ}
    (h : parseUnsigned F minus u = .ok t r) (hw : r ≠ [] ∨ EndsTerm w t) :
    parseUnsigned F minus (u ++ w) = .ok t (r ++ w) := by
  simp only [parseUnsigned] at h
  split at h
  · next v hv =>
    have hdot : u.dropWhile Char.isDigit ≠ [] := by simp [hv]
    split at h
    · next f hf =>
      simp only [Parsed.ok.injEq] at h
      obtain ⟨rfl, rfl⟩ := h
      simp only [parseUnsigned, Span.dropWhile_append_left (.inl hdot),
        Span.takeWhile_append_left (.inl hdot), hv, List.cons_append,
        Span.dropWhile_append_left hw, Span.takeWhile_append_left hw, hf]
    · cases h
  · next hnot =>
    split at h
    · next k hk =>
      simp only [Parsed.ok.injEq] at h
      obtain ⟨rfl, rfl⟩ := h
      have hspan : u.dropWhile Char.isDigit ≠ [] ∨ ∀ c ∈ w.head?, c.isDigit = false :=
        hw.imp_right fun hends c hc => (hends c hc).1
      simp only [parseUnsigned, Span.dropWhile_append_left hspan, Span.takeWhile_append_left hspan]
      split
      · next v hv =>
        exfalso
        cases hu : u.dropWhile Char.isDigit with
        | nil =>
          rw [hu, List.nil_append] at hv
          exact (hw.resolve_left (not_not.mpr hu) '.' (by rw [hv]; rfl)).2 rfl
        | cons c x =>
          rw [hu] at hv
          obtain ⟨rfl, -⟩ := List.cons.inj hv
          exact hnot x hu
      · rw [hk]
    · cases h

theorem parseNumber_append {u r w : Text} {t : Term φ} (h : parseNumber F u = .ok t r)
    (hne : u ≠ []) (hw : r ≠ [] ∨ EndsTerm w t) : parseNumber F (u ++ w) = .ok t (r ++ w) := by
  cases u with
  | nil => exact absurd rfl hne
  | cons c u =>
    by_cases hc : c = '-'
    · subst hc
      exact parseUnsigned_append (u := u) h hw
    · have hplus : ∀ v, parseNumber F (c :: v) = parseUnsigned F false (c :: v) := by
        intro v
        simp [parseNumber, hc]
      rw [hplus] at h
      rw [List.cons_append, hplus]
      exact parseUnsigned_append (u := c :: u) h hw

/-- A loop over arguments, and one that reads the same from a longer text. -/
structure Extends (loop loop' : Text → Parsed (List (Term φ))) : Prop where
  nil : ∀ ts r, loop [] ≠ .ok ts r
  append : ∀ u ts r, loop u = .ok ts r → ∀ w, loop' (u ++ w) = .ok ts (r ++ w)

variable {loop loop' : Text → Parsed (List (Term φ))}

theorem parseArgs_append (hloop : Extends loop loop') {u r : Text} {ts : List (Term φ)}
    (h : parseArgs loop u = .ok ts r) (w : Text) : parseArgs loop' (u ++ w) = .ok ts (r ++ w) := by
  unfold parseArgs at h
  split at h
  · next v hv =>
    obtain ⟨rfl, rfl⟩ := Parsed.ok.inj h
    rw [parseArgs, skipWs_append_cons hv]
    rfl
  · next hnot =>
    cases hv : skipWs u with
    | nil =>
      rw [hv] at h
      exact absurd h (hloop.nil ts r)
    | cons c v =>
      rw [hv] at h
      have hc : c ≠ ')' := fun hc => hnot v (by rw [hv, hc])
      rw [parseArgs, skipWs_append_cons hv]
      split
      · next v' hv' => exact absurd (List.cons.inj hv').1 hc
      · exact hloop.append _ ts r h w

theorem argsTail_append (hloop : Extends loop loop') {t : Term φ} {u r : Text} {ts : List (Term φ)}
    (h : argsTail loop t u = .ok ts r) (w : Text) :
    skipWs u ≠ [] ∧ argsTail loop' t (u ++ w) = .ok ts (r ++ w) := by
  unfold argsTail at h
  split at h
  · next v hv =>
    obtain ⟨ts', hts, rfl⟩ := Parsed.map_eq_ok.mp h
    refine ⟨by simp [hv], ?_⟩
    rw [argsTail, skipWs_append_cons hv]
    exact Parsed.map_eq_ok.mpr ⟨ts', hloop.append _ _ _ hts w, rfl⟩
  · next v hv =>
    obtain ⟨rfl, rfl⟩ := Parsed.ok.inj h
    refine ⟨by simp [hv], ?_⟩
    rw [argsTail, skipWs_append_cons hv]
    rfl
  · cases h
  · cases h

theorem maybeCompound_append (hloop : Extends loop loop') {s u r w : Text} {t : Term φ}
    (h : maybeCompound loop s u = .ok t r) (hw : r ≠ [] ∨ EndsTerm w t) :
    maybeCompound loop' s (u ++ w) = .ok t (r ++ w) := by
  unfold maybeCompound at h
  split at h
  · next v hv =>
    obtain ⟨args, hargs, rfl⟩ := Parsed.map_eq_ok.mp h
    rw [maybeCompound, skipWs_append_cons hv]
    exact Parsed.map_eq_ok.mpr ⟨args, parseArgs_append hloop hargs w, rfl⟩
  · next hnot =>
    obtain ⟨rfl, rfl⟩ := Parsed.ok.inj h
    have hends : skipWs u ≠ [] ∨ ∀ c ∈ w.head?, endsName c := hw
    have hspace : ∀ c ∈ w.head?, endsName c → Text.isAsciiWhitespace c = false := by
      intro c _ hc
      simp only [endsName, Bool.and_eq_true, Bool.not_eq_true'] at hc
      exact hc.1.1.2
    have happend : skipWs (u ++ w) = skipWs u ++ w :=
      Span.dropWhile_append_left (hends.imp_right fun h c hc => hspace c hc (h c hc))
    rw [maybeCompound, happend]
    split
    · next v hv =>
      exfalso
      cases hu : skipWs u with
      | nil =>
        rw [hu, List.nil_append] at hv
        exact absurd (hends.resolve_left (not_not.mpr hu) '(' (by rw [hv]; rfl)) (by decide)
      | cons c x =>
        rw [hu] at hv
        obtain ⟨rfl, -⟩ := List.cons.inj hv
        exact hnot x hu
    · rfl

/-- A name at the end of the text is not followed by what would go on with it. -/
theorem maybeCompound_stop {s u r w : Text} {t : Term φ} (h : maybeCompound loop s u = .ok t r)
    (hw : r ≠ [] ∨ EndsTerm w t) : u ≠ [] ∨ ∀ c ∈ w.head?, endsName c := by
  cases u with
  | nil =>
    obtain ⟨rfl, rfl⟩ := Parsed.ok.inj h
    exact .inr (hw.resolve_left fun hne => hne rfl)
  | cons c u => exact .inl (by simp)

theorem endsName_iff {c : Char} : endsName c ↔
    isIdent c = false ∧ Text.isAsciiWhitespace c = false ∧ c ≠ '\'' ∧ c ≠ '(' := by
  simp [endsName, and_assoc]

theorem argsLoop_nil (n : Nat) (ts : List (Term φ)) (r : Text) : argsLoop F n [] ≠ .ok ts r := by
  intro h
  cases n with
  | zero => cases h
  | succ n =>
    rw [argsLoop] at h
    obtain ⟨t, u, ht, -⟩ := Parsed.bind_eq_ok.mp h
    cases n with
    | zero => cases ht
    | succ n => cases ht

theorem parse_append {n m : Nat} (hnm : n ≤ m) :
    (∀ u t r w, parseTerm F n u = .ok t r → r ≠ [] ∨ EndsTerm w t →
      parseTerm F m (u ++ w) = .ok t (r ++ w)) ∧ Extends (argsLoop F n) (argsLoop F m) := by
  induction n generalizing m with
  | zero =>
    refine ⟨fun u t r w h => ?_, argsLoop_nil 0, fun u ts r h => ?_⟩
    · cases h
    · cases h
  | succ n ih =>
    obtain ⟨m, rfl⟩ : ∃ k, m = k + 1 := ⟨m - 1, by omega⟩
    obtain ⟨hterm, hloop⟩ := ih (show n ≤ m by omega)
    refine ⟨fun u t r w h hw => ?_, argsLoop_nil _, fun u ts r h w => ?_⟩
    · obtain ⟨c, v, hcv, hcases⟩ := parseTerm_cases h
      rw [← parseTerm_skipWs, hcv] at h
      rw [← parseTerm_skipWs, skipWs_append_cons hcv]
      rcases hcases with ⟨rfl, -⟩ | ⟨rfl, -⟩ | ⟨rfl, -⟩ | ⟨hc, -⟩ | ⟨hc, -⟩ | ⟨hc, -⟩
      · rw [parseTerm_quote] at h ⊢
        obtain ⟨s, x, hs, hrest⟩ := Parsed.bind_eq_ok.mp h
        have hstop : x ≠ [] ∨ w.head? ≠ some '\'' :=
          (maybeCompound_stop hrest hw).imp_right fun hends hq =>
            (endsName_iff.mp (hends '\'' hq)).2.2.1 rfl
        exact Parsed.bind_eq_ok.mpr
          ⟨s, x ++ w, quotedAtom_append hs hstop, maybeCompound_append hloop hrest hw⟩
      · rw [parseTerm_string] at h ⊢
        obtain ⟨s, hs, rfl⟩ := Parsed.map_eq_ok.mp h
        exact Parsed.map_eq_ok.mpr ⟨s, doubleQuoted_append hs w, rfl⟩
      · exact parseList_append h w
      · rw [parseTerm_digit hc] at h ⊢
        exact parseNumber_append h (by simp) hw
      · rw [parseTerm_upper hc] at h ⊢
        obtain ⟨rfl, rfl⟩ := Parsed.ok.inj h
        have hspan : (c :: v).dropWhile isIdent ≠ [] ∨ ∀ d ∈ w.head?, isIdent d = false := hw
        rw [← List.cons_append, parseVariable, Span.takeWhile_append_left hspan,
          Span.dropWhile_append_left hspan]
      · rw [parseTerm_lower F hc] at h ⊢
        have hspan := (maybeCompound_stop h hw).imp_right fun hends d hd =>
          (endsName_iff.mp (hends d hd)).1
        rw [← List.cons_append, Span.takeWhile_append_left hspan, Span.dropWhile_append_left hspan]
        exact maybeCompound_append hloop h hw
    · rw [argsLoop] at h ⊢
      obtain ⟨t, x, ht, htail⟩ := Parsed.bind_eq_ok.mp h
      obtain ⟨hx, happend⟩ := argsTail_append hloop htail w
      -- a separator stands behind the argument
      have hne : x ≠ [] := fun hnil => hx (by rw [hnil]; rfl)
      exact Parsed.bind_eq_ok.mpr ⟨t, x ++ w, hterm u t x w ht (.inl hne), happend⟩

/-- A term is read the same from a longer text, and with more fuel. -/
theorem parseTerm_append {n m : Nat} (hnm : n ≤ m) {u r w : Text} {t : Term φ}
    (h : parseTerm F n u = .ok t r) (hw : r ≠ [] ∨ EndsTerm w t) :
    parseTerm F m (u ++ w) = .ok t (r ++ w) := (parse_append hnm).1 u t r w h hw

theorem ruleTerm_append {u r w : Text} {t : Term φ} (h : ruleTerm F u = .ok t r)
    (hw : r ≠ [] ∨ EndsTerm w t) : ruleTerm F (u ++ w) = .ok t (r ++ w) := by
  refine parseTerm_append ?_ h hw
  rw [List.length_append]
  omega

/-! ### A clause that is one term -/

theorem parseTerm_first {n : Nat} {u r : Text} {t : Term φ} (h : parseTerm F n u = .ok t r) :
    ∃ c v, skipWs u = c :: v ∧ c ≠ '%' := by
  cases n with
  | zero => cases h
  | succ n =>
    obtain ⟨c, v, hcv, hcases⟩ := parseTerm_cases h
    refine ⟨c, v, hcv, ?_⟩
    rintro rfl
    rcases hcases with ⟨hc, -⟩ | ⟨hc, -⟩ | ⟨hc, -⟩ | ⟨hc, -⟩ | ⟨hc, -⟩ | ⟨hc, -⟩ <;>
      exact absurd hc (by decide)

/-- Without a comment in front only white space is skipped. -/
theorem skipWsAndComments_of_ws {u v : Text} {c : Char} (h : skipWs u = c :: v) (hc : c ≠ '%') :
    skipWsAndComments false u = c :: v := by
  induction u with
  | nil => cases h
  | cons d u ih =>
    by_cases hd : Text.isAsciiWhitespace d
    · rw [skipWs, List.dropWhile_cons, if_pos hd] at h
      simpa [skipWsAndComments, hd] using ih h
    · rw [skipWs, List.dropWhile_cons, if_neg hd] at h
      obtain ⟨rfl, rfl⟩ := List.cons.inj h
      simp [skipWsAndComments, hd, hc]

theorem endsTerm_stop {t : Term φ} (hc : isCallable t) (w : Text) : EndsTerm ('.' :: w) t := by
  cases t with
  | atom s =>
    intro c hc
    obtain rfl : c = '.' := by simpa using hc.symm
    decide
  | compound functor args => trivial
  | _ => cases hc

/-- An atom or a compound with a full stop behind it is a fact. -/
theorem parseClause_fact {u : Text} {t : Term φ} (hskip : skipWs u = u)
    (h : ruleTerm F u = .ok t []) (hc : isCallable t) (w : Text) :
    parseClause F (u ++ '.' :: w) = .ok (some ⟨t, []⟩) w := by
  have hread : ruleTerm F (u ++ '.' :: w) = .ok t ('.' :: w) :=
    ruleTerm_append h (.inr (endsTerm_stop hc w))
  obtain ⟨c, v, hcv, hne⟩ := parseTerm_first h
  have hu : u = c :: v := hskip.symm.trans hcv
  have hfirst : skipWsAndComments false (u ++ '.' :: w) = u ++ '.' :: w := by
    rw [skipWsAndComments_of_ws (skipWs_append_cons hcv _) hne, hu, List.cons_append]
  unfold parseClause
  rw [hfirst]
  split
  · next hnil => simp at hnil
  · rw [hread]
    rfl

/-- At the end of the source there is no rule. -/
theorem rulesLoop_nil (n : Nat) : rulesLoop F n [] = [] := by
  cases n <;> rfl

end Ahead

end Cerebellum.Transpile
