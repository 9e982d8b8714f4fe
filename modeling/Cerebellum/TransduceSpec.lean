import Cerebellum.Transduce
import Cerebellum.TranspileSpec

/-! The head of a rule as the generated goal text: which heads the term parser reads back from
that text, under which values of their variables. -/
namespace Cerebellum.Transpile

/-- What a variable is instantiated with. -/
inductive Value where
  | atom (s : Text)
  | integer (n : Int64)
  | str (s : Text)

namespace Value
variable {φ : Type}

def term : Value → Term φ
  | atom s => .atom s
  | integer n => .integer n
  | str s => .str s

/-- The characters of the value, without quotes. -/
def chars : Value → Text
  | atom s => s
  | integer n => i64Text n
  | str s => s

/-- The value can be written by its characters alone. -/
def Bare : Value → Prop
  | atom s => IsName s ∨ s = "[]".toList
  | integer _ => True
  | str _ => False

instance : (v : Value) → Decidable v.Bare
  | atom s => inferInstanceAs (Decidable (IsName s ∨ s = "[]".toList))
  | integer _ => isTrue trivial
  | str _ => isFalse id

theorem term_ne_var (v : Value) (x : Text) : (v.term : Term φ) ≠ .var x := by
  cases v <;> simp [term]

end Value

section Subst
variable {φ : Type} (σ : Text → Value)

mutual
def subst : Term φ → Term φ
  | .var x => (σ x).term
  | .compound functor args => .compound functor (substList args)
  | t => t
def substList : List (Term φ) → List (Term φ)
  | [] => []
  | t :: ts => subst t :: substList ts
end

end Subst

/-! ### Names -/

theorem mem_collectVarsList {φ : Type} {ts : List (Term φ)} {x : Text} :
    x ∈ collectVarsList ts ↔ ∃ t ∈ ts, x ∈ collectVars t := by
  induction ts with
  | nil => simp [collectVarsList]
  | cons t ts ih => simp [collectVarsList, ih]

/-- A variable as the parsers read it. -/
def IsVarName (s : Text) : Prop := (∃ c ∈ s.head?, c.isUpper ∨ c = '_') ∧ ∀ c ∈ s, isIdent c

/-- A name that CLIPS and the term parser take as it is between quotes of either kind. -/
def plainName (s : Text) : Bool :=
  s.all fun c => c.toNat < 128 && c != '"' && c != '\\' && c != '\''

mutual
/-- No string, and no name that would need escaping. -/
def plainTerm {φ : Type} : Term φ → Bool
  | .atom s => plainName s
  | .str _ => false
  | .compound functor args => plainName functor && plainTerms args
  | _ => true
def plainTerms {φ : Type} : List (Term φ) → Bool
  | [] => true
  | t :: ts => plainTerm t && plainTerms ts
end

theorem isIdent_iff {c : Char} : isIdent c ↔ c.isUpper ∨ c.isLower ∨ c.isDigit ∨ c = '_' := by
  simp [isIdent, Char.isAlphanum, isAlpha_iff, or_assoc]

theorem ident_ascii {c : Char} (h : isIdent c) : c.toNat < 128 := by
  rcases isIdent_iff.mp h with h | h | h | rfl
  · have := isUpper_iff.mp h
    omega
  · have := isLower_iff.mp h
    omega
  · have := isDigit_iff.mp h
    omega
  · decide

theorem IsName.ascii {s : Text} (h : IsName s) : Text.IsAscii s :=
  fun c hc => ident_ascii (h.2 c hc)

section Literals
variable {φ : Type} {F : FloatText φ}

theorem plainName_mem {s : Text} (h : plainName s) {c : Char} (hc : c ∈ s) :
    c.toNat < 128 ∧ c ≠ '"' ∧ c ≠ '\\' ∧ c ≠ '\'' := by
  simpa [and_assoc] using List.all_eq_true.mp h c hc

theorem escape_plain {s : Text} (h : plainName s) {q : Char} (hq : q = '\'' ∨ q = '"') :
    escape q s = s := by
  induction s with
  | nil => rfl
  | cons c s ih =>
    obtain ⟨-, h1, h2, h3⟩ := plainName_mem h (c := c) (by simp)
    have hs : plainName s := by
      simp only [plainName, List.all_cons, Bool.and_eq_true] at h
      exact h.2
    have hne : (c = '\\' || c = q) = false := by rcases hq with rfl | rfl <;> simp [h1, h2, h3]
    rw [escape, List.flatMap_cons, hne]
    exact congrArg (c :: ·) (ih hs)

/-- A quoted name is read up to its closing quote. -/
theorem quotedAtom_plain {s : Text} (h : plainName s) {u : Text} (hu : u.head? ≠ some '\'') :
    quotedAtom (s ++ '\'' :: u) = .ok s u := by
  induction s with
  | nil =>
    rw [List.nil_append, quotedAtom.eq_def]
    simp only [if_true]
    split
    · simp at hu
    · rfl
  | cons c s ih =>
    obtain ⟨-, -, h2, h3⟩ := plainName_mem h (c := c) (by simp)
    have hs : plainName s := by
      simp only [plainName, List.all_cons, Bool.and_eq_true] at h
      exact h.2
    rw [List.cons_append, quotedAtom.eq_def]
    simp only [h3, h2, if_false, ih hs]
    rfl

/-- An atom is written without quotes although it reads as a variable. -/
def looksLikeVar (s : Text) : Bool := s.head? == some '_' && !prologAtomNeedsQuoting s

/-- A name written bare reads back, unless it looks like a variable. -/
theorem bare_name {s : Text} (h : plainName s) (hq : prologAtomNeedsQuoting s = false) :
    (IsName s ∧ looksLikeVar s = false) ∨ (IsVarName s ∧ looksLikeVar s = true) := by
  simp only [prologAtomNeedsQuoting, Bool.or_eq_false_iff, List.isEmpty_eq_false_iff] at hq
  obtain ⟨⟨hne, hfirst⟩, hall⟩ := hq
  have hident : ∀ c ∈ s, isIdent c := by
    intro c hc
    have hascii := (plainName_mem h hc).1
    have := List.any_eq_false.mp hall c hc
    simp only [Text.isAlphanumeric, Bool.and_eq_true, Bool.not_eq_true', bne_iff_ne, ne_eq,
      not_and, Decidable.not_not, Bool.or_eq_false_iff, Bool.and_eq_false_iff] at this
    by_cases ha : c.isAlphanum
    · simp [isIdent, ha]
    · have hu : c = '_' := by
        refine this ?_
        simp [ha]
        omega
      simp [hu, isIdent]
  cases s with
  | nil => exact absurd rfl hne
  | cons c s =>
    simp only [List.head?_cons, Option.any_some, Bool.or_eq_false_iff] at hfirst
    rcases isIdent_iff.mp (hident c (by simp)) with hc | hc | hc | hc
    · simp [hc] at hfirst
    · refine .inl ⟨⟨⟨c, rfl, hc⟩, hident⟩, ?_⟩
      have hne : c ≠ '_' := by
        rintro rfl
        exact absurd hc (by decide)
      simp [looksLikeVar, hne]
    · simp [hc] at hfirst
    · subst hc
      refine .inr ⟨⟨⟨'_', rfl, .inr rfl⟩, hident⟩, ?_⟩
      simp [looksLikeVar, prologAtomNeedsQuoting]
      simpa using hall

theorem isVarName_cons {s : Text} (h : IsVarName s) :
    ∃ c u, s = c :: u ∧ (c.isUpper ∨ c = '_') := by
  obtain ⟨⟨c, hc, hup⟩, -⟩ := h
  cases s with
  | nil => simp at hc
  | cons d u => exact ⟨d, u, rfl, by simp_all⟩

theorem parseTerm_upper {c : Char} (h : c.isUpper ∨ c = '_') (n : Nat) (u : Text) :
    parseTerm F (n + 1) (c :: u) = parseVariable (c :: u) := by
  rcases h with h | rfl
  · have hc := isUpper_iff.mp h
    have hother : ∀ d : Char, d.toNat < 65 ∨ 90 < d.toNat → c ≠ d := fun d hd he => by
      rw [he] at hc
      omega
    have hdigit : c.isDigit = false := by
      simp only [Bool.eq_false_iff, ne_eq, isDigit_iff]
      omega
    have hws : Text.isAsciiWhitespace c = false := by
      simp [Text.isAsciiWhitespace, hother ' ' (by decide), hother '\t' (by decide),
        hother '\n' (by decide), hother '\x0C' (by decide), hother '\r' (by decide)]
    rw [parseTerm, skipWs_cons hws]
    simp [hother '\'' (by decide), hother '"' (by decide), hother '[' (by decide),
      hother '-' (by decide), hdigit, h]
  · rfl

theorem parseTerm_varName {s : Text} (h : IsVarName s) (n : Nat) {u : Text}
    (hu : ∀ c ∈ u.head?, isIdent c = false) : parseTerm F (n + 1) (s ++ u) = .ok (.var s) u := by
  obtain ⟨c, v, rfl, hup⟩ := isVarName_cons h
  rw [List.cons_append, parseTerm_upper hup, ← List.cons_append, parseVariable,
    Span.takeWhile_append_stop h.2 hu, Span.dropWhile_append_stop h.2 hu]

theorem reads_var {s : Text} (h : IsVarName s) : Reads F s (.var s) := by
  intro fuel w hfuel hw
  obtain ⟨n, rfl⟩ : ∃ n, fuel = n + 1 := ⟨fuel - 1, by omega⟩
  exact parseTerm_varName h n fun c hc => sep_not_ident (hw c hc)

/-- A functor or an atom, up to what follows its text. -/
theorem parseTerm_atomRender {s : Text} (h : plainName s) (n : Nat) {u : Text}
    (hu : ∀ c ∈ u.head?, isIdent c = false ∧ c ≠ '\'') :
    parseTerm F (n + 1) (prologAtomRender s ++ u) =
      if looksLikeVar s then .ok (.var s) u else maybeCompound (argsLoop F n) s u := by
  unfold prologAtomRender
  by_cases hq : prologAtomNeedsQuoting s
  · have hlooks : looksLikeVar s = false := by simp [looksLikeVar, hq]
    have hhead : u.head? ≠ some '\'' := fun hh => (hu '\'' hh).2 rfl
    have htext : '\'' :: escape '\'' s ++ ['\''] ++ u = '\'' :: (s ++ '\'' :: u) := by
      simp [escape_plain h (.inl rfl)]
    rw [if_pos hq, hlooks, htext, parseTerm, skipWs_cons rfl]
    simp [quotedAtom_plain h hhead, Parsed.bind]
  · have hq' : prologAtomNeedsQuoting s = false := by simpa using hq
    rw [if_neg hq]
    rcases bare_name h hq' with ⟨hname, hlooks⟩ | ⟨hvar, hlooks⟩
    · rw [parseTerm_name hname n fun c hc => (hu c hc).1]
      simp [hlooks]
    · rw [parseTerm_varName hvar n fun c hc => (hu c hc).1]
      simp [hlooks]

variable (F)

mutual
/-- A ground term whose text the term parser reads as that term: no variable, no string, no
name that looks like a variable, no float without a point. -/
def readsBack : Term φ → Bool
  | .atom s => !looksLikeVar s
  | .var _ => false
  | .integer _ => true
  | .float f => (F.display f).contains '.'
  | .str _ => false
  | .compound functor args => !looksLikeVar functor && readsBackAll args
def readsBackAll : List (Term φ) → Bool
  | [] => true
  | t :: ts => readsBack t && readsBackAll ts
end

variable {F}

theorem ensurePrologVar_varName {s : Text} (h : IsVarName s) : ensurePrologVar s = s := by
  obtain ⟨c, u, rfl, hup⟩ := isVarName_cons h
  simpa [ensurePrologVar] using fun h1 h2 => (hup.elim (by simp [h1]) h2).elim

theorem maybeCompound_paren (loop : Text → Parsed (List (Term φ))) (s u : Text) :
    maybeCompound loop s ('(' :: u) = (parseArgs loop u).map (.compound s) := rfl

/-- A compound is read by its functor and then argument by argument. -/
theorem parseTerm_compound {functor : Text} (hplain : plainName functor) {us : List Text}
    {ts : List (Term φ)} (h : List.Forall₂ (fun u t => Reads F u t ∨ Never F u t) us ts)
    {fuel : Nat} {w r : Text}
    (hfuel : (prologAtomRender functor ++ '(' :: Text.join [','] us ++ [')']).length < fuel) :
    parseTerm F fuel (prologAtomRender functor ++ '(' :: Text.join [','] us ++ [')'] ++ w) =
        .ok (.compound functor ts) r ↔
      looksLikeVar functor = false ∧ List.Forall₂ (Reads F) us ts ∧ r = w := by
  obtain ⟨n, rfl⟩ : ∃ n, fuel = n + 1 := ⟨fuel - 1, by omega⟩
  simp only [List.length_append, List.length_cons, List.length_nil] at hfuel
  have htext : prologAtomRender functor ++ '(' :: Text.join [','] us ++ [')'] ++ w =
      prologAtomRender functor ++ ('(' :: (Text.join [','] us ++ ')' :: w)) := by simp
  rw [htext, parseTerm_atomRender hplain n (by simp; decide)]
  cases looksLikeVar functor with
  | true => simp
  | false =>
    have hargs : parseArgs (argsLoop F n) (Text.join [','] us ++ ')' :: w) = .ok ts r ↔
        List.Forall₂ (Reads F) us ts ∧ r = w := parseArgs_iff h (by omega)
    rw [← hargs, if_neg (by simp), maybeCompound_paren, Parsed.map_eq_ok]
    simp

mutual
theorem literal_reads (σ : Text → Value) : (t : Term φ) → plainTerm t →
    (∀ x ∈ collectVars t, IsVarName x) →
    (readsBack F t = true → Reads F (renderPrologTerm F t) (subst σ t)) ∧
      (readsBack F t = false → Never F (renderPrologTerm F t) (subst σ t))
  | .atom s, hplain, _ => by
    simp only [plainTerm] at hplain
    simp only [readsBack, renderPrologTerm, subst, Bool.not_eq_true', Bool.not_eq_false']
    have hread : ∀ fuel w, (prologAtomRender s).length < fuel → Follows w →
        parseTerm F fuel (prologAtomRender s ++ w) =
          if looksLikeVar s then .ok (.var s) w else .ok (.atom s) w := by
      intro fuel w hfuel hw
      obtain ⟨n, rfl⟩ : ∃ n, fuel = n + 1 := ⟨fuel - 1, by omega⟩
      rw [parseTerm_atomRender hplain n, maybeCompound_follows hw]
      intro c hc
      refine ⟨sep_not_ident (hw c hc), ?_⟩
      rcases hw c hc with rfl | rfl <;> decide
    constructor
    · intro hlooks fuel w hfuel hw
      rw [hread fuel w hfuel hw, hlooks]
      rfl
    · intro hlooks fuel w r hfuel hw
      rw [hread fuel w hfuel hw, hlooks]
      simp
  | .var x, _, hvars => by
    have hx : IsVarName x := hvars x (by simp [collectVars])
    simp only [readsBack, renderPrologTerm, subst, ensurePrologVar_varName hx]
    exact ⟨by simp, fun _ => (reads_var hx).never_of_ne ((σ x).term_ne_var x).symm⟩
  | .integer k, _, _ => ⟨fun _ => reads_integer k, by simp [readsBack]⟩
  | .float f, _, _ => by
    simp only [readsBack, renderPrologTerm, subst, List.contains_iff_mem,
      ← Bool.not_eq_true]
    exact ⟨reads_float, never_float⟩
  | .str s, hplain, _ => by simp [plainTerm] at hplain
  | .compound functor args, hplain, hvars => by
    simp only [plainTerm, Bool.and_eq_true] at hplain
    have hvarsArgs : ∀ x ∈ collectVarsList args, IsVarName x :=
      fun x hx => hvars x (by simpa [collectVars] using hx)
    obtain ⟨hdich, hall⟩ := literals_read σ args hplain.2 hvarsArgs
    simp only [readsBack, renderPrologTerm, subst, Bool.and_eq_true, Bool.not_eq_true']
    constructor
    · rintro ⟨hlooks, hback⟩ fuel w hfuel hw
      exact (parseTerm_compound hplain.1 hdich hfuel).mpr ⟨hlooks, hall.mpr hback, rfl⟩
    · intro hback fuel w r hfuel hw heq
      obtain ⟨hlooks, hreads, -⟩ := (parseTerm_compound hplain.1 hdich hfuel).mp heq
      simp [hlooks, hall.mp hreads] at hback
theorem literals_read (σ : Text → Value) : (ts : List (Term φ)) → plainTerms ts →
    (∀ x ∈ collectVarsList ts, IsVarName x) →
    List.Forall₂ (fun u t => Reads F u t ∨ Never F u t) (renderPrologTerms F ts) (substList σ ts) ∧
      (List.Forall₂ (Reads F) (renderPrologTerms F ts) (substList σ ts) ↔ readsBackAll F ts = true)
  | [], _, _ => by simp [renderPrologTerms, substList, readsBackAll]
  | t :: ts, hplain, hvars => by
    simp only [plainTerms, Bool.and_eq_true] at hplain
    simp only [collectVarsList, List.mem_append] at hvars
    obtain ⟨hyes, hno⟩ := literal_reads σ t hplain.1 fun x hx => hvars x (.inl hx)
    obtain ⟨hdich, hall⟩ := literals_read σ ts hplain.2 fun x hx => hvars x (.inr hx)
    simp only [renderPrologTerms, substList, readsBackAll, List.forall₂_cons, Bool.and_eq_true, hall]
    refine ⟨⟨?_, hdich⟩, ?_⟩
    · cases hb : readsBack F t with
      | true => exact .inl (hyes hb)
      | false => exact .inr (hno hb)
    · refine and_congr_left fun _ => ⟨fun hr => ?_, hyes⟩
      by_contra hb
      exact hr.not_never (hno (by simpa using hb))
end

/-! ### The text of a literal -/

/-- Text that CLIPS reads as it is between double quotes, and that is its own bytes. -/
def Plain (s : Text) : Prop := ∀ c ∈ s, c.toNat < 128 ∧ c ≠ '"' ∧ c ≠ '\\'

theorem Plain.append {s t : Text} (hs : Plain s) (ht : Plain t) : Plain (s ++ t) := by
  intro c hc
  rcases List.mem_append.mp hc with h | h
  · exact hs c h
  · exact ht c h

theorem Plain.cons {c : Char} (hc : c.toNat < 128 ∧ c ≠ '"' ∧ c ≠ '\\') {s : Text} (hs : Plain s) :
    Plain (c :: s) := by
  intro d hd
  rcases List.mem_cons.mp hd with rfl | h
  · exact hc
  · exact hs d h

theorem plain_singleton {c : Char} (hc : c.toNat < 128 ∧ c ≠ '"' ∧ c ≠ '\\') : Plain [c] :=
  Plain.cons hc (by simp [Plain])

theorem Plain.ascii {s : Text} (h : Plain s) : Text.IsAscii s := fun c hc => (h c hc).1

theorem plain_of_name {s : Text} (h : plainName s) : Plain s := fun _ hc =>
  let ⟨h1, h2, h3, _⟩ := plainName_mem h hc
  ⟨h1, h2, h3⟩

theorem plain_of_ident {s : Text} (h : ∀ c ∈ s, isIdent c) : Plain s := by
  intro c hc
  refine ⟨ident_ascii (h c hc), ?_, ?_⟩ <;>
    (rintro rfl; exact absurd (h _ hc) (by decide))

theorem plain_join {us : List Text} (h : ∀ u ∈ us, Plain u) : Plain (Text.join [','] us) := by
  induction us with
  | nil => simp [Plain]
  | cons u us ih =>
    cases us with
    | nil => simpa using h u
    | cons v us =>
      rw [Text.join_cons]
      refine ((h u (by simp)).append ?_).append (ih fun w hw => h w (by simp [hw]))
      exact plain_singleton (by decide)

theorem plain_i64Text (k : Int64) : Plain (i64Text k) := by
  intro c hc
  rw [i64Text, List.mem_append] at hc
  rcases hc with hc | hc
  · split at hc
    · obtain rfl : c = '-' := by simpa using hc
      decide
    · simp at hc
  · have hd := isDigit_iff.mp (Nat.isDigit_of_mem_toDigits (by decide) (by decide) hc)
    refine ⟨by omega, ?_, ?_⟩ <;> (rintro rfl; revert hd; decide)

theorem plain_display (f : φ) : Plain (F.display f) := by
  intro c hc
  have h := F.display_chars f c hc
  simp only [Bool.or_eq_true, beq_iff_eq] at h
  rcases h with (h | rfl) | rfl
  · have hident : isIdent c := by simp [isIdent, h]
    exact plain_of_ident (s := [c]) (by simpa using hident) c (by simp)
  · decide
  · decide

theorem plain_atomRender {s : Text} (h : plainName s) : Plain (prologAtomRender s) := by
  unfold prologAtomRender
  split
  · rw [escape_plain h (.inl rfl)]
    exact Plain.cons (by decide) ((plain_of_name h).append (plain_singleton (by decide)))
  · exact plain_of_name h

mutual
theorem plain_render : (t : Term φ) → plainTerm t → (∀ x ∈ collectVars t, IsVarName x) →
    Plain (renderPrologTerm F t)
  | .atom s, h, _ => by
    simp only [plainTerm] at h
    exact plain_atomRender h
  | .var x, _, hvars => by
    have hx : IsVarName x := hvars x (by simp [collectVars])
    rw [renderPrologTerm, ensurePrologVar_varName hx]
    exact plain_of_ident hx.2
  | .integer k, _, _ => plain_i64Text k
  | .float f, _, _ => plain_display f
  | .str s, h, _ => by simp [plainTerm] at h
  | .compound functor args, h, hvars => by
    simp only [plainTerm, Bool.and_eq_true] at h
    have hargs := plain_renders args h.2 fun x hx => hvars x (by simpa [collectVars] using hx)
    rw [renderPrologTerm]
    refine ((plain_atomRender h.1).append (Plain.cons (by decide) (plain_join hargs))).append ?_
    exact plain_singleton (by decide)
theorem plain_renders : (ts : List (Term φ)) → plainTerms ts →
    (∀ x ∈ collectVarsList ts, IsVarName x) → ∀ u ∈ renderPrologTerms F ts, Plain u
  | [], _, _ => by simp [renderPrologTerms]
  | t :: ts, h, hvars => by
    simp only [plainTerms, Bool.and_eq_true] at h
    simp only [collectVarsList, List.mem_append] at hvars
    intro u hu
    simp only [renderPrologTerms, List.mem_cons] at hu
    rcases hu with rfl | hu
    · exact plain_render t h.1 fun x hx => hvars x (.inl hx)
    · exact plain_renders ts h.2 (fun x hx => hvars x (.inr hx)) u hu
end

theorem plainTerms_mem {ts : List (Term φ)} (h : plainTerms ts) {t : Term φ} (ht : t ∈ ts) :
    plainTerm t := by
  induction ts with
  | nil => simp at ht
  | cons s ts ih =>
    simp only [plainTerms, Bool.and_eq_true] at h
    rcases List.mem_cons.mp ht with rfl | ht
    · exact h.1
    · exact ih h.2 ht

/-! ### The goal text of a head -/

theorem value_reads (v : Value) : (v.Bare → Reads F (Text.asBytes v.chars) v.term) ∧
    (¬ v.Bare → Never F (Text.asBytes v.chars) v.term) := by
  cases v with
  | atom s =>
    refine ⟨?_, fun h => never_atom (fun hn => h (.inl hn)) fun hn => h (.inr hn)⟩
    rintro (h | rfl)
    · rw [Value.chars, Text.asBytes_ascii h.ascii]
      exact reads_name h
    · exact reads_emptyList
  | integer k =>
    refine ⟨fun _ => ?_, fun h => absurd trivial h⟩
    rw [Value.chars, Text.asBytes_ascii (plain_i64Text k).ascii]
    exact reads_integer k
  | str s => exact ⟨fun h => h.elim, fun _ => never_str s⟩

variable (F) (σ : Text → Value)

/-- An argument of the head in the goal text: a variable by the characters of its value. -/
def argText : Term φ → Text
  | .var x => (σ x).chars
  | t => renderPrologTerm F t

/-- The text of the head once the fields are filled in. -/
def headText : Term φ → Text
  | .atom s => s
  | .compound functor args =>
    functor ++ '(' :: Text.join [','] (args.map (argText F σ)) ++ [')']
  | t => renderPrologTerm F t

/-- An argument that the goal text hands over. -/
def ArgOk : Term φ → Prop
  | .var x => (σ x).Bare
  | t => readsBack F t

/-- A head that the goal text hands over. -/
def HeadOk : Term φ → Prop
  | .atom s => IsName s ∨ s = "[]".toList
  | .compound functor args => IsName functor ∧ ∀ a ∈ args, ArgOk F σ a
  | t => readsBack F t

variable {F σ}

theorem arg_reads {a : Term φ} (hplain : plainTerm a) (hvars : ∀ x ∈ collectVars a, IsVarName x) :
    (ArgOk F σ a → Reads F (Text.asBytes (argText F σ a)) (subst σ a)) ∧
      (¬ ArgOk F σ a → Never F (Text.asBytes (argText F σ a)) (subst σ a)) := by
  cases a with
  | var x => exact value_reads (σ x)
  | _ =>
    have hlit := literal_reads (F := F) σ _ hplain hvars
    have hascii := Text.asBytes_ascii (plain_render (F := F) _ hplain hvars).ascii
    simp only [ArgOk, argText, hascii, Bool.not_eq_true]
    exact hlit

theorem args_read {args : List (Term φ)} (hplain : plainTerms args)
    (hvars : ∀ x ∈ collectVarsList args, IsVarName x) :
    List.Forall₂ (fun u t => Reads F u t ∨ Never F u t)
        (args.map fun a => Text.asBytes (argText F σ a)) (substList σ args) ∧
      (List.Forall₂ (Reads F) (args.map fun a => Text.asBytes (argText F σ a)) (substList σ args) ↔
        ∀ a ∈ args, ArgOk F σ a) := by
  induction args with
  | nil => simp [substList]
  | cons a args ih =>
    simp only [plainTerms, Bool.and_eq_true] at hplain
    simp only [collectVarsList, List.mem_append] at hvars
    obtain ⟨hyes, hno⟩ := arg_reads (F := F) (σ := σ) hplain.1 fun x hx => hvars x (.inl hx)
    obtain ⟨hdich, hall⟩ := ih hplain.2 fun x hx => hvars x (.inr hx)
    simp only [List.map_cons, substList, List.forall₂_cons, hall, List.forall_mem_cons]
    refine ⟨⟨?_, hdich⟩, and_congr_left fun _ => ⟨fun hr => ?_, hyes⟩⟩
    · by_cases hok : ArgOk F σ a
      · exact .inl (hyes hok)
      · exact .inr (hno hok)
    · by_contra hok
      exact hr.not_never (hno hok)

theorem Parsed.toExcept_eq_ok {α : Type} {p : Parsed α} {a : α} :
    p.toExcept = .ok a ↔ ∃ r, p = .ok a r := by
  cases p <;> simp [Parsed.toExcept]

theorem parsePrologTerm_eq_ok {s : Text} {t : Term φ} : parsePrologTerm F s = .ok t ↔
    ∃ r, parseTerm F ((Text.asBytes (Text.trim s)).length + 1) (Text.asBytes (Text.trim s)) =
      .ok t r :=
  Parsed.toExcept_eq_ok

/-- A text read at its end is read when nothing follows it. -/
theorem parsePrologTerm_dich {s : Text} {t : Term φ} {good : Prop} (htrim : Text.trim s = s)
    (hyes : good → Reads F (Text.asBytes s) t) (hno : ¬ good → Never F (Text.asBytes s) t) :
    parsePrologTerm F s = .ok t ↔ good := by
  rw [parsePrologTerm_eq_ok, htrim]
  constructor
  · rintro ⟨r, hr⟩
    by_contra hbad
    rw [← List.append_nil (Text.asBytes s)] at hr
    exact hno hbad _ [] r (by simp) follows_nil hr
  · intro hgood
    have hr := hyes hgood ((Text.asBytes s).length + 1) [] (Nat.lt_succ_self _) follows_nil
    rw [List.append_nil] at hr
    exact ⟨[], hr⟩

theorem parsePrologTerm_of_reads {s : Text} {t : Term φ} (htrim : Text.trim s = s)
    (h : Reads F (Text.asBytes s) t) : parsePrologTerm F s = .ok t :=
  (@parsePrologTerm_dich φ F s t True htrim (fun _ => h) fun hno => absurd trivial hno).mpr trivial

theorem ident_not_space {c : Char} (h : isIdent c) : Text.isWhitespace c = false := by
  have hc : (65 ≤ c.toNat ∧ c.toNat ≤ 90) ∨ (97 ≤ c.toNat ∧ c.toNat ≤ 122) ∨
      (48 ≤ c.toNat ∧ c.toNat ≤ 57) ∨ c.toNat = 95 := by
    rcases isIdent_iff.mp h with h | h | h | rfl
    · exact .inl (isUpper_iff.mp h)
    · exact .inr (.inl (isLower_iff.mp h))
    · exact .inr (.inr (.inl (isDigit_iff.mp h)))
    · exact .inr (.inr (.inr rfl))
  simp only [Text.isWhitespace, Bool.or_eq_false_iff, Bool.and_eq_false_iff, decide_eq_false_iff_not,
    beq_eq_false_iff_ne, ne_eq]
  omega

theorem trim_eq_self {s : Text} (h : ∀ c ∈ s, Text.isWhitespace c = false) : Text.trim s = s := by
  have hdrop : ∀ u : Text, (∀ c ∈ u, Text.isWhitespace c = false) →
      u.dropWhile Text.isWhitespace = u := by
    intro u hu
    cases u with
    | nil => rfl
    | cons c u => simp [hu c (by simp)]
  rw [Text.trim, hdrop s h, hdrop s.reverse fun c hc => h c (by simpa using hc), List.reverse_reverse]

/-- A text that ends in a closing parenthesis is only trimmed in front. -/
theorem trim_paren (s : Text) : Text.trim (s ++ [')']) = s.dropWhile Text.isWhitespace ++ [')'] := by
  have hp : Text.isWhitespace ')' = false := by decide
  rw [Text.trim, Span.dropWhile_append_cons hp]
  simp [hp]

theorem space_of_ascii {c : Char} (h : Text.isAsciiWhitespace c) : Text.isWhitespace c := by
  simp only [Text.isAsciiWhitespace, Bool.or_eq_true, beq_iff_eq] at h
  rcases h with (((rfl | rfl) | rfl) | rfl) | rfl <;> decide

theorem skipWs_trimmed {s u : Text} (h : ∀ c ∈ s.head?, Text.isWhitespace c = false)
    (hs : s ≠ []) : skipWs (s ++ u) = s ++ u := by
  cases s with
  | nil => exact absurd rfl hs
  | cons c s =>
    refine skipWs_cons ?_ _
    by_contra hc
    have := space_of_ascii (by simpa using hc)
    simp [h c (by simp)] at this

theorem dropWhile_head {p : Char → Bool} (s : Text) : ∀ c ∈ (s.dropWhile p).head?, p c = false := by
  intro c hc
  have := List.head?_dropWhile_not p s
  rw [hc] at this
  simpa using this

/-- Read as the functor of a compound, a plain text is a name. -/
theorem name_of_functor {functor f u r : Text} {n : Nat} {ts : List (Term φ)}
    (hplain : plainName functor) (hsub : f <:+ functor)
    (hhead : ∀ c ∈ f.head?, Text.isWhitespace c = false)
    (h : parseTerm F (n + 1) (f ++ '(' :: u) = .ok (.compound functor ts) r) : IsName functor := by
  have hne : f ≠ [] := by
    rintro rfl
    rcases parseTerm_begins h with ⟨v, w, hv, -⟩ | ⟨hname, hv⟩
    · rw [List.nil_append, skipWs_cons rfl] at hv
      cases hv
    · rw [List.nil_append, skipWs_cons rfl] at hv
      obtain ⟨c, s, rfl, -⟩ := hname.cons
      cases hv
  have hskip : skipWs (f ++ '(' :: u) = f ++ '(' :: u := skipWs_trimmed hhead hne
  rcases parseTerm_begins h with ⟨v, w, hv, -⟩ | ⟨hname, -⟩
  · -- the quote would be a character of the functor
    rw [hskip] at hv
    cases f with
    | nil => exact absurd rfl hne
    | cons d f =>
      obtain ⟨rfl, -⟩ := List.cons.inj hv
      exact absurd rfl (plainName_mem hplain (hsub.subset List.mem_cons_self)).2.2.2
  · exact hname

theorem asBytes_join (us : List Text) : Text.asBytes (Text.join [','] us) =
    Text.join [','] (us.map Text.asBytes) := by
  induction us with
  | nil => rfl
  | cons u us ih =>
    cases us with
    | nil => simp
    | cons v us =>
      rw [Text.join_cons, Text.asBytes_append, Text.asBytes_append, ih]
      simp only [List.map_cons, Text.join_cons]
      rw [Text.asBytes_ascii (s := [',']) (by simp [Text.IsAscii])]

/-- The goal text of a compound head is read as the head exactly when its functor is a name and
every argument is handed over. -/
theorem compound_head_reads {functor : Text} {args : List (Term φ)} (hplain : plainName functor)
    (hargs : plainTerms args) (hvars : ∀ x ∈ collectVarsList args, IsVarName x) :
    parsePrologTerm F (headText F σ (.compound functor args)) =
        .ok (.compound functor (substList σ args)) ↔
      IsName functor ∧ ∀ a ∈ args, ArgOk F σ a := by
  obtain ⟨hdich, hall⟩ := args_read (F := F) (σ := σ) hargs hvars
  -- the bytes behind the trimmed functor
  have hbytes : Text.asBytes (Text.trim (headText F σ (.compound functor args))) =
      functor.dropWhile Text.isWhitespace ++
        ('(' :: (Text.join [','] (args.map fun a => Text.asBytes (argText F σ a)) ++ [')'])) := by
    have hdrop : Text.IsAscii (functor.dropWhile Text.isWhitespace) := fun c hc =>
      (plainName_mem hplain ((List.dropWhile_suffix _).subset hc)).1
    have hjoin := asBytes_join (args.map (argText F σ))
    rw [List.map_map] at hjoin
    rw [headText, trim_paren, Span.dropWhile_append_cons (by decide), Text.asBytes_append,
      Text.asBytes_append, Text.asBytes_ascii hdrop, Text.asBytes_cons (by decide), hjoin]
    simp [Text.asBytes_ascii (s := [')']) (by simp [Text.IsAscii]), Function.comp_def]
  rw [parsePrologTerm_eq_ok, hbytes, ← hall]
  have hread : IsName functor → ∀ r,
      parseTerm F ((functor.dropWhile Text.isWhitespace ++
        ('(' :: (Text.join [','] (args.map fun a => Text.asBytes (argText F σ a)) ++ [')']))).length + 1)
          (functor.dropWhile Text.isWhitespace ++
        ('(' :: (Text.join [','] (args.map fun a => Text.asBytes (argText F σ a)) ++ [')']))) =
          .ok (.compound functor (substList σ args)) r ↔
      List.Forall₂ (Reads F) (args.map fun a => Text.asBytes (argText F σ a)) (substList σ args) ∧
        r = [] := by
    intro hname r
    have hsame : functor.dropWhile Text.isWhitespace = functor := by
      obtain ⟨c, s, rfl, hlow⟩ := hname.cons
      simp [ident_not_space (hname.2 c (by simp))]
    rw [hsame, parseTerm_name hname _ (by simp; decide), maybeCompound_paren, Parsed.map_eq_ok]
    simp only [Term.compound.injEq, true_and, exists_eq_right]
    refine parseArgs_iff hdich ?_
    simp
    omega
  constructor
  · rintro ⟨r, hr⟩
    have hname := name_of_functor hplain (List.dropWhile_suffix _) (dropWhile_head functor) hr
    exact ⟨hname, ((hread hname r).mp hr).1⟩
  · rintro ⟨hname, hreads⟩
    exact ⟨[], (hread hname []).mpr ⟨hreads, rfl⟩⟩

theorem trim_subset (s : Text) : Text.trim s ⊆ s := by
  intro c hc
  simp only [Text.trim, List.mem_reverse] at hc
  have h1 := (List.dropWhile_suffix _).subset hc
  exact (List.dropWhile_suffix _).subset (List.mem_reverse.mp h1)

theorem atom_head_reads {s : Text} (hplain : plainName s) :
    parsePrologTerm F s = .ok (.atom s : Term φ) ↔ IsName s ∨ s = "[]".toList := by
  constructor
  · intro h
    obtain ⟨r, hr⟩ := parsePrologTerm_eq_ok.mp h
    have hascii : Text.IsAscii (Text.trim s) :=
      fun c hc => (plainName_mem hplain (trim_subset s hc)).1
    rw [Text.asBytes_ascii hascii] at hr
    rcases parseTerm_begins hr with ⟨v, w, hv, -⟩ | hs | ⟨hname, -⟩
    · have hc : '\'' ∈ s := trim_subset s ((List.dropWhile_suffix _).subset (by
        change '\'' ∈ skipWs (Text.trim s)
        simp [hv]))
      exact absurd rfl (plainName_mem hplain hc).2.2.2
    · exact .inr hs
    · exact .inl hname
  · rintro (h | rfl)
    · have htrim := trim_eq_self fun c hc => ident_not_space (h.2 c hc)
      refine (parsePrologTerm_dich htrim (fun _ => ?_) fun hno => absurd trivial hno).mpr trivial
      rw [Text.asBytes_ascii h.ascii]
      exact reads_name h
    · rfl

/-- The text of a number or a variable is not trimmed. -/
theorem scalar_head_reads {t : Term φ} (hplain : plainTerm t)
    (hvars : ∀ x ∈ collectVars t, IsVarName x)
    (hspace : ∀ c ∈ renderPrologTerm F t, Text.isWhitespace c = false) :
    parsePrologTerm F (renderPrologTerm F t) = .ok (subst σ t) ↔ readsBack F t = true := by
  obtain ⟨hyes, hno⟩ := literal_reads (F := F) σ t hplain hvars
  have hascii := Text.asBytes_ascii (plain_render (F := F) t hplain hvars).ascii
  refine parsePrologTerm_dich (trim_eq_self hspace) ?_ ?_
  · rwa [hascii]
  · rwa [hascii, Bool.not_eq_true]

/-- Exactly these heads are read back from their goal text, among those that need no escaping. -/
theorem head_reads {head : Term φ} (hplain : plainTerm head)
    (hvars : ∀ x ∈ collectVars head, IsVarName x) :
    parsePrologTerm F (headText F σ head) = .ok (subst σ head) ↔ HeadOk F σ head := by
  have hchar : ∀ c : Char, c.isAlphanum || c == '-' || c == '.' → Text.isWhitespace c = false := by
    intro c hc
    simp only [Bool.or_eq_true, beq_iff_eq] at hc
    rcases hc with (hc | rfl) | rfl
    · exact ident_not_space (by simp [isIdent, hc])
    · decide
    · decide
  cases head with
  | atom s =>
    have hs : plainName s := by simpa [plainTerm] using hplain
    exact atom_head_reads hs
  | var x =>
    refine scalar_head_reads hplain hvars fun c hc => ?_
    have hx : IsVarName x := hvars x (by simp [collectVars])
    rw [renderPrologTerm, ensurePrologVar_varName hx] at hc
    exact ident_not_space (hx.2 c hc)
  | integer k =>
    refine scalar_head_reads hplain hvars fun c hc => hchar c ?_
    simp only [renderPrologTerm, i64Text, List.mem_append] at hc
    rcases hc with hc | hc
    · split at hc
      · simp_all
      · simp at hc
    · have hd := Nat.isDigit_of_mem_toDigits (by decide) (by decide) hc
      simp [Char.isAlphanum, hd]
  | float f => exact scalar_head_reads hplain hvars fun c hc => hchar c (F.display_chars f c hc)
  | str s => simp [plainTerm] at hplain
  | compound functor args =>
    simp only [plainTerm, Bool.and_eq_true] at hplain
    exact compound_head_reads hplain.1 hplain.2 fun x hx => hvars x (by simpa [collectVars] using hx)

end Literals

/-! ### Variables of parsed rules -/

section Parsed
variable {φ : Type} {F : FloatText φ}

/-- The variables of the term have the names the parsers give them. -/
def Named (t : Term φ) : Prop := ∀ x ∈ collectVars t, IsVarName x

theorem parseArgs_cases {loop : Text → Parsed (List (Term φ))} {u r : Text} {ts : List (Term φ)}
    (h : parseArgs loop u = .ok ts r) : ts = [] ∨ loop (skipWs u) = .ok ts r := by
  unfold parseArgs at h
  split at h
  · exact .inl (Parsed.ok.inj h).1.symm
  · exact .inr h

theorem argsTail_cases {loop : Text → Parsed (List (Term φ))} {t : Term φ} {u r : Text}
    {ts : List (Term φ)} (h : argsTail loop t u = .ok ts r) :
    ts = [t] ∨ ∃ v ts', loop v = .ok ts' r ∧ ts = t :: ts' := by
  unfold argsTail at h
  split at h
  · next v hv =>
    obtain ⟨ts', hts, rfl⟩ := Parsed.map_eq_ok.mp h
    exact .inr ⟨v, ts', hts, rfl⟩
  · exact .inl (Parsed.ok.inj h).1.symm
  · cases h
  · cases h

theorem varName_of_span {c : Char} (h : c.isUpper ∨ c = '_') (u : Text) :
    IsVarName ((c :: u).takeWhile isIdent) := by
  have hident : isIdent c := by
    rcases h with h | rfl
    · exact isIdent_iff.mpr (.inl h)
    · rfl
  refine ⟨⟨c, by simp [hident], h⟩, fun d hd => List.mem_takeWhile_imp hd⟩

theorem parse_named (n : Nat) :
    (∀ u t r, parseTerm F n u = .ok t r → Named t) ∧
      ∀ u ts r, argsLoop F n u = .ok ts r → ∀ t ∈ ts, Named t := by
  induction n with
  | zero =>
    constructor
    · intro u t r h
      cases h
    · intro u ts r h
      cases h
  | succ n ih =>
    have hcompound : ∀ s u t r, maybeCompound (argsLoop F n) s u = .ok t r → Named t := by
      intro s u t r h
      rcases maybeCompound_cases h with ⟨rfl, -⟩ | ⟨w, args, -, hargs, rfl⟩
      · simp [Named, collectVars]
      · intro x hx
        rw [collectVars] at hx
        rcases parseArgs_cases hargs with rfl | hloop
        · simp [collectVarsList] at hx
        · obtain ⟨a, ha, hxa⟩ := mem_collectVarsList.mp hx
          exact ih.2 _ _ _ hloop a ha x hxa
    constructor
    · intro u t r h
      obtain ⟨c, v, -, h | h | h | h | h | h⟩ := parseTerm_cases h
      · obtain ⟨-, s, w, -, hmc⟩ := h
        exact hcompound _ _ _ _ hmc
      · obtain ⟨-, s, -, rfl⟩ := h
        simp [Named, collectVars]
      · rw [h.2]
        simp [Named, collectVars]
      · rcases parseNumber_cases h.2 with ⟨k, rfl⟩ | ⟨⟨f, rfl⟩, -⟩ <;> simp [Named, collectVars]
      · rw [h.2]
        intro x hx
        obtain rfl : x = (c :: v).takeWhile isIdent := by simpa [collectVars] using hx
        exact varName_of_span h.1 v
      · exact hcompound _ _ _ _ h.2
    · intro u ts r h t ht
      rw [argsLoop] at h
      obtain ⟨a, w, ha, htail⟩ := Parsed.bind_eq_ok.mp h
      have hnamed := ih.1 _ _ _ ha
      rcases argsTail_cases htail with rfl | ⟨v, ts', hts, rfl⟩
      · obtain rfl : t = a := by simpa using ht
        exact hnamed
      · rcases List.mem_cons.mp ht with rfl | ht
        · exact hnamed
        · exact ih.2 _ _ _ hts t ht

theorem ruleTerm_named {u r : Text} {t : Term φ} (h : ruleTerm F u = .ok t r) : Named t :=
  (parse_named _).1 _ _ _ h

theorem parseGoalAtom_named {u r : Text} {t : Term φ} (h : parseGoalAtom F u = .ok t r) :
    Named t := by
  unfold parseGoalAtom at h
  split at h
  · obtain ⟨a, w, ha, hrest⟩ := Parsed.bind_eq_ok.mp h
    have hnamed := ruleTerm_named ha
    split at hrest <;> exact (Parsed.ok.inj hrest).1 ▸ hnamed
  · exact ruleTerm_named h

theorem asGoal_named {t : Term φ} (h : Named t) : Named (asGoal t).term := by
  unfold asGoal
  split
  · next functor t =>
    split
    · intro x hx
      exact h x (by simpa [collectVars, collectVarsList, BodyGoal.term] using hx)
    · exact h
  · exact h

theorem parseGoal_named {u r : Text} {g : BodyGoal φ} (h : parseGoal F u = .ok g r) :
    Named g.term := by
  unfold parseGoal at h
  split at h
  · obtain ⟨t, ht, rfl⟩ := Parsed.map_eq_ok.mp h
    exact parseGoalAtom_named ht
  · obtain ⟨t, ht, rfl⟩ := Parsed.map_eq_ok.mp h
    exact asGoal_named (parseGoalAtom_named ht)

theorem parseBody_named {n : Nat} {u r : Text} {gs : List (BodyGoal φ)}
    (h : parseBody F n u = .ok gs r) : ∀ g ∈ gs, Named g.term := by
  induction n generalizing u gs with
  | zero => cases h
  | succ n ih =>
    rw [parseBody] at h
    obtain ⟨g, w, hg, hrest⟩ := Parsed.bind_eq_ok.mp h
    have hnamed := parseGoal_named hg
    split at hrest
    · obtain ⟨gs', hgs, rfl⟩ := Parsed.map_eq_ok.mp hrest
      simpa [hnamed] using ih hgs
    · obtain ⟨gs', hgs, rfl⟩ := Parsed.map_eq_ok.mp hrest
      simpa [hnamed] using ih hgs
    · rw [← (Parsed.ok.inj hrest).1]
      simpa using hnamed

/-- Every variable of a parsed rule has a variable's name. -/
structure NamedRule (rule : PrologRule φ) : Prop where
  head : Named rule.head
  body : ∀ g ∈ rule.body, Named g.term

theorem parseClause_named {u r : Text} {rule : PrologRule φ}
    (h : parseClause F u = .ok (some rule) r) : NamedRule rule := by
  unfold parseClause at h
  split at h
  · cases h
  · obtain ⟨head, w, hhead, hrest⟩ := Parsed.bind_eq_ok.mp h
    have hnamed := ruleTerm_named hhead
    split at hrest
    · unfold ruleOf at hrest
      obtain ⟨body, w', hbody, hrest⟩ := Parsed.bind_eq_ok.mp hrest
      have hgoals := parseBody_named hbody
      split at hrest <;> (obtain ⟨rfl⟩ := (Parsed.ok.inj hrest).1; exact ⟨hnamed, hgoals⟩)
    · obtain ⟨rfl⟩ := (Parsed.ok.inj hrest).1
      exact ⟨hnamed, by simp⟩
    · cases hrest

theorem rulesLoop_named {n : Nat} {u : Text} {rule : PrologRule φ} (h : rule ∈ rulesLoop F n u) :
    NamedRule rule := by
  induction n generalizing u with
  | zero => simp [rulesLoop] at h
  | succ n ih =>
    rw [rulesLoop] at h
    split at h
    · next rule' w hclause =>
      rcases List.mem_cons.mp h with rfl | h
      · exact parseClause_named hclause
      · exact ih h
    · simp at h
    · exact ih h

theorem parsePrologRules_named {source : Text} {rule : PrologRule φ}
    (h : rule ∈ parsePrologRules F source) : NamedRule rule :=
  rulesLoop_named h

end Parsed

end Cerebellum.Transpile
