import Cerebellum.TransduceSpec

/-! Reading back what `render_prolog_term` writes. A term is read back when its atoms, functors and
strings are ASCII and no atom that is written without quotes looks like a variable. -/
namespace Cerebellum.Transpile

/-- An atom that is rendered as a text the parser reads as the atom. -/
def AtomReadable (s : Text) : Prop :=
  Text.IsAscii s ∧ (prologAtomNeedsQuoting s = true ∨ s.head? ≠ some '_')

instance (s : Text) : Decidable (Text.IsAscii s) :=
  decidable_of_iff (s.all (·.toNat < 128) = true) (by simp [Text.IsAscii])

instance (s : Text) : Decidable (AtomReadable s) := inferInstanceAs (Decidable (_ ∧ _))

section Terms
variable {φ : Type}

mutual
/-- The condition on the atoms, functors and strings of a term. -/
def Term.Readable : Term φ → Prop
  | .atom s => AtomReadable s
  | .str s => Text.IsAscii s
  | .compound functor args => AtomReadable functor ∧ Term.AllReadable args
  | .var _ | .integer _ | .float _ => True
def Term.AllReadable : List (Term φ) → Prop
  | [] => True
  | t :: ts => t.Readable ∧ Term.AllReadable ts
end

mutual
def Term.hasFloat : Term φ → Bool
  | .float _ => true
  | .compound _ args => Term.anyFloat args
  | .atom _ | .var _ | .integer _ | .str _ => false
def Term.anyFloat : List (Term φ) → Bool
  | [] => false
  | t :: ts => t.hasFloat || Term.anyFloat ts
end

end Terms

/-! ### Quoted texts -/

/-- A text is its own bytes only when it is ASCII: other characters take more than one byte. -/
theorem asBytes_eq_self_iff {s : Text} : Text.asBytes s = s ↔ Text.IsAscii s := by
  refine ⟨fun h => ?_, Text.asBytes_ascii⟩
  induction s with
  | nil => simp [Text.IsAscii]
  | cons c s ih =>
    have hle := Text.length_le_asBytes s
    have hsum := congrArg List.length h
    have hsize := Char.utf8Size_pos c
    simp only [Text.asBytes, List.flatMap_cons, List.length_append, List.length_map,
      String.length_utf8EncodeChar, List.length_cons] at hsum hle
    have hone : c.utf8Size = 1 := by omega
    have hascii : c.toNat < 128 :=
      Nat.lt_succ_of_le (UInt32.le_iff_toNat_le.mp (Char.utf8Size_eq_one_iff.mp hone))
    rw [Text.asBytes_cons hascii] at h
    exact List.forall_mem_cons.mpr ⟨hascii, ih (List.cons.inj h).2⟩

theorem escape_cons (q c : Char) (s : Text) :
    escape q (c :: s) = (if c = '\\' || c = q then ['\\', c] else [c]) ++ escape q s := rfl

theorem asBytes_escape_ascii {c : Char} (h : c.toNat < 128) (q : Char) (s : Text) :
    Text.asBytes (escape q (c :: s)) =
      (if c = '\\' || c = q then ['\\', c] else [c]) ++ Text.asBytes (escape q s) := by
  rw [escape_cons, Text.asBytes_append]
  split
  · rw [Text.asBytes_cons (by decide), Text.asBytes_cons h, Text.asBytes_nil]
  · rw [Text.asBytes_cons h, Text.asBytes_nil]

theorem asBytes_escape_other {c : Char} (h : ¬ c.toNat < 128) {q : Char} (hq : q.toNat < 128)
    (s : Text) : Text.asBytes (escape q (c :: s)) =
      (String.utf8EncodeChar c).map Char.ofUInt8 ++ Text.asBytes (escape q s) := by
  have hslash : c ≠ '\\' := by
    rintro rfl
    exact h (by decide)
  have hquote : c ≠ q := by
    rintro rfl
    exact h hq
  rw [escape_cons, Text.asBytes_append]
  simp [hslash, hquote, Text.asBytes]

theorem quotedAtom_other {c : Char} (hquote : c ≠ '\'') (hslash : c ≠ '\\') (u : Text) :
    quotedAtom (c :: u) = (quotedAtom u).map (c :: ·) := by
  rw [quotedAtom.eq_def]
  simp only [hquote, hslash, if_false]

theorem quotedAtom_slash (d : Char) (u : Text) :
    quotedAtom ('\\' :: d :: u) = (quotedAtom u).map (quotedEscape d ++ ·) := by
  rw [quotedAtom.eq_def]
  rfl

theorem doubleQuoted_other {c : Char} (hquote : c ≠ '"') (hslash : c ≠ '\\') (u : Text) :
    doubleQuoted (c :: u) = (doubleQuoted u).map (c :: ·) := by
  rw [doubleQuoted.eq_def]
  simp only [hquote, hslash, if_false]

theorem doubleQuoted_slash (d : Char) (u : Text) :
    doubleQuoted ('\\' :: d :: u) = (doubleQuoted u).map (doubleQuotedEscape d :: ·) := by
  rw [doubleQuoted.eq_def]
  rfl

theorem doubleQuoted_quote (u : Text) : doubleQuoted ('"' :: u) = .ok [] u := by
  rw [doubleQuoted.eq_def]
  rfl

/-- A loop that takes bytes beyond ASCII as they are takes all those of a character. -/
theorem map_plain {loop : Text → Parsed Text} {p : Text} (hp : ∀ b ∈ p, ¬ b.toNat < 128)
    (hloop : ∀ b u, ¬ b.toNat < 128 → loop (b :: u) = (loop u).map (b :: ·)) {u s w : Text}
    (hu : loop u = .ok s w) : loop (p ++ u) = .ok (p ++ s) w := by
  induction p with
  | nil => exact hu
  | cons b p ih =>
    obtain ⟨hb, hp⟩ := List.forall_mem_cons.mp hp
    rw [List.cons_append, hloop b _ hb, ih hp]
    rfl

theorem ne_of_not_ascii {b c : Char} (hb : ¬ b.toNat < 128) (hc : c.toNat < 128) : b ≠ c := by
  rintro rfl
  exact hb hc

/-- The closing quote is found behind the bytes of what was quoted, by a loop that takes what is
escaped, and what needs no escape, as it is. -/
theorem loop_escape {loop : Text → Parsed Text} {q : Char} (hq : q.toNat < 128)
    (hother : ∀ c, c ≠ q → c ≠ '\\' → ∀ u, loop (c :: u) = (loop u).map (c :: ·))
    (hslash : ∀ c u, c = '\\' ∨ c = q → loop ('\\' :: c :: u) = (loop u).map (c :: ·))
    {w : Text} (hend : loop (q :: w) = .ok [] w) (s : Text) :
    loop (Text.asBytes (escape q s) ++ q :: w) = .ok (Text.asBytes s) w := by
  induction s with
  | nil => exact hend
  | cons c s ih =>
    by_cases hc : c.toNat < 128
    · rw [asBytes_escape_ascii hc, Text.asBytes_cons hc, List.append_assoc]
      by_cases hescaped : c = '\\' ∨ c = q
      · rw [if_pos (by simpa using hescaped)]
        change loop ('\\' :: c :: (Text.asBytes (escape q s) ++ q :: w)) = _
        rw [hslash c _ hescaped, ih]
        rfl
      · rw [if_neg (by simpa using hescaped), List.singleton_append,
          hother c (fun h => hescaped (.inr h)) (fun h => hescaped (.inl h)), ih]
        rfl
    · have hplain := fun b => Text.utf8_not_ascii (b := b) hc
      rw [asBytes_escape_other hc hq, List.append_assoc]
      refine map_plain hplain ?_ ih
      intro b u hb
      exact hother b (ne_of_not_ascii hb hq) (ne_of_not_ascii hb (by decide)) u

theorem quotedAtom_escape (s : Text) {w : Text} (hw : w.head? ≠ some '\'') :
    quotedAtom (Text.asBytes (escape '\'' s) ++ '\'' :: w) = .ok (Text.asBytes s) w := by
  refine loop_escape (by decide) (fun _ => quotedAtom_other) ?_ ?_ s
  · rintro c u (rfl | rfl)
    · exact quotedAtom_slash '\\' u
    · exact quotedAtom_slash '\'' u
  · cases w with
    | nil => rfl
    | cons d w =>
      have hd : d ≠ '\'' := by simpa using hw
      rw [quotedAtom.eq_def]
      simp [hd]

theorem doubleQuoted_escape (s w : Text) :
    doubleQuoted (Text.asBytes (escape '"' s) ++ '"' :: w) = .ok (Text.asBytes s) w := by
  refine loop_escape (by decide) (fun _ => doubleQuoted_other) ?_ (doubleQuoted_quote w) s
  rintro c u (rfl | rfl)
  · exact doubleQuoted_slash '\\' u
  · exact doubleQuoted_slash '"' u

/-! ### Atoms and variables -/

theorem alphanumeric_ascii {c : Char} (hc : c.toNat < 128) (h : Text.isAlphanumeric c = true) :
    c.isAlphanum = true := by
  simp only [Text.isAlphanumeric, Bool.or_eq_true, Bool.and_eq_true, beq_iff_eq, bne_iff_ne,
    decide_eq_true_eq] at h
  rcases h with ((((((((h | h) | h) | h) | h) | h) | h) | h) | h)
  · exact h
  all_goals omega

theorem needsQuoting_eq_false {s : Text} (h : prologAtomNeedsQuoting s = false) :
    s ≠ [] ∧ (∀ c ∈ s.head?, c.isUpper = false ∧ c.isDigit = false) ∧
      ∀ c ∈ s, Text.isAlphanumeric c = true ∨ c = '_' := by
  simp only [prologAtomNeedsQuoting, Bool.or_eq_false_iff, List.isEmpty_eq_false_iff,
    List.any_eq_false] at h
  obtain ⟨⟨hne, hhead⟩, hall⟩ := h
  refine ⟨hne, ?_, ?_⟩
  · intro c hc
    rw [Option.mem_def.mp hc] at hhead
    simpa using hhead
  · intro c hc
    have hchar := hall c hc
    simp only [Bool.and_eq_true, Bool.not_eq_true', bne_iff_ne, not_and, not_not] at hchar
    by_cases halpha : Text.isAlphanumeric c = true
    · exact .inl halpha
    · exact .inr (hchar (by simpa using halpha))

/-- Without quotes, an atom is readable when it is a name. -/
theorem isName_iff_readable {s : Text} (h : prologAtomNeedsQuoting s = false) :
    IsName s ↔ AtomReadable s := by
  obtain ⟨hne, hhead, hall⟩ := needsQuoting_eq_false h
  constructor
  · rintro ⟨⟨c, hc, hlower⟩, hident⟩
    refine ⟨fun d hd => ident_ascii (hident d hd), .inr ?_⟩
    rw [Option.mem_def.mp hc]
    intro hunder
    rw [Option.some.inj hunder] at hlower
    exact absurd hlower (by decide)
  · rintro ⟨hascii, hreadable⟩
    have hident : ∀ c ∈ s, isIdent c = true := by
      intro c hc
      rcases hall c hc with halpha | rfl
      · simp [isIdent, alphanumeric_ascii (hascii c hc) halpha]
      · rfl
    refine ⟨?_, hident⟩
    cases s with
    | nil => exact absurd rfl hne
    | cons c s =>
      refine ⟨c, rfl, ?_⟩
      obtain ⟨hupper, hdigit⟩ := hhead c rfl
      have hunder : c ≠ '_' := by
        rintro rfl
        rw [h] at hreadable
        simp at hreadable
      have hc := hident c (by simp)
      simp only [isIdent, Char.isAlphanum, Bool.or_eq_true, isAlpha_iff, hupper, hdigit,
        Bool.false_eq_true, or_false, false_or, beq_iff_eq, hunder] at hc
      exact hc

section Reading
variable {φ : Type} {F : FloatText φ}

theorem parseTerm_quote (n : Nat) (u : Text) : parseTerm F (n + 1) ('\'' :: u) =
    (quotedAtom u).bind (maybeCompound (argsLoop F n)) := by
  rw [parseTerm, skipWs_cons (by decide)]
  simp

theorem parseTerm_string (n : Nat) (u : Text) : parseTerm F (n + 1) ('"' :: u) =
    (doubleQuoted u).map .str := by
  rw [parseTerm, skipWs_cons (by decide)]
  simp

theorem quote_not_follows {w : Text} (hw : Follows w) : w.head? ≠ some '\'' := by
  intro h
  rcases hw '\'' h with h | h <;> exact absurd h (by decide)

/-- The quoted text of an atom. -/
theorem asBytes_quoted (s : Text) : Text.asBytes ('\'' :: escape '\'' s ++ ['\'']) =
    '\'' :: (Text.asBytes (escape '\'' s) ++ ['\'']) := by
  rw [List.cons_append, Text.asBytes_cons (by decide), Text.asBytes_append]
  rfl

theorem asBytes_clipsString (s : Text) :
    Text.asBytes (clipsString s) = '"' :: (Text.asBytes (escape '"' s) ++ ['"']) := by
  rw [clipsString, List.cons_append, Text.asBytes_cons (by decide), Text.asBytes_append]
  rfl

theorem reads_quoted (s : Text) : Reads F (Text.asBytes ('\'' :: escape '\'' s ++ ['\'']))
    (.atom (Text.asBytes s)) := by
  intro fuel w hfuel hw
  obtain ⟨n, rfl⟩ : ∃ n, fuel = n + 1 := ⟨fuel - 1, by omega⟩
  rw [asBytes_quoted, List.cons_append, parseTerm_quote, List.append_assoc, List.singleton_append,
    quotedAtom_escape s (quote_not_follows hw)]
  exact maybeCompound_follows hw _ _

theorem reads_string (s : Text) :
    Reads F (Text.asBytes (clipsString s)) (.str (Text.asBytes s)) := by
  intro fuel w hfuel hw
  obtain ⟨n, rfl⟩ : ∃ n, fuel = n + 1 := ⟨fuel - 1, by omega⟩
  rw [asBytes_clipsString, List.cons_append, parseTerm_string, List.append_assoc,
    List.singleton_append, doubleQuoted_escape]
  rfl

/-- The text of a term is read as the term, or never is: which of the two, `good` decides. -/
structure Decides (F : FloatText φ) (u : Text) (t : Term φ) (good : Prop) : Prop where
  reads : good → Reads F u t
  never : ¬ good → Never F u t

theorem Decides.or {u : Text} {t : Term φ} {good : Prop} (h : Decides F u t good) :
    Reads F u t ∨ Never F u t := by
  by_cases hg : good
  · exact .inl (h.reads hg)
  · exact .inr (h.never hg)

theorem Decides.iff {u : Text} {t : Term φ} {good : Prop} (h : Decides F u t good) :
    Reads F u t ↔ good := by
  refine ⟨fun hr => ?_, h.reads⟩
  by_contra hg
  exact hr.not_never (h.never hg)

theorem decides_string (s : Text) :
    Decides F (Text.asBytes (clipsString s)) (.str s) (Text.IsAscii s) where
  reads h := by
    have hr := reads_string (F := F) s
    rwa [Text.asBytes_ascii h] at hr
  never h := (reads_string s).never_of_ne fun he => h (asBytes_eq_self_iff.mp (Term.str.inj he))

theorem decides_atom (s : Text) :
    Decides F (Text.asBytes (prologAtomRender s)) (.atom s) (AtomReadable s) := by
  unfold prologAtomRender
  split
  next hq =>
    have hr := reads_quoted (F := F) s
    refine ⟨fun h => ?_, fun h => hr.never_of_ne fun he => h ⟨?_, .inl hq⟩⟩
    · rwa [Text.asBytes_ascii h.1] at hr
    · exact asBytes_eq_self_iff.mp (Term.atom.inj he)
  next hq =>
    have hname := isName_iff_readable (Bool.eq_false_iff.mpr hq)
    refine ⟨fun h => ?_, fun h => ?_⟩
    · rw [Text.asBytes_ascii h.1]
      exact reads_name (hname.mpr h)
    · refine never_atom (fun hn => h (hname.mp hn)) ?_
      rintro rfl
      exact hq (by decide)

/-! ### Terms -/

/-- What the text of a functor does in front of arguments: it gives the compound its name. -/
def Names (F : FloatText φ) (u name : Text) : Prop :=
  ∀ n v, parseTerm F (n + 1) (u ++ '(' :: v) = (parseArgs (argsLoop F n) v).map (.compound name)

theorem names_quoted (s : Text) :
    Names F (Text.asBytes ('\'' :: escape '\'' s ++ ['\''])) (Text.asBytes s) := by
  intro n v
  rw [asBytes_quoted, List.cons_append, parseTerm_quote, List.append_assoc, List.singleton_append,
    quotedAtom_escape s (by simp)]
  exact maybeCompound_paren _ _ _

theorem names_name {s : Text} (h : IsName s) : Names F s s := by
  intro n v
  rw [parseTerm_name h n (by simp [isIdent])]
  · exact maybeCompound_paren _ _ _

/-- An atom written without quotes begins neither with a quote nor with a blank. -/
theorem bare_head {s : Text} (hq : prologAtomNeedsQuoting s = false) :
    ∃ d u, Text.asBytes s = d :: u ∧ Text.isAsciiWhitespace d = false ∧ d ≠ '\'' := by
  obtain ⟨hne, -, hall⟩ := needsQuoting_eq_false hq
  cases s with
  | nil => exact absurd rfl hne
  | cons c s =>
    obtain ⟨b, u, hbu, hascii, hother⟩ := Text.asBytes_head c s
    refine ⟨b, u, hbu, ?_⟩
    by_cases hc : c.toNat < 128
    · rw [hascii hc]
      have hident : isIdent c = true := by
        rcases hall c (by simp) with h | rfl
        · simp [isIdent, alphanumeric_ascii hc h]
        · rfl
      constructor
      · by_contra hws
        have hspace := space_of_ascii (by simpa using hws)
        rw [ident_not_space hident] at hspace
        cases hspace
      · rintro rfl
        cases hident
    · exact ⟨by simp [Text.isAsciiWhitespace, ne_of_not_ascii (hother hc)],
        ne_of_not_ascii (hother hc) (by decide)⟩

/-- A functor written without quotes that is no name gives no compound. -/
theorem never_compound {s : Text} (hq : prologAtomNeedsQuoting s = false) (hname : ¬ IsName s)
    (n : Nat) (v r : Text) (args : List (Term φ)) :
    parseTerm F (n + 1) (Text.asBytes s ++ '(' :: v) ≠ .ok (.compound s args) r := by
  intro heq
  rcases parseTerm_begins heq with ⟨u, w, hu, -⟩ | ⟨hs, -⟩
  · obtain ⟨d, s', hd, hws, hquote⟩ := bare_head hq
    rw [hd, List.cons_append, skipWs_cons hws] at hu
    exact hquote (List.cons.inj hu).1
  · exact hname hs

theorem decides_compound {functor u name : Text} (hnames : Names F u name) {us : List Text}
    {ts : List (Term φ)} {good : Prop}
    (hargs : List.Forall₂ (fun u t => Reads F u t ∨ Never F u t) us ts)
    (hall : List.Forall₂ (Reads F) us ts ↔ good) :
    Decides F (u ++ '(' :: Text.join [','] us ++ [')']) (.compound functor ts)
      (name = functor ∧ good) := by
  have hparse : ∀ fuel w r, (u ++ '(' :: Text.join [','] us ++ [')']).length < fuel →
      (parseTerm F fuel (u ++ '(' :: Text.join [','] us ++ [')'] ++ w) =
        .ok (.compound functor ts) r ↔ (name = functor ∧ good) ∧ r = w) := by
    intro fuel w r hfuel
    obtain ⟨n, rfl⟩ : ∃ n, fuel = n + 1 := ⟨fuel - 1, by omega⟩
    simp only [List.length_append, List.length_cons, List.length_nil] at hfuel
    have htext : u ++ '(' :: Text.join [','] us ++ [')'] ++ w =
        u ++ '(' :: (Text.join [','] us ++ ')' :: w) := by simp
    have hiff : parseArgs (argsLoop F n) (Text.join [','] us ++ ')' :: w) = .ok ts r ↔
        List.Forall₂ (Reads F) us ts ∧ r = w := parseArgs_iff hargs (by omega)
    rw [htext, hnames, Parsed.map_eq_ok, ← hall, and_assoc, ← hiff]
    constructor
    · rintro ⟨args, hok, heq⟩
      obtain ⟨hname, rfl⟩ := Term.compound.inj heq
      exact ⟨hname, hok⟩
    · rintro ⟨rfl, hok⟩
      exact ⟨ts, hok, rfl⟩
  refine ⟨fun hgood fuel w hfuel hw => ?_, fun hbad fuel w r hfuel hw heq => ?_⟩
  · exact (hparse fuel w w hfuel).mpr ⟨hgood, rfl⟩
  · exact hbad ((hparse fuel w r hfuel).mp heq).1

/-- A functor in front of arguments that are each read or not. -/
theorem decides_functor (functor : Text) {us : List Text} {ts : List (Term φ)} {good : Prop}
    (hargs : List.Forall₂ (fun u t => Reads F u t ∨ Never F u t) us ts)
    (hall : List.Forall₂ (Reads F) us ts ↔ good) :
    Decides F (Text.asBytes (prologAtomRender functor) ++ '(' :: Text.join [','] us ++ [')'])
      (.compound functor ts) (AtomReadable functor ∧ good) := by
  unfold prologAtomRender
  split
  next hq =>
    have hdecides : Decides F _ (.compound functor ts) (Text.asBytes functor = functor ∧ good) :=
      decides_compound (names_quoted functor) hargs hall
    have hreadable : Text.asBytes functor = functor ↔ AtomReadable functor := by
      rw [asBytes_eq_self_iff]
      exact ⟨fun h => ⟨h, .inl hq⟩, fun h => h.1⟩
    rwa [hreadable] at hdecides
  next hq =>
    have hbare := Bool.eq_false_iff.mpr hq
    have hname := isName_iff_readable hbare
    by_cases hn : IsName functor
    · rw [Text.asBytes_ascii hn.ascii, ← hname]
      have hdecides : Decides F _ (.compound functor ts) (functor = functor ∧ good) :=
        decides_compound (names_name hn) hargs hall
      refine ⟨fun h => hdecides.reads ⟨rfl, h.2⟩, fun h => hdecides.never fun hg => h ⟨hn, hg.2⟩⟩
    · refine ⟨fun h => absurd (hname.mpr h.1) hn, fun _ fuel w r hfuel hw heq => ?_⟩
      obtain ⟨n, rfl⟩ : ∃ n, fuel = n + 1 := ⟨fuel - 1, by omega⟩
      refine never_compound (F := F) hbare hn n (Text.join [','] us ++ ')' :: w) r ts ?_
      rw [← heq]
      simp

mutual
theorem decides_term : (t : Term φ) → t.hasFloat = false → Named t →
    Decides F (Text.asBytes (renderPrologTerm F t)) t t.Readable
  | .atom s, _, _ => by
    simp only [renderPrologTerm, Term.Readable]
    exact decides_atom s
  | .var s, _, hnamed => by
    have hs : IsVarName s := hnamed s (by simp [collectVars])
    simp only [renderPrologTerm, Term.Readable, ensurePrologVar_varName hs]
    rw [Text.asBytes_ascii fun c hc => ident_ascii (hs.2 c hc)]
    exact ⟨fun _ => reads_var hs, fun h => absurd trivial h⟩
  | .integer k, _, _ => by
    simp only [renderPrologTerm, Term.Readable]
    rw [Text.asBytes_ascii (plain_i64Text k).ascii]
    exact ⟨fun _ => reads_integer k, fun h => absurd trivial h⟩
  | .float f, hfloat, _ => by simp [Term.hasFloat] at hfloat
  | .str s, _, _ => by
    simp only [renderPrologTerm, Term.Readable]
    exact decides_string s
  | .compound functor args, hfloat, hnamed => by
    have hnamedArgs : ∀ x ∈ collectVarsList args, IsVarName x := fun x hx =>
      hnamed x (by simpa [collectVars] using hx)
    obtain ⟨hargs, hall⟩ := decides_terms args (by simpa [Term.hasFloat] using hfloat) hnamedArgs
    have hdecides := decides_functor functor hargs hall
    simp only [renderPrologTerm, Term.Readable]
    rw [Text.asBytes_append, Text.asBytes_append, Text.asBytes_cons (by decide), asBytes_join]
    exact hdecides
theorem decides_terms : (ts : List (Term φ)) → Term.anyFloat ts = false →
    (∀ x ∈ collectVarsList ts, IsVarName x) →
    List.Forall₂ (fun u t => Reads F u t ∨ Never F u t)
        ((renderPrologTerms F ts).map Text.asBytes) ts ∧
      (List.Forall₂ (Reads F) ((renderPrologTerms F ts).map Text.asBytes) ts ↔
        Term.AllReadable ts)
  | [], _, _ => by simp [renderPrologTerms, Term.AllReadable]
  | t :: ts, hfloat, hnamed => by
    simp only [Term.anyFloat, Bool.or_eq_false_iff] at hfloat
    simp only [collectVarsList, List.mem_append] at hnamed
    have hterm := decides_term t hfloat.1 fun x hx => hnamed x (.inl hx)
    obtain ⟨hargs, hall⟩ := decides_terms ts hfloat.2 fun x hx => hnamed x (.inr hx)
    simp only [renderPrologTerms, List.map_cons, List.forall₂_cons, Term.AllReadable, hall]
    exact ⟨⟨hterm.or, hargs⟩, and_congr_left fun _ => hterm.iff⟩
end

/-! ### The whole text -/

theorem alphanumeric_not_space {c : Char} (h : Text.isAlphanumeric c = true) :
    Text.isWhitespace c = false := by
  by_cases hc : c.toNat < 128
  · exact ident_not_space (by simp [isIdent, alphanumeric_ascii hc h])
  · have halnum : ¬ c.isAlphanum := fun ha => hc (ident_ascii (by simp [isIdent, ha]))
    simp only [Text.isAlphanumeric, halnum, Bool.false_or, Bool.or_eq_true, Bool.and_eq_true,
      beq_iff_eq, bne_iff_ne, decide_eq_true_eq] at h
    simp only [Text.isWhitespace, Bool.or_eq_false_iff, Bool.and_eq_false_iff,
      decide_eq_false_iff_not, beq_eq_false_iff_ne, ne_eq]
    omega

/-- Nothing is trimmed from a text between quotes. -/
theorem trim_between {q : Char} (hq : Text.isWhitespace q = false) (s : Text) :
    Text.trim (q :: s ++ [q]) = q :: s ++ [q] := by
  simp [Text.trim, hq]

theorem atomRender_head (s : Text) :
    ∃ c u, prologAtomRender s = c :: u ∧ Text.isWhitespace c = false := by
  unfold prologAtomRender
  split
  next => exact ⟨'\'', _, rfl, by decide⟩
  next hq =>
    obtain ⟨hne, -, hall⟩ := needsQuoting_eq_false (Bool.eq_false_iff.mpr hq)
    cases s with
    | nil => exact absurd rfl hne
    | cons c s =>
      refine ⟨c, s, rfl, ?_⟩
      rcases hall c (by simp) with h | rfl
      · exact alphanumeric_not_space h
      · decide

theorem trim_atomRender (s : Text) : Text.trim (prologAtomRender s) = prologAtomRender s := by
  unfold prologAtomRender
  split
  next => exact trim_between (by decide) _
  next hq =>
    obtain ⟨-, -, hall⟩ := needsQuoting_eq_false (Bool.eq_false_iff.mpr hq)
    refine trim_eq_self fun c hc => ?_
    rcases hall c hc with h | rfl
    · exact alphanumeric_not_space h
    · decide

theorem trim_i64Text (k : Int64) : Text.trim (i64Text k) = i64Text k := by
  refine trim_eq_self fun c hc => ?_
  rcases List.mem_append.mp hc with hc | hc
  · split at hc
    · obtain rfl : c = '-' := by simpa using hc
      decide
    · cases hc
  · have hdigit := Nat.isDigit_of_mem_toDigits (by decide) (by decide) hc
    exact ident_not_space (isIdent_iff.mpr (.inr (.inr (.inl hdigit))))

theorem trim_render {t : Term φ} (hfloat : t.hasFloat = false) (hnamed : Named t) :
    Text.trim (renderPrologTerm F t) = renderPrologTerm F t := by
  cases t with
  | atom s => exact trim_atomRender s
  | var s =>
    have hs : IsVarName s := hnamed s (by simp [collectVars])
    rw [renderPrologTerm, ensurePrologVar_varName hs]
    exact trim_eq_self fun c hc => ident_not_space (hs.2 c hc)
  | integer k => exact trim_i64Text k
  | float f => simp [Term.hasFloat] at hfloat
  | str s => exact trim_between (by decide) _
  | compound functor args =>
    obtain ⟨c, u, hcu, hc⟩ := atomRender_head functor
    rw [renderPrologTerm, trim_paren, hcu]
    simp [hc]

/-- Parsing undoes rendering for exactly the terms whose atoms, functors and strings are ASCII, and
none of whose unquoted atoms and functors begins with an underscore. -/
theorem parse_render_iff {s : Text} {t : Term φ} (hparse : parsePrologTerm F s = .ok t)
    (hfloat : t.hasFloat = false) :
    parsePrologTerm F (renderPrologTerm F t) = .ok t ↔ t.Readable := by
  obtain ⟨r, hr⟩ := parsePrologTerm_eq_ok.mp hparse
  have hnamed : Named t := (parse_named _).1 _ _ _ hr
  have hdecides := decides_term (F := F) t hfloat hnamed
  exact parsePrologTerm_dich (trim_render hfloat hnamed) hdecides.reads hdecides.never

theorem allReadable_iff {ts : List (Term φ)} : Term.AllReadable ts ↔ ∀ t ∈ ts, t.Readable := by
  induction ts with
  | nil => simp [Term.AllReadable]
  | cons t ts ih => simp [Term.AllReadable, ih]

theorem anyFloat_eq_false {ts : List (Term φ)} :
    Term.anyFloat ts = false ↔ ∀ t ∈ ts, t.hasFloat = false := by
  induction ts with
  | nil => simp [Term.anyFloat]
  | cons t ts ih => simp [Term.anyFloat, ih]

/-- What is sure to be read back, whether or not it was parsed before. -/
structure RoundTrips (t : Term φ) : Prop where
  readable : t.Readable
  noFloat : t.hasFloat = false
  named : Named t

namespace RoundTrips

theorem atom {s : Text} (h : AtomReadable s) : RoundTrips (.atom s : Term φ) where
  readable := by rwa [Term.Readable]
  noFloat := by rw [Term.hasFloat]
  named x hx := by simp [collectVars] at hx

theorem integer (k : Int64) : RoundTrips (.integer k : Term φ) where
  readable := by simp [Term.Readable]
  noFloat := by rw [Term.hasFloat]
  named x hx := by simp [collectVars] at hx

theorem str {s : Text} (h : Text.IsAscii s) : RoundTrips (.str s : Term φ) where
  readable := by rwa [Term.Readable]
  noFloat := by rw [Term.hasFloat]
  named x hx := by simp [collectVars] at hx

theorem var {s : Text} (h : IsVarName s) : RoundTrips (.var s : Term φ) where
  readable := by simp [Term.Readable]
  noFloat := by rw [Term.hasFloat]
  named x hx := by
    obtain rfl : x = s := by simpa [collectVars] using hx
    exact h

theorem compound {functor : Text} (h : AtomReadable functor) {args : List (Term φ)}
    (hargs : ∀ t ∈ args, RoundTrips t) : RoundTrips (.compound functor args) where
  readable := by
    rw [Term.Readable]
    exact ⟨h, allReadable_iff.mpr fun t ht => (hargs t ht).readable⟩
  noFloat := by
    rw [Term.hasFloat]
    exact anyFloat_eq_false.mpr fun t ht => (hargs t ht).noFloat
  named x hx := by
    rw [collectVars] at hx
    obtain ⟨t, ht, hxt⟩ := mem_collectVarsList.mp hx
    exact (hargs t ht).named x hxt

theorem parse {t : Term φ} (h : RoundTrips t) :
    parsePrologTerm F (renderPrologTerm F t) = .ok t :=
  parsePrologTerm_of_reads (trim_render h.noFloat h.named)
    ((decides_term t h.noFloat h.named).reads h.readable)

end RoundTrips

end Reading

/-- A term with quotes, a backslash, a variable and a nested compound, and its text read back. -/
theorem parse_render_example :
    let s := "greet('it''s', \"a\\\\b\", 'New York'(X, -3))".toList
    let t : Term Empty := .compound "greet".toList [.atom "it's".toList, .str "a\\b".toList,
      .compound "New York".toList [.var ['X'], .integer (-3)]]
    parsePrologTerm noFloats s = .ok t ∧
      parsePrologTerm noFloats (renderPrologTerm noFloats t) = .ok t := by
  intro s t
  have hparse : parsePrologTerm noFloats s = .ok t := by decide +kernel
  refine ⟨hparse, (parse_render_iff hparse rfl).mpr ?_⟩
  simp only [t, Term.Readable, Term.AllReadable]
  decide

/-- `'_x'` is an atom, and is written as the variable `_x`. -/
theorem underscore_atom_lost :
    ¬ ∀ (s : Text) (t : Term Empty), parsePrologTerm noFloats s = .ok t → t.hasFloat = false →
      parsePrologTerm noFloats (renderPrologTerm noFloats t) = .ok t := by
  intro h
  have hback := h "'_x'".toList (.atom "_x".toList) (by decide +kernel) rfl
  exact absurd hback (by decide +kernel)

end Cerebellum.Transpile
