import Cerebellum.JsonCodec
import Cerebellum.RelayedFacts

/-! The row of the root goal: the key that `re_evaluate_root_goal` puts together from a solution,
and the key of an event about the same instance of the goal. -/
namespace Cerebellum
open Transpile

/-- `char::is_uppercase` below 256. -/
def Text.isUppercase (c : Char) : Bool :=
  c.isUpper || (0xC0 ≤ c.toNat && c.toNat ≤ 0xDE && c.toNat != 0xD7)

def isPrologVariable (s : Text) : Bool := s.head?.any fun c => Text.isUppercase c || c == '_'

section Model
variable {φ : Type} (F : FloatText φ) (m : Mint) (sid : Uuid)

mutual
/-- `term_to_template_str`: nothing is quoted, and variables keep their names. -/
def termToTemplateStr : Transpile.Term φ → Text
  | .atom a => a
  | .var v => v
  | .integer i => i64Text i
  | .float f => F.display f
  | .str s => s
  | .compound functor args =>
    functor ++ '(' :: Text.join [','] (termToTemplateStrs args) ++ [')']
def termToTemplateStrs : List (Transpile.Term φ) → List Text
  | [] => []
  | t :: ts => termToTemplateStr t :: termToTemplateStrs ts
end

/-- The functor of the goal and the templates of its arguments. -/
def argTemplates : Transpile.Term φ → Option (Text × List Text)
  | .atom f => some (f, [])
  | .compound functor args => some (functor, termToTemplateStrs F args)
  | _ => none

/-- The string the solution has under the name that a template looks like. -/
def supplied (bindings : Fields) (template : Text) : Option Text :=
  if isPrologVariable template then
    ((Fields.get (String.ofList template) bindings).bind Json.asStr).map String.toList
  else none

def groundArg (bindings : Fields) (template : Text) : Text :=
  (supplied bindings template).getD template

/-- The key of the row that is marked, for a goal that has one. -/
def rootKey (bindings : Fields) (t : Transpile.Term φ) : Option (String × List String) :=
  (argTemplates F t).map fun (functor, templates) =>
    (String.ofList functor, templates.map fun s => String.ofList (groundArg bindings s))

/-- Strings as they are, other values as JSON text. -/
def solutionBindings (bindings : Fields) : List Binding :=
  bindings.map fun e => ⟨e.1, e.2.asStr.getD e.2.toText⟩

/-- What a run has found out about its root goal. -/
structure RootGoal where
  tableau : LiveTableau
  finalSolutions : Option Json

/-- `re_evaluate_root_goal`, with the answer to the query; there is none if the query fails. -/
def reEvaluateRootGoal (initialGoal : Option String) (answer : Option Json) (s : RootGoal) :
    RootGoal :=
  match initialGoal with
  | none => s
  | some goal =>
    match parsePrologTerm F goal.toList with
    | .error _ => s
    | .ok t =>
      match answer with
      | some (.arr (sol :: sols)) =>
        let bindings := sol.asObject.getD []
        match rootKey F bindings t with
        | none => s
        | some (functor, args) =>
          { tableau := s.tableau.updateTruth m sid functor args .knownTrue
              (solutionBindings bindings)
            finalSolutions := some (.arr (sol :: sols)) }
      | _ => s

end Model

/-! ### Instances of the goal -/

section Instances
variable {φ : Type}

mutual
/-- The term as the byte parser reads it back. -/
def Transpile.Term.bytes : Transpile.Term φ → Transpile.Term φ
  | .atom s => .atom (Text.asBytes s)
  | .str s => .str (Text.asBytes s)
  | .compound functor args => .compound (Text.asBytes functor) (Transpile.Term.bytesList args)
  | t => t
def Transpile.Term.bytesList : List (Transpile.Term φ) → List (Transpile.Term φ)
  | [] => []
  | t :: ts => t.bytes :: Transpile.Term.bytesList ts
end

mutual
/-- The term with the values of its variables; an underscore stands for anything. -/
def IsInstance (σ : Text → Transpile.Term φ) : Transpile.Term φ → Transpile.Term φ → Prop
  | .var x, t => x = ['_'] ∨ t = (σ x).bytes
  | .compound functor args, t => ∃ args', t = .compound functor args' ∧ AreInstances σ args args'
  | t, t' => t' = t
def AreInstances (σ : Text → Transpile.Term φ) :
    List (Transpile.Term φ) → List (Transpile.Term φ) → Prop
  | [], ts => ts = []
  | t :: ts, ts' => ∃ u us, ts' = u :: us ∧ IsInstance σ t u ∧ AreInstances σ ts us
end

/-- `term_to_json`. A list that does not end with `[]` is written as text. -/
inductive TermJson : Transpile.Term φ → Json → Prop where
  | true : TermJson (.atom "true".toList) (.bool true)
  | false : TermJson (.atom "false".toList) (.bool false)
  | nil : TermJson (.atom "[]".toList) (.arr [])
  | atom {s : Text} (h : s ∉ ["true".toList, "false".toList, "[]".toList]) :
    TermJson (.atom s) (.str (String.ofList s))
  | integer (n : Int64) : TermJson (.integer n) (.num n.toInt 0)
  | float (f : φ) (mantissa : Int) (exponent : Nat) : TermJson (.float f) (.num mantissa exponent)
  | notFinite (f : φ) : TermJson (.float f) .null
  | string (s : Text) : TermJson (.str s) (.str (String.ofList s))
  | list (head tail : Transpile.Term φ) (xs : List Json) :
    TermJson (.compound "[|]".toList [head, tail]) (.arr xs)
  | improper (head tail : Transpile.Term φ) (s : Text) :
    TermJson (.compound "[|]".toList [head, tail]) (.str (String.ofList ('[' :: s)))
  | compound (functor : Text) (args : List (Transpile.Term φ)) (fields : Fields) :
    TermJson (.compound functor args) (.obj fields)

/-- The solution gives the variables these values. It does not mention anonymous ones. -/
def Solves (σ : Text → Transpile.Term φ) (bindings : Fields) : Prop :=
  ∀ x v, Fields.get x bindings = some v → x ≠ "_" ∧ TermJson (σ x.toList) v

end Instances

/-! ### The condition -/

section Condition
variable {φ : Type} (F : FloatText φ)

/-- A term that is written as this text without quotes. -/
def writtenAs (x : Text) : Transpile.Term φ → Bool
  | .atom s => !prologAtomNeedsQuoting s && s == x
  | .integer n => i64Text n == x
  | .float f => F.display f == x
  | .var _ | .str _ | .compound _ _ => false

mutual
/-- What is in the goal needs no quotes, and its variables have values that look like them. -/
def writesAlike : Transpile.Term φ → Transpile.Term φ → Bool
  | .atom s, _ => !prologAtomNeedsQuoting s
  | .var x, t => writtenAs F x t
  | .integer _, _ | .float _, _ => true
  | .str _, _ => false
  | .compound functor args, .compound _ args' =>
    !prologAtomNeedsQuoting functor && writeAlike args args'
  | .compound _ _, _ => false
def writeAlike : List (Transpile.Term φ) → List (Transpile.Term φ) → Bool
  | t :: ts, t' :: ts' => writesAlike t t' && writeAlike ts ts'
  | _, _ => true
end

/-- An argument of the goal and the same argument of the instance. -/
def argAgrees (bindings : Fields) (t t' : Transpile.Term φ) : Bool :=
  match supplied bindings (termToTemplateStr F t), t with
  | none, _ => writesAlike F t t'
  | some s, .var _ => writtenAs F s t'
  | some s, _ => s == renderPrologTerm F t'

/-- The arguments of a variable are atoms without quotes, and no other argument has quotes. -/
def rootAgrees (bindings : Fields) : Transpile.Term φ → Transpile.Term φ → Bool
  | .compound _ args, .compound _ args' =>
    (args.zip args').all fun p => argAgrees F bindings p.1 p.2
  | _, _ => true

end Condition

/-! ### Texts with and without quotes -/

/-- The escaped text has at least as many quotes and backslashes in front as the text. -/
theorem escape_front (q : Char) (s w : Text) :
    (s.takeWhile fun c => c == '\\' || c == q).length ≤
      ((escape q s ++ w).takeWhile fun c => c == '\\' || c == q).length := by
  induction s with
  | nil => exact Nat.zero_le _
  | cons c s ih =>
    by_cases hc : c = '\\' ∨ c = q
    · have hp : (c == '\\' || c == q) = true := by simpa using hc
      have hesc : escape q (c :: s) ++ w = '\\' :: c :: (escape q s ++ w) := by
        rw [escape_cons, if_pos (by simpa using hc)]
        rfl
      rw [hesc]
      simp only [List.takeWhile_cons, hp, beq_self_eq_true, Bool.true_or, if_true,
        List.length_cons]
      omega
    · have hp : (c == '\\' || c == q) = false := by simpa using hc
      simp [hp]

theorem length_le_escape (q : Char) (s : Text) : s.length ≤ (escape q s).length := by
  induction s with
  | nil => exact Nat.zero_le _
  | cons c s ih =>
    rw [escape_cons, List.length_append, List.length_cons]
    split <;> simp <;> omega

/-- No text is its own quotation: the quotes and backslashes in front are more. -/
theorem quoted_ne {q : Char} {z : Text} (hz : ∀ c ∈ z.head?, c ≠ '\\' ∧ c ≠ q) (s w : Text) :
    s ++ z ≠ q :: (escape q s ++ w) := by
  intro h
  have hfront := escape_front q s w
  have hstop : ∀ c ∈ z.head?, (c == '\\' || c == q) = false := by simpa using hz
  have hrun := congrArg (fun l => (l.takeWhile fun c => c == '\\' || c == q).length) h
  simp only [Span.takeWhile_append_left (.inr hstop), List.takeWhile_cons, beq_self_eq_true,
    Bool.or_true, if_true, List.length_cons] at hrun
  omega

/-- What stands behind a word: a parenthesis or a comma. -/
def StopsWord (z : Text) : Prop := ∃ c v, z = c :: v ∧ (c = '(' ∨ c = ',' ∨ c = ')')

/-- What stands behind an argument. -/
def StopsArg (z : Text) : Prop := ∃ c v, z = c :: v ∧ (c = ',' ∨ c = ')')

theorem StopsArg.word {z : Text} : StopsArg z → StopsWord z
  | ⟨c, v, h, hc⟩ => ⟨c, v, h, .inr hc⟩

theorem StopsWord.not_simple {z : Text} (h : StopsWord z) :
    ∀ c ∈ z.head?, isSimpleChar c = false := by
  obtain ⟨c, v, rfl, rfl | rfl | rfl⟩ := h <;> simp <;> decide

theorem StopsWord.not_quote {z : Text} (h : StopsWord z) {q : Char} (hq : q = '\'' ∨ q = '"') :
    ∀ c ∈ z.head?, c ≠ '\\' ∧ c ≠ q := by
  obtain ⟨c, v, rfl, rfl | rfl | rfl⟩ := h <;> rcases hq with rfl | rfl <;> simp

theorem word_unique {x y z w : Text} (hx : ∀ c ∈ x, isSimpleChar c) (hy : ∀ c ∈ y, isSimpleChar c)
    (hz : StopsWord z) (hw : StopsWord w) (h : x ++ z = y ++ w) : x = y ∧ z = w := by
  have htake := congrArg (List.takeWhile isSimpleChar) h
  have hdrop := congrArg (List.dropWhile isSimpleChar) h
  rw [Span.takeWhile_append_stop hx hz.not_simple, Span.takeWhile_append_stop hy hw.not_simple]
    at htake
  rw [Span.dropWhile_append_stop hx hz.not_simple, Span.dropWhile_append_stop hy hw.not_simple]
    at hdrop
  exact ⟨htake, hdrop⟩

theorem bare_simple {s : Text} (h : prologAtomNeedsQuoting s = false) :
    ∀ c ∈ s, isSimpleChar c := by
  intro c hc
  rcases (needsQuoting_eq_false h).2.2 c hc with halpha | rfl
  · simp [isSimpleChar, halpha]
  · rfl

theorem varName_simple {x : Text} (h : IsVarName x) : ∀ c ∈ x, isSimpleChar c := by
  intro c hc
  have hident := h.2 c hc
  simp only [isIdent, Bool.or_eq_true, beq_iff_eq] at hident
  rcases hident with halpha | rfl
  · simp [isSimpleChar, Text.isAlphanumeric, halpha]
  · rfl

section Texts
variable {φ : Type} {F : FloatText φ} {σ : Text → Transpile.Term φ}

/-- A name in front of a stop is written as in the template only without quotes. -/
theorem atomRender_unique {s z z' : Text} (hz : StopsWord z)
    (h : s ++ z = prologAtomRender s ++ z') : prologAtomNeedsQuoting s = false ∧ z = z' := by
  unfold prologAtomRender at h
  split at h
  · next =>
    have hquoted : '\'' :: escape '\'' s ++ ['\''] ++ z' = '\'' :: (escape '\'' s ++ '\'' :: z') := by
      simp
    exact absurd (h.trans hquoted) (quoted_ne (hz.not_quote (.inl rfl)) s _)
  · next hq => exact ⟨by simpa using hq, List.append_cancel_left h⟩

/-- What begins like a variable does not begin with a quote. -/
theorem varName_head {x : Text} (hx : IsVarName x) {q : Char} (hq : q = '\'' ∨ q = '"') (z w : Text) :
    x ++ z ≠ q :: w := by
  obtain ⟨⟨c, hc, hup⟩, -⟩ := hx
  cases x with
  | nil => simp at hc
  | cons d x =>
    obtain rfl : d = c := by simpa using hc
    intro h
    have hd : d = q := (List.cons.inj h).1
    rcases hq with rfl | rfl <;> subst hd <;> revert hup <;> decide

/-- A text without quotes that stands where the name of a variable stands. -/
theorem name_unique {x y z z' : Text} (hx : IsVarName x) (hy : ∀ c ∈ y, isSimpleChar c)
    (hz : StopsArg z) (hz' : StopsArg z') (h : x ++ z = y ++ z') : y = x ∧ z = z' := by
  obtain ⟨hxy, hzz⟩ := word_unique (varName_simple hx) hy hz.word hz'.word h
  exact ⟨hxy.symm, hzz⟩

theorem var_unique {x : Text} (hx : IsVarName x) {t : Transpile.Term φ} (hground : termIsGround t)
    {z z' : Text} (hz : StopsArg z) (hz' : StopsArg z')
    (h : x ++ z = renderPrologTerm F t ++ z') : writtenAs F x t = true ∧ z = z' := by
  cases t with
  | atom s =>
    rw [renderPrologTerm, prologAtomRender] at h
    split at h
    · exact absurd h (varName_head hx (.inl rfl) z _)
    · next hq =>
      have hbare : prologAtomNeedsQuoting s = false := by simpa using hq
      obtain ⟨rfl, hzz⟩ := name_unique hx (bare_simple hbare) hz hz' h
      exact ⟨by simp [writtenAs, hbare], hzz⟩
  | var y => simp [termIsGround] at hground
  | integer n =>
    obtain ⟨hn, hzz⟩ := name_unique hx (simple_i64Text n) hz hz' h
    exact ⟨by simp [writtenAs, hn], hzz⟩
  | float f =>
    obtain ⟨hf, hzz⟩ := name_unique hx (simple_display f) hz hz' h
    exact ⟨by simp [writtenAs, hf], hzz⟩
  | str s => exact absurd h (varName_head hx (.inr rfl) z _)
  | compound functor args =>
    rw [renderPrologTerm, prologAtomRender] at h
    split at h
    · exact absurd h (varName_head hx (.inl rfl) z _)
    · next hq =>
      -- a parenthesis does not follow an argument
      have hbare : prologAtomNeedsQuoting functor = false := by simpa using hq
      rw [List.append_assoc, List.append_assoc] at h
      obtain ⟨-, hzz⟩ := word_unique (varName_simple hx) (bare_simple hbare) hz.word
        ⟨'(', _, rfl, .inl rfl⟩ h
      obtain ⟨c, v, rfl, hc⟩ := hz
      have hparen : c = '(' := (List.cons.inj hzz).1
      subst hparen
      simp at hc

mutual
/-- In front of what may stand behind an argument, the template and the text of the instance are
the same only where nothing is quoted. -/
theorem template_unique : (t t' : Transpile.Term φ) → IsInstance σ t t' → Named t →
    termIsGround t' → ∀ {z z' : Text}, StopsArg z → StopsArg z' →
    termToTemplateStr F t ++ z = renderPrologTerm F t' ++ z' →
    writesAlike F t t' = true ∧ z = z'
  | .atom s, t', hinst, _, _, z, z', hz, _, h => by
    obtain rfl : t' = .atom s := hinst
    obtain ⟨hbare, hzz⟩ := atomRender_unique (s := s) hz.word h
    exact ⟨by simp [writesAlike, hbare], hzz⟩
  | .var x, t', _, hnamed, hground, z, z', hz, hz', h => by
    have hx : IsVarName x := hnamed x (by simp [collectVars])
    exact var_unique hx hground hz hz' h
  | .integer n, t', hinst, _, _, z, z', _, _, h => by
    obtain rfl : t' = .integer n := hinst
    exact ⟨rfl, List.append_cancel_left h⟩
  | .float f, t', hinst, _, _, z, z', _, _, h => by
    obtain rfl : t' = .float f := hinst
    exact ⟨rfl, List.append_cancel_left h⟩
  | .str s, t', hinst, _, _, z, z', hz, _, h => by
    obtain rfl : t' = .str s := hinst
    have hquoted : clipsString s ++ z' = '"' :: (escape '"' s ++ '"' :: z') := by
      simp [clipsString]
    exact absurd (h.trans hquoted) (quoted_ne (hz.word.not_quote (.inr rfl)) s _)
  | .compound functor args, t', hinst, hnamed, hground, z, z', hz, hz', h => by
    obtain ⟨args', rfl, hargs⟩ := hinst
    have hparts : functor ++ '(' :: (Text.join [','] (termToTemplateStrs F args) ++ ')' :: z) =
        prologAtomRender functor ++
          '(' :: (Text.join [','] (renderPrologTerms F args') ++ ')' :: z') := by
      simpa [termToTemplateStr, renderPrologTerm] using h
    obtain ⟨hbare, hbehind⟩ := atomRender_unique ⟨'(', _, rfl, .inl rfl⟩ hparts
    have hinner := templates_unique args args' hargs
      (fun a ha x hx => hnamed x (by rw [collectVars]; exact mem_collectVarsList.mpr ⟨a, ha, hx⟩))
      (by simpa [termIsGround] using hground) (List.cons.inj hbehind).2
    exact ⟨by simp [writesAlike, hbare, hinner.1], hinner.2⟩
theorem templates_unique : (ts ts' : List (Transpile.Term φ)) → AreInstances σ ts ts' →
    (∀ t ∈ ts, Named t) → termsAreGround ts' → ∀ {z z' : Text},
    Text.join [','] (termToTemplateStrs F ts) ++ ')' :: z =
      Text.join [','] (renderPrologTerms F ts') ++ ')' :: z' →
    writeAlike F ts ts' = true ∧ z = z'
  | [], ts', hinst, _, _, z, z', h => by
    obtain rfl : ts' = [] := hinst
    exact ⟨rfl, (List.cons.inj h).2⟩
  | [t], ts', hinst, hnamed, hground, z, z', h => by
    obtain ⟨u, us, rfl, hu, rfl⟩ := hinst
    have hone : termToTemplateStr F t ++ ')' :: z = renderPrologTerm F u ++ ')' :: z' := by
      simpa [termToTemplateStrs, renderPrologTerms] using h
    obtain ⟨halike, hzz⟩ := template_unique t u hu (hnamed t (by simp))
      (by simpa [termsAreGround] using hground) ⟨')', z, rfl, .inr rfl⟩ ⟨')', z', rfl, .inr rfl⟩
      hone
    exact ⟨by simp [writeAlike, halike], (List.cons.inj hzz).2⟩
  | t :: r :: ts, ts', hinst, hnamed, hground, z, z', h => by
    obtain ⟨u, us, rfl, hu, v, vs, rfl, hv, hvs⟩ := hinst
    have hmore : termToTemplateStr F t ++
        ',' :: (Text.join [','] (termToTemplateStrs F (r :: ts)) ++ ')' :: z) =
        renderPrologTerm F u ++
          ',' :: (Text.join [','] (renderPrologTerms F (v :: vs)) ++ ')' :: z') := by
      simpa [termToTemplateStrs, renderPrologTerms, Text.join_cons] using h
    have hboth : termIsGround u ∧ termsAreGround (v :: vs) := by
      simpa [termsAreGround] using hground
    obtain ⟨halike, hbehind⟩ := template_unique t u hu (hnamed t (by simp)) hboth.1
      ⟨',', _, rfl, .inl rfl⟩ ⟨',', _, rfl, .inl rfl⟩ hmore
    obtain ⟨hrest, hzz⟩ := templates_unique (r :: ts) (v :: vs) ⟨v, vs, rfl, hv, hvs⟩
      (fun a ha => hnamed a (by simp [List.mem_cons.mp ha])) hboth.2 (List.cons.inj hbehind).2
    exact ⟨by simp only [writeAlike, halike, Bool.true_and] at hrest ⊢; exact hrest, hzz⟩
end

theorem render_writtenAs {x : Text} {t : Transpile.Term φ} (h : writtenAs F x t = true) :
    renderPrologTerm F t = x := by
  cases t with
  | atom s =>
    obtain ⟨hbare, rfl⟩ : prologAtomNeedsQuoting s = false ∧ s = x := by simpa [writtenAs] using h
    simp [renderPrologTerm, prologAtomRender, hbare]
  | integer n => simpa [writtenAs, renderPrologTerm] using h
  | float f => simpa [writtenAs, renderPrologTerm] using h
  | _ => simp [writtenAs] at h

mutual
theorem template_of_alike : (t t' : Transpile.Term φ) → IsInstance σ t t' →
    writesAlike F t t' = true → termToTemplateStr F t = renderPrologTerm F t'
  | .atom s, t', hinst, h => by
    obtain rfl : t' = .atom s := hinst
    have hbare : prologAtomNeedsQuoting s = false := by simpa [writesAlike] using h
    simp [termToTemplateStr, renderPrologTerm, prologAtomRender, hbare]
  | .var x, t', _, h => (render_writtenAs h).symm
  | .integer n, t', hinst, _ => by
    obtain rfl : t' = .integer n := hinst
    rfl
  | .float f, t', hinst, _ => by
    obtain rfl : t' = .float f := hinst
    rfl
  | .str s, t', _, h => by simp [writesAlike] at h
  | .compound functor args, t', hinst, h => by
    obtain ⟨args', rfl, hargs⟩ := hinst
    obtain ⟨hbare, hrest⟩ : prologAtomNeedsQuoting functor = false ∧
        writeAlike F args args' = true := by simpa [writesAlike] using h
    rw [termToTemplateStr, renderPrologTerm, templates_of_alike args args' hargs hrest]
    simp [prologAtomRender, hbare]
theorem templates_of_alike : (ts ts' : List (Transpile.Term φ)) → AreInstances σ ts ts' →
    writeAlike F ts ts' = true → termToTemplateStrs F ts = renderPrologTerms F ts'
  | [], ts', hinst, _ => by
    obtain rfl : ts' = [] := hinst
    rfl
  | t :: ts, ts', hinst, h => by
    obtain ⟨u, us, rfl, hu, hus⟩ := hinst
    obtain ⟨hone, hrest⟩ : writesAlike F t u = true ∧ writeAlike F ts us = true := by
      simpa [writeAlike] using h
    rw [termToTemplateStrs, renderPrologTerms, template_of_alike t u hu hone,
      templates_of_alike ts us hus hrest]
end

theorem template_eq_iff {t t' : Transpile.Term φ} (hinst : IsInstance σ t t') (hnamed : Named t)
    (hground : termIsGround t') :
    termToTemplateStr F t = renderPrologTerm F t' ↔ writesAlike F t t' = true := by
  refine ⟨fun h => ?_, template_of_alike t t' hinst⟩
  have hstop : StopsArg [')'] := ⟨')', [], rfl, .inr rfl⟩
  exact (template_unique t t' hinst hnamed hground hstop hstop (by rw [h])).1

/-- A string of the solution is the text of the value only where no quotes are needed. -/
theorem value_eq_iff {t : Transpile.Term φ} {s : String} (h : TermJson t (.str s)) :
    s.toList = renderPrologTerm F t.bytes ↔ writtenAs F s.toList t.bytes = true := by
  refine ⟨fun heq => ?_, fun hw => (render_writtenAs hw).symm⟩
  have hlong : ∀ (q : Char) (u : Text), u ≠ q :: escape q (Text.asBytes u) ++ [q] := by
    intro q u hu
    have hbytes := Text.length_le_asBytes u
    have hescape := length_le_escape q (Text.asBytes u)
    have hlen := congrArg List.length hu
    simp only [List.length_append, List.length_cons, List.length_nil] at hlen
    omega
  cases h with
  | @atom u _ =>
    rw [String.toList_ofList] at heq ⊢
    rw [Transpile.Term.bytes, renderPrologTerm, prologAtomRender] at heq
    split at heq
    · exact absurd heq (hlong '\'' u)
    · next hq =>
      rw [← heq] at hq
      simp [Transpile.Term.bytes, writtenAs, ← heq, hq]
  | string u =>
    rw [String.toList_ofList] at heq
    exact absurd heq (hlong '"' u)
  | improper head tail u =>
    rw [String.toList_ofList] at heq
    have hquote : prologAtomRender (Text.asBytes "[|]".toList) = "'[|]'".toList := by
      decide +kernel
    rw [Transpile.Term.bytes, renderPrologTerm, hquote] at heq
    exact absurd (List.cons.inj heq).1 (by decide)

theorem supplied_eq_some {bindings : Fields} {template s : Text}
    (h : supplied bindings template = some s) :
    Fields.get (String.ofList template) bindings = some (.str (String.ofList s)) := by
  unfold supplied at h
  split at h
  · obtain ⟨v, hv, rfl⟩ := Option.map_eq_some_iff.mp h
    obtain ⟨j, hj, hstr⟩ := Option.bind_eq_some_iff.mp hv
    rw [hj, String.ofList_toList]
    cases j <;> simp_all [Json.asStr]
  · cases h

/-- One argument of the key. -/
theorem groundArg_eq_iff {bindings : Fields} (hsol : Solves σ bindings) {t t' : Transpile.Term φ}
    (hinst : IsInstance σ t t') (hnamed : Named t) (hground : termIsGround t') :
    groundArg bindings (termToTemplateStr F t) = renderPrologTerm F t' ↔
      argAgrees F bindings t t' = true := by
  unfold groundArg argAgrees
  cases hs : supplied bindings (termToTemplateStr F t) with
  | none => simpa using template_eq_iff hinst hnamed hground
  | some s =>
    cases t with
    | var x =>
      -- the solution has a string for the variable
      obtain ⟨hanon, hjson⟩ := hsol _ _ (supplied_eq_some hs)
      have hvalue : t' = (σ x).bytes := by
        refine hinst.resolve_left fun hx => hanon ?_
        rw [termToTemplateStr, hx]
      rw [termToTemplateStr, String.toList_ofList] at hjson
      rw [hvalue]
      simpa using value_eq_iff (F := F) hjson
    | _ => simp

theorem groundArgs_eq_iff {bindings : Fields} (hsol : Solves σ bindings) :
    (args args' : List (Transpile.Term φ)) → AreInstances σ args args' → (∀ t ∈ args, Named t) →
    termsAreGround args' →
    ((termToTemplateStrs F args).map (groundArg bindings) = args'.map (renderPrologTerm F) ↔
      ((args.zip args').all fun p => argAgrees F bindings p.1 p.2) = true)
  | [], args', hinst, _, _ => by
    obtain rfl : args' = [] := hinst
    simp [termToTemplateStrs]
  | t :: ts, args', hinst, hnamed, hground => by
    obtain ⟨u, us, rfl, hu, hus⟩ := hinst
    have hboth : termIsGround u ∧ termsAreGround us := by simpa [termsAreGround] using hground
    have hone := groundArg_eq_iff (F := F) hsol hu (hnamed t (by simp)) hboth.1
    have hrest := groundArgs_eq_iff hsol ts us hus (fun a ha => hnamed a (by simp [ha])) hboth.2
    rw [termToTemplateStrs, List.map_cons, List.map_cons, List.cons.injEq, hone, hrest]
    simp

/-- The keys agree when every argument does. -/
theorem rootKey_eq_iff {bindings : Fields} (hsol : Solves σ bindings) {t t' : Transpile.Term φ}
    (hinst : IsInstance σ t t') (hnamed : Named t) (hground : termIsGround t') :
    (∀ key, rootKey F bindings t = some key → key = eventKey F t') ↔
      rootAgrees F bindings t t' = true := by
  cases t with
  | atom f =>
    obtain rfl : t' = .atom f := hinst
    simp [rootKey, argTemplates, eventKey, termFunctor, extractGroundArgs, rootAgrees]
  | compound functor args =>
    obtain ⟨args', rfl, hargs⟩ := hinst
    have hnames : ∀ a ∈ args, Named a := fun a ha x hx =>
      hnamed x (by rw [collectVars]; exact mem_collectVarsList.mpr ⟨a, ha, hx⟩)
    have hlist := groundArgs_eq_iff (F := F) hsol args args' hargs hnames
      (by simpa [termIsGround] using hground)
    have hofList : Function.Injective String.ofList := fun _ _ h => String.ofList_inj.mp h
    rw [rootAgrees, ← hlist, ← (List.map_injective_iff.mpr hofList).eq_iff]
    simp [rootKey, argTemplates, eventKey, termFunctor, extractGroundArgs, Function.comp_def]
  | _ => simp [rootKey, argTemplates, rootAgrees]

end Texts

/-! ### The row of the proved goal -/

section Rows
variable {φ : Type} {F : FloatText φ} {m : Mint} {sid : Uuid}

/-- A solution marks one row, if the goal has one. -/
theorem reEvaluateRootGoal_read {goal : String} {t : Transpile.Term φ}
    (hread : parsePrologTerm F goal.toList = .ok t) (sol : Json) (sols : List Json)
    (s : RootGoal) :
    reEvaluateRootGoal F m sid (some goal) (some (.arr (sol :: sols))) s =
      match rootKey F (sol.asObject.getD []) t with
      | none => s
      | some key =>
        ⟨s.tableau.updateTruth m sid key.1 key.2 .knownTrue
          (solutionBindings (sol.asObject.getD [])), some (.arr (sol :: sols))⟩ := by
  simp only [reEvaluateRootGoal, hread]
  cases rootKey F (sol.asObject.getD []) t <;> rfl

/-- The row that a solution marks is the row of the instance: it is known to be true, and an
assert of the instance adds no other. -/
def ProvedOnce (F : FloatText φ) (goal : String) (bindings : Fields) (t' : Transpile.Term φ) :
    Prop :=
  ∀ (m : Mint) (sid : Uuid) (s : RootGoal) (sols : List Json),
    let s' := reEvaluateRootGoal F m sid (some goal) (some (.arr (.obj bindings :: sols))) s
    let truth (s : LiveTableau) :=
      (s.tableau.getEntry sid (eventKey F t').1 (eventKey F t').2).map PredicateEntry.truthValue
    s' = s ∨ truth s'.tableau = some .knownTrue ∧
      ∀ (payload : Json) (data : String), payload.strField "type" = some "assert" →
        payload.strField "data" = some data → parsePrologTerm F data.toList = .ok t' →
        let after := recordEventInTableau F m sid s'.tableau payload
        truth after = some .knownTrue ∧
          after.tableau.rows.map PredicateEntry.key = s'.tableau.tableau.rows.map PredicateEntry.key

theorem provedOnce_of_key {goal : String} {t t' : Transpile.Term φ} {bindings : Fields}
    (hread : parsePrologTerm F goal.toList = .ok t)
    (hkey : ∀ key, rootKey F bindings t = some key → key = eventKey F t') :
    ProvedOnce F goal bindings t' := by
  intro m sid s sols
  dsimp only
  have hsol : (Json.obj bindings).asObject.getD [] = bindings := rfl
  rw [reEvaluateRootGoal_read hread, hsol]
  cases hroot : rootKey F bindings t with
  | none => exact .inl rfl
  | some key =>
    obtain rfl := hkey key hroot
    have htruth := truth_updateTruth m sid s.tableau (eventKey F t').1 (eventKey F t').2
      .knownTrue (solutionBindings bindings) (eventKey F t')
    rw [if_pos rfl] at htruth
    refine .inr ⟨htruth, fun payload data htype hdata hparse => ?_⟩
    obtain ⟨e, he, -⟩ := Option.map_eq_some_iff.mp htruth
    have hassert : eventTruth "assert" = some .knownTrue := rfl
    simp only [recordEventInTableau, htype, hdata, hassert, hparse]
    exact recordTerm_of_row ⟨e, he, rfl⟩ .knownTrue

/-- In an empty tableau there is no row but the one that is marked. -/
theorem key_of_provedOnce {goal : String} {t t' : Transpile.Term φ} {bindings : Fields}
    (hread : parsePrologTerm F goal.toList = .ok t) (h : ProvedOnce F goal bindings t')
    {key : String × List String} (hroot : rootKey F bindings t = some key) :
    key = eventKey F t' := by
  have hempty := h .counting ⟨0⟩ ⟨.new, none⟩ []
  dsimp only at hempty
  have hsol : (Json.obj bindings).asObject.getD [] = bindings := rfl
  rw [reEvaluateRootGoal_read hread, hsol, hroot] at hempty
  rcases hempty with hsame | ⟨htruth, -⟩
  · cases hsame
  · rw [truth_updateTruth] at htruth
    split at htruth
    · next heq => exact heq.symm
    · cases htruth

/-- The row that is marked for a solution is the row of the instance exactly when each argument of
the goal is written without quotes in both: a variable that has a string for a value has an atom
that is its own text, any other stands where its name is the text, and nothing else is quoted. -/
theorem proved_goal_row_iff {goal : String} {t t' : Transpile.Term φ} {bindings : Fields}
    {σ : Text → Transpile.Term φ} (hread : parsePrologTerm F goal.toList = .ok t)
    (hsol : Solves σ bindings) (hinst : IsInstance σ t t') (hground : termIsGround t') :
    ProvedOnce F goal bindings t' ↔ rootAgrees F bindings t t' = true := by
  obtain ⟨r, hr⟩ := parsePrologTerm_eq_ok.mp hread
  rw [← rootKey_eq_iff hsol hinst (ruleTerm_named hr) hground]
  exact ⟨fun h key hroot => key_of_provedOnce hread h hroot, provedOnce_of_key hread⟩

theorem solves_single {x : String} (hx : x ≠ "_") {t : Transpile.Term φ} {v : Json}
    (h : TermJson t v) : Solves (fun _ => t) [(x, v)] := by
  intro y w hget
  simp only [Fields.get] at hget
  split at hget
  · next hxy =>
    obtain rfl := Option.some.inj hget
    exact ⟨hxy ▸ hx, h⟩
  · cases hget

/-- A plain atom for a variable, next to a compound and a number. -/
theorem plain_goal_one_row : ProvedOnce noFloats "p(X, f(a), 3)" [("X", .str "ann")]
    (.compound ['p'] [.atom "ann".toList, .compound ['f'] [.atom ['a']], .integer 3]) := by
  have hread : ReadsWhole noFloats "p(X, f(a), 3)".toList
      (.compound ['p'] [.var ['X'], .compound ['f'] [.atom ['a']], .integer 3]) := by
    unfold ReadsWhole
    decide +kernel
  have hatom : TermJson (.atom "ann".toList : Transpile.Term Empty) (.str "ann") :=
    .atom (by decide +kernel)
  have hbytes : Text.asBytes "ann".toList = "ann".toList := by decide +kernel
  refine (proved_goal_row_iff (parse_of_whole (by decide +kernel) hread)
    (solves_single (by decide) hatom) ?_ rfl).mpr (by decide +kernel)
  refine ⟨_, rfl, _, _, rfl, .inr ?_, _, _, rfl, ⟨_, rfl, _, _, rfl, rfl, rfl⟩, _, _, rfl, rfl, rfl⟩
  rw [Transpile.Term.bytes, hbytes]

/-- An atom with a blank has quotes in the row of an event, and none in the row that is marked. -/
theorem quoted_value_two_rows : ¬∀ (goal : String) (t t' : Transpile.Term Empty)
    (bindings : Fields) (σ : Text → Transpile.Term Empty),
    parsePrologTerm noFloats goal.toList = .ok t → Solves σ bindings → IsInstance σ t t' →
      termIsGround t' → ProvedOnce noFloats goal bindings t' := by
  intro h
  have hread : ReadsWhole noFloats "lives(X)".toList (.compound "lives".toList [.var ['X']]) := by
    unfold ReadsWhole
    decide +kernel
  have hparse := parse_of_whole (by decide +kernel) hread
  have hatom : TermJson (.atom "New York".toList : Transpile.Term Empty) (.str "New York") :=
    .atom (by decide +kernel)
  have hbytes : Text.asBytes "New York".toList = "New York".toList := by decide +kernel
  have hinst : IsInstance (fun _ => (.atom "New York".toList : Transpile.Term Empty))
      (.compound "lives".toList [.var ['X']])
      (.compound "lives".toList [.atom "New York".toList]) := by
    refine ⟨_, rfl, _, _, rfl, .inr ?_, rfl⟩
    rw [Transpile.Term.bytes, hbytes]
  have hsol : Solves (fun _ => (.atom "New York".toList : Transpile.Term Empty))
      [("X", .str "New York")] := solves_single (by decide) hatom
  have hkey := key_of_provedOnce hparse (h _ _ _ _ _ hparse hsol hinst rfl) rfl
  exact absurd hkey (by decide +kernel)

end Rows

end Cerebellum
