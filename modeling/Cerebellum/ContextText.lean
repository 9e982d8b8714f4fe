import Cerebellum.JsonCodec
import Cerebellum.Quoting

/-! How a conversation is handed to Prolog: `DeductionSession::seed_context` of
clara-cycle/src/session.rs. The text of the context is put between single quotes with its single
quotes escaped, so the backslashes of JSON are taken for those of Prolog. -/
namespace Cerebellum
open Template

namespace Json

/-- The characters of a string that JSON writes with a backslash. -/
def isEscaped (c : Char) : Bool := c == '"' || c == '\\' || c.toNat < 32

theorem backslash_escape (c : Char) : '\\' ∈ JsonText.escape c ↔ isEscaped c := by
  unfold JsonText.escape
  cases h : JsonText.shortEscape c with
  | some e =>
    suffices isEscaped c by simpa using this
    unfold JsonText.shortEscape at h
    split_ifs at h <;> subst_vars <;> decide
  | none =>
    have hquote : c ≠ '"' := by
      rintro rfl
      cases h
    have hslash : c ≠ '\\' := by
      rintro rfl
      cases h
    by_cases hc : c.toNat < 32
    · simp [hc, isEscaped]
    · simp [hc, isEscaped, hquote, hslash, hslash.symm]

theorem backslash_print (s : String) :
    '\\' ∈ JsonText.string.print s ↔ ∃ c ∈ s.toList, isEscaped c := by
  simp [JsonText.string, backslash_escape]

/-- A text has a backslash exactly for the strings that need one. -/
theorem backslash_text (j : Json) :
    '\\' ∈ text j ↔ ∃ s ∈ strings j, ∃ c ∈ s.toList, isEscaped c := by
  rw [mem_text (by decide) j]
  simp only [backslash_print]

end Json

namespace Session

/-- The clause of `seed_context` for the JSON text of a context. -/
def contextClause (json : Text) : Text :=
  "the_rabbit:deduce_context_json('".toList ++ (escape '\\' '\'' json ++ "')".toList)

/-- `seed_context`: the clause that is asserted, none for an empty context. -/
def seedContext (context : List Json) : Option Text :=
  if context.isEmpty then none else some (contextClause (Json.text (.arr context)))

/-- `PrologEnvironment::assertz`: the goal that is asked. -/
def assertz (clause : Text) : Text := "assertz((".toList ++ (clause ++ "))".toList)

/-- A fact of `deduce_context_json/1` about one atom. -/
def contextFact (a : Text) : List (Lexeme Char) :=
  "the_rabbit:deduce_context_json(".toList.map .code ++ [.quoted '\'' a, .code ')']

/-- Prolog reads the clause, and the goal around it, as one fact whose atom is the text of the
context, and so the context when it is decoded. -/
def ReachesProlog (context : List Json) (clause : Text) : Prop :=
  ∃ a, Prolog.lexis.scan clause = some (contextFact a) ∧
    Prolog.lexis.scan (assertz clause) =
      some ("assertz((".toList.map .code ++ (contextFact a ++ "))".toList.map .code)) ∧
    a = Json.text (.arr context) ∧ Json.fromText (String.ofList a) = some (.arr context)

/-- A quoted atom as the last argument, between two pieces of code, is read as it is meant
exactly when it has no backslash. -/
theorem scan_atom {s t : Text} (hs : s.all Prolog.isCode) (ht : t.all Prolog.isCode)
    (hlast : s.getLast? = some '(') (a : Text) :
    Prolog.lexis.scan (s ++ '\'' :: (escape '\\' '\'' a ++ '\'' :: ')' :: t)) =
      some (s.map .code ++ .quoted '\'' a :: .code ')' :: t.map .code) ↔ '\\' ∉ a := by
  have hend : Prolog.lexis.Fits none [.code (')' :: t)] := by
    refine ⟨fun c hc => ?_, trivial⟩
    rcases List.mem_cons.mp hc with rfl | hc
    · exact show Prolog.isCode ')' from rfl
    · exact List.all_eq_true.mp ht c hc
  have hfits : Prolog.lexis.Fits none [.code s, .escaped '\'' a, .code (')' :: t)] :=
    (Lexis.Fits.splice (List.all_eq_true.mp hs) hlast (show '('.isDigit = false from rfl)
      (show Prolog.isQuote '\'' from rfl) rfl (show ')' ≠ '\'' by decide) hend).2
  have hmeans := Lexis.means_iff hfits
  simpa [Lexis.Means, Lexis.render, Lexis.lexemes, Chunk.render, Chunk.lexemes, Chunk.Clean,
    Prolog.lexis] using hmeans

theorem opening_eq : "the_rabbit:deduce_context_json('".toList =
    "the_rabbit:deduce_context_json(".toList ++ ['\''] := by decide +kernel

theorem closing_eq : "')".toList = '\'' :: ')' :: [] := by decide +kernel

theorem scan_clause (a : Text) :
    Prolog.lexis.scan (contextClause a) = some (contextFact a) ↔ '\\' ∉ a := by
  have hs : "the_rabbit:deduce_context_json(".toList.all Prolog.isCode := by decide +kernel
  have hlast : "the_rabbit:deduce_context_json(".toList.getLast? = some '(' := by decide +kernel
  unfold contextClause contextFact
  rw [opening_eq, closing_eq]
  generalize "the_rabbit:deduce_context_json(".toList = s at hs hlast ⊢
  simpa using scan_atom hs (t := []) rfl hlast a

theorem scan_goal (a : Text) : Prolog.lexis.scan (assertz (contextClause a)) =
    some ("assertz((".toList.map .code ++ (contextFact a ++ "))".toList.map .code)) ↔
      '\\' ∉ a := by
  have hs : ("assertz((".toList ++ "the_rabbit:deduce_context_json(".toList).all Prolog.isCode := by
    decide +kernel
  have hlast : ("assertz((".toList ++ "the_rabbit:deduce_context_json(".toList).getLast? =
    some '(' := by decide +kernel
  have ht : "))".toList.all Prolog.isCode := by decide +kernel
  unfold assertz contextClause contextFact
  rw [opening_eq, closing_eq]
  generalize "the_rabbit:deduce_context_json(".toList = s at hs hlast ⊢
  generalize "assertz((".toList = g at hs hlast ⊢
  generalize "))".toList = t at ht ⊢
  simpa using scan_atom hs ht hlast a

end Session
end Cerebellum
