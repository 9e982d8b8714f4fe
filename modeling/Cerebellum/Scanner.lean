import Cerebellum.Lib.Reader
import Cerebellum.ClipsParser
import Cerebellum.Transduce

/-! The parsers of transpile.rs and transduction.rs as they run: an input of bytes, a position in
it, indices, slices and loops. What is left of the input and what it is parsed to is said by the
parsers on texts. -/
namespace Cerebellum.Scanner
open Transpile Reader

abbrev Scan (α : Type) := Method Char String α

/-! ### Lexical parts -/

def skipWs : Scan Unit := skipIndexed Text.isAsciiWhitespace

/-- `str::from_utf8` with its error passed on. -/
def fromUtf8 (bytes : Text) : Scan Text :=
  match Text.fromUtf8 (bytes.map Char.toUInt8) with
  | some s => pure s
  | none => fail "invalid utf-8 sequence"

/-- The loop of `parse_quoted_atom`. -/
def quotedBody : Scan Text :=
  loop [] fun s => do
    match ← next with
    | none => fail "unterminated quoted atom"
    | some b =>
      if b = '\'' then
        if (← peek) = some '\'' then
          let _ ← next
          return .inl (s ++ ['\''])
        else return .inr s
      else if b = '\\' then
        match ← next with
        | some c => return .inl (s ++ quotedEscape c)
        | none => fail "unterminated escape in quoted atom"
      else return .inl (s ++ [b])

/-- The loop of `parse_double_quoted` and of `parse_string`, which differ in what they call the
text. -/
def doubleQuotedBody (unterminated unterminatedEscape : String) : Scan Text :=
  loop [] fun s => do
    match ← next with
    | none => fail unterminated
    | some b =>
      if b = '"' then return .inr s
      else if b = '\\' then
        match ← next with
        | some c => return .inl (s ++ [doubleQuotedEscape c])
        | none => fail unterminatedEscape
      else return .inl (s ++ [b])

/-- `str::parse::<i64>` on the text of a number. -/
def parseI64Text : Text → Except String Int64
  | '-' :: digits => parseI64 true digits
  | digits => parseI64 false digits

section Terms
variable {φ : Type} (F : FloatText φ)

/-- `parse_number` behind its sign. -/
def parseUnsigned (start : Nat) : Scan (Transpile.Term φ) := do
  skipPeeked Char.isDigit
  if (← peek) = some '.' then
    let _ ← next
    skipPeeked Char.isDigit
    let s ← fromUtf8 (← slice start)
    match F.parse s with
    | some f => return .float f
    | none => fail "invalid float literal"
  else
    let s ← fromUtf8 (← slice start)
    match parseI64Text s with
    | .ok n => return .integer n
    | .error m => fail m

def parseNumber : Scan (Transpile.Term φ) := do
  let start ← position
  if (← peek) = some '-' then
    let _ ← next
  parseUnsigned F start

def parseVariable : Scan (Transpile.Term φ) := do
  let start ← position
  skipPeeked isIdent
  return .var (← fromUtf8 (← slice start))

/-! ### Terms -/

/-- `PrologParser` and `RuleParser` have the same methods for terms and word three of their errors
differently. -/
structure Wording where
  unexpected : Char → Nat → String
  atEnd : String
  list : String

def prologParser : Wording where
  unexpected c _ := "unexpected character '" ++ c.toString ++ "' in Prolog term"
  atEnd := "unexpected end of Prolog term"
  list := "non-empty list terms are not supported in the transpiler"

def ruleParser : Wording where
  unexpected c p := "unexpected char '" ++ c.toString ++ "' at pos " ++ toString p
  atEnd := "unexpected end of input"
  list := "non-empty list terms are not supported in the rule parser"

variable (W : Wording)

def parseList : Scan (Transpile.Term φ) := do
  let _ ← next
  skipWs
  if (← peek) = some ']' then
    let _ ← next
    return .atom "[]".toList
  fail W.list

/-- The loop of `parse_args`, with `parse_term` given. -/
def argsRounds (term : Scan (Transpile.Term φ)) : Scan (List (Transpile.Term φ)) :=
  loop [] fun args => do
    let args := args ++ [← term]
    skipWs
    match ← peek with
    | none => fail "unexpected end of args"
    | some b =>
      if b = ',' then
        let _ ← next
        return .inl args
      else if b = ')' then
        let _ ← next
        return .inr args
      else fail (gotInArgs b)

def parseArgs (term : Scan (Transpile.Term φ)) : Scan (List (Transpile.Term φ)) := do
  skipWs
  if (← peek) = some ')' then
    let _ ← next
    return []
  else argsRounds term

def maybeCompound (term : Scan (Transpile.Term φ)) (functor : Text) : Scan (Transpile.Term φ) := do
  skipWs
  if (← peek) = some '(' then
    let _ ← next
    return .compound functor (← parseArgs term)
  else return .atom functor

def parseQuotedAtom (term : Scan (Transpile.Term φ)) : Scan (Transpile.Term φ) := do
  let _ ← next
  maybeCompound term (← quotedBody)

def parseDoubleQuoted : Scan (Transpile.Term φ) := do
  let _ ← next
  return .str (← doubleQuotedBody "unterminated string" "unterminated escape in string")

def parseAtomOrCompound (term : Scan (Transpile.Term φ)) : Scan (Transpile.Term φ) := do
  let start ← position
  skipPeeked isIdent
  maybeCompound term (← fromUtf8 (← slice start))

/-- `parse_term`, which calls itself for the arguments of a compound, to the given depth. -/
def parseTermTo : Nat → Scan (Transpile.Term φ)
  | 0 => fun _ _ => .fault .outOfRounds
  | depth + 1 => do
    let start ← position
    let inner := beyond start (parseTermTo depth)
    skipWs
    match ← peek with
    | none => fail W.atEnd
    | some b =>
      if b = '\'' then parseQuotedAtom inner
      else if b = '"' then parseDoubleQuoted
      else if b = '[' then parseList W
      else if b = '-' || b.isDigit then parseNumber F
      else if b.isUpper || b = '_' then parseVariable
      else if b.isLower then parseAtomOrCompound inner
      else fail (W.unexpected b (← position))

/-- No more calls can be open than the input has positions. -/
def parseTerm : Scan (Transpile.Term φ) := fun input p => parseTermTo F W (input.length + 1) input p

/-! ### Facts -/

def parseSymbol : Scan Text := do
  let start ← position
  skipPeeked isSymbolByte
  if (← position) = start then fail "empty symbol in CLIPS fact"
  else fromUtf8 (← slice start)

def parseFactVariable : Scan (Transpile.Term φ) := do
  let _ ← next
  let start ← position
  skipPeeked isVariableByte
  return .var (capitalizeFirst (← fromUtf8 (← slice start)))

def parseString : Scan (Transpile.Term φ) := do
  let _ ← next
  return .str (← doubleQuotedBody "unterminated string in CLIPS fact"
    "unterminated escape in CLIPS string")

def parseField : Scan (Transpile.Term φ) := do
  skipWs
  match ← peek with
  | none => return .atom (← parseSymbol)
  | some b =>
    if b = '"' then parseString
    else if b = '?' then parseFactVariable
    else if b.isDigit || b = '-' then parseNumber F
    else return .atom (← parseSymbol)

/-- The loop of `parse_fact`. -/
def factFields : Scan (List (Transpile.Term φ)) :=
  loop [] fun args => do
    skipWs
    match ← peek with
    | none => fail "unexpected end in CLIPS fact"
    | some b =>
      if b = ')' then
        let _ ← next
        return .inr args
      else return .inl (args ++ [← parseField F])

def parseFact : Scan (Transpile.Term φ) := do
  skipWs
  let opening ← peek
  if opening = some '(' then
    let _ ← next
    skipWs
    let functor ← parseSymbol
    return factTerm functor (← factFields F)
  else fail ("expected '(' at start of CLIPS fact, got " ++ debugByte opening)

/-! ### Rules -/

def skipWsAndComments : Scan Unit :=
  loop () fun _ => do
    skipWs
    if (← peek) = some '%' then
      skipIndexed (· != '\n')
      return .inl ()
    else return .inr ()

def peekTwo : Scan (Option (Char × Char)) := do
  let p ← position
  if p + 1 < (← length) then return some (← index p, ← index (p + 1))
  else return none

def skipN (n : Nat) : Scan Unit := do
  moveTo (min ((← position) + n) (← length))

def skipToPeriod : Scan Unit :=
  loop () fun _ => do
    match ← next with
    | none => return .inr ()
    | some b => if b = '.' then return .inr () else return .inl ()

def parseGoalAtom : Scan (Transpile.Term φ) := do
  skipWs
  if (← peek) = some '(' then
    let _ ← next
    let t ← parseTerm F ruleParser
    skipWs
    if (← peek) = some ')' then
      let _ ← next
    return t
  else parseTerm F ruleParser

def parseGoal : Scan (BodyGoal φ) := do
  skipWs
  if (← peekTwo) = some ('\\', '+') then
    skipN 2
    skipWs
    return .negative (← parseGoalAtom F)
  else return asGoal (← parseGoalAtom F)

def parseBody : Scan (List (BodyGoal φ)) :=
  loop [] fun goals => do
    skipWsAndComments
    let goals := goals ++ [← parseGoal F]
    skipWs
    let b ← peek
    if b = some ',' ∨ b = some ';' then
      let _ ← next
      return .inl goals
    else return .inr goals

def parseClause : Scan (Option (PrologRule φ)) := do
  skipWsAndComments
  if (← position) < (← length) then
    let head ← parseTerm F ruleParser
    skipWs
    if (← peekTwo) = some (':', '-') then
      skipN 2
      skipWs
      let body ← parseBody F
      skipWs
      if (← peek) = some '.' then
        let _ ← next
      return some ⟨head, body⟩
    else if (← peek) = some '.' then
      let _ ← next
      return some ⟨head, []⟩
    else fail ("expected :- or . after head at pos " ++ toString (← position))
  else return none

def parsePrologRules : Scan (List (PrologRule φ)) :=
  loop [] fun rules => do
    match ← attempt (parseClause F) with
    | .ok (some rule) => return .inl (rules ++ [rule])
    | .ok none => return .inr rules
    | .error _ =>
      skipToPeriod
      return .inl rules

end Terms

end Cerebellum.Scanner
