import Cerebellum.Text
import Cerebellum.Cycle

/-! Prolog term text to CLIPS ordered facts: the parser and the renderers of transpile.rs, and
what the relay makes of an event's payload on its way to CLIPS. -/
namespace Cerebellum.Transpile

/-- A Prolog term, with `φ` for `f64`. -/
inductive Term (φ : Type) where
  | atom (s : Text)
  | var (s : Text)
  | integer (n : Int64)
  | float (f : φ)
  | str (s : Text)
  | compound (functor : Text) (args : List (Term φ))

namespace Term
variable {φ : Type} [DecidableEq φ]

mutual
def decEq : (a b : Term φ) → Decidable (a = b)
  | .atom a, .atom b => decidable_of_iff (a = b) (by simp)
  | .var a, .var b => decidable_of_iff (a = b) (by simp)
  | .integer a, .integer b => decidable_of_iff (a = b) (by simp)
  | .float a, .float b => decidable_of_iff (a = b) (by simp)
  | .str a, .str b => decidable_of_iff (a = b) (by simp)
  | .compound f xs, .compound g ys =>
    letI := decEqList xs ys
    decidable_of_iff (f = g ∧ xs = ys) (by simp)
  | .atom _, .var _ | .atom _, .integer _ | .atom _, .float _ | .atom _, .str _
  | .atom _, .compound _ _ | .var _, .atom _ | .var _, .integer _ | .var _, .float _
  | .var _, .str _ | .var _, .compound _ _ | .integer _, .atom _ | .integer _, .var _
  | .integer _, .float _ | .integer _, .str _ | .integer _, .compound _ _ | .float _, .atom _
  | .float _, .var _ | .float _, .integer _ | .float _, .str _ | .float _, .compound _ _
  | .str _, .atom _ | .str _, .var _ | .str _, .integer _ | .str _, .float _
  | .str _, .compound _ _ | .compound _ _, .atom _ | .compound _ _, .var _
  | .compound _ _, .integer _ | .compound _ _, .float _ | .compound _ _, .str _ =>
    isFalse (by simp)
def decEqList : (xs ys : List (Term φ)) → Decidable (xs = ys)
  | [], [] => isTrue rfl
  | [], _ :: _ | _ :: _, [] => isFalse (by simp)
  | x :: xs, y :: ys =>
    letI := decEq x y
    letI := decEqList xs ys
    decidable_of_iff (x = y ∧ xs = ys) (by simp)
end

instance : DecidableEq (Term φ) := decEq

end Term

/-- `f64` with its `FromStr` and `Display`. No float is displayed with an exponent, and one
displayed with a point reads back as itself. -/
structure FloatText (φ : Type) where
  parse : Text → Option φ
  display : φ → Text
  display_ne : ∀ f, display f ≠ []
  display_chars : ∀ f, ∀ c ∈ display f, c.isAlphanum || c == '-' || c == '.'
  display_point : ∀ f, '.' ∈ display f → ∃ (minus : Bool) (whole frac : Text),
    display f = (if minus then ['-'] else []) ++ whole ++ '.' :: frac ∧
      (∀ c ∈ whole, c.isDigit) ∧ (∀ c ∈ frac, c.isDigit) ∧ whole ≠ [] ∧
      parse (display f) = some f

/-- No floats: enough for a text without one. -/
def noFloats : FloatText Empty where
  parse _ := none
  display f := f.elim
  display_ne f := f.elim
  display_chars f := f.elim
  display_point f := f.elim

/-- What a parser method leaves: its result or an error, and the input not read yet. -/
inductive Parsed (α : Type) where
  | ok (value : α) (rest : Text)
  | error (message : String) (rest : Text)
  deriving DecidableEq

namespace Parsed
variable {α β : Type}

def map (f : α → β) : Parsed α → Parsed β
  | ok a u => ok (f a) u
  | error m u => error m u

def bind (p : Parsed α) (f : α → Text → Parsed β) : Parsed β :=
  match p with
  | ok a u => f a u
  | error m u => error m u

def toExcept : Parsed α → Except String α
  | ok a _ => .ok a
  | error m _ => .error m

end Parsed

/-! ### Lexical parts -/

def skipWs (u : Text) : Text := u.dropWhile Text.isAsciiWhitespace

def isIdent (c : Char) : Bool := c.isAlphanum || c == '_'

def quotedEscape (c : Char) : Text :=
  if c = 'n' then ['\n']
  else if c = 't' then ['\t']
  else if c = '\\' || c = '\'' then [c]
  else ['\\', c]

/-- The loop of `parse_quoted_atom`, behind the opening quote. -/
def quotedAtom : Text → Parsed Text
  | [] => .error "unterminated quoted atom" []
  | c :: u =>
    if c = '\'' then
      match u with
      | '\'' :: u => (quotedAtom u).map ('\'' :: ·)
      | u => .ok [] u
    else if c = '\\' then
      match u with
      | [] => .error "unterminated escape in quoted atom" []
      | d :: u => (quotedAtom u).map (quotedEscape d ++ ·)
    else (quotedAtom u).map (c :: ·)

def doubleQuotedEscape (c : Char) : Char :=
  if c = 'n' then '\n' else if c = 't' then '\t' else c

/-- The loop of `parse_double_quoted`. -/
def doubleQuoted : Text → Parsed Text
  | [] => .error "unterminated string" []
  | c :: u =>
    if c = '"' then .ok [] u
    else if c = '\\' then
      match u with
      | [] => .error "unterminated escape in string" []
      | d :: u => (doubleQuoted u).map (doubleQuotedEscape d :: ·)
    else (doubleQuoted u).map (c :: ·)

/-- `str::parse::<i64>` on an optional minus sign and digits. -/
def parseI64 (minus : Bool) (digits : Text) : Except String Int64 :=
  let n := Nat.ofDigitChars 10 digits 0
  if digits = [] then .error "invalid digit found in string"
  else if minus then
    if n ≤ 2 ^ 63 then .ok (Int64.ofInt (-n)) else .error "number too small to fit in target type"
  else if n < 2 ^ 63 then .ok (Int64.ofInt n)
  else .error "number too large to fit in target type"

section Parser
variable {φ : Type} (F : FloatText φ)

def parseList (u : Text) : Parsed (Term φ) :=
  match skipWs u with
  | ']' :: u => .ok (.atom "[]".toList) u
  | u => .error "non-empty list terms are not supported in the transpiler" u

/-- `parse_number` behind its sign. -/
def parseUnsigned (minus : Bool) (u : Text) : Parsed (Term φ) :=
  let digits := u.takeWhile Char.isDigit
  match u.dropWhile Char.isDigit with
  | '.' :: u =>
    let text := (if minus then ['-'] else []) ++ digits ++ '.' :: u.takeWhile Char.isDigit
    match F.parse text with
    | some f => .ok (.float f) (u.dropWhile Char.isDigit)
    | none => .error "invalid float literal" (u.dropWhile Char.isDigit)
  | u =>
    match parseI64 minus digits with
    | .ok n => .ok (.integer n) u
    | .error m => .error m u

def parseNumber : Text → Parsed (Term φ)
  | '-' :: u => parseUnsigned F true u
  | u => parseUnsigned F false u

def parseVariable (u : Text) : Parsed (Term φ) :=
  .ok (.var (u.takeWhile isIdent)) (u.dropWhile isIdent)

/-- `parse_args` behind the parenthesis, with the loop over the arguments given. -/
def parseArgs (loop : Text → Parsed (List (Term φ))) (u : Text) : Parsed (List (Term φ)) :=
  match skipWs u with
  | ')' :: u => .ok [] u
  | u => loop u

def maybeCompound (loop : Text → Parsed (List (Term φ))) (functor : Text) (u : Text) :
    Parsed (Term φ) :=
  match skipWs u with
  | '(' :: u => (parseArgs loop u).map (.compound functor)
  | u => .ok (.atom functor) u

def gotInArgs (c : Char) : String := "expected ',' or ')' in args, got '" ++ c.toString ++ "'"

/-- What stands behind an argument: a comma and more arguments, or the end of them. -/
def argsTail (loop : Text → Parsed (List (Term φ))) (t : Term φ) (u : Text) :
    Parsed (List (Term φ)) :=
  match skipWs u with
  | ',' :: u => (loop u).map (t :: ·)
  | ')' :: u => .ok [t] u
  | c :: u => .error (gotInArgs c) (c :: u)
  | [] => .error "unexpected end of args" []

mutual
/-- The recursion of the two methods is as deep as the input is long: `fuel` counts it. -/
def parseTerm (fuel : Nat) (u : Text) : Parsed (Term φ) :=
  match fuel with
  | 0 => .error "out of fuel" u
  | fuel + 1 =>
    match skipWs u with
    | [] => .error "unexpected end of Prolog term" []
    | c :: u =>
      if c = '\'' then (quotedAtom u).bind (maybeCompound (argsLoop fuel))
      else if c = '"' then (doubleQuoted u).map .str
      else if c = '[' then parseList u
      else if c = '-' || c.isDigit then parseNumber F (c :: u)
      else if c.isUpper || c = '_' then parseVariable (c :: u)
      else if c.isLower then
        maybeCompound (argsLoop fuel) ((c :: u).takeWhile isIdent) ((c :: u).dropWhile isIdent)
      else
        .error ("unexpected character '" ++ c.toString ++ "' in Prolog term") (c :: u)
def argsLoop (fuel : Nat) (u : Text) : Parsed (List (Term φ)) :=
  match fuel with
  | 0 => .error "out of fuel" u
  | fuel + 1 => (parseTerm fuel u).bind (argsTail (argsLoop fuel))
end

/-- Only the beginning of the text has to be a term: what follows it is not looked at. -/
def parsePrologTerm (s : Text) : Except String (Term φ) :=
  let u := Text.asBytes (Text.trim s)
  (parseTerm F (u.length + 1) u).toExcept

end Parser

/-! ### Renderers -/

/-- `s.replace('\\', "\\\\").replace(q, "\\q")`. -/
def escape (q : Char) (s : Text) : Text :=
  s.flatMap fun c => if c = '\\' || c = q then ['\\', c] else [c]

def i64Text (n : Int64) : Text :=
  (if n.toInt < 0 then ['-'] else []) ++ Nat.toDigits 10 n.toInt.natAbs

def clipsSymbolForFunctor (s : Text) : Text := s.map fun c => if c = ' ' then '_' else c

def isSimpleClipsSymbol (s : Text) : Bool :=
  !s.isEmpty && s.all fun c => Text.isAlphanumeric c || c == '_' || c == '-' || c == '.'

def clipsString (s : Text) : Text := '"' :: escape '"' s ++ ['"']

def prologAtomNeedsQuoting (s : Text) : Bool :=
  s.isEmpty || s.head?.any (fun c => c.isUpper || c.isDigit) ||
    s.any fun c => !Text.isAlphanumeric c && c != '_'

def prologAtomRender (s : Text) : Text :=
  if prologAtomNeedsQuoting s then '\'' :: escape '\'' s ++ ['\''] else s

def ensurePrologVar : Text → Text
  | [] => ['_']
  | c :: s => if c.isUpper || c = '_' then c :: s else c.toUpper :: s

section Renderers
variable {φ : Type} (F : FloatText φ)

mutual
/-- A field of an ordered fact. Facts have no structure inside a field, so a compound is
written into a string. -/
def renderClipsField : Term φ → Text
  | .atom s => if isSimpleClipsSymbol s then s else clipsString s
  | .var s => if s.head? = some '_' then ['?'] else '?' :: s
  | .integer n => i64Text n
  | .float f => F.display f
  | .str s => clipsString s
  | .compound functor args =>
    clipsString (functor ++ '(' :: Text.join [','] (renderClipsFields args) ++ [')'])
def renderClipsFields : List (Term φ) → List Text
  | [] => []
  | t :: ts => renderClipsField t :: renderClipsFields ts
end

/-- `(relation field …)`. -/
def orderedFact (relation : Text) (fields : List Text) : Text :=
  '(' :: relation ++ ' ' :: Text.join [' '] fields ++ [')']

def renderClipsFact : Term φ → Text
  | .atom s => '(' :: clipsSymbolForFunctor s ++ [')']
  | .compound functor args =>
    orderedFact (clipsSymbolForFunctor functor) (renderClipsFields F args)
  | .integer n => i64Text n
  | .float f => F.display f
  | .str s => clipsString s
  | .var s => '?' :: s

mutual
def renderPrologTerm : Term φ → Text
  | .atom s => prologAtomRender s
  | .var s => ensurePrologVar s
  | .integer n => i64Text n
  | .float f => F.display f
  | .str s => clipsString s
  | .compound functor args =>
    prologAtomRender functor ++ '(' :: Text.join [','] (renderPrologTerms args) ++ [')']
def renderPrologTerms : List (Term φ) → List Text
  | [] => []
  | t :: ts => renderPrologTerm t :: renderPrologTerms ts
end

mutual
def termIsGround : Term φ → Bool
  | .var _ => false
  | .compound _ args => termsAreGround args
  | _ => true
def termsAreGround : List (Term φ) → Bool
  | [] => true
  | t :: ts => termIsGround t && termsAreGround ts
end

/-- Only a fact with arguments, all of them ground, is retracted by its fields. -/
def renderClipsRetract (t : Term φ) : Text :=
  let expression (functor : Text) (condition : Text) : Text :=
    "(do-for-all-facts ((?f ".toList ++ clipsSymbolForFunctor functor ++ ")) ".toList ++
      condition ++ " (retract ?f))".toList
  match t with
  | .atom s => expression s "TRUE".toList
  | .compound functor args =>
    expression functor <|
      if !args.isEmpty && termsAreGround args then
        "(eq ?f:implied (create$ ".toList ++ Text.join [' '] (renderClipsFields F args) ++
          "))".toList
      else "TRUE".toList
  | _ => "(printout t \"retract: unsupported top-level term\" crlf)".toList

def prologToClipsFact (s : Text) : Except String Text :=
  (parsePrologTerm F s).map (renderClipsFact F)

def prologToClipsRetract (s : Text) : Except String Text :=
  (parsePrologTerm F s).map (renderClipsRetract F)

/-- `payload[key] = …`, where `payload` is known to be an object. -/
def setField (k v : String) : Json → Json
  | .obj m => .obj (Fields.insert k (.str v) m)
  | j => j

/-- A payload that does not transpile is forwarded as it is. -/
def translatePrologToClips (payload : Json) : Json :=
  match payload.strField "type", payload.strField "data" with
  | some "assert", some data =>
    match prologToClipsFact F data.toList with
    | .ok fact => setField "data" (String.ofList fact) payload
    | .error _ => payload
  | some "retract", some data =>
    match prologToClipsRetract F data.toList with
    | .ok expr =>
      setField "data" (String.ofList expr) (setField "type" "goal" payload)
    | .error _ => payload
  | _, _ => payload

end Renderers

end Cerebellum.Transpile
