import Cerebellum.CawGrammar

/-! The CAW parser, parser.rs: from the pairs of the grammar to the syntax tree of ast.rs. -/
namespace Cerebellum.Caw
open Peg

/-! ### The syntax tree -/

inductive PrimitiveType where
  | string
  | number
  | boolean
  deriving DecidableEq

inductive TypeExpr where
  | primitive (p : PrimitiveType)
  | record (fields : List (Text × TypeExpr))
  | union (l r : TypeExpr)
  | vector (t : TypeExpr)
  | function (args : List TypeExpr) (ret : TypeExpr)

structure TypeDecl where
  name : Text
  typeExpr : TypeExpr

/-- `wildcard` when the path ends with `._`. -/
structure DomainPath where
  segments : List Text
  wildcard : Bool
  deriving DecidableEq

structure AgentDecl where
  name : Text
  domain : DomainPath
  deriving DecidableEq

/-- A number keeps its text in place of its `f64`. -/
inductive Literal where
  | string (s : Text)
  | number (s : Text)
  | boolean (b : Bool)
  deriving DecidableEq

structure FunctionCall (ε : Type) where
  name : Text
  args : List ε

structure AgentCall (ε : Type) where
  agent : Text
  method : Text
  args : List ε

structure Record (ε : Type) where
  fields : List (Text × ε)

inductive Expression where
  | literal (l : Literal)
  | identifier (s : Text)
  | functionCall (c : FunctionCall Expression)
  | agentCall (c : AgentCall Expression)
  | messageSend (l r : Expression)
  | record (r : Record Expression)

structure FeatherDecl where
  name : Text
  typeName : Text
  value : Record Expression

structure RuneDecl (σ : Type) where
  name : Text
  conditions : List Expression
  actions : List σ

inductive Statement where
  | typeDecl (d : TypeDecl)
  | agentDecl (d : AgentDecl)
  | featherDecl (d : FeatherDecl)
  | runeDecl (d : RuneDecl Statement)
  | expression (e : Expression)

structure Program where
  statements : List Statement

/-- The one kind of error that the parser makes. -/
inductive CawError where
  | parseError (message : Text)
  deriving DecidableEq

abbrev CawResult := Except CawError

def parseError {α : Type} (message : String) : CawResult α := .error (.parseError message.toList)

/-! ### Pairs -/

abbrev Pair := Node Rule

namespace Rule

/-- `{:?}`. -/
def debug : Rule → String
  | eoi => "EOI"
  | whitespace => "WHITESPACE"
  | comment => "COMMENT"
  | program => "program"
  | statement => "statement"
  | typeDecl => "type_decl"
  | typeExpr => "type_expr"
  | vectorOrFuncOrRecordOrPrim => "vector_or_func_or_record_or_prim"
  | vectorType => "vector_type"
  | functionType => "function_type"
  | recordType => "record_type"
  | fieldType => "field_type"
  | primitiveType => "primitive_type"
  | typeExprList => "type_expr_list"
  | agentDecl => "agent_decl"
  | agentInit => "agent_init"
  | domainPath => "domain_path"
  | featherDecl => "feather_decl"
  | runeDecl => "rune_decl"
  | conditionBlock => "condition_block"
  | actionBlock => "action_block"
  | expression => "expression"
  | messageSend => "message_send"
  | agentCall => "agent_call"
  | functionCall => "function_call"
  | primary => "primary"
  | argList => "arg_list"
  | recordLiteral => "record_literal"
  | fieldList => "field_list"
  | fieldAssignment => "field_assignment"
  | literal => "literal"
  | stringLiteral => "string_literal"
  | numberLiteral => "number_literal"
  | booleanLiteral => "boolean_literal"
  | identifier => "identifier"

end Rule

/-- `CawParser::parse(Rule::program, …)`: the derivation, of which the program sees the pairs. -/
def derive (input : Text) : Option (Node Rule) := Peg.parse ranking .program input

def pairsOf (d : Node Rule) : List Pair := pairs grammar (written grammar d)

/-! ### Types -/

def primitiveType (text : Text) : CawResult PrimitiveType :=
  if text = "String".toList then .ok .string
  else if text = "Number".toList then .ok .number
  else if text = "Boolean".toList then .ok .boolean
  else .error (.parseError ("Unknown primitive type: ".toList ++ text))

mutual
def parseTypeExpr : Pair → CawResult TypeExpr
  | .mk _ _ _ [] => parseError "Empty type expression"
  | .mk _ _ _ (first :: rest) => do
    let first ← parseSingleTypeExpr first
    parseUnions first rest
/-- The loop of `parse_type_expr`. -/
def parseUnions (result : TypeExpr) : List Pair → CawResult TypeExpr
  | [] => .ok result
  | pair :: rest => do
    if pair.rule = .vectorOrFuncOrRecordOrPrim then
      let t ← parseSingleTypeExpr pair
      parseUnions (.union result t) rest
    else parseUnions result rest
def parseSingleTypeExpr : Pair → CawResult TypeExpr
  | .mk _ _ _ [] => parseError "Empty type expression"
  | .mk _ _ _ (.mk rule s t parts :: _) =>
    match rule with
    | .primitiveType => (primitiveType (Node.mk rule s t parts).text).map .primitive
    | .recordType => (parseFieldTypes parts).map .record
    | .vectorType =>
      match parts with
      | [] => parseError "Missing vector element type"
      | element :: _ => (parseTypeExpr element).map .vector
    | .functionType =>
      match parts with
      | [] => parseError "Missing type list"
      | [_] => parseError "Missing return type"
      | .mk listRule _ _ list :: ret :: _ => do
        let args ← if listRule = .typeExprList then parseSingles list else .ok []
        let ret ← parseTypeExpr ret
        .ok (.function args ret)
    | rule => parseError ("Unsupported type expression: " ++ rule.debug)
def parseSingles : List Pair → CawResult (List TypeExpr)
  | [] => .ok []
  | pair :: rest => do
    let t ← parseSingleTypeExpr pair
    let ts ← parseSingles rest
    .ok (t :: ts)
def parseFieldTypes : List Pair → CawResult (List (Text × TypeExpr))
  | [] => .ok []
  | .mk rule _ _ parts :: rest => do
    if rule = .fieldType then
      match parts with
      | [] => parseError "Missing field name"
      | [_] => parseError "Missing field type"
      | name :: type :: _ =>
        let t ← parseSingleTypeExpr type
        let fields ← parseFieldTypes rest
        .ok ((name.text, t) :: fields)
    else parseFieldTypes rest
end

/-! ### Declarations and expressions -/

/-- `trim_end_matches("._")`, on the text from its end. -/
def trimWildcards : Text → Text
  | '_' :: '.' :: s => trimWildcards s
  | s => s

def domainPath (text : Text) : DomainPath where
  wildcard := "._".toList.isSuffixOf text
  segments := (List.splitOn '.' (trimWildcards text.reverse).reverse).filter (!·.isEmpty)

def trimQuotes (text : Text) : Text := (text.dropWhile (· == '"')).rdropWhile (· == '"')

def parseTypeDecl : Pair → CawResult Statement
  | .mk _ _ _ [] => parseError "Missing type name"
  | .mk _ _ _ [_] => parseError "Missing type expression"
  | .mk _ _ _ (name :: type :: _) => do
    let t ← parseTypeExpr type
    .ok (.typeDecl ⟨name.text, t⟩)

def parseAgentDecl : Pair → CawResult Statement
  | .mk _ _ _ [] => parseError "Missing agent name"
  | .mk _ _ _ [_] => parseError "Missing agent init"
  | .mk _ _ _ (name :: init :: _) =>
    match init.inner with
    | [] => parseError "Missing domain path"
    | path :: _ => .ok (.agentDecl ⟨name.text, domainPath path.text⟩)

/-- Only a name is called. -/
def calledName : Pair → CawResult Text
  | .mk rule _ _ inner =>
    if rule = .primary then
      match inner with
      | [] => parseError "Missing primary"
      | x :: _ =>
        if x.rule = .identifier then .ok x.text
        else parseError "Expected identifier as function name"
    else parseError "Expected primary in function call"

/-- What one more method makes of a chain: a call without arguments takes it, and nothing else
does. -/
def Expression.withMethod (call : FunctionCall Expression) : Expression → Expression
  | .functionCall ⟨agent, []⟩ => .agentCall ⟨agent, call.name, call.args⟩
  | e => e

mutual
def parseExpression : Pair → CawResult Expression
  | .mk _ _ _ [] => parseError "Empty expression"
  | .mk _ _ _ (.mk rule s t parts :: _) =>
    match rule with
    | .messageSend =>
      match parts with
      | [] => parseError "Missing message LHS"
      | lhs :: rest => do
        let lhs ← parseAgentCall lhs
        parseSends lhs rest
    | .agentCall => parseAgentCall (.mk rule s t parts)
    | rule => parseError ("Unexpected expression rule: " ++ rule.debug)
def parseSends (lhs : Expression) : List Pair → CawResult Expression
  | [] => .ok lhs
  | pair :: rest => do
    let rhs ← parseAgentCall pair
    parseSends (.messageSend lhs rhs) rest
def parseAgentCall : Pair → CawResult Expression
  | .mk _ _ _ [] => parseError "Missing function call"
  | .mk _ _ _ (first :: rest) => do
    let call ← parseFunctionCall first
    parseMethods (.functionCall call) rest
def parseMethods (e : Expression) : List Pair → CawResult Expression
  | [] => .ok e
  | pair :: rest => do
    if pair.rule = .functionCall then
      let call ← parseFunctionCall pair
      parseMethods (e.withMethod call) rest
    else parseMethods e rest
def parseFunctionCall : Pair → CawResult (FunctionCall Expression)
  | .mk _ _ _ [] => parseError "Missing function name"
  | .mk _ _ _ (primary :: rest) => do
    let name ← calledName primary
    let args ← parseArgLists rest
    .ok ⟨name, args⟩
def parseArgLists : List Pair → CawResult (List Expression)
  | [] => .ok []
  | .mk rule _ _ inner :: rest => do
    if rule = .argList then
      let args ← parseExpressions inner
      let more ← parseArgLists rest
      .ok (args ++ more)
    else parseArgLists rest
/-- The expressions among some pairs. -/
def parseExpressions : List Pair → CawResult (List Expression)
  | [] => .ok []
  | pair :: rest => do
    if pair.rule = .expression then
      let e ← parseExpression pair
      let es ← parseExpressions rest
      .ok (e :: es)
    else parseExpressions rest
end

def parseAssignments : List Pair → CawResult (List (Text × Expression))
  | [] => .ok []
  | field :: rest => do
    if field.rule = .fieldAssignment then
      match field.inner with
      | [] => parseError "Missing field name"
      | [_] => parseError "Missing field value"
      | name :: value :: _ =>
        let value ← parseExpression value
        let fields ← parseAssignments rest
        .ok ((name.text, value) :: fields)
    else parseAssignments rest

def parseFieldLists : List Pair → CawResult (List (Text × Expression))
  | [] => .ok []
  | list :: rest => do
    if list.rule = .fieldList then
      let fields ← parseAssignments list.inner
      let more ← parseFieldLists rest
      .ok (fields ++ more)
    else parseFieldLists rest

def parseRecord (pair : Pair) : CawResult (Record Expression) :=
  (parseFieldLists pair.inner).map Record.mk

def parseFeatherDecl : Pair → CawResult Statement
  | .mk _ _ _ [] => parseError "Missing feather name"
  | .mk _ _ _ [_] => parseError "Missing type name"
  | .mk _ _ _ [_, _] => parseError "Missing feather value"
  | .mk _ _ _ (name :: typeName :: value :: _) => do
    let value ← parseRecord value
    .ok (.featherDecl ⟨name.text, typeName.text, value⟩)

mutual
def parseStatement : Pair → CawResult Statement
  | .mk _ _ _ [] => parseError "Empty statement"
  | .mk _ _ _ (.mk rule s t parts :: _) =>
    match rule with
    | .typeDecl => parseTypeDecl (.mk rule s t parts)
    | .agentDecl => parseAgentDecl (.mk rule s t parts)
    | .featherDecl => parseFeatherDecl (.mk rule s t parts)
    | .runeDecl => parseRuneDecl parts
    | .expression => (parseExpression (.mk rule s t parts)).map .expression
    | rule => parseError ("Unexpected statement rule: " ++ rule.debug)
/-- `parse_rune_decl`, on what is inside its pair. -/
def parseRuneDecl : List Pair → CawResult Statement
  | [] => parseError "Missing rune name"
  | [_] => parseError "Missing condition block"
  | name :: conditions :: rest => do
    let conditions ← parseExpressions conditions.inner
    match rest with
    | [] => parseError "Missing action block"
    | .mk _ _ _ actions :: _ =>
      let actions ← parseActions actions
      .ok (.runeDecl ⟨trimQuotes name.text, conditions, actions⟩)
def parseActions : List Pair → CawResult (List Statement)
  | [] => .ok []
  | pair :: rest => do
    if pair.rule = .statement then
      let action ← parseStatement pair
      let actions ← parseActions rest
      .ok (action :: actions)
    else parseActions rest
end

/-! ### Programs -/

/-- A statement that does not parse is passed over, and the end of the input ends the loop. -/
def parseStatements : List Pair → List Statement
  | [] => []
  | pair :: rest =>
    match pair.rule with
    | .statement =>
      match parseStatement pair with
      | .ok stmt => stmt :: parseStatements rest
      | .error _ => parseStatements rest
    | .eoi => []
    | _ => parseStatements rest

/-- `refusal` is what the grammar's parser writes of a text that it does not match. -/
def parseProgram (refusal : Text → Text) (input : Text) : CawResult Program :=
  match derive input with
  | none => .error (.parseError ("Failed to parse program: ".toList ++ refusal input))
  | some d => .ok ⟨parseStatements (pairsOf d)⟩

end Cerebellum.Caw
