import Cerebellum.Lib.Peg
import Cerebellum.Text

/-! The grammar of the CAW language, caw.pest. -/
namespace Cerebellum.Caw
open Peg

/-- Rule names, with the built-in rule for the end of the input. -/
inductive Rule where
  | eoi
  | whitespace
  | comment
  | program
  | statement
  | typeDecl
  | typeExpr
  | vectorOrFuncOrRecordOrPrim
  | vectorType
  | functionType
  | recordType
  | fieldType
  | primitiveType
  | typeExprList
  | agentDecl
  | agentInit
  | domainPath
  | featherDecl
  | runeDecl
  | conditionBlock
  | actionBlock
  | expression
  | messageSend
  | agentCall
  | functionCall
  | primary
  | argList
  | recordLiteral
  | fieldList
  | fieldAssignment
  | literal
  | stringLiteral
  | numberLiteral
  | booleanLiteral
  | identifier
  deriving DecidableEq

namespace Rule

def kind : Rule → Kind
  | whitespace | comment | program => .silent
  | primitiveType | domainPath | argList | stringLiteral | numberLiteral | booleanLiteral
  | identifier => .atomic
  | _ => .normal

def lit (s : String) : Expr Rule := .str s.toList

/-- `r ~ (sep ~ r)*`. -/
def separated (r : Rule) (sep : String) : Expr Rule :=
  .seq (.call r) (.rep (.seq (lit sep) (.call r)))

def asciiDigit : Expr Rule := .chr Char.isDigit

def body : Rule → Expr Rule
  | eoi => .eoi
  | whitespace => .choices (lit " ") [lit "\t", lit "\r", lit "\n"]
  | comment => .seq (lit "#") (.rep (.seq (.neg (lit "NEWLINE")) .any))
  | program => .seqs .soi [.rep (.call statement), .call eoi]
  | statement =>
    .choices (.call typeDecl) [.call agentDecl, .call featherDecl, .call runeDecl, .call expression]
  | typeDecl => .seqs (lit "type") [.call identifier, lit "=", .call typeExpr]
  | typeExpr => separated vectorOrFuncOrRecordOrPrim "|"
  | vectorOrFuncOrRecordOrPrim =>
    .choices (.call vectorType) [.call functionType, .call recordType, .call primitiveType]
  | vectorType => .seqs (lit "[") [.call typeExpr, lit "]"]
  | functionType => .seqs (lit "(") [.call typeExprList, lit ")", lit "=>", .call typeExpr]
  | recordType => .seqs (lit "\x7b") [.opt (separated fieldType ","), lit "\x7d"]
  | fieldType => .seqs (.call identifier) [lit ":", .call vectorOrFuncOrRecordOrPrim]
  | primitiveType => .choices (lit "String") [lit "Number", lit "Boolean"]
  | typeExprList => separated vectorOrFuncOrRecordOrPrim ","
  | agentDecl => .seqs (lit "let") [.call identifier, lit "=", .call agentInit]
  | agentInit => .seqs (lit "Expert") [lit "(", .call domainPath, lit ")"]
  | domainPath =>
    .seqs (.call identifier) [.rep (.seq (lit ".") (.call identifier)), .opt (lit "._")]
  | featherDecl =>
    .seqs (lit "feather") [.call identifier, lit ":", .call identifier, lit "=", .call recordLiteral]
  | runeDecl =>
    .seqs (lit "rune")
      [.call stringLiteral, lit "when", .call conditionBlock, lit "then", .call actionBlock]
  | conditionBlock => .plus (.call expression)
  | actionBlock => .plus (.call statement)
  | expression => .call messageSend
  | messageSend => separated agentCall "!"
  | agentCall => separated functionCall "."
  | functionCall =>
    .seq (.call primary) (.rep (.seqs (lit "(") [.opt (.call argList), lit ")"]))
  | primary =>
    .choices (.call recordLiteral)
      [.call literal, .call identifier, .seqs (lit "(") [.call expression, lit ")"]]
  | argList => separated expression ","
  | recordLiteral => .seqs (lit "\x7b") [.opt (.call fieldList), lit "\x7d"]
  | fieldList => separated fieldAssignment ","
  | fieldAssignment => .seqs (.call identifier) [lit ":", .call expression]
  | literal => .choices (.call stringLiteral) [.call numberLiteral, .call booleanLiteral]
  | stringLiteral => .seqs (lit "\"") [.rep (.seq (.neg (lit "\"")) .any), lit "\""]
  | numberLiteral => .seq (.plus asciiDigit) (.opt (.seq (lit ".") (.plus asciiDigit)))
  | booleanLiteral => .choices (lit "true") [lit "false"]
  | identifier =>
    .seq (.choice (.chr Char.isAlpha) (lit "_"))
      (.rep (.choices (.chr Char.isAlphanum) [lit "_", lit "."]))

end Rule

def grammar : Grammar Rule where
  kind := Rule.kind
  body := Rule.body
  whitespace := .whitespace
  comment := .comment

theorem grammar_quiet : Quiet grammar where
  whitespace := rfl
  comment := rfl
  inWhitespace := by decide
  inComment := by decide

/-- No rule is left recursive, and only the end of the input and the empty program match without
reading anything. -/
def ranking : Ranking grammar where
  nullable
    | .eoi | .program => true
    | _ => false
  rank
    | .eoi => 1
    | .literal => 10
    | .fieldAssignment | .fieldType => 8
    | .fieldList | .vectorOrFuncOrRecordOrPrim => 12
    | .typeExpr | .typeExprList => 16
    | .domainPath => 10
    | .primary => 15
    | .functionCall => 20
    | .agentCall => 25
    | .messageSend => 30
    | .expression => 31
    | .argList | .conditionBlock => 35
    | .statement => 40
    | .actionBlock => 45
    | .program => 60
    | _ => 6
  trivia := 10
  bound := 70
  nullable_body r := by cases r <;> decide
  rank_body r := by cases r <;> decide
  bounded_body r := by cases r <;> decide
  trivia_weight := by decide
  bounded_trivia := by decide
  rank_le r := by cases r <;> decide
  trivia_le := by decide

end Cerebellum.Caw
