import Cerebellum.CawParser

/-! What a CAW program says, read off its derivation and off its syntax tree: statements, calls
with their arguments, and the methods that are called one after the other. -/
namespace Cerebellum.Caw
open Peg

/-! ### What is said -/

/-- One alternative of a type. -/
inductive Ty where
  | primitive (p : PrimitiveType)
  | record (fields : List (Text × List Ty))
  | vector (t : List Ty)
  | function (args : List (List Ty)) (ret : List Ty)

/-- What a call is made on. -/
inductive Head (υ : Type) where
  | name (s : Text)
  | literal (l : Literal)
  | record (fields : List (Text × υ))
  | group (u : υ)

structure Called (υ : Type) where
  head : Head υ
  args : List υ

/-- A call with the methods called on what it returns, or a message. -/
inductive Utterance where
  | chain (call : Called Utterance) (methods : List (Called Utterance))
  | send (l r : Utterance)

inductive Saying where
  | typeDecl (name : Text) (type : List Ty)
  | agentDecl (name : Text) (domain : DomainPath)
  | featherDecl (name typeName : Text) (fields : List (Text × Utterance))
  | runeDecl (name : Text) (conditions : List Utterance) (actions : List Saying)
  | expression (u : Utterance)

/-! ### By a syntax tree -/

mutual
def TypeExpr.said : TypeExpr → List Ty
  | .primitive p => [.primitive p]
  | .record fields => [.record (saidFieldTypes fields)]
  | .union l r => l.said ++ r.said
  | .vector t => [.vector t.said]
  | .function args ret => [.function (saidTypes args) ret.said]
def saidTypes : List TypeExpr → List (List Ty)
  | [] => []
  | t :: ts => t.said :: saidTypes ts
def saidFieldTypes : List (Text × TypeExpr) → List (Text × List Ty)
  | [] => []
  | (name, t) :: fields => (name, t.said) :: saidFieldTypes fields
end

mutual
def Expression.said : Expression → Utterance
  | .literal l => .chain ⟨.literal l, []⟩ []
  | .identifier s => .chain ⟨.name s, []⟩ []
  | .functionCall ⟨name, args⟩ => .chain ⟨.name name, saidAll args⟩ []
  | .agentCall ⟨agent, method, args⟩ =>
    .chain ⟨.name agent, []⟩ [⟨.name method, saidAll args⟩]
  | .messageSend l r => .send l.said r.said
  | .record ⟨fields⟩ => .chain ⟨.record (saidFields fields), []⟩ []
def saidAll : List Expression → List Utterance
  | [] => []
  | e :: es => e.said :: saidAll es
def saidFields : List (Text × Expression) → List (Text × Utterance)
  | [] => []
  | (name, e) :: fields => (name, e.said) :: saidFields fields
end

mutual
def Statement.said : Statement → Saying
  | .typeDecl d => .typeDecl d.name d.typeExpr.said
  | .agentDecl d => .agentDecl d.name d.domain
  | .featherDecl d => .featherDecl d.name d.typeName (saidFields d.value.fields)
  | .runeDecl ⟨name, conditions, actions⟩ =>
    .runeDecl name (saidAll conditions) (saidStatements actions)
  | .expression e => .expression e.said
def saidStatements : List Statement → List Saying
  | [] => []
  | s :: ss => s.said :: saidStatements ss
end

/-! ### By a derivation -/

mutual
def sayTypeExpr : Node Rule → List Ty
  | .mk _ _ _ types => sayAlternatives types
def sayAlternatives : List (Node Rule) → List Ty
  | [] => []
  | t :: ts => sayType t ++ sayAlternatives ts
def sayType : Node Rule → List Ty
  | .mk _ _ _ (.mk rule s t parts :: _) =>
    match rule, parts with
    | .recordType, fields => [.record (sayFieldTypes fields)]
    | .vectorType, element :: _ => [.vector (sayTypeExpr element)]
    | .functionType, .mk _ _ _ args :: ret :: _ => [.function (sayTypes args) (sayTypeExpr ret)]
    | _, _ =>
      match primitiveType (Node.mk rule s t parts).text with
      | .ok p => [.primitive p]
      | .error _ => []
  | _ => []
def sayTypes : List (Node Rule) → List (List Ty)
  | [] => []
  | t :: ts => sayType t :: sayTypes ts
def sayFieldTypes : List (Node Rule) → List (Text × List Ty)
  | [] => []
  | .mk _ _ _ (name :: type :: _) :: fields => (name.text, sayType type) :: sayFieldTypes fields
  | _ :: fields => sayFieldTypes fields
end

/-- The text between the quotes. -/
def unquoted (text : Text) : Text := (text.drop 1).dropLast

def sayLiteral : Node Rule → Literal
  | .mk _ _ _ (x :: _) =>
    match x.rule with
    | .stringLiteral => .string (unquoted x.text)
    | .numberLiteral => .number x.text
    | _ => .boolean (x.text = "true".toList)
  | n => .string n.text

mutual
def sayExpression : Node Rule → Utterance
  | .mk _ _ _ (.mk _ _ _ (a :: as) :: _) => saySends (sayAgentCall a) as
  | n => .chain ⟨.name n.text, []⟩ []
def saySends (l : Utterance) : List (Node Rule) → Utterance
  | [] => l
  | a :: as => saySends (.send l (sayAgentCall a)) as
def sayAgentCall : Node Rule → Utterance
  | .mk _ _ _ (c :: cs) => .chain (sayCall c) (sayCalls cs)
  | n => .chain ⟨.name n.text, []⟩ []
def sayCalls : List (Node Rule) → List (Called Utterance)
  | [] => []
  | c :: cs => sayCall c :: sayCalls cs
def sayCall : Node Rule → Called Utterance
  | .mk _ _ _ (p :: lists) => ⟨sayPrimary p, sayArgLists lists⟩
  | n => ⟨.name n.text, []⟩
def sayArgLists : List (Node Rule) → List Utterance
  | [] => []
  | .mk _ _ _ args :: lists => sayExpressions args ++ sayArgLists lists
def sayExpressions : List (Node Rule) → List Utterance
  | [] => []
  | e :: es => sayExpression e :: sayExpressions es
def sayPrimary : Node Rule → Head Utterance
  | .mk _ _ _ (.mk rule s t parts :: _) =>
    match rule with
    | .recordLiteral => .record (sayFieldLists parts)
    | .literal => .literal (sayLiteral (.mk rule s t parts))
    | .expression => .group (sayExpression (.mk rule s t parts))
    | _ => .name (Node.mk rule s t parts).text
  | n => .name n.text
def sayFieldLists : List (Node Rule) → List (Text × Utterance)
  | [] => []
  | .mk _ _ _ fields :: lists => sayFields fields ++ sayFieldLists lists
def sayFields : List (Node Rule) → List (Text × Utterance)
  | [] => []
  | .mk _ _ _ (name :: value :: _) :: fields => (name.text, sayExpression value) :: sayFields fields
  | _ :: fields => sayFields fields
end

mutual
def sayStatement : Node Rule → Saying
  | .mk _ _ _ (.mk rule s t parts :: _) =>
    match rule, parts with
    | .typeDecl, name :: type :: _ => .typeDecl name.text (sayTypeExpr type)
    | .agentDecl, name :: init :: _ =>
      .agentDecl name.text (domainPath ((init.inner.head?).elim [] Node.text))
    | .featherDecl, name :: typeName :: value :: _ =>
      .featherDecl name.text typeName.text (sayFieldLists value.inner)
    | .runeDecl, name :: conditions :: .mk _ _ _ actions :: _ =>
      .runeDecl (trimQuotes name.text) (sayExpressions conditions.inner) (sayStatements actions)
    | _, _ => .expression (sayExpression (.mk rule s t parts))
  | n => .expression (.chain ⟨.name n.text, []⟩ [])
def sayStatements : List (Node Rule) → List Saying
  | [] => []
  | s :: ss => sayStatement s :: sayStatements ss
end

end Cerebellum.Caw
