import Cerebellum.Caws
import Cerebellum.Quoting

/-! `transduce_graph`: the Prolog and CLIPS code that the edges of a Ritual graph put into their
nodes. A snippet is kept as the pieces it is written from; its text is their rendering. -/
namespace Cerebellum
open Template

/-- Lowercase alphanumerics and underscores only. -/
def sanitizeIdentifier (raw : Text) : Text :=
  let out := raw.map fun c => if c.isAlphanum then c.toLower else '_'
  if out.head?.all Char.isDigit then 'e' :: out else out

/-- A fragment of a topic path. -/
def sanitizeTopic (raw : Text) : Text :=
  raw.map fun c => if c.isAlphanum || c == '.' || c == '_' || c == '-' then c else '-'

/-- A boolean qualifier: a claim to be classified, or a goal as it stands. -/
inductive Guard where
  | natural (claim : Text)
  | goal (text : Text)
  deriving DecidableEq

/-- `split_whitespace().count()`. -/
def wordCount (s : Text) : Nat := ((s.splitOnP Text.isWhitespace).filter fun w => !w.isEmpty).length

inductive EdgeKind where
  | offering
  | message (kind : MsgKind)
  /-- Recorded as a comment only. -/
  | other
  deriving DecidableEq

/-- An edge between two evaluator nodes. -/
structure GraphEdge where
  id : Text
  source : Text
  target : Text
  msgType : Text
  targetLabel : Text
  topicSuffix : Option Text := none
  qualifierKind : Text := "none".toList
  qualifierValue : Text := []
  pipeMode : Text := "manual".toList
  deriving DecidableEq

namespace GraphEdge

def kind (e : GraphEdge) : EdgeKind :=
  if e.msgType = "offering".toList then .offering
  else if e.msgType = "event".toList then .message .event
  else if e.msgType = "hohi".toList then .message .hohi
  else if e.msgType = "tabu".toList then .message .tabu
  else .other

def auto (e : GraphEdge) : Bool := e.pipeMode = "auto".toList

def guardGoal (e : GraphEdge) : Option Guard :=
  let guard := Text.trim e.qualifierValue
  if e.qualifierKind = "boolean".toList ∧ guard ≠ [] then
    some (if 1 < wordCount guard then .natural guard
      else .goal (guard.reverse.dropWhile (· = '.')).reverse)
  else none

def ruleId (e : GraphEdge) : Text := sanitizeIdentifier e.id

/-- The logical channel: what the author named, or the edge itself. -/
def channel (e : GraphEdge) : Text := e.topicSuffix.getD e.id

def consultTopic (e : GraphEdge) : Text := "consults/".toList ++ sanitizeTopic e.channel

def messageTopic (e : GraphEdge) (kind : MsgKind) : Text :=
  kind.name.toList ++ '/' :: sanitizeTopic e.channel

def consultHelper (e : GraphEdge) : Text :=
  "consult_".toList ++ sanitizeIdentifier e.targetLabel

def emitHelper (e : GraphEdge) (kind : MsgKind) : Text :=
  "emit_".toList ++ (sanitizeIdentifier e.targetLabel ++ '_' :: kind.name.toList)

def pipeFunctor (e : GraphEdge) : Text := "caws_auto_pipe_".toList ++ e.ruleId

def teeFunctor (e : GraphEdge) : Text := "caws_auto_tee_".toList ++ e.ruleId

end GraphEdge

/-- `get(key).and_then(as_str)`. -/
def Json.textField (j : Json) (k : String) : Option Text := (j.strField k).map String.toList

def Json.arrayField (j : Json) (k : String) : List Json := ((j.get k).bind Json.asArray).getD []

/-- The daemon nodes that have an evaluator. -/
def graphNodes (graph : Json) : List Json :=
  (graph.arrayField "nodes").filter fun n =>
    n.strField "type" == some "daemon" && (n.strField "evaluatorName").isSome

/-- `node_by_id`: of two nodes with one id the map keeps the last. -/
def nodeById (nodes : List Json) (id : Text) : Option Json :=
  nodes.reverse.find? fun n => n.textField "id" == some id

def nonEmpty (s : Option Text) : Option Text := s.filter fun s => !s.isEmpty

/-- An edge without its ids, from a node to itself, or into or out of a node that is no
evaluator, is passed over. -/
def graphEdge (nodes : List Json) (edge : Json) : Option GraphEdge := do
  let id ← edge.textField "id"
  let source ← edge.textField "source"
  let target ← edge.textField "target"
  if source = target then none
  let _ ← nodeById nodes source
  let node ← nodeById nodes target
  return {
    id := id
    source := source
    target := target
    msgType := (nonEmpty ((edge.textField "msgType").or (edge.textField "envelopeLabel"))).getD
      "offering".toList
    targetLabel := (nonEmpty (node.textField "label")).getD target
    topicSuffix := nonEmpty (edge.textField "topicSuffix")
    qualifierKind := (edge.textField "qualifierKind").getD "none".toList
    qualifierValue := (edge.textField "qualifierValue").getD []
    pipeMode := (nonEmpty (edge.textField "pipeMode")).getD "manual".toList }

def graphEdges (graph : Json) : List GraphEdge :=
  (graph.arrayField "edges").filterMap (graphEdge (graphNodes graph))

/-- The last goal of a generated clause. -/
inductive CawsGoal where
  | consult (target topic : Text)
  | pipe (edge target topic : Text)
  | emit (target topic : Text) (kind : MsgKind)
  | tee (edge target topic : Text) (kind : MsgKind)
  deriving DecidableEq

abbrev Chunks := List (Chunk Char)

/-- An atom between single quotes. -/
def atomChunk (s : Text) : Chunk Char := .bare '\'' s

def codeChunk (s : String) : Chunk Char := .code s.toList

def CawsGoal.chunks : CawsGoal → Chunks
  | .consult target topic =>
    [codeChunk "caws_consult(", atomChunk target, codeChunk ", ", atomChunk topic,
      codeChunk ", Payload, Result)"]
  | .pipe edge target topic =>
    [codeChunk "caws_pipe(", atomChunk edge, codeChunk ", ", atomChunk target, codeChunk ", ",
      atomChunk topic, codeChunk ", Cid)"]
  | .emit target topic kind =>
    [codeChunk "caws_emit(", atomChunk target, codeChunk ", ", atomChunk topic,
      codeChunk (", " ++ kind.name ++ ", Payload)")]
  | .tee edge target topic kind =>
    [codeChunk "caws_tee(", atomChunk edge, codeChunk ", ", atomChunk target, codeChunk ", ",
      atomChunk topic, codeChunk (", " ++ kind.name ++ ", Cid)")]

/-- The guard goal with the comma behind it. The quotes of a claim are escaped. -/
def Guard.chunks : Guard → Chunks
  | .natural claim => [codeChunk "clara_fy(", .escaped '"' claim, codeChunk ", true),\n    "]
  | .goal text => [.code (text ++ ",\n    ".toList)]

/-- A piece of a Prolog snippet. -/
inductive PrologItem where
  | comment (text : Text)
  | clause (functor : Text) (args : String) (guard : Option Guard) (goal : CawsGoal)
  /-- `f(_).` -/
  | fact (functor : Text)
  | blank
  /-- An assertion qualifier, as it stands. -/
  | declaration (text : Text)
  deriving DecidableEq

def PrologItem.chunks : PrologItem → Chunks
  | .comment text => [.comment text]
  | .clause functor args guard goal =>
    .code (functor ++ ("(" ++ args ++ ") :-\n    ").toList) ::
      (guard.elim [] Guard.chunks ++ (goal.chunks ++ [codeChunk ".\n"]))
  | .fact functor => [.code (functor ++ "(_).\n".toList)]
  | .blank => [codeChunk "\n"]
  | .declaration text => [.code (text ++ ['\n'])]

/-- The rules of an edge. -/
inductive RuleKind where
  | onReply
  | onHohiResult
  | onTabuResult
  | onTimeoutResult
  | autoPipe
  | autoTee (trigger : RitualKind)
  | onMessage
  deriving DecidableEq

def RitualKind.label : RitualKind → String
  | .hohi => "hohi"
  | .tabu => "tabu"
  | .tabuTimeout => "tabu-timeout"
  | .event => "event"
  | .offering => "offering"

def RuleKind.suffix : RuleKind → Text
  | .onReply => "on-reply".toList
  | .onHohiResult => "on-hohi-result".toList
  | .onTabuResult => "on-tabu-result".toList
  | .onTimeoutResult => "on-timeout-result".toList
  | .autoPipe => "auto-pipe".toList
  | .autoTee trigger => "auto-tee-".toList ++ trigger.label.toList
  | .onMessage => "on-message".toList

def ReplyKind.name : ReplyKind → String
  | .hohi => "hohi"
  | .tabu => "tabu"
  | .tabuTimeout => "tabu_timeout"

/-- The Prolog goal a rule publishes for the correlation id it has matched. -/
inductive CidGoal where
  | edgeReply (edge : Text) (kind : ReplyKind)
  | edgeMessage (edge : Text) (kind : MsgKind)
  | wrapper (functor : Text)
  deriving DecidableEq

/-- The goal up to the correlation id. -/
def CidGoal.head : CidGoal → Chunks
  | .edgeReply edge kind =>
    [codeChunk "caws_edge_reply(", atomChunk edge, codeChunk (", " ++ kind.name ++ ", ")]
  | .edgeMessage edge kind =>
    [codeChunk "caws_edge_message(", atomChunk edge, codeChunk (", " ++ kind.name ++ ", ")]
  | .wrapper functor => [.code (functor ++ ['('])]

def CidGoal.chunks (g : CidGoal) (cid : Text) : Chunks := g.head ++ [atomChunk cid, codeChunk ")"]

inductive RuleAction where
  /-- `(coire-publish-assert "edge_replied('…')")` -/
  | replied (edge : Text)
  /-- `(coire-publish-goal (str-cat "…('" ?cid "')"))` -/
  | goal (g : CidGoal)
  deriving DecidableEq

def repliedChunks (edge : Text) : Chunks :=
  [codeChunk "edge_replied(", atomChunk edge, codeChunk ")"]

def RuleAction.chunks : RuleAction → Chunks
  | .replied edge =>
    [codeChunk "(coire-publish-assert ", .bare '"' (Prolog.lexis.render (repliedChunks edge)),
      codeChunk ")"]
  | .goal g =>
    [codeChunk "(coire-publish-goal (str-cat ", .bare '"' (Prolog.lexis.render g.head ++ ['\'']),
      codeChunk " ?cid ", .bare '"' "')".toList, codeChunk "))"]

structure EdgeRule where
  ruleId : Text
  kind : RuleKind
  origin : RitualKind
  topic : Option Text
  /-- `(correlation ?cid&~"")` -/
  correlated : Bool
  action : RuleAction
  deriving DecidableEq

namespace EdgeRule

def name (r : EdgeRule) : Text := "edge-".toList ++ (r.ruleId ++ '-' :: r.kind.suffix)

def chunks (r : EdgeRule) : Chunks :=
  [.code ("(defrule ".toList ++ r.name ++ "\n    (coire-event (origin ".toList),
    .bare '"' ("ritual/" ++ r.origin.label).toList, codeChunk ")"] ++
  (r.topic.elim [] (fun topic => [codeChunk " (topic ", .bare '"' topic, codeChunk ")"]) ++
  ((if r.correlated then [codeChunk " (correlation ?cid&~", .bare '"' [], codeChunk ")"] else []) ++
  (codeChunk ")\n    =>\n    " :: (r.action.chunks ++ [codeChunk ")\n\n"]))))

end EdgeRule

inductive ClipsItem where
  | comment (text : Text)
  | rule (r : EdgeRule)
  deriving DecidableEq

def ClipsItem.chunks : ClipsItem → Chunks
  | .comment text => [.comment text]
  | .rule r => r.chunks

namespace GraphEdge

/-- ` Edge <id><rest>`. -/
def about (e : GraphEdge) (rest : List Text) : Text := " Edge ".toList ++ (e.id ++ rest.flatten)

/-- The helper's own clause, with a blank line behind it. -/
def helperItems (e : GraphEdge) (comment : List Text) (functor : Text) (args : String)
    (goal : CawsGoal) : List PrologItem :=
  [.comment (e.about comment), .clause functor args e.guardGoal goal, .blank]

/-- A wrapper succeeds also when its guard fails. -/
def wrapperItems (e : GraphEdge) (comment : List Text) (functor : Text) (goal : CawsGoal) :
    List PrologItem :=
  [.comment (e.about comment), .clause functor "Cid" e.guardGoal goal, .fact functor, .blank]

def sourceProlog (e : GraphEdge) : List PrologItem :=
  match e.kind with
  | .offering =>
    e.helperItems [": offering ".toList, e.source, " -> ".toList, e.target, " (".toList,
      e.targetLabel, ")".toList] e.consultHelper "Payload, Result"
      (.consult e.target e.consultTopic) ++
    if e.auto then
      e.wrapperItems [": auto-pipe incoming Offerings to ".toList, e.target, " (".toList,
        e.targetLabel, ")".toList] e.pipeFunctor (.pipe e.id e.target e.consultTopic)
    else []
  | .message kind =>
    e.helperItems [": ".toList, kind.name.toList, " ".toList, e.source, " -> ".toList, e.target,
      " (".toList, e.targetLabel, ")".toList] (e.emitHelper kind) "Payload"
      (.emit e.target (e.messageTopic kind) kind) ++
    if e.auto then
      e.wrapperItems [": auto-tee incoming '".toList, kind.name.toList, "' messages to ".toList,
        e.target, " (".toList, e.targetLabel, ")".toList] e.teeFunctor
        (.tee e.id e.target (e.messageTopic kind) kind)
    else []
  | .other =>
    [.comment (e.about [" carries '".toList, e.msgType, ("' messages — no consult helper " ++
      "generated (typed listener semantics ride on the envelope label).").toList])]

/-- A rule that publishes a goal for the correlation id of the event it matches. -/
def cidRule (e : GraphEdge) (kind : RuleKind) (origin : RitualKind) (topic : Option Text)
    (g : CidGoal) : EdgeRule := ⟨e.ruleId, kind, origin, topic, true, .goal g⟩

/-- The hook on a reply, and the typed dispatch. A timeout has no topic: Prolog attributes it
through the offer. -/
def replyItems (e : GraphEdge) : List ClipsItem :=
  [.comment (e.about [": react to ".toList, e.targetLabel, "'s reply on ".toList, e.consultTopic]),
    .rule ⟨e.ruleId, .onReply, .hohi, some e.consultTopic, false, .replied e.id⟩,
    .comment (e.about [": dispatch ".toList, e.targetLabel,
      "'s typed replies to Prolog (edge_result/3 + hooks)".toList]),
    .rule (e.cidRule .onHohiResult .hohi (some e.consultTopic) (.edgeReply e.id .hohi)),
    .rule (e.cidRule .onTabuResult .tabu (some e.consultTopic) (.edgeReply e.id .tabu)),
    .rule (e.cidRule .onTimeoutResult .tabuTimeout none (.edgeReply e.id .tabuTimeout))]

def pipeItems (e : GraphEdge) : List ClipsItem :=
  [.comment (e.about [": auto-pipe — forward every incoming Offering to ".toList, e.targetLabel]),
    .rule (e.cidRule .autoPipe .offering none (.wrapper e.pipeFunctor))]

/-- A Tabu edge also forwards the local timeouts. -/
def teeTriggers : MsgKind → List RitualKind
  | .hohi => [.hohi]
  | .tabu => [.tabu, .tabuTimeout]
  | .event => [.event]

def teeItems (e : GraphEdge) (trigger : RitualKind) : List ClipsItem :=
  [.comment (e.about [": auto-tee — forward every incoming 'ritual/".toList, trigger.label.toList,
      "' message to ".toList, e.targetLabel]),
    .rule (e.cidRule (.autoTee trigger) trigger none (.wrapper e.teeFunctor))]

def sourceClips (e : GraphEdge) : List ClipsItem :=
  match e.kind with
  | .offering => e.replyItems ++ if e.auto then e.pipeItems else []
  | .message kind => if e.auto then (teeTriggers kind).flatMap e.teeItems else []
  | .other => []

end GraphEdge

/-- The origin a message of this kind arrives with. -/
def MsgKind.ritual : MsgKind → RitualKind
  | .event => .event
  | .hohi => .hohi
  | .tabu => .tabu

namespace GraphEdge

def targetClips (e : GraphEdge) : List ClipsItem :=
  match e.kind with
  | .message kind =>
    [.comment (e.about [": dispatch ".toList, e.source, "'s '".toList, kind.name.toList,
        "' message to Prolog (edge_message/3 + hook)".toList]),
      .rule (e.cidRule .onMessage kind.ritual (some (e.messageTopic kind))
        (.edgeMessage e.id kind))]
  | .offering | .other => []

/-- The fact of an assertion qualifier, with its full stop. -/
def assertion (e : GraphEdge) : Option Text :=
  let fact := Text.trim e.qualifierValue
  if e.qualifierKind = "assertion".toList ∧ fact ≠ [] ∧ e.kind ≠ .other then
    some (if fact.getLast? = some '.' then fact else fact ++ ['.'])
  else none

def targetProlog (e : GraphEdge) : List PrologItem :=
  match e.assertion with
  | some fact =>
    [.comment (e.about [": dynamic incoming declaration from ".toList, e.source]),
      .declaration fact, .blank]
  | none => []

end GraphEdge

structure NodeSnippets where
  prolog : List PrologItem := []
  clips : List ClipsItem := []

namespace NodeSnippets

def prologText (s : NodeSnippets) : Text := Prolog.lexis.render (s.prolog.flatMap PrologItem.chunks)

def clipsText (s : NodeSnippets) : Text := Clips.lexis.render (s.clips.flatMap ClipsItem.chunks)

end NodeSnippets

/-- `per_node`, keyed by node id. -/
abbrev GraphTransduction := Text → Option NodeSnippets

namespace GraphTransduction

/-- `entry(node).or_default()`, with texts pushed behind its own. -/
def push (g : GraphTransduction) (node : Text) (prolog : List PrologItem)
    (clips : List ClipsItem) : GraphTransduction := fun n =>
  if n = node then
    let s := (g n).getD {}
    some ⟨s.prolog ++ prolog, s.clips ++ clips⟩
  else g n

/-- The dispatch rule of a message edge goes to its target. -/
def pushDispatch (g : GraphTransduction) (e : GraphEdge) : GraphTransduction :=
  match e.kind with
  | .message _ => g.push e.target [] e.targetClips
  | .offering | .other => g

def pushAssertion (g : GraphTransduction) (e : GraphEdge) : GraphTransduction :=
  match e.assertion with
  | some _ => g.push e.target e.targetProlog []
  | none => g

/-- One round of the loop. -/
def pushEdge (g : GraphTransduction) (e : GraphEdge) : GraphTransduction :=
  let g := g.push e.source e.sourceProlog e.sourceClips
  let g := g.pushDispatch e
  g.pushAssertion e

end GraphTransduction

def transduceEdges (edges : List GraphEdge) : GraphTransduction :=
  edges.foldl GraphTransduction.pushEdge fun _ => none

/-- `serde_json::from_str` is given by `fromStr`, its error by the text it prints. -/
def transduceGraph (fromStr : String → Except String Json) (graphJson : String) :
    Except String GraphTransduction :=
  match fromStr graphJson with
  | .error e => .error ("invalid graph JSON: " ++ e)
  | .ok graph => .ok (transduceEdges (graphEdges graph))

end Cerebellum
