import Cerebellum.Graph
import Cerebellum.TranspileSpec

/-! The names of generated code: which rules, wrappers and helpers an edge puts into a node,
when two edges get the same ones, and along which edges a message is dispatched. -/
namespace Cerebellum

namespace GraphEdge

/-- What an edge adds to the Prolog text of a node. -/
def prologAt (e : GraphEdge) (n : Text) : List PrologItem :=
  (if n = e.source then e.sourceProlog else []) ++ (if n = e.target then e.targetProlog else [])

def clipsAt (e : GraphEdge) (n : Text) : List ClipsItem :=
  (if n = e.source then e.sourceClips else []) ++ (if n = e.target then e.targetClips else [])

theorem targetClips_eq_nil {e : GraphEdge} (h : ∀ k, e.kind ≠ .message k) : e.targetClips = [] := by
  unfold targetClips
  split
  · rename_i k hk
    exact absurd hk (h k)
  · rfl
  · rfl

theorem targetProlog_eq_nil {e : GraphEdge} (h : e.assertion = none) : e.targetProlog = [] := by
  unfold targetProlog
  rw [h]

end GraphEdge

namespace GraphTransduction

/-- The snippets of a node; both are empty when it has none. -/
def snippets (g : GraphTransduction) (n : Text) : NodeSnippets := (g n).getD {}

theorem push_snippets (g : GraphTransduction) (node n : Text) (prolog : List PrologItem)
    (clips : List ClipsItem) : (g.push node prolog clips).snippets n =
      ⟨(g.snippets n).prolog ++ (if n = node then prolog else []),
        (g.snippets n).clips ++ (if n = node then clips else [])⟩ := by
  unfold snippets push
  by_cases h : n = node <;> simp [h]

theorem pushDispatch_snippets (g : GraphTransduction) (e : GraphEdge) (n : Text) :
    (g.pushDispatch e).snippets n = ⟨(g.snippets n).prolog,
      (g.snippets n).clips ++ (if n = e.target then e.targetClips else [])⟩ := by
  unfold pushDispatch
  cases hk : e.kind with
  | message k => simp only [push_snippets, ite_self, List.append_nil]
  | offering | other =>
    rw [GraphEdge.targetClips_eq_nil (by simp [hk]), ite_self, List.append_nil]

theorem pushAssertion_snippets (g : GraphTransduction) (e : GraphEdge) (n : Text) :
    (g.pushAssertion e).snippets n =
      ⟨(g.snippets n).prolog ++ (if n = e.target then e.targetProlog else []),
        (g.snippets n).clips⟩ := by
  unfold pushAssertion
  cases ha : e.assertion with
  | some fact => simp only [push_snippets, ite_self, List.append_nil]
  | none => rw [GraphEdge.targetProlog_eq_nil ha, ite_self, List.append_nil]

theorem pushEdge_snippets (g : GraphTransduction) (e : GraphEdge) (n : Text) :
    (g.pushEdge e).snippets n =
      ⟨(g.snippets n).prolog ++ e.prologAt n, (g.snippets n).clips ++ e.clipsAt n⟩ := by
  simp only [pushEdge, pushAssertion_snippets, pushDispatch_snippets, push_snippets,
    GraphEdge.prologAt, GraphEdge.clipsAt, List.append_assoc]

end GraphTransduction

/-- A snippet is what its edges add, in the order of the graph. -/
theorem transduceEdges_snippets (edges : List GraphEdge) (n : Text) :
    (transduceEdges edges).snippets n =
      ⟨edges.flatMap (·.prologAt n), edges.flatMap (·.clipsAt n)⟩ := by
  have hfold : ∀ g : GraphTransduction, (edges.foldl GraphTransduction.pushEdge g).snippets n =
      ⟨(g.snippets n).prolog ++ edges.flatMap (·.prologAt n),
        (g.snippets n).clips ++ edges.flatMap (·.clipsAt n)⟩ := by
    induction edges with
    | nil => simp
    | cons e edges ih =>
      intro g
      rw [List.foldl_cons, ih, GraphTransduction.pushEdge_snippets]
      simp
  rw [transduceEdges, hfold]
  rfl

def ClipsItem.ruleName : ClipsItem → Option Text
  | .rule r => some r.name
  | .comment _ => none

/-- The functor of an auto-pipe or auto-tee wrapper. -/
def PrologItem.wrapper : PrologItem → Option Text
  | .clause functor _ _ (.pipe ..) | .clause functor _ _ (.tee ..) => some functor
  | _ => none

/-- The functor of a consult or emit helper. -/
def PrologItem.helper : PrologItem → Option Text
  | .clause functor _ _ (.consult ..) | .clause functor _ _ (.emit ..) => some functor
  | _ => none

def NodeSnippets.ruleNames (s : NodeSnippets) : List Text := s.clips.filterMap ClipsItem.ruleName

/-- Every edge has code of its own: no two rules of a node have one name, no two edges one
wrapper, and no two edges to different targets one helper. -/
structure OwnCode (edges : List GraphEdge) : Prop where
  rules : ∀ n, ((transduceEdges edges).snippets n).ruleNames.Nodup
  wrappers : edges.Pairwise fun e f => ∀ n,
    ((e.prologAt n).filterMap PrologItem.wrapper).Disjoint
      ((f.prologAt n).filterMap PrologItem.wrapper)
  helpers : edges.Pairwise fun e f => e.target ≠ f.target → ∀ n,
    ((e.prologAt n).filterMap PrologItem.helper).Disjoint
      ((f.prologAt n).filterMap PrologItem.helper)

/-- Edges that are told apart by their sanitised ids where these name code of one node, and by
the sanitised labels of their targets where these do. -/
structure GraphEdge.Apart (e f : GraphEdge) : Prop where
  offerings : e.ruleId = f.ruleId → e.source = f.source →
    ¬ (e.kind = .offering ∧ f.kind = .offering)
  messages : e.ruleId = f.ruleId → ∀ k l, e.kind = .message k → f.kind = .message l →
    e.target ≠ f.target ∧ ¬ (e.source = f.source ∧ e.auto ∧ f.auto)
  labels : e.source = f.source → e.target ≠ f.target → e.kind = f.kind → e.kind ≠ .other →
    sanitizeIdentifier e.targetLabel ≠ sanitizeIdentifier f.targetLabel

/-- The characters of a sanitised identifier. -/
def isIdentChar (c : Char) : Bool := c.isLower || c.isDigit || c == '_'

theorem isIdentChar_toLower {c : Char} (h : c.isAlphanum) : isIdentChar c.toLower := by
  have hlt : c.toNat < 128 := by
    change (c.isAlpha || c.isDigit) = true at h
    rw [Bool.or_eq_true, Transpile.isAlpha_iff, Transpile.isUpper_iff, Transpile.isLower_iff,
      Transpile.isDigit_iff] at h
    omega
  have hall : ∀ n < 128, (Char.ofNat n).isAlphanum → isIdentChar (Char.ofNat n).toLower := by
    decide
  have hc := hall c.toNat hlt
  rw [Char.ofNat_toNat] at hc
  exact hc h

theorem isIdentChar_sanitizeIdentifier {s : Text} {c : Char} (h : c ∈ sanitizeIdentifier s) :
    isIdentChar c := by
  have hmap : ∀ d ∈ s.map (fun c => if c.isAlphanum then c.toLower else '_'), isIdentChar d := by
    intro d hd
    obtain ⟨a, -, rfl⟩ := List.mem_map.mp hd
    split
    · rename_i ha
      exact isIdentChar_toLower ha
    · decide
  unfold sanitizeIdentifier at h
  simp only at h
  split at h
  · rcases List.mem_cons.mp h with rfl | h
    · decide
    · exact hmap c h
  · exact hmap c h

theorem RuleKind.suffix_injective : Function.Injective RuleKind.suffix := by
  rintro (_ | _ | _ | _ | _ | (_ | _ | _ | _ | _) | _)
    (_ | _ | _ | _ | _ | (_ | _ | _ | _ | _) | _) h <;> first | rfl | exact absurd h (by decide)

/-- A rule name tells the id and the kind. -/
theorem ruleName_inj {s t : Text} {k l : RuleKind}
    (h : "edge-".toList ++ (sanitizeIdentifier s ++ '-' :: k.suffix) =
      "edge-".toList ++ (sanitizeIdentifier t ++ '-' :: l.suffix)) :
    sanitizeIdentifier s = sanitizeIdentifier t ∧ k = l := by
  have hdash : ∀ u : Text, '-' ∉ sanitizeIdentifier u := fun u hu =>
    absurd (isIdentChar_sanitizeIdentifier hu) (by decide)
  obtain ⟨hid, hsuffix⟩ := Text.append_cons_inj (hdash s) (hdash t) (List.append_cancel_left h)
  exact ⟨hid, RuleKind.suffix_injective hsuffix⟩

namespace GraphEdge

def sourceRules (e : GraphEdge) : List RuleKind :=
  match e.kind with
  | .offering =>
    [.onReply, .onHohiResult, .onTabuResult, .onTimeoutResult] ++ if e.auto then [.autoPipe] else []
  | .message kind => if e.auto then (teeTriggers kind).map .autoTee else []
  | .other => []

def targetRules (e : GraphEdge) : List RuleKind :=
  match e.kind with
  | .message _ => [.onMessage]
  | .offering | .other => []

/-- The rules an edge puts into a node. -/
def rulesAt (e : GraphEdge) (n : Text) : List RuleKind :=
  (if n = e.source then e.sourceRules else []) ++ (if n = e.target then e.targetRules else [])

def ruleName (e : GraphEdge) (k : RuleKind) : Text :=
  "edge-".toList ++ (e.ruleId ++ '-' :: k.suffix)

theorem ruleNames_sourceClips (e : GraphEdge) :
    e.sourceClips.filterMap ClipsItem.ruleName = e.sourceRules.map e.ruleName := by
  unfold sourceClips sourceRules
  cases e.kind with
  | offering => cases e.auto <;> rfl
  | message k => cases e.auto <;> cases k <;> rfl
  | other => rfl

theorem ruleNames_targetClips (e : GraphEdge) :
    e.targetClips.filterMap ClipsItem.ruleName = e.targetRules.map e.ruleName := by
  unfold targetClips targetRules
  cases e.kind <;> rfl

theorem ruleNames_clipsAt (e : GraphEdge) (n : Text) :
    (e.clipsAt n).filterMap ClipsItem.ruleName = (e.rulesAt n).map e.ruleName := by
  unfold clipsAt rulesAt
  rw [List.filterMap_append, List.map_append]
  congr 1
  · split
    · exact ruleNames_sourceClips e
    · rfl
  · split
    · exact ruleNames_targetClips e
    · rfl

/-- Which edges put which rule where. -/
theorem mem_rulesAt {e : GraphEdge} {n : Text} {r : RuleKind} : r ∈ e.rulesAt n ↔
    match r with
    | .onReply | .onHohiResult | .onTabuResult | .onTimeoutResult =>
      n = e.source ∧ e.kind = .offering
    | .autoPipe => n = e.source ∧ e.kind = .offering ∧ e.auto
    | .autoTee t => n = e.source ∧ (∃ k, e.kind = .message k ∧ t ∈ teeTriggers k) ∧ e.auto
    | .onMessage => n = e.target ∧ ∃ k, e.kind = .message k := by
  have hsource : ∀ r, r ∈ (if n = e.source then e.sourceRules else []) ↔
      n = e.source ∧ r ∈ e.sourceRules := by
    intro r
    split <;> simp_all
  have htarget : ∀ r, r ∈ (if n = e.target then e.targetRules else []) ↔
      n = e.target ∧ r ∈ e.targetRules := by
    intro r
    split <;> simp_all
  rw [rulesAt, List.mem_append, hsource, htarget]
  unfold sourceRules targetRules
  cases e.kind <;> cases e.auto <;> cases r <;> simp

/-- Two edges share a rule name in some node exactly when their ids agree and both are
offerings from one source, or both are messages to one target, or both forward the same kind
from one source. -/
theorem ruleNames_disjoint_iff (e f : GraphEdge) :
    (∀ n, ((e.clipsAt n).filterMap ClipsItem.ruleName).Disjoint
      ((f.clipsAt n).filterMap ClipsItem.ruleName)) ↔
    (e.ruleId = f.ruleId → ¬ (e.source = f.source ∧ e.kind = .offering ∧ f.kind = .offering) ∧
      ∀ k l, e.kind = .message k → f.kind = .message l →
        e.target ≠ f.target ∧ ¬ (e.source = f.source ∧ k = l ∧ e.auto ∧ f.auto)) := by
  simp only [ruleNames_clipsAt]
  constructor
  · intro h hid
    have hshared : ∀ n r, r ∈ e.rulesAt n → r ∈ f.rulesAt n → False := by
      intro n r he hf
      refine h n (List.mem_map_of_mem he) ?_
      have hname : e.ruleName r = f.ruleName r := by simp only [ruleName, hid]
      rw [hname]
      exact List.mem_map_of_mem hf
    refine ⟨?_, fun k l hk hl => ⟨?_, ?_⟩⟩
    · rintro ⟨hs, he, hf⟩
      exact hshared e.source .onReply (mem_rulesAt.mpr ⟨rfl, he⟩) (mem_rulesAt.mpr ⟨hs, hf⟩)
    · intro ht
      exact hshared e.target .onMessage (mem_rulesAt.mpr ⟨rfl, k, hk⟩)
        (mem_rulesAt.mpr ⟨ht, l, hl⟩)
    · rintro ⟨hs, rfl, hae, haf⟩
      have htrigger : ∃ t, t ∈ teeTriggers k := by cases k <;> simp [teeTriggers]
      obtain ⟨t, ht⟩ := htrigger
      exact hshared e.source (.autoTee t) (mem_rulesAt.mpr ⟨rfl, ⟨k, hk, ht⟩, hae⟩)
        (mem_rulesAt.mpr ⟨hs, ⟨k, hl, ht⟩, haf⟩)
  · intro h n x hx hx'
    obtain ⟨r, he, rfl⟩ := List.mem_map.mp hx
    obtain ⟨r', hf, hname⟩ := List.mem_map.mp hx'
    obtain ⟨hid, rfl⟩ := ruleName_inj hname
    obtain ⟨hoffer, hmsg⟩ := h hid.symm
    rw [mem_rulesAt] at he hf
    cases r' with
    | onReply | onHohiResult | onTabuResult | onTimeoutResult =>
      exact hoffer ⟨he.1.symm.trans hf.1, he.2, hf.2⟩
    | autoPipe => exact hoffer ⟨he.1.symm.trans hf.1, he.2.1, hf.2.1⟩
    | autoTee t =>
      obtain ⟨hs, ⟨k, hk, htk⟩, hae⟩ := he
      obtain ⟨hs', ⟨l, hl, htl⟩, haf⟩ := hf
      have hkl : k = l := by
        cases k <;> cases l <;> simp_all [teeTriggers]
      exact (hmsg k l hk hl).2 ⟨hs.symm.trans hs', hkl, hae, haf⟩
    | onMessage =>
      obtain ⟨ht, k, hk⟩ := he
      obtain ⟨ht', l, hl⟩ := hf
      exact (hmsg k l hk hl).1 (ht.symm.trans ht')

/-- The Prolog code for an edge's target is no clause for a helper or a wrapper. -/
theorem functors_targetProlog (e : GraphEdge) :
    e.targetProlog.filterMap PrologItem.wrapper = [] ∧
      e.targetProlog.filterMap PrologItem.helper = [] := by
  unfold targetProlog
  cases e.assertion <;> exact ⟨rfl, rfl⟩

theorem mem_wrapper {e : GraphEdge} {n x : Text} :
    x ∈ (e.prologAt n).filterMap PrologItem.wrapper ↔ n = e.source ∧ e.auto ∧
      (e.kind = .offering ∧ x = e.pipeFunctor ∨ (∃ k, e.kind = .message k) ∧ x = e.teeFunctor) := by
  have hsource : e.sourceProlog.filterMap PrologItem.wrapper = match e.kind with
      | .offering => if e.auto then [e.pipeFunctor] else []
      | .message _ => if e.auto then [e.teeFunctor] else []
      | .other => [] := by
    unfold sourceProlog
    cases e.kind <;> cases e.auto <;> rfl
  rw [prologAt, List.filterMap_append, List.mem_append]
  have htarget : x ∉ (if n = e.target then e.targetProlog else []).filterMap PrologItem.wrapper := by
    split <;> simp [(functors_targetProlog e).1]
  simp only [htarget, or_false]
  split
  · rename_i hn
    rw [hsource]
    cases e.kind <;> cases e.auto <;> simp [hn]
  · rename_i hn
    simp [hn]

theorem mem_helper {e : GraphEdge} {n x : Text} :
    x ∈ (e.prologAt n).filterMap PrologItem.helper ↔ n = e.source ∧
      (e.kind = .offering ∧ x = e.consultHelper ∨ ∃ k, e.kind = .message k ∧ x = e.emitHelper k) := by
  have hsource : e.sourceProlog.filterMap PrologItem.helper = match e.kind with
      | .offering => [e.consultHelper]
      | .message k => [e.emitHelper k]
      | .other => [] := by
    unfold sourceProlog
    cases e.kind <;> cases e.auto <;> rfl
  rw [prologAt, List.filterMap_append, List.mem_append]
  have htarget : x ∉ (if n = e.target then e.targetProlog else []).filterMap PrologItem.helper := by
    split <;> simp [(functors_targetProlog e).2]
  simp only [htarget, or_false]
  split
  · rename_i hn
    rw [hsource]
    cases e.kind <;> simp [hn]
  · rename_i hn
    simp [hn]

theorem pipeFunctor_inj {e f : GraphEdge} (h : e.pipeFunctor = f.pipeFunctor) :
    e.ruleId = f.ruleId := List.append_cancel_left h

theorem teeFunctor_inj {e f : GraphEdge} (h : e.teeFunctor = f.teeFunctor) :
    e.ruleId = f.ruleId := List.append_cancel_left h

theorem pipeFunctor_ne_teeFunctor (e f : GraphEdge) : e.pipeFunctor ≠ f.teeFunctor := by
  intro h
  cases h

theorem consultHelper_ne_emitHelper (e f : GraphEdge) (k : MsgKind) :
    e.consultHelper ≠ f.emitHelper k := by
  intro h
  cases h

/-- The kind is what stands behind the last underscore. -/
theorem emitHelper_inj {e f : GraphEdge} {k l : MsgKind} (h : e.emitHelper k = f.emitHelper l) :
    sanitizeIdentifier e.targetLabel = sanitizeIdentifier f.targetLabel ∧ k = l := by
  have hname : ∀ k : MsgKind, '_' ∉ k.name.toList.reverse := by
    intro k
    cases k <;> decide
  have hrev := congrArg List.reverse (List.append_cancel_left h)
  simp only [List.reverse_append, List.reverse_cons, List.append_assoc, List.singleton_append] at hrev
  obtain ⟨hkind, hlabel⟩ := Text.append_cons_inj (hname k) (hname l) hrev
  refine ⟨List.reverse_injective hlabel, ?_⟩
  have hkl := List.reverse_injective hkind
  cases k <;> cases l <;> first | rfl | exact absurd hkl (by decide)

theorem wrappers_disjoint_iff (e f : GraphEdge) :
    (∀ n, ((e.prologAt n).filterMap PrologItem.wrapper).Disjoint
      ((f.prologAt n).filterMap PrologItem.wrapper)) ↔
    (e.ruleId = f.ruleId → e.source = f.source → e.auto → f.auto →
      ¬ (e.kind = .offering ∧ f.kind = .offering) ∧
      ∀ k l, ¬ (e.kind = .message k ∧ f.kind = .message l)) := by
  constructor
  · intro h hid hs hae haf
    refine ⟨?_, ?_⟩
    · rintro ⟨he, hf⟩
      have hname : e.pipeFunctor = f.pipeFunctor := by
        unfold pipeFunctor
        rw [hid]
      exact h e.source (mem_wrapper.mpr ⟨rfl, hae, .inl ⟨he, rfl⟩⟩)
        (mem_wrapper.mpr ⟨hs, haf, .inl ⟨hf, hname⟩⟩)
    · rintro k l ⟨he, hf⟩
      have hname : e.teeFunctor = f.teeFunctor := by
        unfold teeFunctor
        rw [hid]
      exact h e.source (mem_wrapper.mpr ⟨rfl, hae, .inr ⟨⟨k, he⟩, rfl⟩⟩)
        (mem_wrapper.mpr ⟨hs, haf, .inr ⟨⟨l, hf⟩, hname⟩⟩)
  · intro h n x hx hx'
    obtain ⟨hs, hae, he⟩ := mem_wrapper.mp hx
    obtain ⟨hs', haf, hf⟩ := mem_wrapper.mp hx'
    have hsame := fun hid => h hid (hs.symm.trans hs') hae haf
    rcases he with ⟨he, rfl⟩ | ⟨⟨k, he⟩, rfl⟩ <;> rcases hf with ⟨hf, hname⟩ | ⟨⟨l, hf⟩, hname⟩
    · exact (hsame (pipeFunctor_inj hname)).1 ⟨he, hf⟩
    · exact pipeFunctor_ne_teeFunctor e f hname
    · exact pipeFunctor_ne_teeFunctor f e hname.symm
    · exact (hsame (teeFunctor_inj hname)).2 k l ⟨he, hf⟩

theorem helpers_disjoint_iff (e f : GraphEdge) :
    (∀ n, ((e.prologAt n).filterMap PrologItem.helper).Disjoint
      ((f.prologAt n).filterMap PrologItem.helper)) ↔
    (e.source = f.source → e.kind = f.kind → e.kind ≠ .other →
      sanitizeIdentifier e.targetLabel ≠ sanitizeIdentifier f.targetLabel) := by
  constructor
  · intro h hs hkind hother hlabel
    cases he : e.kind with
    | offering =>
      have hname : e.consultHelper = f.consultHelper := by
        unfold consultHelper
        rw [hlabel]
      exact h e.source (mem_helper.mpr ⟨rfl, .inl ⟨he, rfl⟩⟩)
        (mem_helper.mpr ⟨hs, .inl ⟨hkind.symm.trans he, hname⟩⟩)
    | message k =>
      have hname : e.emitHelper k = f.emitHelper k := by
        unfold emitHelper
        rw [hlabel]
      exact h e.source (mem_helper.mpr ⟨rfl, .inr ⟨k, he, rfl⟩⟩)
        (mem_helper.mpr ⟨hs, .inr ⟨k, hkind.symm.trans he, hname⟩⟩)
    | other => exact hother he
  · intro h n x hx hx'
    obtain ⟨hs, he⟩ := mem_helper.mp hx
    obtain ⟨hs', hf⟩ := mem_helper.mp hx'
    rcases he with ⟨he, rfl⟩ | ⟨k, he, rfl⟩ <;> rcases hf with ⟨hf, hname⟩ | ⟨l, hf, hname⟩
    · exact h (hs.symm.trans hs') (he.trans hf.symm) (by simp [he])
        (List.append_cancel_left hname)
    · exact consultHelper_ne_emitHelper e f l hname
    · exact consultHelper_ne_emitHelper f e k hname.symm
    · obtain ⟨hlabel, rfl⟩ := emitHelper_inj hname
      exact h (hs.symm.trans hs') (he.trans hf.symm) (by simp [he]) hlabel

theorem rulesAt_nodup (e : GraphEdge) (n : Text) : (e.rulesAt n).Nodup := by
  have hsource : e.sourceRules.Nodup := by
    unfold sourceRules
    cases e.kind with
    | offering => cases e.auto <;> simp
    | message k => cases e.auto <;> cases k <;> simp [teeTriggers]
    | other => simp
  have htarget : e.targetRules.Nodup := by
    unfold targetRules
    cases e.kind <;> simp
  have hboth : e.sourceRules.Disjoint e.targetRules := by
    unfold sourceRules targetRules
    cases e.kind with
    | message k => cases e.auto <;> simp
    | offering | other => simp
  unfold rulesAt
  split <;> split
  · exact hsource.append htarget hboth
  · simpa using hsource
  · simpa using htarget
  · simp

/-- Two edges have nothing in common in any node exactly when they are apart. -/
theorem apart_iff (e f : GraphEdge) : e.Apart f ↔
    (∀ n, ((e.clipsAt n).filterMap ClipsItem.ruleName).Disjoint
      ((f.clipsAt n).filterMap ClipsItem.ruleName)) ∧
    (∀ n, ((e.prologAt n).filterMap PrologItem.wrapper).Disjoint
      ((f.prologAt n).filterMap PrologItem.wrapper)) ∧
    (e.target ≠ f.target → ∀ n, ((e.prologAt n).filterMap PrologItem.helper).Disjoint
      ((f.prologAt n).filterMap PrologItem.helper)) := by
  rw [ruleNames_disjoint_iff, wrappers_disjoint_iff, helpers_disjoint_iff]
  constructor
  · intro h
    refine ⟨fun hid => ⟨?_, ?_⟩, fun hid hs hae haf => ⟨?_, ?_⟩, fun ht hs => h.labels hs ht⟩
    · rintro ⟨hs, hk⟩
      exact h.offerings hid hs hk
    · intro k l hk hl
      obtain ⟨ht, hauto⟩ := h.messages hid k l hk hl
      exact ⟨ht, fun ⟨hs, _, hae, haf⟩ => hauto ⟨hs, hae, haf⟩⟩
    · exact h.offerings hid hs
    · rintro k l ⟨hk, hl⟩
      exact (h.messages hid k l hk hl).2 ⟨hs, hae, haf⟩
  · rintro ⟨hrules, hwrap, hhelp⟩
    refine ⟨fun hid hs hk => (hrules hid).1 ⟨hs, hk⟩, fun hid k l hk hl => ⟨?_, ?_⟩,
      fun hs ht => hhelp ht hs⟩
    · exact ((hrules hid).2 k l hk hl).1
    · rintro ⟨hs, hae, haf⟩
      exact (hwrap hid hs hae haf).2 k l ⟨hk, hl⟩

end GraphEdge

theorem pairwise_forall {α ι : Type*} {R : ι → α → α → Prop} {l : List α} :
    (∀ i, l.Pairwise (R i)) ↔ l.Pairwise fun a b => ∀ i, R i a b := by
  simp only [List.pairwise_iff_getElem]
  exact ⟨fun h i j hi hj hij x => h x i j hi hj hij, fun h x i j hi hj hij => h i j hi hj hij x⟩

/-- Every edge of a graph has code of its own exactly when its edges are pairwise apart. -/
theorem ownCode_iff (graph : Json) :
    OwnCode (graphEdges graph) ↔ (graphEdges graph).Pairwise GraphEdge.Apart := by
  have hrules : (∀ n, ((transduceEdges (graphEdges graph)).snippets n).ruleNames.Nodup) ↔
      (graphEdges graph).Pairwise fun e f => ∀ n,
        ((e.clipsAt n).filterMap ClipsItem.ruleName).Disjoint
          ((f.clipsAt n).filterMap ClipsItem.ruleName) := by
    rw [← pairwise_forall]
    refine forall_congr' fun n => ?_
    have hown : ∀ e : GraphEdge, ((e.clipsAt n).filterMap ClipsItem.ruleName).Nodup := by
      intro e
      rw [GraphEdge.ruleNames_clipsAt]
      exact (e.rulesAt_nodup n).map fun k l h => (ruleName_inj h).2
    rw [NodeSnippets.ruleNames, transduceEdges_snippets, List.filterMap_flatMap, List.nodup_flatMap]
    exact and_iff_right fun e _ => hown e
  have hpair := List.Pairwise.iff (l := graphEdges graph) fun e f => GraphEdge.apart_iff e f
  rw [hpair, List.pairwise_and_iff, List.pairwise_and_iff, ← hrules]
  exact ⟨fun h => ⟨h.rules, h.wrappers, h.helpers⟩, fun ⟨h₁, h₂, h₃⟩ => ⟨h₁, h₂, h₃⟩⟩

def testNode (id label : String) : Json :=
  .obj [("evaluatorName", .str "clara_mind"), ("id", .str id), ("label", .str label),
    ("type", .str "daemon")]

def testEdge (id msgType : String) (more : Fields) : Json :=
  .obj ([("id", .str id), ("msgType", .str msgType), ("source", .str "n1"),
    ("target", .str "n2")] ++ more)

def testGraph (edges : List Json) : Json :=
  .obj [("edges", .arr edges), ("nodes", .arr [testNode "n1" "Clara", testNode "n2" "Groq"])]

/-- Two edges whose ids differ in a character that is not kept. -/
def testLookalikes : Json := testGraph [testEdge "a-b" "offering" [], testEdge "a_b" "offering" []]

theorem testLookalikes_share_rules :
    ((graphEdges testLookalikes).map (·.id)).Nodup ∧ ¬ OwnCode (graphEdges testLookalikes) := by
  refine ⟨by decide +kernel, fun h => ?_⟩
  exact absurd (h.rules "n1".toList) (by decide +kernel)

/-- The slots of a `coire-event` fact that the rules match on. -/
structure CoireEvent where
  origin : Text
  topic : Text
  correlation : Text

/-- The left-hand side of a rule. -/
def EdgeRule.Matches (r : EdgeRule) (ev : CoireEvent) : Prop :=
  ev.origin = ("ritual/" ++ r.origin.label).toList ∧ (∀ t ∈ r.topic, ev.topic = t) ∧
    (r.correlated → ev.correlation ≠ [])

namespace CawsGoal

/-- The `_caws` block that goes out with a message. -/
def block (cid : Term) : CawsGoal → Dict
  | .consult target topic | .pipe _ target topic =>
    Engine.offerBlock cid (String.ofList target) (String.ofList topic)
  | .emit target topic kind | .tee _ target topic kind =>
    Engine.emitBlock cid (String.ofList target) (String.ofList topic) kind

/-- What a message arrives as; an Offering also comes back as its replies. -/
def arrivals : CawsGoal → List RitualKind
  | .consult .. | .pipe .. => [.offering, .hohi, .tabu]
  | .emit _ _ kind | .tee _ _ _ kind => [kind.ritual]

/-- The facts a goal leads to, at a target or, for replies, at the source: they all carry the
topic of its block. -/
def LeadsTo (g : CawsGoal) (ev : CoireEvent) : Prop :=
  (∃ cid, Fields.get "topic_path" (g.block cid) = some (.atom (String.ofList ev.topic))) ∧
    ∃ l ∈ g.arrivals, ev.origin = ("ritual/" ++ l.label).toList

def topic : CawsGoal → Text
  | .consult _ topic | .pipe _ _ topic | .emit _ topic _ | .tee _ _ topic _ => topic

theorem LeadsTo.topic_eq {g : CawsGoal} {ev : CoireEvent} (h : g.LeadsTo ev) :
    ev.topic = g.topic := by
  obtain ⟨⟨cid, hcid⟩, -⟩ := h
  have htopic : Fields.get "topic_path" (g.block cid) = some (.atom (String.ofList g.topic)) := by
    cases g <;> rfl
  rw [htopic] at hcid
  exact String.ofList_injective (Term.atom.inj (Option.some.inj hcid)).symm

end CawsGoal

def PrologItem.goal : PrologItem → Option CawsGoal
  | .clause _ _ _ g => some g
  | _ => none

def ClipsItem.edgeRule : ClipsItem → Option EdgeRule
  | .rule r => some r
  | .comment _ => none

namespace GraphEdge

/-- No message of `e` matches a rule of `f` that is chosen by topic. -/
def Unheard (e f : GraphEdge) : Prop :=
  ∀ n, ∀ g ∈ (e.prologAt n).filterMap PrologItem.goal, ∀ ev, g.LeadsTo ev →
    ∀ m, ∀ r ∈ (f.clipsAt m).filterMap ClipsItem.edgeRule, r.topic.isSome → ¬ r.Matches ev

def topic (e : GraphEdge) : Option Text :=
  match e.kind with
  | .offering => some e.consultTopic
  | .message kind => some (e.messageTopic kind)
  | .other => none

theorem goal_topic {e : GraphEdge} {n : Text} {g : CawsGoal}
    (h : g ∈ (e.prologAt n).filterMap PrologItem.goal) : e.topic = some g.topic := by
  have htarget : e.targetProlog.filterMap PrologItem.goal = [] := by
    unfold targetProlog
    cases e.assertion <;> rfl
  have hsource : ∀ g ∈ e.sourceProlog.filterMap PrologItem.goal, e.topic = some g.topic := by
    unfold sourceProlog topic
    cases e.kind <;> cases e.auto <;>
      simp [helperItems, wrapperItems, PrologItem.goal, CawsGoal.topic, or_imp, forall_and]
  rw [prologAt, List.filterMap_append, List.mem_append] at h
  rcases h with h | h
  · split at h
    · exact hsource g h
    · cases h
  · split at h
    · rw [htarget] at h
      cases h
    · cases h

theorem rule_topic {e : GraphEdge} {n : Text} {r : EdgeRule}
    (h : r ∈ (e.clipsAt n).filterMap ClipsItem.edgeRule) {t : Text} (ht : r.topic = some t) :
    e.topic = some t := by
  have hsource : ∀ r ∈ e.sourceClips.filterMap ClipsItem.edgeRule, ∀ t, r.topic = some t →
      e.topic = some t := by
    unfold sourceClips topic
    cases e.kind with
    | offering =>
      cases e.auto <;>
        simp [replyItems, pipeItems, cidRule, ClipsItem.edgeRule, or_imp, forall_and]
    | message k =>
      cases e.auto <;> cases k <;>
        simp [teeTriggers, teeItems, cidRule, ClipsItem.edgeRule, or_imp, forall_and]
    | other => simp
  have htarget : ∀ r ∈ e.targetClips.filterMap ClipsItem.edgeRule, ∀ t, r.topic = some t →
      e.topic = some t := by
    unfold targetClips topic
    cases e.kind <;> simp [cidRule, ClipsItem.edgeRule]
  rw [clipsAt, List.filterMap_append, List.mem_append] at h
  rcases h with h | h
  · split at h
    · exact hsource r h t ht
    · cases h
  · split at h
    · exact htarget r h t ht
    · cases h

/-- One type and one topic come from one sanitised channel. -/
theorem sanitizeTopic_of_topic {e f : GraphEdge} (htype : e.msgType = f.msgType) {t : Text}
    (he : e.topic = some t) (hf : f.topic = some t) :
    sanitizeTopic e.channel = sanitizeTopic f.channel := by
  have hkind : e.kind = f.kind := by
    unfold kind
    rw [htype]
  unfold topic at he hf
  rw [hkind] at he
  cases hk : f.kind with
  | offering =>
    rw [hk] at he hf
    exact List.append_cancel_left (Option.some.inj (he.trans hf.symm))
  | message k =>
    rw [hk] at he hf
    exact (List.cons.inj (List.append_cancel_left (Option.some.inj (he.trans hf.symm)))).2
  | other =>
    rw [hk] at he
    cases he

theorem unheard {e f : GraphEdge} (htype : e.msgType = f.msgType)
    (hchannel : sanitizeTopic e.channel ≠ sanitizeTopic f.channel) : e.Unheard f := by
  intro n g hg ev hev m r hr hsome hmatch
  obtain ⟨t, ht⟩ := Option.isSome_iff_exists.mp hsome
  have hfrom : e.topic = some ev.topic := by rw [hev.topic_eq]; exact goal_topic hg
  have hto : f.topic = some t := rule_topic hr ht
  rw [← hmatch.2.1 t ht] at hto
  exact hchannel (sanitizeTopic_of_topic htype hfrom hto)

end GraphEdge

/-- Two edges of one message type whose channels stay apart when they are sanitised never hear
each other's messages. -/
theorem dispatched_along_own_edge (graph : Json) :
    (graphEdges graph).Pairwise fun e f => e.msgType = f.msgType →
      sanitizeTopic e.channel ≠ sanitizeTopic f.channel → e.Unheard f ∧ f.Unheard e := by
  refine List.pairwise_of_forall fun e f htype hchannel => ?_
  exact ⟨GraphEdge.unheard htype hchannel, GraphEdge.unheard htype.symm hchannel.symm⟩

/-- Two edges that the author put on one channel. -/
def testShared : Json :=
  testGraph [testEdge "e1" "event" [("topicSuffix", .str "news")],
    testEdge "e2" "event" [("topicSuffix", .str "news")]]

def testNews (id : String) : GraphEdge :=
  { id := id.toList, source := "n1".toList, target := "n2".toList, msgType := "event".toList
    targetLabel := "Groq".toList, topicSuffix := some "news".toList }

theorem testShared_is_overheard : ((graphEdges testShared).map (·.id)).Nodup ∧
    ¬ (graphEdges testShared).Pairwise fun e f =>
      e.msgType = f.msgType → e.Unheard f ∧ f.Unheard e := by
  refine ⟨by decide +kernel, fun h => ?_⟩
  have hedges : graphEdges testShared = [testNews "e1", testNews "e2"] := by decide +kernel
  rw [hedges] at h
  have hunheard := (((List.pairwise_cons.mp h).1 (testNews "e2") (by simp)) rfl).1
  refine hunheard "n1".toList (.emit "n2".toList "event/news".toList .event) (by decide +kernel)
    ⟨"ritual/event".toList, "event/news".toList, "c1".toList⟩
    ⟨⟨.atom "c1", rfl⟩, .event, by decide, rfl⟩ "n2".toList
    ((testNews "e2").cidRule .onMessage .event (some "event/news".toList)
      (.edgeMessage "e2".toList .event)) (by decide +kernel) rfl ?_
  exact ⟨rfl, by simp [GraphEdge.cidRule], by simp⟩

end Cerebellum
