import Cerebellum.GraphNames

/-! Graph data stays data: when the generated texts are read, by Prolog and by CLIPS, as the
clauses and rules of their templates, with ids, labels and claims only in comments and between
quotes. -/
namespace Cerebellum
open Template

namespace RuleAction

/-- The Prolog text a rule publishes for a correlation id. -/
def published (cid : Text) : RuleAction → Text
  | .replied edge => Prolog.lexis.render (repliedChunks edge)
  | .goal g => (Prolog.lexis.render g.head ++ ['\'']) ++ (cid ++ "')".toList)

/-- What that text is meant to be. -/
def goalChunks (cid : Text) : RuleAction → Chunks
  | .replied edge => repliedChunks edge
  | .goal g => g.chunks cid

theorem published_eq (cid : Text) (a : RuleAction) :
    a.published cid = Prolog.lexis.render (a.goalChunks cid) := by
  cases a with
  | replied edge => rfl
  | goal g =>
    simp [published, goalChunks, CidGoal.chunks, Lexis.render, Chunk.render, atomChunk, codeChunk]

end RuleAction

/-- None of these characters is in the text. -/
def Avoids (bad : String) (s : Text) : Prop := ∀ c ∈ s, c ∉ bad.toList

/-- A correlation id that stays within its quotes. -/
def PlainCid (cid : Text) : Prop := Avoids "\\'" cid

/-- The snippets of a node are read as the templates they are written from, and so is every
goal its rules publish. -/
structure NodeSnippets.AsMeant (s : NodeSnippets) : Prop where
  prolog : Prolog.lexis.scan s.prologText =
    some (Prolog.lexis.lexemes (s.prolog.flatMap PrologItem.chunks))
  clips : Clips.lexis.scan s.clipsText =
    some (Clips.lexis.lexemes (s.clips.flatMap ClipsItem.chunks))
  published : ∀ r ∈ s.clips.filterMap ClipsItem.edgeRule, ∀ cid, PlainCid cid →
    Prolog.lexis.scan (r.action.published cid) =
      some (Prolog.lexis.lexemes (r.action.goalChunks cid))

namespace GraphEdge

/-- The edge has no qualifier but for a claim in natural language. -/
def PlainQualifier (e : GraphEdge) : Prop :=
  (∀ g, e.guardGoal = some g → ∃ claim, g = .natural claim) ∧ e.assertion = none

/-- The strings of an edge keep to what their places in its templates take. -/
def Safe (e : GraphEdge) : Prop :=
  match e.kind with
  | .offering =>
    Avoids "\n\r\"\\'" e.id ∧ Avoids "\n" e.source ∧ Avoids "\n\\'" e.target ∧
      Avoids "\n\r" e.targetLabel ∧ ∀ claim, e.guardGoal = some (.natural claim) → '\\' ∉ claim
  | .message _ =>
    Avoids "\n\r\"\\'" e.id ∧ Avoids "\n\r" e.source ∧ Avoids "\n\\'" e.target ∧
      Avoids "\n" e.targetLabel ∧ (e.auto → Avoids "\r" e.targetLabel) ∧
      ∀ claim, e.guardGoal = some (.natural claim) → '\\' ∉ claim
  | .other => Avoids "\n" e.id ∧ Avoids "\n" e.msgType

end GraphEdge

section Fitting

theorem code_fits {before : Option Char} {s : Text} {cs : Chunks} (hs : s.all Prolog.isCode)
    (h : ∀ b, Prolog.lexis.Fits b cs) : Prolog.lexis.Fits before (.code s :: cs) :=
  Lexis.Fits.code (List.all_eq_true.mp hs) h

theorem atom_fits {before : Option Char} {s t v : Text} {a last : Char} {cs : Chunks}
    (hs : s.all Prolog.isCode) (hlast : s.getLast? = some last) (hopens : last.isDigit = false)
    (ht : t.head? = some a) (ha : a ≠ '\'') (h : Prolog.lexis.Fits none (.code t :: cs)) :
    Prolog.lexis.Fits before (.code s :: .bare '\'' v :: .code t :: cs) :=
  (Lexis.Fits.splice (L := Prolog.lexis) (List.all_eq_true.mp hs) hlast hopens
    (show Prolog.isQuote '\'' from rfl) ht ha h).1

theorem CawsGoal.fits (g : CawsGoal) (before : Option Char) : Prolog.lexis.Fits before g.chunks := by
  cases g with
  | consult target topic =>
    refine atom_fits (by decide) rfl rfl rfl (by decide) ?_
    refine atom_fits (by decide) rfl rfl rfl (by decide) ?_
    exact code_fits (by decide) fun _ => trivial
  | pipe edge target topic =>
    refine atom_fits (by decide) rfl rfl rfl (by decide) ?_
    refine atom_fits (by decide) rfl rfl rfl (by decide) ?_
    refine atom_fits (by decide) rfl rfl rfl (by decide) ?_
    exact code_fits (by decide) fun _ => trivial
  | emit target topic kind =>
    cases kind <;>
    · refine atom_fits (by decide) rfl rfl rfl (by decide) ?_
      refine atom_fits (by decide) rfl rfl rfl (by decide) ?_
      exact code_fits (by decide) fun _ => trivial
  | tee edge target topic kind =>
    cases kind <;>
    · refine atom_fits (by decide) rfl rfl rfl (by decide) ?_
      refine atom_fits (by decide) rfl rfl rfl (by decide) ?_
      refine atom_fits (by decide) rfl rfl rfl (by decide) ?_
      exact code_fits (by decide) fun _ => trivial

theorem Guard.natural_fits (claim : Text) (before : Option Char) :
    Prolog.lexis.Fits before (Guard.chunks (.natural claim)) := by
  have hend : Prolog.lexis.Fits none [codeChunk ", true),\n    "] :=
    code_fits (by decide) fun _ => trivial
  have hcall : "clara_fy(".toList.all Prolog.isCode := by decide
  exact (Lexis.Fits.splice (L := Prolog.lexis) (List.all_eq_true.mp hcall) rfl
    (show '('.isDigit = false from rfl) (show Prolog.isQuote '"' from rfl) rfl
    (show ',' ≠ '"' by decide) hend).2

theorem ne_of_isIdentChar {c d : Char} (h : isIdentChar c) (hd : isIdentChar d = false) : c ≠ d := by
  rintro rfl
  rw [h] at hd
  cases hd

theorem isCode_of_isIdentChar {c : Char} (h : isIdentChar c) :
    Prolog.isCode c ∧ Clips.isCode c := by
  simp [Prolog.isCode, Prolog.isQuote, Clips.isCode, ne_of_isIdentChar h (d := '%') rfl,
    ne_of_isIdentChar h (d := '/') rfl, ne_of_isIdentChar h (d := '\'') rfl,
    ne_of_isIdentChar h (d := '"') rfl, ne_of_isIdentChar h (d := Char.ofNat 96) rfl,
    ne_of_isIdentChar h (d := ';') rfl]

/-- The functors of the generated clauses, and the ids in the names of rules. -/
def IdentFunctor (f : Text) : Prop := ∀ c ∈ f, isIdentChar c

instance (f : Text) : Decidable (IdentFunctor f) :=
  decidable_of_iff (f.all isIdentChar = true) List.all_eq_true

theorem IdentFunctor.isCode {f : Text} (hf : IdentFunctor f) :
    f.all Prolog.isCode ∧ f.all Clips.isCode :=
  ⟨List.all_eq_true.mpr fun c hc => (isCode_of_isIdentChar (hf c hc)).1,
    List.all_eq_true.mpr fun c hc => (isCode_of_isIdentChar (hf c hc)).2⟩

theorem PrologItem.clause_fits {functor : Text} (hf : IdentFunctor functor) {args : String}
    (hargs : args.toList.all Prolog.isCode) {guard : Option Guard}
    (hguard : ∀ g, guard = some g → ∃ claim, g = .natural claim) (goal : CawsGoal)
    (before : Option Char) :
    Prolog.lexis.Fits before (PrologItem.clause functor args guard goal).chunks := by
  refine code_fits ?_ fun b => ?_
  · have hopen : "(".toList.all Prolog.isCode := by decide
    have hneck : ") :-\n    ".toList.all Prolog.isCode := by decide
    rw [String.toList_append, String.toList_append, List.all_append, List.all_append,
      List.all_append, hf.isCode.1, hopen, hargs, hneck]
    rfl
  · have hend : ∀ b, Prolog.lexis.Fits b (goal.chunks ++ [codeChunk ".\n"]) := fun b =>
      (goal.fits b).append fun _ => code_fits (by decide) fun _ => trivial
    cases guard with
    | none => exact hend b
    | some g =>
      obtain ⟨claim, rfl⟩ := hguard g rfl
      exact (Guard.natural_fits claim b).append hend

theorem append_ident {s : Text} (hs : IdentFunctor s) (raw : Text) :
    IdentFunctor (s ++ sanitizeIdentifier raw) := by
  intro c hc
  rcases List.mem_append.mp hc with hc | hc
  · exact hs c hc
  · exact isIdentChar_sanitizeIdentifier hc

theorem GraphEdge.emitHelper_ident (e : GraphEdge) (k : MsgKind) : IdentFunctor (e.emitHelper k) := by
  have hend : IdentFunctor ('_' :: k.name.toList) := by
    cases k <;> decide
  intro c hc
  unfold emitHelper at hc
  rw [← List.append_assoc] at hc
  rcases List.mem_append.mp hc with hc | hc
  · exact append_ident (by decide) _ c hc
  · exact hend c hc

theorem GraphEdge.sourceProlog_fits {e : GraphEdge} (hq : e.PlainQualifier) :
    ∀ i ∈ e.sourceProlog, ∀ b, Prolog.lexis.Fits b i.chunks := by
  have hfact : ∀ {f : Text}, IdentFunctor f → ∀ b, Prolog.lexis.Fits b (PrologItem.fact f).chunks := by
    intro f hf b
    have hargs : "(_).\n".toList.all Prolog.isCode := by decide
    refine code_fits ?_ fun _ => trivial
    rw [List.all_append, hf.isCode.1, hargs]
    rfl
  have hblank : ∀ b, Prolog.lexis.Fits b PrologItem.blank.chunks := fun b =>
    code_fits (by decide) fun _ => trivial
  have hhelper : ∀ comment functor args goal, IdentFunctor functor →
      (String.toList args).all Prolog.isCode →
      ∀ i ∈ e.helperItems comment functor args goal, ∀ b, Prolog.lexis.Fits b i.chunks := by
    intro comment functor args goal hf hargs i hi b
    simp only [helperItems, List.mem_cons, List.not_mem_nil, or_false] at hi
    rcases hi with rfl | rfl | rfl
    · trivial
    · exact PrologItem.clause_fits hf hargs hq.1 goal b
    · exact hblank b
  have hwrapper : ∀ comment functor goal, IdentFunctor functor →
      ∀ i ∈ e.wrapperItems comment functor goal, ∀ b, Prolog.lexis.Fits b i.chunks := by
    intro comment functor goal hf i hi b
    simp only [wrapperItems, List.mem_cons, List.not_mem_nil, or_false] at hi
    rcases hi with rfl | rfl | rfl | rfl
    · trivial
    · exact PrologItem.clause_fits hf (by decide) hq.1 goal b
    · exact hfact hf b
    · exact hblank b
  intro i hi
  unfold sourceProlog at hi
  cases hk : e.kind with
  | offering =>
    simp only [hk, List.mem_append] at hi
    rcases hi with hi | hi
    · exact hhelper _ _ _ _ (append_ident (by decide) _) (by decide) i hi
    · split at hi
      · exact hwrapper _ _ _ (append_ident (by decide) _) i hi
      · cases hi
  | message k =>
    simp only [hk, List.mem_append] at hi
    rcases hi with hi | hi
    · exact hhelper _ _ _ _ (e.emitHelper_ident k) (by decide) i hi
    · split at hi
      · exact hwrapper _ _ _ (append_ident (by decide) _) i hi
      · cases hi
  | other =>
    simp only [hk, List.mem_singleton] at hi
    subst hi
    intro b
    trivial

theorem clipsCode_fits {before : Option Char} {s : Text} {cs : Chunks} (hs : s.all Clips.isCode)
    (h : ∀ b, Clips.lexis.Fits b cs) : Clips.lexis.Fits before (.code s :: cs) :=
  Lexis.Fits.code (List.all_eq_true.mp hs) h

theorem string_fits {before : Option Char} {s t v : Text} {a : Char} {cs : Chunks}
    (hs : s.all Clips.isCode) (ht : t.head? = some a) (ha : a ≠ '"')
    (h : Clips.lexis.Fits none (.code t :: cs)) :
    Clips.lexis.Fits before (.code s :: .bare '"' v :: .code t :: cs) :=
  ⟨List.all_eq_true.mp hs, rfl, fun _ _ => trivial, ⟨a, t.tail, cs, by rw [List.cons_head?_tail ht], ha⟩, h⟩

theorem RuleAction.fits (a : RuleAction) (before : Option Char) :
    Clips.lexis.Fits before a.chunks := by
  cases a with
  | replied edge =>
    refine string_fits (by decide) rfl (by decide) ?_
    exact clipsCode_fits (by decide) fun _ => trivial
  | goal g =>
    refine string_fits (by decide) rfl (by decide) ?_
    refine string_fits (by decide) rfl (by decide) ?_
    exact clipsCode_fits (by decide) fun _ => trivial

theorem EdgeRule.fits {r : EdgeRule} (hid : IdentFunctor r.ruleId) (before : Option Char) :
    Clips.lexis.Fits before r.chunks := by
  have hclose : ∀ b, Clips.lexis.Fits b [codeChunk ")"] := fun b =>
    clipsCode_fits (by decide) fun _ => trivial
  have hsuffix : r.kind.suffix.all Clips.isCode := by
    rcases r.kind with _ | _ | _ | _ | _ | (_ | _ | _ | _ | _) | _ <;> decide
  have hname : r.name.all Clips.isCode := by
    have hedge : "edge-".toList.all Clips.isCode := by decide
    have hdash : Clips.isCode '-' := by decide
    unfold name
    rw [List.all_append, List.all_append, List.all_cons, hedge, hid.isCode.2, hdash, hsuffix]
    rfl
  refine Lexis.Fits.append ?_ fun b => Lexis.Fits.append ?_ fun b => Lexis.Fits.append ?_ fun b => ?_
  · refine string_fits ?_ rfl (by decide) (hclose none)
    have hopen : "(defrule ".toList.all Clips.isCode := by decide
    have hevent : "\n    (coire-event (origin ".toList.all Clips.isCode := by decide
    rw [List.all_append, List.all_append, hopen, hname, hevent]
    rfl
  · cases r.topic with
    | none => trivial
    | some topic => exact string_fits (by decide) rfl (by decide) (hclose none)
  · split
    · exact string_fits (by decide) rfl (by decide) (hclose none)
    · trivial
  · refine clipsCode_fits (by decide) fun b => ?_
    exact (r.action.fits b).append fun _ => clipsCode_fits (by decide) fun _ => trivial

theorem CidGoal.fits {g : CidGoal} (hg : ∀ f, g = .wrapper f → IdentFunctor f) (cid : Text)
    (before : Option Char) : Prolog.lexis.Fits before (g.chunks cid) := by
  cases g with
  | edgeReply edge kind | edgeMessage edge kind =>
    cases kind <;>
    · refine atom_fits (by decide) rfl rfl rfl (by decide) ?_
      refine atom_fits (by decide) rfl rfl rfl (by decide) ?_
      exact code_fits (by decide) fun _ => trivial
  | wrapper functor =>
    refine atom_fits ?_ List.getLast?_concat rfl rfl (by decide) ?_
    · rw [List.all_append, (hg functor rfl).isCode.1]
      rfl
    · exact code_fits (by decide) fun _ => trivial

theorem RuleAction.goalChunks_fits {a : RuleAction}
    (ha : ∀ f, a = .goal (.wrapper f) → IdentFunctor f) (cid : Text) (before : Option Char) :
    Prolog.lexis.Fits before (a.goalChunks cid) := by
  cases a with
  | replied edge =>
    refine atom_fits (by decide) rfl rfl rfl (by decide) ?_
    exact code_fits (by decide) fun _ => trivial
  | goal g => exact CidGoal.fits (fun f hf => ha f (by rw [hf])) cid before

end Fitting

section Cleanness

theorem avoids_iff {bad : String} {s : Text} : Avoids bad s ↔ ∀ c ∈ bad.toList, c ∉ s :=
  ⟨fun h c hc hs => h c hs hc, fun h c hs hc => h c hc hs⟩

/-- Every string a piece puts into Prolog text stays in its place. -/
def PrologItem.Clean (i : PrologItem) : Prop := ∀ c ∈ i.chunks, c.Clean Prolog.lexis

def ClipsItem.Clean (i : ClipsItem) : Prop := ∀ c ∈ i.chunks, c.Clean Clips.lexis

/-- The same for the goals that a rule publishes. -/
def ClipsItem.Publishes (i : ClipsItem) : Prop :=
  ∀ r, i = .rule r → ∀ cid, PlainCid cid → ∀ c ∈ r.action.goalChunks cid, c.Clean Prolog.lexis

def ClipsItem.Ok (i : ClipsItem) : Prop := i.Clean ∧ i.Publishes

theorem clean_comment {t : Text} : (PrologItem.comment t).Clean ↔ '\n' ∉ t := by
  simp only [PrologItem.Clean, PrologItem.chunks, List.forall_mem_singleton, Chunk.Clean]
  exact ⟨fun h hn => h _ hn rfl, fun h a ha hn => h (hn ▸ ha)⟩

theorem clean_code (s : Text) (L : Lexis Char) : (Chunk.code s).Clean L := trivial

/-- The strings a goal has between quotes. -/
def CawsGoal.atoms : CawsGoal → List Text
  | .consult target topic | .emit target topic _ => [target, topic]
  | .pipe edge target topic | .tee edge target topic _ => [edge, target, topic]

theorem clean_atom {s : Text} : (atomChunk s).Clean Prolog.lexis ↔ '\\' ∉ s ∧ '\'' ∉ s := Iff.rfl

theorem CawsGoal.clean {g : CawsGoal} : (∀ c ∈ g.chunks, c.Clean Prolog.lexis) ↔
    ∀ s ∈ g.atoms, '\\' ∉ s ∧ '\'' ∉ s := by
  cases g <;> simp [CawsGoal.chunks, CawsGoal.atoms, codeChunk, clean_code, clean_atom]

theorem clean_clause {functor : Text} {args : String} {guard : Option Guard} {goal : CawsGoal} :
    (PrologItem.clause functor args guard goal).Clean ↔
      (∀ claim, guard = some (.natural claim) → '\\' ∉ claim) ∧
        ∀ s ∈ goal.atoms, '\\' ∉ s ∧ '\'' ∉ s := by
  have hclaim : ∀ claim, (Chunk.escaped '"' claim).Clean Prolog.lexis ↔ '\\' ∉ claim :=
    fun claim => Iff.rfl
  have hguard : (∀ c ∈ guard.elim [] Guard.chunks, c.Clean Prolog.lexis) ↔
      ∀ claim, guard = some (.natural claim) → '\\' ∉ claim := by
    rcases guard with _ | claim | text <;> simp [Guard.chunks, codeChunk, clean_code, hclaim]
  simp only [PrologItem.Clean, PrologItem.chunks, List.forall_mem_cons, List.forall_mem_append,
    clean_code, true_and, hguard, CawsGoal.clean, codeChunk]
  simp

theorem clean_clipsComment {t : Text} : (ClipsItem.comment t).Clean ↔ '\n' ∉ t ∧ '\r' ∉ t := by
  have hend : ∀ c, Clips.isLineEnd c ↔ c = '\n' ∨ c = '\r' := by simp [Clips.isLineEnd]
  simp only [ClipsItem.Clean, ClipsItem.chunks, List.forall_mem_singleton, Chunk.Clean]
  constructor
  · intro h
    exact ⟨fun hn => h _ hn ((hend _).mpr (.inl rfl)), fun hr => h _ hr ((hend _).mpr (.inr rfl))⟩
  · rintro ⟨hn, hr⟩ a ha hl
    rcases (hend a).mp hl with rfl | rfl
    · exact hn ha
    · exact hr ha

theorem clean_string {s : Text} : (Chunk.bare '"' s).Clean Clips.lexis ↔ '\\' ∉ s ∧ '"' ∉ s :=
  Iff.rfl

/-- The edge id that a rule's action has between quotes. -/
def RuleAction.edge : RuleAction → Option Text
  | .replied edge | .goal (.edgeReply edge _) | .goal (.edgeMessage edge _) => some edge
  | .goal (.wrapper _) => none

theorem not_mem_ident {s : Text} (hs : IdentFunctor s) {c : Char} (hc : isIdentChar c = false) :
    c ∉ s := by
  intro h
  rw [hs c h] at hc
  cases hc

/-- The action's texts, as CLIPS strings. -/
theorem RuleAction.clean {a : RuleAction} (ha : ∀ f, a = .goal (.wrapper f) → IdentFunctor f) :
    (∀ c ∈ a.chunks, c.Clean Clips.lexis) ↔ ∀ s ∈ a.edge, '\\' ∉ s ∧ '"' ∉ s := by
  have hcode : ∀ s : String, (codeChunk s).Clean Clips.lexis := fun s => trivial
  have hcid : (Chunk.bare '"' ['\'', ')']).Clean Clips.lexis := clean_string.mpr (by decide)
  have hin : ∀ (before after edge : Text), (('\\' ∉ before ∧ '"' ∉ before) ∧ '\\' ∉ after ∧
      '"' ∉ after) → ((Chunk.bare '"' (before ++ ('\'' :: (edge ++ '\'' :: after)))).Clean Clips.lexis ↔
        '\\' ∉ edge ∧ '"' ∉ edge) := by
    rintro before after edge ⟨⟨hb, hb'⟩, ha, ha'⟩
    rw [clean_string]
    simp [hb, hb', ha, ha']
  cases a with
  | replied edge =>
    have htext : Prolog.lexis.render (repliedChunks edge) =
        "edge_replied(".toList ++ ('\'' :: (edge ++ '\'' :: ")".toList)) := by
      simp [Lexis.render, repliedChunks, Chunk.render, atomChunk, codeChunk]
    have hedge := hin "edge_replied(".toList ")".toList edge (by decide)
    rw [← htext] at hedge
    simp [chunks, hcode, hedge, RuleAction.edge]
  | goal g =>
    cases g with
    | edgeReply edge kind =>
      have htext : Prolog.lexis.render (CidGoal.edgeReply edge kind).head ++ ['\''] =
          "caws_edge_reply(".toList ++ ('\'' :: (edge ++ '\'' ::
            ((", " ++ kind.name ++ ", ").toList ++ ['\'']))) := by
        simp [Lexis.render, CidGoal.head, Chunk.render, atomChunk, codeChunk]
      have hedge := hin "caws_edge_reply(".toList ((", " ++ kind.name ++ ", ").toList ++ ['\''])
        edge (by cases kind <;> decide)
      rw [← htext] at hedge
      simp [chunks, hcode, hcid, hedge, RuleAction.edge]
    | edgeMessage edge kind =>
      have htext : Prolog.lexis.render (CidGoal.edgeMessage edge kind).head ++ ['\''] =
          "caws_edge_message(".toList ++ ('\'' :: (edge ++ '\'' ::
            ((", " ++ kind.name ++ ", ").toList ++ ['\'']))) := by
        simp [Lexis.render, CidGoal.head, Chunk.render, atomChunk, codeChunk]
      have hedge := hin "caws_edge_message(".toList ((", " ++ kind.name ++ ", ").toList ++ ['\''])
        edge (by cases kind <;> decide)
      rw [← htext] at hedge
      simp [chunks, hcode, hcid, hedge, RuleAction.edge]
    | wrapper functor =>
      have htext : Prolog.lexis.render (CidGoal.wrapper functor).head = functor ++ ['('] := by
        simp [Lexis.render, CidGoal.head, Chunk.render]
      have hf := ha functor rfl
      have hclean : (Chunk.bare '"' (Prolog.lexis.render (CidGoal.wrapper functor).head ++
          ['\''])).Clean Clips.lexis := by
        rw [clean_string, htext]
        simp [not_mem_ident hf (c := '\\') rfl, not_mem_ident hf (c := '"') rfl]
      simp [chunks, hcode, hcid, hclean, RuleAction.edge]

/-- The action's goals, as Prolog text. -/
theorem RuleAction.goalChunks_clean (a : RuleAction) :
    (∀ cid, PlainCid cid → ∀ c ∈ a.goalChunks cid, c.Clean Prolog.lexis) ↔
      ∀ s ∈ a.edge, '\\' ∉ s ∧ '\'' ∉ s := by
  have hcode : ∀ s : String, (codeChunk s).Clean Prolog.lexis := fun s => trivial
  have hcid : ∀ cid, PlainCid cid → '\\' ∉ cid ∧ '\'' ∉ cid := by
    intro cid h
    simpa [PlainCid, avoids_iff] using h
  have hnil : PlainCid [] := by simp [PlainCid, Avoids]
  have hedge : ∀ edge : Text, (∀ cid, PlainCid cid → ('\\' ∉ edge ∧ '\'' ∉ edge) ∧
      '\\' ∉ cid ∧ '\'' ∉ cid) ↔ '\\' ∉ edge ∧ '\'' ∉ edge := fun edge =>
    ⟨fun h => (h [] hnil).1, fun h cid hp => ⟨h, hcid cid hp⟩⟩
  cases a with
  | replied edge =>
    have hone : (∀ cid, PlainCid cid → '\\' ∉ edge ∧ '\'' ∉ edge) ↔ '\\' ∉ edge ∧ '\'' ∉ edge :=
      ⟨fun h => h [] hnil, fun h _ _ => h⟩
    simpa [goalChunks, repliedChunks, hcode, clean_atom, RuleAction.edge] using hone
  | goal g =>
    cases g with
    | edgeReply edge kind =>
      simpa [goalChunks, CidGoal.chunks, CidGoal.head, hcode, clean_atom, RuleAction.edge]
        using hedge edge
    | edgeMessage edge kind =>
      simpa [goalChunks, CidGoal.chunks, CidGoal.head, hcode, clean_atom, RuleAction.edge]
        using hedge edge
    | wrapper functor =>
      simpa [goalChunks, CidGoal.chunks, CidGoal.head, hcode, clean_code, clean_atom,
        RuleAction.edge] using hcid

/-- A rule and the goals it publishes are in order when its topic and its edge id are. -/
theorem clean_rule {r : EdgeRule} (ha : ∀ f, r.action = .goal (.wrapper f) → IdentFunctor f) :
    (ClipsItem.rule r).Clean ∧ (ClipsItem.rule r).Publishes ↔
      (∀ t ∈ r.topic, '\\' ∉ t ∧ '"' ∉ t) ∧ ∀ s ∈ r.action.edge, Avoids "\"\\'" s := by
  have hcode : ∀ s : String, (codeChunk s).Clean Clips.lexis := fun s => trivial
  have horigin : (Chunk.bare '"' ("ritual/" ++ r.origin.label).toList).Clean Clips.lexis := by
    rw [clean_string]
    cases r.origin <;> decide
  have hempty : (Chunk.bare '"' []).Clean Clips.lexis := clean_string.mpr (by decide)
  have hcid : ∀ c ∈ (if r.correlated then
      [codeChunk " (correlation ?cid&~", Chunk.bare '"' [], codeChunk ")"] else []),
      c.Clean Clips.lexis := by
    split <;> simp [hcode, hempty]
  have hcid := iff_true_intro hcid
  have htopic : (∀ c ∈ r.topic.elim [] (fun topic =>
      [codeChunk " (topic ", Chunk.bare '"' topic, codeChunk ")"]), c.Clean Clips.lexis) ↔
      ∀ t ∈ r.topic, '\\' ∉ t ∧ '"' ∉ t := by
    cases r.topic <;> simp [hcode, clean_string]
  have hclean : (ClipsItem.rule r).Clean ↔
      (∀ t ∈ r.topic, '\\' ∉ t ∧ '"' ∉ t) ∧ ∀ s ∈ r.action.edge, '\\' ∉ s ∧ '"' ∉ s := by
    simp only [ClipsItem.Clean, ClipsItem.chunks, EdgeRule.chunks, List.forall_mem_append,
      List.forall_mem_cons, clean_code, horigin, hcode, htopic, hcid, RuleAction.clean ha, true_and]
    simp
  have hpublishes : (ClipsItem.rule r).Publishes ↔ ∀ s ∈ r.action.edge, '\\' ∉ s ∧ '\'' ∉ s := by
    rw [← RuleAction.goalChunks_clean]
    exact ⟨fun h => h r rfl, fun h r' hr' => by cases hr'; exact h⟩
  have hbad : ∀ s : Text, Avoids "\"\\'" s ↔ '"' ∉ s ∧ '\\' ∉ s ∧ '\'' ∉ s := by
    intro s
    simp [avoids_iff]
  rw [hclean, hpublishes, and_assoc, ← forall₂_and]
  refine and_congr_right fun _ => forall₂_congr fun s _ => ?_
  rw [hbad]
  tauto

/-- A topic needs no quotes. -/
theorem sanitizeTopic_avoids (raw : Text) : Avoids "\n\r\"\\'" (sanitizeTopic raw) := by
  intro c hc
  obtain ⟨a, -, rfl⟩ := List.mem_map.mp hc
  split
  · rename_i ha
    intro hbad
    simp only [String.reduceToList, List.mem_cons, List.not_mem_nil, or_false] at hbad
    rcases hbad with rfl | rfl | rfl | rfl | rfl <;> exact absurd ha (by decide)
  · decide

theorem Avoids.append {bad : String} {s t : Text} (hs : Avoids bad s) (ht : Avoids bad t) :
    Avoids bad (s ++ t) := by
  intro c hc
  rcases List.mem_append.mp hc with hc | hc
  · exact hs c hc
  · exact ht c hc

theorem avoids_iff_all {bad : String} {s : Text} :
    (s.all fun c => !bad.toList.contains c) = true ↔ Avoids bad s := by
  simp [Avoids]

instance (bad : String) (s : Text) : Decidable (Avoids bad s) :=
  decidable_of_iff ((s.all fun c => !bad.toList.contains c) = true) avoids_iff_all

theorem consultTopic_avoids (e : GraphEdge) : Avoids "\n\r\"\\'" e.consultTopic :=
  Avoids.append (by decide) (sanitizeTopic_avoids _)

theorem messageTopic_avoids (e : GraphEdge) (k : MsgKind) :
    Avoids "\n\r\"\\'" (e.messageTopic k) := by
  refine Avoids.append (by cases k <;> decide) (Avoids.append (s := ['/']) (by decide) ?_)
  exact sanitizeTopic_avoids _

end Cleanness

namespace GraphEdge

theorem not_mem_about {e : GraphEdge} {c : Char} (hc : c ∉ " Edge ".toList) {rest : List Text} :
    c ∉ e.about rest ↔ c ∉ e.id ∧ ∀ t ∈ rest, c ∉ t := by
  unfold about
  constructor
  · intro h
    refine ⟨fun hid => h ?_, fun t ht htc => h ?_⟩
    · exact List.mem_append_right _ (List.mem_append_left _ hid)
    · exact List.mem_append_right _ (List.mem_append_right _ (List.mem_flatten.mpr ⟨t, ht, htc⟩))
  · rintro ⟨hid, hrest⟩ h
    rcases List.mem_append.mp h with h | h
    · exact hc h
    · rcases List.mem_append.mp h with h | h
      · exact hid h
      · obtain ⟨t, ht, htc⟩ := List.mem_flatten.mp h
        exact hrest t ht htc

/-- The claim of a guard stays within its quotes. -/
def GuardOk (e : GraphEdge) : Prop :=
  ∀ claim, e.guardGoal = some (.natural claim) → '\\' ∉ claim

theorem clean_blank : PrologItem.blank.Clean := by
  intro c hc
  rw [List.mem_singleton.mp hc]
  trivial

theorem clean_fact (functor : Text) : (PrologItem.fact functor).Clean := by
  intro c hc
  rw [List.mem_singleton.mp hc]
  trivial

theorem clean_helperItems {e : GraphEdge} {comment : List Text} {functor : Text} {args : String}
    {goal : CawsGoal} : (∀ i ∈ e.helperItems comment functor args goal, i.Clean) ↔
      ('\n' ∉ e.id ∧ ∀ t ∈ comment, '\n' ∉ t) ∧ e.GuardOk ∧
        ∀ s ∈ goal.atoms, '\\' ∉ s ∧ '\'' ∉ s := by
  simp only [helperItems, List.forall_mem_cons, clean_comment, clean_clause, clean_blank,
    not_mem_about (by decide : '\n' ∉ " Edge ".toList), GuardOk]
  simp

theorem clean_wrapperItems {e : GraphEdge} {comment : List Text} {functor : Text}
    {goal : CawsGoal} : (∀ i ∈ e.wrapperItems comment functor goal, i.Clean) ↔
      ('\n' ∉ e.id ∧ ∀ t ∈ comment, '\n' ∉ t) ∧ e.GuardOk ∧
        ∀ s ∈ goal.atoms, '\\' ∉ s ∧ '\'' ∉ s := by
  simp only [wrapperItems, List.forall_mem_cons, clean_comment, clean_clause, clean_blank,
    clean_fact, not_mem_about (by decide : '\n' ∉ " Edge ".toList), GuardOk]
  simp

theorem ok_comment {e : GraphEdge} {rest : List Text} : ClipsItem.Ok (.comment (e.about rest)) ↔
    Avoids "\n\r" e.id ∧ ∀ t ∈ rest, Avoids "\n\r" t := by
  have hpublishes : (ClipsItem.comment (e.about rest)).Publishes := by
    intro r hr
    cases hr
  have hbad : ∀ t : Text, Avoids "\n\r" t ↔ '\n' ∉ t ∧ '\r' ∉ t := by
    intro t
    simp [avoids_iff]
  simp only [ClipsItem.Ok, hpublishes, and_true, clean_clipsComment,
    not_mem_about (by decide : '\n' ∉ " Edge ".toList),
    not_mem_about (by decide : '\r' ∉ " Edge ".toList), hbad, forall₂_and]
  tauto

/-- A rule whose topic needs no quotes is in order when its edge id is. -/
theorem ok_rule {r : EdgeRule} (ha : ∀ f, r.action = .goal (.wrapper f) → IdentFunctor f)
    (htopic : ∀ t ∈ r.topic, Avoids "\n\r\"\\'" t) :
    ClipsItem.Ok (.rule r) ↔ ∀ s ∈ r.action.edge, Avoids "\"\\'" s := by
  have hquotes : ∀ t ∈ r.topic, '\\' ∉ t ∧ '"' ∉ t := by
    intro t ht
    have havoid := avoids_iff.mp (htopic t ht)
    exact ⟨havoid _ (by decide), havoid _ (by decide)⟩
  rw [ClipsItem.Ok, clean_rule ha, and_iff_right hquotes]

structure Clean (e : GraphEdge) : Prop where
  prolog : ∀ i ∈ e.sourceProlog, i.Clean
  clips : ∀ i ∈ e.sourceClips ++ e.targetClips, ClipsItem.Ok i

/-- What holds of the comment and of the rule of a wrapper. -/
theorem wrapperRule_ok {e : GraphEdge} {comment : List Text} {kind : RuleKind} {origin : RitualKind}
    {functor : Text} (hf : IdentFunctor functor) :
    (∀ i ∈ [ClipsItem.comment (e.about comment), .rule (e.cidRule kind origin none (.wrapper functor))],
      ClipsItem.Ok i) ↔ Avoids "\n\r" e.id ∧ ∀ t ∈ comment, Avoids "\n\r" t := by
  have hrule : ClipsItem.Ok (.rule (e.cidRule kind origin none (.wrapper functor))) := by
    refine (ok_rule ?_ ?_).mpr ?_
    · intro f h
      cases h
      exact hf
    · intro t ht
      cases ht
    · intro t ht
      cases ht
  simp [ok_comment, hrule]

theorem replyItems_ok (e : GraphEdge) : (∀ i ∈ e.replyItems, ClipsItem.Ok i) ↔
    Avoids "\n\r\"\\'" e.id ∧ Avoids "\n\r" e.targetLabel := by
  have htopic := avoids_iff.mp (consultTopic_avoids e)
  have hsome : ∀ t ∈ some e.consultTopic, Avoids "\n\r\"\\'" t := by
    rintro t ⟨⟩
    exact consultTopic_avoids e
  have hreplied : ClipsItem.Ok (.rule ⟨e.ruleId, .onReply, .hohi, some e.consultTopic, false,
      .replied e.id⟩) ↔ Avoids "\"\\'" e.id :=
    (ok_rule (by rintro f ⟨⟩) hsome).trans (by simp [RuleAction.edge])
  have hreply : ∀ kind origin k, ClipsItem.Ok (.rule (e.cidRule kind origin (some e.consultTopic)
      (.edgeReply e.id k))) ↔ Avoids "\"\\'" e.id := fun kind origin k =>
    (ok_rule (by rintro f ⟨⟩) hsome).trans (by simp [cidRule, RuleAction.edge])
  have htimeout : ClipsItem.Ok (.rule (e.cidRule .onTimeoutResult .tabuTimeout none
      (.edgeReply e.id .tabuTimeout))) ↔ Avoids "\"\\'" e.id :=
    (ok_rule (by rintro f ⟨⟩) (by rintro t ⟨⟩)).trans (by simp [cidRule, RuleAction.edge])
  simp only [replyItems, List.forall_mem_cons, ok_comment, hreplied, hreply, htimeout,
    avoids_iff]
  simp [htopic]
  tauto

theorem pipeItems_ok (e : GraphEdge) : (∀ i ∈ e.pipeItems, ClipsItem.Ok i) ↔
    Avoids "\n\r" e.id ∧ Avoids "\n\r" e.targetLabel := by
  have hfunctor : IdentFunctor e.pipeFunctor := append_ident (by decide) _
  rw [pipeItems, wrapperRule_ok hfunctor]
  simp [avoids_iff]

theorem teeItems_ok (e : GraphEdge) (trigger : RitualKind) : (∀ i ∈ e.teeItems trigger, ClipsItem.Ok i) ↔
    Avoids "\n\r" e.id ∧ Avoids "\n\r" e.targetLabel := by
  have hlabel : Avoids "\n\r" trigger.label.toList := by cases trigger <;> decide
  rw [avoids_iff] at hlabel
  have hfunctor : IdentFunctor e.teeFunctor := append_ident (by decide) _
  rw [teeItems, wrapperRule_ok hfunctor]
  simp only [List.forall_mem_cons, avoids_iff]
  simp at hlabel
  simp [hlabel]

theorem messageItems_ok {e : GraphEdge} {k : MsgKind} (hk : e.kind = .message k) :
    (∀ i ∈ e.targetClips, ClipsItem.Ok i) ↔ Avoids "\n\r\"\\'" e.id ∧ Avoids "\n\r" e.source := by
  have hname : Avoids "\n\r" k.name.toList := by cases k <;> decide
  have hsome : ∀ t ∈ some (e.messageTopic k), Avoids "\n\r\"\\'" t := by
    rintro t ⟨⟩
    exact messageTopic_avoids e k
  have hrule : ClipsItem.Ok (.rule (e.cidRule .onMessage k.ritual (some (e.messageTopic k))
      (.edgeMessage e.id k))) ↔ Avoids "\"\\'" e.id :=
    (ok_rule (by rintro f ⟨⟩) hsome).trans (by simp [cidRule, RuleAction.edge])
  rw [avoids_iff] at hname
  unfold targetClips
  simp only [hk, List.forall_mem_cons, ok_comment, hrule, avoids_iff]
  simp at hname
  simp [hname]
  tauto

/-- The strings of an edge stay in their places exactly when they keep to what these take. -/
theorem clean_iff_safe (e : GraphEdge) : e.Clean ↔ e.Safe := by
  have hclean : e.Clean ↔ (∀ i ∈ e.sourceProlog, i.Clean) ∧ (∀ i ∈ e.sourceClips, ClipsItem.Ok i) ∧
      ∀ i ∈ e.targetClips, ClipsItem.Ok i := by
    rw [← List.forall_mem_append]
    exact ⟨fun h => ⟨h.prolog, h.clips⟩, fun h => ⟨h.1, h.2⟩⟩
  rw [hclean]
  unfold Safe
  cases hk : e.kind with
  | offering =>
    have hconsult := avoids_iff.mp (consultTopic_avoids e)
    rw [targetClips_eq_nil (by simp [hk])]
    unfold sourceProlog sourceClips
    simp at hconsult
    cases e.auto with
    | false =>
      simp only [hk, Bool.false_eq_true, if_false, List.append_nil, clean_helperItems,
        replyItems_ok, CawsGoal.atoms, avoids_iff, GuardOk]
      simp [hconsult]
      tauto
    | true =>
      simp only [hk, if_true, List.forall_mem_append, clean_helperItems, clean_wrapperItems,
        replyItems_ok, pipeItems_ok, CawsGoal.atoms, avoids_iff, GuardOk]
      simp [hconsult]
      tauto
  | message k =>
    have htopic := avoids_iff.mp (messageTopic_avoids e k)
    have hname : Avoids "\n\r" k.name.toList := by cases k <;> decide
    rw [messageItems_ok hk]
    unfold sourceProlog sourceClips
    rw [avoids_iff] at hname
    simp at htopic hname
    cases e.auto with
    | false =>
      simp only [hk, Bool.false_eq_true, if_false, List.append_nil, clean_helperItems,
        CawsGoal.atoms, avoids_iff, GuardOk]
      simp [htopic, hname]
      tauto
    | true =>
      have htee : (∀ i ∈ (teeTriggers k).flatMap e.teeItems, ClipsItem.Ok i) ↔
          Avoids "\n\r" e.id ∧ Avoids "\n\r" e.targetLabel := by
        rw [List.forall_mem_flatMap]
        cases k <;> simp [teeTriggers, teeItems_ok]
      simp only [hk, if_true, List.forall_mem_append, clean_helperItems, clean_wrapperItems,
        htee, CawsGoal.atoms, avoids_iff, GuardOk]
      simp [htopic, hname]
      tauto
  | other =>
    rw [targetClips_eq_nil (by simp [hk])]
    unfold sourceProlog sourceClips
    simp [hk, clean_comment, not_mem_about (by decide : '\n' ∉ " Edge ".toList), avoids_iff]

/-- Every rule of an edge is named by it, and the wrappers it calls are. -/
theorem rule_of_mem {e : GraphEdge} {r : EdgeRule} (h : .rule r ∈ e.sourceClips ++ e.targetClips) :
    r.ruleId = e.ruleId ∧ ∀ f, r.action = .goal (.wrapper f) → IdentFunctor f := by
  have hpipe : IdentFunctor e.pipeFunctor := append_ident (by decide) _
  have htee : IdentFunctor e.teeFunctor := append_ident (by decide) _
  unfold sourceClips targetClips at h
  cases hk : e.kind with
  | offering =>
    cases hauto : e.auto <;> simp [hk, hauto, replyItems, pipeItems, cidRule] at h <;>
      rcases h with rfl | rfl | rfl | rfl | rfl <;> simp [hpipe]
  | message k =>
    cases hauto : e.auto <;> cases k <;> simp [hk, hauto, teeTriggers, teeItems, cidRule] at h <;>
      rcases h with rfl | rfl | rfl <;> simp [htee]
  | other => simp [hk] at h

theorem clips_fits (e : GraphEdge) :
    ∀ i ∈ e.sourceClips ++ e.targetClips, ∀ b, Clips.lexis.Fits b i.chunks := by
  intro i hi b
  cases i with
  | comment text => trivial
  | rule r =>
    have hid : IdentFunctor r.ruleId := by
      rw [(rule_of_mem hi).1]
      exact fun c => isIdentChar_sanitizeIdentifier
    exact EdgeRule.fits hid b

theorem forall_prologAt {e : GraphEdge} (hq : e.PlainQualifier) {P : PrologItem → Prop} :
    (∀ n, ∀ i ∈ e.prologAt n, P i) ↔ ∀ i ∈ e.sourceProlog, P i := by
  have htarget : e.targetProlog = [] := targetProlog_eq_nil hq.2
  simp only [prologAt, htarget, ite_self, List.append_nil]
  constructor
  · intro h i hi
    exact h e.source i (by simpa using hi)
  · intro h n i hi
    split at hi
    · exact h i hi
    · cases hi

theorem forall_clipsAt {e : GraphEdge} {P : ClipsItem → Prop} :
    (∀ n, ∀ i ∈ e.clipsAt n, P i) ↔ ∀ i ∈ e.sourceClips ++ e.targetClips, P i := by
  simp only [clipsAt, List.forall_mem_append]
  constructor
  · intro h
    refine ⟨fun i hi => (h e.source).1 i ?_, fun i hi => (h e.target).2 i ?_⟩
    · simpa using hi
    · simpa using hi
  · rintro ⟨hs, ht⟩ n
    constructor
    · split
      · exact hs
      · simp
    · split
      · exact ht
      · simp

end GraphEdge

namespace NodeSnippets

theorem mem_edgeRules {s : NodeSnippets} {r : EdgeRule} :
    r ∈ s.clips.filterMap ClipsItem.edgeRule ↔ .rule r ∈ s.clips := by
  rw [List.mem_filterMap]
  constructor
  · rintro ⟨i, hi, hr⟩
    cases i with
    | comment text => cases hr
    | rule r' =>
      cases hr
      exact hi
  · exact fun h => ⟨.rule r, h, rfl⟩

theorem published_iff {s : NodeSnippets}
    (hwrapper : ∀ r, .rule r ∈ s.clips → ∀ f, r.action = .goal (.wrapper f) → IdentFunctor f) :
    (∀ r ∈ s.clips.filterMap ClipsItem.edgeRule, ∀ cid, PlainCid cid →
      Prolog.lexis.scan (r.action.published cid) =
        some (Prolog.lexis.lexemes (r.action.goalChunks cid))) ↔
      ∀ i ∈ s.clips, i.Publishes := by
  have hone : ∀ r, .rule r ∈ s.clips → ∀ cid, (Prolog.lexis.scan (r.action.published cid) =
      some (Prolog.lexis.lexemes (r.action.goalChunks cid)) ↔
      ∀ c ∈ r.action.goalChunks cid, c.Clean Prolog.lexis) := by
    intro r hr cid
    rw [RuleAction.published_eq]
    exact Lexis.means_iff (RuleAction.goalChunks_fits (hwrapper r hr) cid none)
  constructor
  · rintro h i hi r rfl cid hcid
    exact (hone r hi cid).mp (h r (mem_edgeRules.mpr hi) cid hcid)
  · intro h r hr cid hcid
    rw [mem_edgeRules] at hr
    exact (hone r hr cid).mpr (h _ hr r rfl cid hcid)

/-- Snippets whose pieces fit are read as they are meant exactly when every string they splice
stays in its place. -/
theorem asMeant_iff {s : NodeSnippets}
    (hprolog : ∀ i ∈ s.prolog, ∀ b, Prolog.lexis.Fits b i.chunks)
    (hclips : ∀ i ∈ s.clips, ∀ b, Clips.lexis.Fits b i.chunks)
    (hwrapper : ∀ r, .rule r ∈ s.clips → ∀ f, r.action = .goal (.wrapper f) → IdentFunctor f) :
    s.AsMeant ↔ (∀ i ∈ s.prolog, i.Clean) ∧ ∀ i ∈ s.clips, i.Ok := by
  have hp : Prolog.lexis.Means (s.prolog.flatMap PrologItem.chunks) ↔ ∀ i ∈ s.prolog, i.Clean :=
    (Lexis.means_iff (Lexis.Fits.flatMap hprolog none)).trans List.forall_mem_flatMap
  have hc : Clips.lexis.Means (s.clips.flatMap ClipsItem.chunks) ↔ ∀ i ∈ s.clips, i.Clean :=
    (Lexis.means_iff (Lexis.Fits.flatMap hclips none)).trans List.forall_mem_flatMap
  have hgoals := published_iff hwrapper
  constructor
  · intro h
    exact ⟨hp.mp h.prolog, fun i hi => ⟨hc.mp h.clips i hi, hgoals.mp h.published i hi⟩⟩
  · rintro ⟨h, hok⟩
    exact ⟨hp.mpr h, hc.mpr fun i hi => (hok i hi).1, hgoals.mpr fun i hi => (hok i hi).2⟩

end NodeSnippets

/-- In a graph without Prolog qualifiers, graph data stays data exactly when every edge keeps
to what its templates take. -/
theorem data_stays_data_iff (graph : Json) (hq : ∀ e ∈ graphEdges graph, e.PlainQualifier) :
    (∀ n, ((transduceEdges (graphEdges graph)).snippets n).AsMeant) ↔
      ∀ e ∈ graphEdges graph, e.Safe := by
  have hnode : ∀ n, ((transduceEdges (graphEdges graph)).snippets n).AsMeant ↔
      ∀ e ∈ graphEdges graph, (∀ i ∈ e.prologAt n, i.Clean) ∧ ∀ i ∈ e.clipsAt n, i.Ok := by
    intro n
    rw [transduceEdges_snippets, NodeSnippets.asMeant_iff, List.forall_mem_flatMap,
      List.forall_mem_flatMap, ← forall₂_and]
    · rw [List.forall_mem_flatMap]
      intro e he
      exact (GraphEdge.forall_prologAt (hq e he)).mpr (GraphEdge.sourceProlog_fits (hq e he)) n
    · rw [List.forall_mem_flatMap]
      intro e he
      exact GraphEdge.forall_clipsAt.mpr e.clips_fits n
    · intro r hr
      obtain ⟨e, he, hr⟩ := List.mem_flatMap.mp hr
      have hrule : ∀ i ∈ e.clipsAt n, ∀ r, i = .rule r →
          ∀ f, r.action = .goal (.wrapper f) → IdentFunctor f :=
        GraphEdge.forall_clipsAt.mpr (fun i hi r hir => (GraphEdge.rule_of_mem (hir ▸ hi)).2) n
      exact hrule _ hr r rfl
  simp only [hnode, ← GraphEdge.clean_iff_safe]
  constructor
  · intro h e he
    exact ⟨(GraphEdge.forall_prologAt (hq e he)).mp fun n => (h n e he).1,
      GraphEdge.forall_clipsAt.mp fun n => (h n e he).2⟩
  · intro h n e he
    exact ⟨(GraphEdge.forall_prologAt (hq e he)).mpr (h e he).prolog n,
      GraphEdge.forall_clipsAt.mpr (h e he).clips n⟩

def testClaim (claim : String) : Json :=
  testGraph [testEdge "e1" "offering" [("qualifierKind", .str "boolean"),
    ("qualifierValue", .str claim)]]

/-- The one edge of such a graph. -/
def testClaimEdge (claim : String) : GraphEdge :=
  { id := "e1".toList, source := "n1".toList, target := "n2".toList, msgType := "offering".toList
    targetLabel := "Groq".toList, qualifierKind := "boolean".toList
    qualifierValue := claim.toList }

theorem testClaimEdge_plain {claim : String}
    (h : (testClaimEdge claim).guardGoal = some (.natural claim.toList)) :
    (testClaimEdge claim).PlainQualifier := by
  refine ⟨fun g hg => ⟨claim.toList, ?_⟩, ?_⟩
  · exact Option.some.inj (hg.symm.trans h)
  · have hkind : "boolean".toList ≠ "assertion".toList := by decide
    unfold GraphEdge.assertion
    exact if_neg fun hq => hkind hq.1

theorem testClaim_edges (claim : String) : graphEdges (testClaim claim) = [testClaimEdge claim] := rfl

/-- The quotes of a claim are escaped. -/
theorem testClaim_quoted : (∀ e ∈ graphEdges (testClaim "is \"Groq\" awake"), e.PlainQualifier) ∧
    ∀ n, ((transduceEdges (graphEdges (testClaim "is \"Groq\" awake"))).snippets n).AsMeant := by
  have hguard : (testClaimEdge "is \"Groq\" awake").guardGoal =
      some (.natural "is \"Groq\" awake".toList) := by decide
  have hplain : ∀ e ∈ graphEdges (testClaim "is \"Groq\" awake"), e.PlainQualifier := by
    rw [testClaim_edges, List.forall_mem_singleton]
    exact testClaimEdge_plain hguard
  refine ⟨hplain, (data_stays_data_iff _ hplain).mpr ?_⟩
  rw [testClaim_edges, List.forall_mem_singleton]
  refine ⟨by decide, by decide, by decide, by decide, fun claim hclaim => ?_⟩
  cases hguard.symm.trans hclaim
  decide

/-- The backslashes of a claim are not: this one is read with a line break in it. -/
theorem testClaim_backslash :
    (∀ e ∈ graphEdges (testClaim "is it in C:\\new files"), e.PlainQualifier) ∧
    ¬ ((transduceEdges (graphEdges (testClaim "is it in C:\\new files"))).snippets
      "n1".toList).AsMeant := by
  have hguard : (testClaimEdge "is it in C:\\new files").guardGoal =
      some (.natural "is it in C:\\new files".toList) := by decide
  constructor
  · rw [testClaim_edges, List.forall_mem_singleton]
    exact testClaimEdge_plain hguard
  · intro h
    exact absurd h.prolog (by decide +kernel)

end Cerebellum
