import Cerebellum.Coloring
import Cerebellum.Quoting
import Cerebellum.TranspileSpec

/-! The decorated source: `decorate_source` of clara-cycle/src/transduction.rs, and the
predicates that its preamble listens to. -/
namespace Cerebellum.Transpile
open Text

/-- What stands between the parentheses of a one-line `:- dynamic(...).`. -/
def dynamicLine (line : Text) : Option Text := do
  let s ← ":-".toList.isPrefixOf? (trim line)
  let s ← "dynamic(".toList.isPrefixOf? (trim s)
  ").".toList.isSuffixOf? s

def extractDynamicIndicators (source : Text) : List Text :=
  (lines source).flatMap fun line =>
    match dynamicLine line with
    | some inner => ((inner.splitOn ',').map trim).filter fun ind => !ind.isEmpty
    | none => []

/-- `name/arity`. -/
def indicatorText (fa : Text × Nat) : Text := fa.1 ++ '/' :: Nat.toDigits 10 fa.2

section
variable {φ : Type} (F : FloatText φ)

/-- The functors and arities of the heads of rule clauses. -/
def ruleHeads (rules : List (PrologRule φ)) : List (Text × Nat) :=
  (rules.filter fun r => !r.body.isEmpty).map fun r => termFunctorArity r.head

def detectMultiClauseGroups (rules : List (PrologRule φ)) (existing : List Text) : List Text :=
  let keys := (ruleHeads rules).map indicatorText
  (keys.dedup.filter fun k => decide (2 ≤ keys.count k) && !existing.contains k).mergeSort
    fun k l => decide (k ≤ l)

def listenDirective (ind : Text) : Text :=
  ":- prolog_listen(".toList ++ ind ++ ", updated(".toList ++ ind ++ ")).\n".toList

def generateListenPreamble (indicators groups : List Text) : Text :=
  "% ── Clara integration (auto-generated) ──────────────────────────────────────\n".toList ++
    indicators.flatMap listenDirective ++
    (if indicators.isEmpty then [] else ['\n']) ++
    ("updated(Pred, Action, Context) :-\n    clause(Head, _Body, Context),\n" ++
      "    coire_publish_assert(Head),\n" ++
      "    format('Updated ~w with action ~w in context ~p~n', [Pred, Action, Head]).\n").toList ++
    (if groups.isEmpty then [] else
      ("\n% ── Clara synthetic groups (multi-clause predicates) ─────────────────────────\n" ++
        "% Declared dynamic so that assertz'd results trigger forward-chaining\n" ++
        "% notification. Mirrored as umbrella nodes in the DOT graph.\n").toList ++
      groups.flatMap fun g => ":- dynamic(".toList ++ g ++ ").\n".toList ++ listenDirective g) ++
    "% ── End Clara integration ───────────────────────────────────────────────────\n".toList

def missingModuleImports (source : Text) : Text :=
  let missing := ["the_rabbit", "the_rat", "the_coire"].filter fun lib =>
    !source.tails.any ("use_module(library(" ++ lib ++ "))").toList.isPrefixOf
  missing.flatMap (fun lib => (":- use_module(library(" ++ lib ++ ")).\n").toList) ++
    if missing.isEmpty then [] else ['\n']

/-- The indicators of the preamble's listen directives, in their order. -/
def listens (source : Text) : List Text :=
  let indicators := extractDynamicIndicators source
  indicators ++ detectMultiClauseGroups (parsePrologRules F source) indicators

def decorateSource (source : Text) : Text :=
  let indicators := extractDynamicIndicators source
  let groups := detectMultiClauseGroups (parsePrologRules F source) indicators
  missingModuleImports source ++ generateListenPreamble indicators groups ++ '\n' :: source

/-! ### The predicate an indicator stands for -/

/-- The atom at the front of a text: a name, a quoted one, or symbol characters. Characters
beyond ASCII are taken for letters. -/
def readAtom (t : Text) : Option (Text × Text) :=
  let isName (c : Char) : Bool := Prolog.isIdCont c || 128 ≤ c.toNat
  match t with
  | [] => none
  | c :: u =>
    if c = '\'' then Prolog.quotedBody c u.length u
    else if c.isLower || 128 ≤ c.toNat then some (t.takeWhile isName, t.dropWhile isName)
    else if Prolog.isSymbol c then
      some (t.takeWhile Prolog.isSymbol, t.dropWhile Prolog.isSymbol)
    else none

/-- `Name/Arity`, with blanks wherever Prolog allows them. -/
def readIndicator (t : Text) : Option (Text × Nat) := do
  let (name, t) ← readAtom (t.dropWhile Prolog.isBlank)
  match t.dropWhile Prolog.isBlank with
  | '/' :: t =>
    let t := t.dropWhile Prolog.isBlank
    let digits := t.takeWhile Char.isDigit
    if !digits.isEmpty && (t.dropWhile Char.isDigit).all Prolog.isBlank then
      some (name, Nat.ofDigitChars 10 digits 0)
    else none
  | _ => none

example : readIndicator " 'a b' / 2 ".toList = some ("a b".toList, 2) := by decide +kernel

/-- The predicates of the one-line dynamic directives, as often as they are written. -/
def written (source : Text) : List (Text × Nat) :=
  (extractDynamicIndicators source).filterMap readIndicator

/-- The head of two or more rule clauses. -/
def MultiClause (source : Text) (k : Text × Nat) : Prop :=
  2 ≤ (ruleHeads (parsePrologRules F source)).count k

def Relayed (source : Text) (k : Text × Nat) : Prop := k ∈ written source ∨ MultiClause F source k

/-- Each relayed predicate has one listen directive, and there is no other. -/
structure ListenedOnce (source : Text) : Prop where
  suffix : source <:+ decorateSource F source
  once : ∀ k, Relayed F source k → ((listens F source).filterMap readIndicator).count k = 1
  only : ∀ ind ∈ listens F source, ∃ k, readIndicator ind = some k ∧ Relayed F source k

/-- The predicates with two or more rule clauses whose text is not written in a directive. -/
def unwritten (source : Text) : List (Text × Nat) :=
  (ruleHeads (parsePrologRules F source)).dedup.filter fun k =>
    decide (2 ≤ (ruleHeads (parsePrologRules F source)).count k) &&
      !(extractDynamicIndicators source).contains (indicatorText k)

/-- What the texts of these predicates read as. -/
def spelled (source : Text) : List (Text × Nat) :=
  ((unwritten F source).map indicatorText).filterMap readIndicator

/-- No predicate is written twice, and the texts of the groups read as the multi-clause
predicates that are not written, each of them once. -/
structure SpelledOnce (source : Text) : Prop where
  readable : ∀ ind ∈ extractDynamicIndicators source ++ (unwritten F source).map indicatorText,
    (readIndicator ind).isSome
  writtenOnce : (written source).Nodup
  spelledOnce : (spelled F source).Nodup
  groups : ∀ k, k ∈ spelled F source ↔ MultiClause F source k ∧ k ∉ written source

theorem indicatorText_injective : Function.Injective indicatorText := by
  rintro ⟨f, a⟩ ⟨g, b⟩ h
  obtain ⟨rfl, rfl⟩ := Text.append_toDigits_inj rfl h
  rfl

/-- The groups are the multi-clause predicates whose text is not written, in another order. -/
theorem groups_perm (source : Text) :
    (detectMultiClauseGroups (parsePrologRules F source) (extractDynamicIndicators source)).Perm
      ((unwritten F source).map indicatorText) := by
  refine (List.mergeSort_perm _ _).trans (List.Perm.of_eq ?_)
  rw [List.dedup_map_of_injective indicatorText_injective, List.filter_map]
  refine congrArg _ (List.filter_congr fun k _ => ?_)
  simp only [Function.comp_apply, List.count_map_of_injective _ _ indicatorText_injective]

theorem read_listens (source : Text) : ((listens F source).filterMap readIndicator).Perm
    (written source ++ spelled F source) := by
  rw [listens, List.filterMap_append]
  exact ((groups_perm F source).filterMap _).append_left _

theorem mem_listens {source ind : Text} : ind ∈ listens F source ↔
    ind ∈ extractDynamicIndicators source ++ (unwritten F source).map indicatorText :=
  ((groups_perm F source).append_left _).mem_iff

theorem suffix_decorateSource (source : Text) : source <:+ decorateSource F source := by
  unfold decorateSource
  exact (List.suffix_cons '\n' source).trans (List.suffix_append _ _)

/-- An atom that needs no quotes. -/
def isPlainName (f : Text) : Bool :=
  match f with
  | [] => false
  | c :: u => c.isLower && u.all Prolog.isIdCont

theorem readAtom_plain {f : Text} (h : isPlainName f) (t : Text) :
    readAtom (f ++ '/' :: t) = some (f, '/' :: t) := by
  cases f with
  | nil => cases h
  | cons c u =>
    simp only [isPlainName, Bool.and_eq_true, List.all_eq_true] at h
    obtain ⟨hc, hu⟩ := h
    have hquote : c ≠ '\'' := by
      rintro rfl
      cases hc
    have hname : ∀ d ∈ c :: u, (Prolog.isIdCont d || 128 ≤ d.toNat) = true := by
      intro d hd
      rcases List.mem_cons.mp hd with rfl | hd
      · simp [Prolog.isIdCont, Char.isAlphanum, Char.isAlpha, hc]
      · simp [hu d hd]
    have hstop : ∀ d ∈ ('/' :: t).head?, (Prolog.isIdCont d || 128 ≤ d.toNat) = false := by
      simp [Prolog.isIdCont]
    rw [List.cons_append, readAtom]
    simp only [hquote, hc, Bool.true_or, if_true, if_false]
    rw [← List.cons_append, Span.takeWhile_append_stop hname hstop,
      Span.dropWhile_append_stop hname hstop]

theorem not_blank {c : Char} (h : 33 ≤ c.toNat ∧ c.toNat ≤ 126) : Prolog.isBlank c = false := by
  simp only [Prolog.isBlank, Text.isWhitespace, Bool.and_eq_false_iff, Bool.or_eq_false_iff,
    decide_eq_false_iff_not, beq_eq_false_iff_ne]
  omega

/-- A plain name with its arity is read as it is meant. -/
theorem readIndicator_plain {k : Text × Nat} (h : isPlainName k.1) :
    readIndicator (indicatorText k) = some k := by
  obtain ⟨f, a⟩ := k
  have hstart : (indicatorText (f, a)).dropWhile Prolog.isBlank = indicatorText (f, a) := by
    cases f with
    | nil => cases h
    | cons c u =>
      have hc := isLower_iff.mp (Bool.and_eq_true_iff.mp h).1
      exact List.dropWhile_cons_of_neg (by simp [not_blank (c := c) (by omega)])
  have hdigits : ∀ c ∈ Nat.toDigits 10 a, c.isDigit := fun c hc =>
    Nat.isDigit_of_mem_toDigits (by decide) (by decide) hc
  have hdrop : (Nat.toDigits 10 a).dropWhile Prolog.isBlank = Nat.toDigits 10 a := by
    cases hd : Nat.toDigits 10 a with
    | nil => rfl
    | cons d ds =>
      have hd := isDigit_iff.mp (hdigits d (by simp [hd]))
      exact List.dropWhile_cons_of_neg (by simp [not_blank (c := d) (by omega)])
  have hall : (Nat.toDigits 10 a).takeWhile Char.isDigit = Nat.toDigits 10 a :=
    List.takeWhile_eq_self_iff.mpr hdigits
  have hnone : (Nat.toDigits 10 a).dropWhile Char.isDigit = [] :=
    List.dropWhile_eq_nil_iff.mpr hdigits
  have hslash : ('/' :: Nat.toDigits 10 a).dropWhile Prolog.isBlank = '/' :: Nat.toDigits 10 a :=
    rfl
  have hne : (Nat.toDigits 10 a).isEmpty = false := by simp [Nat.toDigits_ne_nil]
  rw [readIndicator, hstart]
  simp only [indicatorText, readAtom_plain h, Option.bind_eq_bind, Option.bind_some, hslash, hdrop,
    hall, hnone, hne, Bool.not_false, List.all_nil, Bool.and_self, if_true,
    Nat.ofDigitChars_ten_toDigits]

/-- Where no name needs quotes: every text between the commas is an indicator, no predicate is
written twice, and a multi-clause predicate that is written is written as `name/arity`. -/
theorem spelledOnce_plain {source : Text} (h : ∀ k, MultiClause F source k → isPlainName k.1) :
    SpelledOnce F source ↔
      (∀ ind ∈ extractDynamicIndicators source, (readIndicator ind).isSome) ∧
      (written source).Nodup ∧
      ∀ k, MultiClause F source k → k ∈ written source →
        indicatorText k ∈ extractDynamicIndicators source := by
  have hmem : ∀ k, k ∈ unwritten F source ↔
      MultiClause F source k ∧ indicatorText k ∉ extractDynamicIndicators source := by
    intro k
    have hpos : 2 ≤ (ruleHeads (parsePrologRules F source)).count k →
        k ∈ ruleHeads (parsePrologRules F source) := fun h =>
      List.count_pos_iff.mp (Nat.lt_of_succ_le (Nat.le_of_succ_le h))
    simp only [unwritten, MultiClause, List.mem_filter, List.mem_dedup, Bool.and_eq_true,
      decide_eq_true_eq, Bool.not_eq_true', List.contains_eq_mem, decide_eq_false_iff_not]
    exact and_iff_right_of_imp fun h => hpos h.1
  have hread : ∀ k ∈ unwritten F source, readIndicator (indicatorText k) = some k := fun k hk =>
    readIndicator_plain (h k ((hmem k).mp hk).1)
  have hspelled : spelled F source = unwritten F source := by
    rw [spelled, List.filterMap_map]
    exact (List.filterMap_congr hread).trans List.filterMap_some
  have hwritten : ∀ k, MultiClause F source k →
      indicatorText k ∈ extractDynamicIndicators source → k ∈ written source := fun k hk hin =>
    List.mem_filterMap.mpr ⟨_, hin, readIndicator_plain (h k hk)⟩
  constructor
  · intro hs
    refine ⟨fun ind hind => hs.readable ind (List.mem_append_left _ hind), hs.writtenOnce,
      fun k hk hin => ?_⟩
    by_contra hno
    have hspell : k ∈ spelled F source := by
      rw [hspelled]
      exact (hmem k).mpr ⟨hk, hno⟩
    exact ((hs.groups k).mp hspell).2 hin
  · rintro ⟨hreadable, honce, htext⟩
    constructor
    case readable =>
      intro ind hind
      rcases List.mem_append.mp hind with hind | hind
      · exact hreadable ind hind
      · obtain ⟨k, hk, rfl⟩ := List.mem_map.mp hind
        rw [hread k hk]
        rfl
    case writtenOnce => exact honce
    case spelledOnce =>
      rw [hspelled]
      exact (List.nodup_dedup _).filter _
    case groups =>
      intro k
      rw [hspelled, hmem]
      refine and_congr_right fun hk => not_congr ⟨fun hin => ?_, fun hin => htext k hk hin⟩
      exact hwritten k hk hin

end
end Cerebellum.Transpile
