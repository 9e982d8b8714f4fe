import Cerebellum.Json
import Cerebellum.Text
import Mathlib.Algebra.Order.Ring.Rat
import Mathlib.Data.List.Infix

/-! Truth values from the answers of a language model: the shortcut and its callers in
clara-prolog/prolog-lib/the_rabbit.pl, and the callers of these in the_rat.pl. -/
namespace Cerebellum.Rabbit

inductive Shortcut where
  | true
  | false
  | unresolved
  deriving DecidableEq, Repr

inductive Status where
  | known (s : Shortcut)
  | unknown
  deriving DecidableEq, Repr

def shortcutLabel : Shortcut → Text
  | .true => "__label____resolved_true__".toList
  | .false => "__label____resolved_false__".toList
  | .unresolved => "__label____unresolved__".toList

def normalizeLabel (label : Text) : Status :=
  if label = "__label____resolved_true__".toList then .known .true
  else if label = "__label____resolved_false__".toList then .known .false
  else if label = "__label____unresolved__".toList then .known .unresolved
  else .unknown

theorem normalizeLabel_shortcutLabel (s : Shortcut) :
    normalizeLabel (shortcutLabel s) = .known s := by
  cases s <;> decide +kernel

/-- The codes that `trim_leading_codes` takes off. -/
def isLeading (c : Char) : Bool :=
  c.toNat == 32 || c.toNat == 9 || c.toNat == 10 || c.toNat == 13

/-- The character classes of the Prolog system, which are Unicode's beyond ASCII. -/
structure Locale where
  lower : Char → Char
  isAlnum : Char → Bool
  isLeading_lower : ∀ c, isLeading (lower c) = isLeading c

theorem toLower_cases (c : Char) :
    c.toLower = c ∨ (65 ≤ c.toNat ∧ 65 ≤ c.toLower.toNat) := by
  unfold Char.toLower
  split
  case isTrue h =>
    have hlo : 65 ≤ c.toNat := UInt32.le_iff_toNat_le.mp h.1
    have hhi : c.val.toNat ≤ 90 := UInt32.le_iff_toNat_le.mp h.2
    refine .inr ⟨hlo, ?_⟩
    change 65 ≤ (c.val + 32).toNat
    have hadd : (c.val + 32).toNat = (c.val.toNat + 32) % 2 ^ 32 := UInt32.toNat_add c.val 32
    have hno : (c.val.toNat + 32) % 2 ^ 32 = c.val.toNat + 32 := Nat.mod_eq_of_lt (by omega)
    rw [hadd, hno]
    exact Nat.le_add_right_of_le hlo
  case isFalse => exact .inl rfl

/-- ASCII alone. -/
def Locale.ascii : Locale where
  lower := Char.toLower
  isAlnum := Char.isAlphanum
  isLeading_lower c := by
    have hno : ∀ d : Char, 65 ≤ d.toNat → isLeading d = false := by
      intro d hd
      simp only [isLeading, Bool.or_eq_false_iff, beq_eq_false_iff_ne]
      omega
    rcases toLower_cases c with h | ⟨hc, h⟩
    · rw [h]
    · rw [hno c hc, hno c.toLower h]

def shortcuts : List (Text × Shortcut) :=
  [("yes".toList, .true), ("true".toList, .true), ("no".toList, .false), ("false".toList, .false),
    ("unresolved".toList, .unresolved), ("that's correct".toList, .true),
    ("correct".toList, .true), ("that's incorrect".toList, .false)]

def trimLeading (s : Text) : Text := s.dropWhile isLeading

structure Prediction where
  label : Text
  probability : Rat
  deriving DecidableEq

/-- What the predicates call: the language model, whose answer is JSON, and the classifier. -/
structure Services (κ : Type) where
  ponderText : Text → Option Json
  ponderTextWithContext : Text → κ → Option Json
  classifyText : Text → Option (List Prediction)
  classifyTextK : Text → Nat → Option (List Prediction)

def extractPath (value : Json) : List String → Option Json
  | [] => some value
  | key :: rest => do extractPath (← Fields.get key (← value.asObject)) rest

/-- The text at `hohi.response.response`. -/
def extractResponse (llmSez : Json) : Option Text := do
  let response ← extractPath llmSez ["hohi", "response", "response"]
  return (← response.asStr).toList

def pair (text response : Text) : Text := text ++ ' ' :: response

section
variable (L : Locale)

def responseShortcut (response : Text) : Option Shortcut :=
  let trim := trimLeading (response.map L.lower)
  (shortcuts.find? fun p => p.1.isPrefixOf trim).map (·.2)

/-- One prediction for a shortcut, the classifier's otherwise. -/
def judge (response : Text) (classify : Option (List Prediction)) : Option (List Prediction) :=
  match responseShortcut L response with
  | some shortcut => some [⟨shortcutLabel shortcut, 99 / 100⟩]
  | none => classify

variable {κ : Type} (S : Services κ)

def descriminate (text : Text) : Option (List Prediction) := do
  let response ← extractResponse (← S.ponderText text)
  judge L response (S.classifyText (pair text response))

def descriminateK (text : Text) (k : Nat) : Option (List Prediction) := do
  let response ← extractResponse (← S.ponderText text)
  judge L response (S.classifyTextK (pair text response) k)

def descriminateKWithContext (text : Text) (k : Nat) (context : κ) :
    Option (List Prediction) := do
  let response ← extractResponse (← S.ponderTextWithContext text context)
  judge L response (S.classifyTextK (pair text response) k)

/-- The labels of the `k` most probable predictions, if there are as many. -/
def topLabels (k : Nat) (predictions : List Prediction) : Option (List Status) :=
  let sorted := predictions.mergeSort fun p q => decide (q.probability ≤ p.probability)
  if k ≤ sorted.length then some ((sorted.take k).map fun p => normalizeLabel p.label) else none

def single : List Status → Option Status
  | [status] => some status
  | _ => none

def extractTopKLabels (text : Text) (k : Nat) : Option (List Status) := do
  topLabels k (← descriminateK L S text k)

def extractTopKLabelsWithContext (text : Text) (k : Nat) (context : κ) :
    Option (List Status) := do
  topLabels k (← descriminateKWithContext L S text k context)

def topStatus (text : Text) : Option Status := do single (← extractTopKLabels L S text 1)

def topStatusWithContext (text : Text) (context : κ) : Option Status := do
  single (← extractTopKLabelsWithContext L S text 1 context)

def directQ (text : Text) : Text := "Answer yes or no: ".toList ++ text

/-- `clara_fy/2` and `clara_fy/3`, which differ in the status they ask for. -/
def resolve (status : Text → Option Status) (text : Text) : Option Status := do
  let b1 ← status text
  if b1 = .known .unresolved then status (directQ text) else some b1

def claraFy (text : Text) : Option Status := resolve (topStatus L S) text

def claraFyWithContext (text : Text) (context : κ) : Option Status :=
  resolve (fun t => topStatusWithContext L S t context) text

end

/-! ### Words -/

section
variable (L : Locale)

/-- Behind blanks, and whatever its case, the response begins with the token. -/
def Begins (response token rest : Text) : Prop :=
  ∃ blanks word, response = blanks ++ (word ++ rest) ∧ (∀ c ∈ blanks, isLeading c) ∧
    word.map L.lower = token

/-- No letter or digit comes next. -/
def WordEnds (rest : Text) : Prop := ∀ c ∈ rest.head?, L.isAlnum c = false

/-- The response begins with a token as a word of its own, and that is its truth value. -/
def Says (response : Text) (v : Shortcut) : Prop :=
  ∃ token rest, (token, v) ∈ shortcuts ∧ Begins L response token rest ∧ WordEnds L rest

/-- The response begins with a longer word that starts with a token. -/
def RunsOn (response : Text) : Prop :=
  ∃ token v rest, (token, v) ∈ shortcuts ∧ Begins L response token rest ∧ ¬ WordEnds L rest

/-- The labels that `top_status` reads off what the classifier finds. -/
def classified (predictions : Option (List Prediction)) : Option Status := do
  single (← topLabels 1 (← predictions))

/-- The response goes to the classifier, whether it answers the text or, for `clara_fy`, the
direct question. -/
structure Defers (status : Text → Option Status) (ponder : Text → Option Json)
    (classify : Text → Nat → Option (List Prediction)) (response : Text) : Prop where
  top : ∀ text, (ponder text).bind extractResponse = some response →
    status text = classified (classify (pair text response) 1)
  resolved : ∀ text b, (ponder text).bind extractResponse = some response →
    classified (classify (pair text response) 1) = some b → b ≠ .known .unresolved →
    resolve status text = some b
  direct : ∀ text, status text = some (.known .unresolved) →
    (ponder (directQ text)).bind extractResponse = some response →
    resolve status text = classified (classify (pair (directQ text) response) 1)

/-- A shortcut is a word of the response, and a response without such a word is for the
classifier to judge, whichever predicate asks. -/
structure RespectsWords (κ : Type) (response : Text) : Prop where
  word : ∀ v, responseShortcut L response = some v → Says L response v
  descriminate : ∀ (S : Services κ) text,
    (S.ponderText text).bind extractResponse = some response → (∀ v, ¬ Says L response v) →
    descriminate L S text = S.classifyText (pair text response)
  descriminateK : ∀ (S : Services κ) text k,
    (S.ponderText text).bind extractResponse = some response → (∀ v, ¬ Says L response v) →
    descriminateK L S text k = S.classifyTextK (pair text response) k
  withContext : ∀ (S : Services κ) text k context,
    (S.ponderTextWithContext text context).bind extractResponse = some response →
    (∀ v, ¬ Says L response v) →
    descriminateKWithContext L S text k context = S.classifyTextK (pair text response) k
  topStatus : ∀ S : Services κ, (∀ v, ¬ Says L response v) →
    Defers (topStatus L S) S.ponderText S.classifyTextK response
  topStatusWithContext : ∀ (S : Services κ) context, (∀ v, ¬ Says L response v) →
    Defers (fun text => topStatusWithContext L S text context)
      (fun text => S.ponderTextWithContext text context) S.classifyTextK response

/-- No token starts another. -/
theorem shortcuts_prefixFree :
    ∀ p ∈ shortcuts, ∀ q ∈ shortcuts, p.1 <+: q.1 → p = q := by decide +kernel

theorem shortcuts_unique {s : Text} {p q : Text × Shortcut} (hp : p ∈ shortcuts)
    (hq : q ∈ shortcuts) (hps : p.1 <+: s) (hqs : q.1 <+: s) : p = q := by
  rcases List.prefix_or_prefix_of_prefix hps hqs with h | h
  · exact shortcuts_prefixFree p hp q hq h
  · exact (shortcuts_prefixFree q hq p hp h).symm

/-- A token starts with a letter. -/
theorem shortcuts_head {p : Text × Shortcut} (hp : p ∈ shortcuts) :
    ∃ c ∈ p.1.head?, isLeading c = false := by
  have hall : shortcuts.all fun p => p.1.head?.any fun c => !isLeading c := by decide +kernel
  simpa [Option.any_eq_true] using List.all_eq_true.mp hall p hp

theorem trimLeading_lower (response : Text) :
    trimLeading (response.map L.lower) = (trimLeading response).map L.lower := by
  rw [trimLeading, List.dropWhile_map, trimLeading]
  congr 2
  funext c
  exact L.isLeading_lower c

variable {L}

/-- What follows the blanks starts with the token. -/
theorem begins_iff {response rest : Text} {p : Text × Shortcut} (hp : p ∈ shortcuts) :
    Begins L response p.1 rest ↔
      ∃ word, trimLeading response = word ++ rest ∧ word.map L.lower = p.1 := by
  constructor
  · rintro ⟨blanks, word, rfl, hblanks, hword⟩
    refine ⟨word, ?_, hword⟩
    rw [trimLeading, List.dropWhile_append_of_pos hblanks]
    obtain ⟨c, hc, hno⟩ := shortcuts_head hp
    cases word with
    | nil =>
      rw [← hword] at hc
      cases hc
    | cons d word =>
      rw [← hword, List.map_cons, List.head?_cons, Option.mem_some_iff] at hc
      rw [← hc, L.isLeading_lower] at hno
      exact List.dropWhile_cons_of_neg (by simp [hno])
  · rintro ⟨word, htrim, hword⟩
    refine ⟨response.takeWhile isLeading, word, ?_, fun c hc => List.mem_takeWhile_imp hc, hword⟩
    rw [← htrim, trimLeading, List.takeWhile_append_dropWhile]

theorem isPrefix_of_begins {response rest : Text} {p : Text × Shortcut} (hp : p ∈ shortcuts)
    (h : Begins L response p.1 rest) : p.1 <+: trimLeading (response.map L.lower) := by
  obtain ⟨word, htrim, hword⟩ := (begins_iff hp).mp h
  rw [trimLeading_lower, htrim, List.map_append, hword]
  exact List.prefix_append _ _

theorem responseShortcut_eq_some {response : Text} {v : Shortcut} :
    responseShortcut L response = some v ↔
      ∃ token rest, (token, v) ∈ shortcuts ∧ Begins L response token rest := by
  rw [responseShortcut, Option.map_eq_some_iff]
  constructor
  · rintro ⟨⟨token, v⟩, hfind, rfl⟩
    have hp := List.mem_of_find?_eq_some hfind
    have hprefix : token <+: trimLeading (response.map L.lower) :=
      List.isPrefixOf_iff_prefix.mp (by simpa using List.find?_some hfind)
    rw [trimLeading_lower] at hprefix
    obtain ⟨lowered, htrim⟩ := hprefix
    obtain ⟨word, rest, hsplit, hword, -⟩ := List.map_eq_append_iff.mp htrim.symm
    exact ⟨token, rest, hp, (begins_iff hp).mpr ⟨word, hsplit, hword⟩⟩
  · rintro ⟨token, rest, hp, hbegins⟩
    have hprefix := isPrefix_of_begins hp hbegins
    cases hfind : shortcuts.find? fun p => p.1.isPrefixOf (trimLeading (response.map L.lower)) with
    | none =>
      exact absurd (List.isPrefixOf_iff_prefix.mpr hprefix) (List.find?_eq_none.mp hfind _ hp)
    | some q =>
      have hq := List.mem_of_find?_eq_some hfind
      have hqs : q.1 <+: trimLeading (response.map L.lower) :=
        List.isPrefixOf_iff_prefix.mp (by simpa using List.find?_some hfind)
      have hsame := shortcuts_unique hq hp hqs hprefix
      exact ⟨q, rfl, by rw [hsame]⟩

/-- A response begins with one token at most, and what follows it is determined. -/
theorem begins_unique {response rest rest' : Text} {p q : Text × Shortcut} (hp : p ∈ shortcuts)
    (hq : q ∈ shortcuts) (h : Begins L response p.1 rest) (h' : Begins L response q.1 rest') :
    p = q ∧ rest = rest' := by
  have hsame := shortcuts_unique hp hq (isPrefix_of_begins hp h) (isPrefix_of_begins hq h')
  subst hsame
  obtain ⟨word, htrim, hword⟩ := (begins_iff hp).mp h
  obtain ⟨word', htrim', hword'⟩ := (begins_iff hp).mp h'
  have hlength : word.length = word'.length := by
    rw [← List.length_map L.lower, hword, ← hword', List.length_map]
  exact ⟨rfl, (List.append_inj (htrim.symm.trans htrim') hlength).2⟩

theorem responseShortcut_eq_none {response : Text} (hruns : ¬ RunsOn L response)
    (hword : ∀ v, ¬ Says L response v) : responseShortcut L response = none := by
  cases h : responseShortcut L response with
  | none => rfl
  | some v =>
    obtain ⟨token, rest, hp, hbegins⟩ := responseShortcut_eq_some.mp h
    by_cases hends : WordEnds L rest
    · exact absurd ⟨token, rest, hp, hbegins, hends⟩ (hword v)
    · exact absurd ⟨token, v, rest, hp, hbegins, hends⟩ hruns

theorem Defers.of_top {status : Text → Option Status} {ponder : Text → Option Json}
    {classify : Text → Nat → Option (List Prediction)} {response : Text}
    (h : ∀ text, (ponder text).bind extractResponse = some response →
      status text = classified (classify (pair text response) 1)) :
    Defers status ponder classify response := by
  refine ⟨h, fun text b hanswer hb hne => ?_, fun text hfirst hanswer => ?_⟩
  · have htop := h text hanswer
    rw [hb] at htop
    simp [resolve, htop, hne]
  · rw [← h (directQ text) hanswer]
    simp [resolve, hfirst]

section
variable {κ : Type} {S : Services κ} {text response : Text}

theorem descriminateK_judge (hanswer : (S.ponderText text).bind extractResponse = some response)
    (k : Nat) : descriminateK L S text k =
      judge L response (S.classifyTextK (pair text response) k) := by
  obtain ⟨llmSez, hponder, hextract⟩ := Option.bind_eq_some_iff.mp hanswer
  simp [descriminateK, hponder, hextract]

theorem descriminateKWithContext_judge {context : κ}
    (hanswer : (S.ponderTextWithContext text context).bind extractResponse = some response)
    (k : Nat) : descriminateKWithContext L S text k context =
      judge L response (S.classifyTextK (pair text response) k) := by
  obtain ⟨llmSez, hponder, hextract⟩ := Option.bind_eq_some_iff.mp hanswer
  simp [descriminateKWithContext, hponder, hextract]

theorem judge_none (h : responseShortcut L response = none)
    (classify : Option (List Prediction)) : judge L response classify = classify := by
  simp [judge, h]

/-- A response that begins with a token as a word decides the status. -/
theorem topStatus_says {v : Shortcut} (h : Says L response v)
    (hanswer : (S.ponderText text).bind extractResponse = some response) :
    topStatus L S text = some (.known v) := by
  obtain ⟨token, rest, hp, hbegins, -⟩ := h
  have hshortcut := responseShortcut_eq_some.mpr ⟨token, rest, hp, hbegins⟩
  simp [topStatus, extractTopKLabels, descriminateK_judge hanswer, judge, hshortcut, topLabels,
    normalizeLabel_shortcutLabel, single]

end

/-- The verdicts respect words exactly when the response does not begin with a longer word
that starts with a token. -/
theorem respectsWords_iff (κ : Type) (L : Locale) (response : Text) :
    RespectsWords L κ response ↔ ¬ RunsOn L response := by
  constructor
  · rintro h ⟨token, v, rest, hp, hbegins, hends⟩
    obtain ⟨token', rest', hp', hbegins', hends'⟩ :=
      h.word v (responseShortcut_eq_some.mpr ⟨token, rest, hp, hbegins⟩)
    obtain ⟨-, rfl⟩ := begins_unique hp hp' hbegins hbegins'
    exact hends hends'
  · intro hruns
    constructor
    case word =>
      intro v h
      obtain ⟨token, rest, hp, hbegins⟩ := responseShortcut_eq_some.mp h
      by_contra hno
      refine hruns ⟨token, v, rest, hp, hbegins, fun hends => ?_⟩
      exact hno ⟨token, rest, hp, hbegins, hends⟩
    case descriminate =>
      intro S text hanswer hword
      obtain ⟨llmSez, hponder, hextract⟩ := Option.bind_eq_some_iff.mp hanswer
      simp [descriminate, hponder, hextract, judge_none (responseShortcut_eq_none hruns hword)]
    case descriminateK =>
      intro S text k hanswer hword
      rw [descriminateK_judge hanswer, judge_none (responseShortcut_eq_none hruns hword)]
    case withContext =>
      intro S text k context hanswer hword
      rw [descriminateKWithContext_judge hanswer,
        judge_none (responseShortcut_eq_none hruns hword)]
    case topStatus =>
      intro S hword
      refine Defers.of_top fun text hanswer => ?_
      rw [topStatus, extractTopKLabels, descriminateK_judge hanswer,
        judge_none (responseShortcut_eq_none hruns hword), classified]
      exact Option.bind_assoc _ _ _
    case topStatusWithContext =>
      intro S context hword
      refine Defers.of_top fun text hanswer => ?_
      rw [topStatusWithContext, extractTopKLabelsWithContext,
        descriminateKWithContext_judge hanswer,
        judge_none (responseShortcut_eq_none hruns hword), classified]
      exact Option.bind_assoc _ _ _

/-- *Nothing* is taken for a no. -/
theorem nothing_is_no : ¬ ∀ (L : Locale) (response : Text), RespectsWords L Unit response := by
  intro h
  have hbegins : Begins Locale.ascii "Nothing is certain.".toList "no".toList
      "thing is certain.".toList :=
    ⟨[], "No".toList, by decide +kernel, by simp, by decide +kernel⟩
  obtain ⟨token, rest, hp, hbegins', hends⟩ :=
    (h Locale.ascii "Nothing is certain.".toList).word .false (by decide +kernel)
  obtain ⟨-, rfl⟩ := begins_unique (q := (token, .false))
    (show ("no".toList, Shortcut.false) ∈ shortcuts by decide +kernel) hp hbegins hbegins'
  exact absurd (hends 't' (by decide +kernel)) (by decide +kernel)

end
end Cerebellum.Rabbit
