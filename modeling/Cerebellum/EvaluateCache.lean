import Cerebellum.Json
import Cerebellum.Uuid
import Cerebellum.Text
import Cerebellum.Lib.Keyed
import Cerebellum.Lib.Transition
import Mathlib.Data.List.Induction

/-! The cache of `evaluate_json_string`: one map for all deductions, whose keys are made of the
deduction id and the request. -/
namespace Cerebellum
open Transition

/-- `serde_json::from_str`. A JSON text has no control characters but tab, line feed and carriage
return: in a string they are written as escapes. -/
structure JsonParser where
  fromStr : String → Except String Json
  unescaped : ∀ s v, fromStr s = .ok v → Char.ofNat 0x1F ∉ s.toList

/-- What the tools answer, written as JSON. -/
structure Toolbox where
  executeTool : Json → String
  evaluate : Json → String

structure CacheEntry where
  value : String
  createdAtMs : Int
  sizeBytes : Nat
  deductionId : Option Uuid
  domainId : Option String
  deriving DecidableEq

/-- A call of `evaluate_json_string`, with the deduction that is current on its thread, the tools
behind it and what else it reads. -/
structure EvaluateCall where
  deductionId : Option Uuid
  input : String
  toolbox : Toolbox
  nowMs : Int
  domainId : Option String

def trimmed (s : String) : String := String.ofList (Text.trim s.toList)

/-- U+001F keeps the id apart from the request. -/
def cacheKey (deductionId : Option Uuid) (input : String) : String :=
  match deductionId with
  | some id => id.toText ++ "\x1f" ++ trimmed input
  | none => trimmed input

namespace EvaluateCall

def key (c : EvaluateCall) : String := cacheKey c.deductionId c.input

def response (c : EvaluateCall) (v : Json) : String :=
  if (v.get "tool").isSome then c.toolbox.executeTool v else c.toolbox.evaluate v

/-- The entry a call leaves when its input is the JSON value `v`. -/
def entry (c : EvaluateCall) (v : Json) : CacheEntry :=
  { value := c.response v
    createdAtMs := c.nowMs
    sizeBytes := c.key.utf8ByteSize + (c.response v).utf8ByteSize
    deductionId := c.deductionId
    domainId := c.domainId }

end EvaluateCall

/-- The map, and the number of calls it did not answer. -/
structure EvaluateCache where
  entries : List (String × CacheEntry)
  keys : (entries.map Prod.fst).Nodup
  callCount : Nat

namespace EvaluateCache

def new : EvaluateCache := ⟨[], List.nodup_nil, 0⟩

def get (c : EvaluateCache) (key : String) : Option CacheEntry :=
  (Keyed.find Prod.fst c.entries key).map Prod.snd

def insert (c : EvaluateCache) (key : String) (e : CacheEntry) : EvaluateCache where
  entries := Keyed.upsert Prod.fst Keyed.overwrite c.entries (key, e)
  keys := Keyed.nodup_upsert (fun _ _ h => h.symm) c.keys (key, e)
  callCount := c.callCount

def retain (c : EvaluateCache) (p : CacheEntry → Bool) : EvaluateCache where
  entries := c.entries.filter fun e => p e.2
  keys := c.keys.sublist (List.filter_sublist.map Prod.fst)
  callCount := c.callCount

/-- How many entries go, and what is left. -/
def evict (c : EvaluateCache) (p : CacheEntry → Bool) : Nat × EvaluateCache :=
  (c.entries.length - (c.retain p).entries.length, c.retain p)

def evictCacheOlderThan (c : EvaluateCache) (cutoffMs : Int) : Nat × EvaluateCache :=
  c.evict fun e => decide (cutoffMs ≤ e.createdAtMs)

def evictCacheByDeduction (c : EvaluateCache) (deductionId : Uuid) : Nat × EvaluateCache :=
  c.evict fun e => e.deductionId != some deductionId

def clear (c : EvaluateCache) : EvaluateCache := { new with callCount := c.callCount }

/-- `CString::new`, with what is sent instead of a text that has a NUL in it. -/
def cString (s : String) (instead : Nat → String) : String :=
  match s.toList.findIdx? (· == Char.ofNat 0) with
  | none => s
  | some i => instead (String.ofList (s.toList.take i)).utf8ByteSize

def invalidJson (e : String) : String :=
  "\x7b\"status\":\"error\",\"message\":\"Invalid JSON: " ++ e ++ "\"\x7d"

def badResponse (position : Nat) : String :=
  "\x7b\"message\":\"Failed to create response: nul byte found in provided data at position: " ++
    toString position ++ "\",\"status\":\"error\"\x7d"

/-- The text that goes back, and the cache after the call. The lookup comes first: what it is
asked for has not been parsed. -/
def evaluateJsonString (J : JsonParser) (c : EvaluateCache) (call : EvaluateCall) :
    String × EvaluateCache :=
  match c.get call.key with
  | some e => (cString e.value fun _ => "\x7b\x7d", c)
  | none =>
    let c := { c with callCount := c.callCount + 1 }
    match J.fromStr call.input with
    | .error e => (cString (invalidJson e) fun _ => "\x7b\x7d", c)
    | .ok v => (cString (call.response v) badResponse, c.insert call.key (call.entry v))

inductive Op where
  | evaluate (call : EvaluateCall)
  | evictOlderThan (cutoffMs : Int)
  | evictByDeduction (deductionId : Uuid)
  | clear

def step (J : JsonParser) (c : EvaluateCache) : Op → EvaluateCache
  | .evaluate call => (c.evaluateJsonString J call).2
  | .evictOlderThan cutoffMs => (c.evictCacheOlderThan cutoffMs).2
  | .evictByDeduction deductionId => (c.evictCacheByDeduction deductionId).2
  | .clear => c.clear

theorem get_insert (c : EvaluateCache) (key : String) (e : CacheEntry) (k : String) :
    (c.insert key e).get k = if key = k then some e else c.get k := by
  unfold get insert
  rw [Keyed.find_overwrite]
  split <;> rfl

theorem get_retain (c : EvaluateCache) (p : CacheEntry → Bool) (k : String) :
    (c.retain p).get k = (c.get k).filter p := by
  unfold get retain
  rw [Keyed.find_filter c.keys]
  cases Keyed.find Prod.fst c.entries k with
  | none => rfl
  | some e => cases hp : p e.2 <;> simp [Option.filter, hp]

/-- The moment of a history that left an entry: a call that missed, with an input that parses. -/
structure Left (J : JsonParser) (x : EvaluateCache × Op) (call : EvaluateCall) (key : String)
    (e : CacheEntry) : Prop where
  evaluate : x.2 = .evaluate call
  missed : x.1.get key = none
  keyed : call.key = key
  parsed : ∃ v, J.fromStr call.input = .ok v ∧ e = call.entry v

/-- A call is answered from the cache only with what an earlier call in its context left for
the same trimmed input. -/
def Isolated (J : JsonParser) (before : List Op) (call : EvaluateCall) : Prop :=
  ∀ e, (run (step J) new before).get call.key = some e →
    ∃ x ∈ visits (step J) new before, ∃ call', Left J x call' call.key e ∧
      call'.deductionId = call.deductionId ∧ trimmed call'.input = trimmed call.input

/-- An eviction takes the entries that calls in the context of the deduction left, and no
others. -/
def EvictsOwn (J : JsonParser) (before : List Op) (deductionId : Uuid) : Prop :=
  ∀ key, match (run (step J) new before).get key with
    | none => ((run (step J) new before).evictCacheByDeduction deductionId).2.get key = none
    | some e => ∃ x ∈ visits (step J) new before, ∃ call, Left J x call key e ∧
      ((run (step J) new before).evictCacheByDeduction deductionId).2.get key =
        if call.deductionId = some deductionId then none else some e

/-- A call outside any deduction whose input, once trimmed, is a deduction id, U+001F and a
request that is cached for that deduction. -/
def Forged (c : EvaluateCache) (call : EvaluateCall) : Prop :=
  call.deductionId = none ∧ ∃ (d : Uuid) (request : String),
    trimmed call.input = d.toText ++ "\x1f" ++ request ∧
      (c.get (d.toText ++ "\x1f" ++ request)).isSome = true

theorem mem_of_mem_trim {s : Text} {ch : Char} (h : ch ∈ Text.trim s) : ch ∈ s := by
  have h := List.mem_reverse.mp h
  have h := List.mem_reverse.mp ((List.dropWhile_sublist _).mem h)
  exact (List.dropWhile_sublist _).mem h

/-- A deduction id is written without U+001F. -/
theorem separator_notMem_toText (u : Uuid) : Char.ofNat 0x1F ∉ u.toText.toList := by
  intro h
  rcases Uuid.mem_toText h with h | ⟨d, hd, h⟩
  · exact absurd h (by decide)
  · have hhex : ∀ d < 16, Char.ofNat 0x1F ≠ Uuid.hexChar d := by decide
    exact hhex d hd h

theorem toList_deduction (d : Uuid) (request : String) :
    (d.toText ++ "\x1f" ++ request).toList =
      d.toText.toList ++ Char.ofNat 0x1F :: request.toList := by
  simp only [String.toList_append, List.append_assoc]
  rfl

/-- The id and the request can be read off a key made in a deduction. -/
theorem deduction_key_inj {d d' : Uuid} {r r' : String}
    (h : d.toText ++ "\x1f" ++ r = d'.toText ++ "\x1f" ++ r') : d = d' ∧ r = r' := by
  have h := congrArg String.toList h
  rw [toList_deduction, toList_deduction] at h
  obtain ⟨hd, hr⟩ := Text.append_cons_inj (separator_notMem_toText d) (separator_notMem_toText d') h
  exact ⟨Uuid.toText_injective (String.toList_inj.mp hd), String.toList_inj.mp hr⟩

/-- An input that parses is not taken for a key made in a deduction. -/
theorem trimmed_ne_deduction {J : JsonParser} {input : String} {v : Json}
    (h : J.fromStr input = .ok v) (d : Uuid) (request : String) :
    trimmed input ≠ d.toText ++ "\x1f" ++ request := by
  intro he
  have hmem : Char.ofNat 0x1F ∈ (trimmed input).toList := by
    rw [he, toList_deduction]
    simp
  rw [trimmed, String.toList_ofList] at hmem
  exact J.unescaped input v h (mem_of_mem_trim hmem)

theorem key_of_none {call : EvaluateCall} (h : call.deductionId = none) :
    call.key = trimmed call.input := by
  unfold EvaluateCall.key
  rw [h]
  rfl

/-- Two calls that use one key, of which the first has been stored: they agree in context and
trimmed input, or the second is outside any deduction and names a key of the first's. -/
theorem key_eq {J : JsonParser} {stored call : EvaluateCall} {v : Json}
    (hparse : J.fromStr stored.input = .ok v) (h : stored.key = call.key) :
    (stored.deductionId = call.deductionId ∧ trimmed stored.input = trimmed call.input) ∨
    (call.deductionId = none ∧ ∃ d, stored.deductionId = some d ∧
      trimmed call.input = d.toText ++ "\x1f" ++ trimmed stored.input) := by
  unfold EvaluateCall.key cacheKey at h
  cases hs : stored.deductionId with
  | none =>
    cases hc : call.deductionId with
    | none =>
      rw [hs, hc] at h
      exact .inl ⟨rfl, h⟩
    | some d =>
      rw [hs, hc] at h
      exact absurd h (trimmed_ne_deduction hparse d _)
  | some d' =>
    cases hc : call.deductionId with
    | none =>
      rw [hs, hc] at h
      exact .inr ⟨rfl, d', rfl, h.symm⟩
    | some d =>
      rw [hs, hc] at h
      obtain ⟨rfl, hr⟩ := deduction_key_inj h
      exact .inl ⟨rfl, hr⟩

/-- Everything one call or eviction can do to the entries. -/
theorem step_get (J : JsonParser) (c : EvaluateCache) (op : Op) (key : String) (e : CacheEntry)
    (h : (c.step J op).get key = some e) :
    c.get key = some e ∨ ∃ call, Left J (c, op) call key e := by
  cases op with
  | evaluate call =>
    unfold step evaluateJsonString at h
    cases hget : c.get call.key with
    | some e' =>
      simp only [hget] at h
      exact .inl h
    | none =>
      cases hparse : J.fromStr call.input with
      | error text =>
        simp only [hget, hparse] at h
        exact .inl h
      | ok v =>
        simp only [hget, hparse, get_insert] at h
        by_cases hkey : call.key = key
        · rw [if_pos hkey] at h
          cases h
          exact .inr ⟨call, rfl, hkey ▸ hget, hkey, v, hparse, rfl⟩
        · rw [if_neg hkey] at h
          exact .inl h
  | evictOlderThan cutoffMs =>
    have h : (c.retain _).get key = some e := h
    rw [get_retain] at h
    exact .inl (Option.filter_eq_some_iff.mp h).1
  | evictByDeduction deductionId =>
    have h : (c.retain _).get key = some e := h
    rw [get_retain] at h
    exact .inl (Option.filter_eq_some_iff.mp h).1
  | clear => cases h

/-- Every entry has been left by a call of the history. -/
theorem left_of_get (J : JsonParser) (ops : List Op) (key : String) (e : CacheEntry)
    (h : (run (step J) new ops).get key = some e) :
    ∃ x ∈ visits (step J) new ops, ∃ call, Left J x call key e := by
  induction ops using List.reverseRecOn with
  | nil => cases h
  | append_singleton ops op ih =>
    rw [run_append] at h
    rw [visits_append]
    rcases step_get J _ op key e h with hold | ⟨call, hleft⟩
    · obtain ⟨x, hx, hl⟩ := ih hold
      exact ⟨x, List.mem_append_left _ hx, hl⟩
    · exact ⟨_, List.mem_append_right _ (List.mem_singleton_self _), call, hleft⟩

theorem evictsOwn (J : JsonParser) (before : List Op) (deductionId : Uuid) :
    EvictsOwn J before deductionId := by
  intro key
  have hevict := get_retain (run (step J) new before) (fun e => e.deductionId != some deductionId)
    key
  cases hget : (run (step J) new before).get key with
  | none =>
    rw [hget] at hevict
    exact hevict
  | some e =>
    obtain ⟨x, hx, call, hleft⟩ := left_of_get J before key e hget
    refine ⟨x, hx, call, hleft, hevict.trans ?_⟩
    obtain ⟨v, -, rfl⟩ := hleft.parsed
    rw [hget]
    by_cases hd : call.deductionId = some deductionId
    · simp [Option.filter, EvaluateCall.entry, hd]
    · simp [Option.filter, EvaluateCall.entry, hd]

/-- A call is isolated exactly when its input is not forged. -/
theorem isolated_iff (J : JsonParser) (before : List Op) (call : EvaluateCall) :
    Isolated J before call ↔ ¬ (run (step J) new before).Forged call := by
  constructor
  · rintro h ⟨hnone, d, request, htrim, hcached⟩
    have hkey : call.key = d.toText ++ "\x1f" ++ request := (key_of_none hnone).trans htrim
    obtain ⟨e, he⟩ := Option.isSome_iff_exists.mp hcached
    obtain ⟨x, -, call', hleft, -, hsame⟩ := h e (hkey ▸ he)
    obtain ⟨v, hparse, -⟩ := hleft.parsed
    exact trimmed_ne_deduction hparse d request (hsame.trans htrim)
  · intro h e he
    obtain ⟨x, hx, call', hleft⟩ := left_of_get J before call.key e he
    obtain ⟨v, hparse, -⟩ := hleft.parsed
    rcases key_eq hparse hleft.keyed with ⟨hctx, hsame⟩ | ⟨hnone, d, hd, htrim⟩
    · exact ⟨x, hx, call', hleft, hctx, hsame⟩
    · refine absurd ⟨hnone, d, trimmed call'.input, htrim, ?_⟩ h
      rw [← htrim, ← key_of_none hnone, he]
      rfl

/-- Along every history, each call is answered from the cache only with what its own context
left for the same input and each eviction takes the entries of its deduction, exactly when no
call outside a deduction spells out the key of an entry that a deduction has cached. -/
theorem cache_isolated_iff (J : JsonParser) (ops : List Op) :
    ((∀ u call w, ops = u ++ .evaluate call :: w → Isolated J u call) ∧
      ∀ u d w, ops = u ++ .evictByDeduction d :: w → EvictsOwn J u d) ↔
    ∀ u call w, ops = u ++ .evaluate call :: w → ¬ (run (step J) new u).Forged call := by
  constructor
  · intro h u call w hops
    exact (isolated_iff J u call).mp (h.1 u call w hops)
  · intro h
    exact ⟨fun u call w hops => (isolated_iff J u call).mpr (h u call w hops),
      fun u d _ _ => evictsOwn J u d⟩

/-- A parser of one text. -/
def testFromStr (s : String) : Except String Json :=
  if s = "null" then .ok .null else .error "expected value at line 1 column 1"

theorem testFromStr_unescaped (s : String) (v : Json) (h : testFromStr s = .ok v) :
    Char.ofNat 0x1F ∉ s.toList := by
  unfold testFromStr at h
  by_cases hs : s = "null"
  · subst hs
    decide
  · rw [if_neg hs] at h
    cases h

def testParser : JsonParser := ⟨testFromStr, testFromStr_unescaped⟩

def testRequest (deductionId : Option Uuid) (input : String) : EvaluateCall :=
  ⟨deductionId, input, ⟨fun _ => "\"tool\"", fun _ => "\"evaluated\""⟩, 0, none⟩

/-- A request in one deduction. -/
def testHistory : List Op := [.evaluate (testRequest (some ⟨0⟩) "null")]

/-- A text that is no JSON, and the key of that request. -/
def testForged : EvaluateCall :=
  testRequest none "00000000-0000-0000-0000-000000000000\x1fnull"

theorem testForged_is_answered :
    ((run (step testParser) new testHistory).evaluateJsonString testParser testForged).1 =
      "\"evaluated\"" ∧ ¬ Isolated testParser testHistory testForged := by
  refine ⟨by decide +kernel, fun h => ?_⟩
  refine (isolated_iff testParser testHistory testForged).mp h
    ⟨rfl, ⟨0⟩, "null", by decide +kernel, by decide +kernel⟩

end EvaluateCache
end Cerebellum
