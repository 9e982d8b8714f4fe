import Cerebellum.ClipsFields
import Cerebellum.Coire
import Cerebellum.JsonCodec

/-! What `ClipsEnvironment::consume_coire_events` of clara-clips/src/backend/ffi/environment.rs
has CLIPS evaluate for an event of its mailbox. The data of an event is escaped before it is put
between double quotes, its other strings are not. -/
namespace Cerebellum
open Clips

namespace Clips

/-- A slot of a template fact: the characters between its quotes, and the value meant. -/
structure EventSlot where
  name : Text
  written : Text
  value : Text

namespace EventSlot

/-- A value put between quotes as it is. -/
def bare (name : String) (value : Text) : EventSlot := ⟨name.toList, value, value⟩

def escaped (name : String) (value : Text) : EventSlot :=
  ⟨name.toList, Transpile.escape '"' value, value⟩

def text (s : EventSlot) : Text := " (".toList ++ (s.name ++ (" \"".toList ++ (s.written ++ "\")".toList)))

def tokens (s : EventSlot) : List Token := [.lparen, .symbol s.name, .string s.value, .rparen]

/-- The string closes where it is meant to, whatever follows. -/
def Reads (s : EventSlot) : Prop := ∀ u, scanString (s.written ++ '"' :: u) = some (s.value, u)

end EventSlot

theorem replicate_slash (k : Nat) (g : Text) :
    List.replicate k '\\' ++ '\\' :: g = '\\' :: (List.replicate k '\\' ++ g) := by
  rw [← List.cons_append, ← List.replicate_succ, List.replicate_succ', List.append_assoc,
    List.singleton_append]

/-- A text between quotes is read back only when it has nothing that CLIPS escapes. Each
escaped backslash in front leaves one more to be read, which never comes. -/
theorem scanString_back (g : Text) {k : Nat} {rest u : Text}
    (h : scanString (g ++ '"' :: rest) = some (List.replicate k '\\' ++ g, u)) :
    k = 0 ∧ '"' ∉ g ∧ '\\' ∉ g := by
  induction hn : g.length using Nat.strong_induction_on generalizing g k u with
  | _ n ih =>
  cases g with
  | nil =>
    rw [List.nil_append, scanString_quote, List.append_nil] at h
    cases k with
    | zero => simp
    | succ k => simp [List.replicate_succ] at h
  | cons c g =>
    simp only [List.length_cons] at hn
    by_cases hquote : c = '"'
    · subst hquote
      rw [List.cons_append, scanString_quote] at h
      simp at h
    by_cases hslash : c = '\\'
    · subst hslash
      rw [replicate_slash] at h
      cases g with
      | nil =>
        -- the escape takes the closing quote
        rw [List.singleton_append, scanString_escaped] at h
        obtain ⟨p, -, hp⟩ := Option.map_eq_some_iff.mp h
        simp at hp
      | cons d g =>
        rw [List.cons_append, List.cons_append, scanString_escaped] at h
        obtain ⟨p, hscan, hp⟩ := Option.map_eq_some_iff.mp h
        simp only [Prod.mk.injEq, List.cons.injEq] at hp
        obtain ⟨⟨rfl, hp⟩, -⟩ := hp
        have hmore : p.1 = List.replicate (k + 1) '\\' ++ g := by
          rw [hp, replicate_slash, List.replicate_succ, List.cons_append]
        simp only [List.length_cons] at hn
        have hback := ih g.length (by omega) g (k := k + 1) (u := p.2)
          (by rw [hscan, ← hmore]) rfl
        exact absurd hback.1 (Nat.succ_ne_zero k)
    · rw [List.cons_append, scanString_char hquote hslash] at h
      obtain ⟨p, hscan, hp⟩ := Option.map_eq_some_iff.mp h
      cases k with
      | succ k =>
        simp only [List.replicate_succ, List.cons_append, Prod.mk.injEq, List.cons.injEq] at hp
        exact absurd hp.1.1 hslash
      | zero =>
        simp only [List.replicate_zero, List.nil_append, Prod.mk.injEq, List.cons.injEq,
          true_and] at hp
        have hback := ih g.length (by omega) g (k := 0) (u := p.2) (by rw [hscan, ← hp.1]; rfl) rfl
        refine ⟨rfl, ?_, ?_⟩
        · simp [Ne.symm hquote, hback.2.1]
        · simp [Ne.symm hslash, hback.2.2]

namespace EventSlot

theorem scanString_bare {v : Text} (hquote : '"' ∉ v) (hslash : '\\' ∉ v) (u : Text) :
    scanString (v ++ '"' :: u) = some (v, u) := by
  induction v with
  | nil => exact scanString_quote u
  | cons c v ih =>
    simp only [List.mem_cons, not_or] at hquote hslash
    rw [List.cons_append, scanString_char (Ne.symm hquote.1) (Ne.symm hslash.1),
      ih hquote.2 hslash.2]
    rfl

theorem scanString_of_getToken {r v u : Text} (h : getToken ('"' :: r) = some (.string v, u)) :
    ∃ w, scanString r = some (v, w) := by
  cases hscan : scanString r with
  | none =>
    have hblank : skipBlank false ('"' :: r) = '"' :: r := rfl
    rw [getToken.eq_def, hblank] at h
    simp [hscan] at h
  | some p =>
    rw [getToken_quote hscan] at h
    exact ⟨p.2, by cases h; rfl⟩

/-- Once a value is read from between its quotes somewhere, it is read everywhere. -/
def Settles (s : EventSlot) : Prop :=
  ∀ {r u : Text}, scanString (s.written ++ '"' :: r) = some (s.value, u) → s.Reads

theorem bare_reads (name : String) (v : Text) :
    (bare name v).Reads ↔ '"' ∉ v ∧ '\\' ∉ v :=
  ⟨fun h => (scanString_back v (k := 0) (h [])).2, fun h => scanString_bare h.1 h.2⟩

theorem bare_settles (name : String) (v : Text) : (bare name v).Settles := fun h =>
  (bare_reads name v).mpr (scanString_back v (k := 0) h).2

theorem escaped_reads (name : String) (v : Text) : (escaped name v).Reads := by
  intro u
  simpa [escaped] using Transpile.scanString_escape v u

/-- Up to the value, a slot is read as it stands. -/
theorem scan_text {s : EventSlot} (hname : IsField s.name (.symbol s.name)) (u : Text) :
    scan (s.text ++ u) = .lparen :: .symbol s.name ::
      scan ('"' :: (s.written ++ '"' :: ')' :: u)) := by
  have htext : s.text ++ u =
      ' ' :: '(' :: (s.name ++ ' ' :: '"' :: (s.written ++ '"' :: ')' :: u)) := by
    simp [text]
  rw [htext, scan_space, scan_lparen, hname _ _ (.inl rfl), scan_space]

/-- A slot is read as it is meant exactly when its value is, and then so is what follows. -/
theorem scan_text_iff {s : EventSlot} (hname : IsField s.name (.symbol s.name)) (hsettles : s.Settles)
    (u : Text) (ts : List Token) : scan (s.text ++ u) = s.tokens ++ ts ↔ s.Reads ∧ scan u = ts := by
  rw [scan_text hname]
  constructor
  · intro h
    have hvalue : scan ('"' :: (s.written ++ '"' :: ')' :: u)) =
        .string s.value :: .rparen :: ts := by simpa [tokens] using h
    obtain ⟨v, hget⟩ := getToken_of_scan hvalue
    obtain ⟨v, hscan⟩ := scanString_of_getToken hget
    have hreads := hsettles hscan
    refine ⟨hreads, ?_⟩
    rw [scan_of_getToken (getToken_quote (hreads _)), scan_rparen] at hvalue
    simpa using hvalue
  · rintro ⟨hreads, rfl⟩
    rw [scan_of_getToken (getToken_quote (hreads _)), scan_rparen]
    rfl

theorem scan_texts_iff (slots : List EventSlot) (hname : ∀ s ∈ slots, IsField s.name (.symbol s.name))
    (hsettles : ∀ s ∈ slots, s.Settles) (u : Text) (ts : List Token) :
    scan (slots.flatMap text ++ u) = slots.flatMap tokens ++ ts ↔
      (∀ s ∈ slots, s.Reads) ∧ scan u = ts := by
  induction slots with
  | nil => simp
  | cons s slots ih =>
    have hfirst := scan_text_iff (hname s (by simp)) (hsettles s (by simp))
      (slots.flatMap text ++ u) (slots.flatMap tokens ++ ts)
    have hrest := ih (fun r hr => hname r (List.mem_cons_of_mem _ hr))
      (fun r hr => hsettles r (List.mem_cons_of_mem _ hr))
    rw [List.flatMap_cons, List.flatMap_cons, List.append_assoc, List.append_assoc, hfirst, hrest,
      List.forall_mem_cons, and_assoc]

end EventSlot

end Clips

namespace ClaraEvent
variable (e : ClaraEvent)

def evType : String := (e.payload.strField "type").getD ""

/-- The data string; the whole payload when there is no data. -/
def dataStr : Text :=
  match e.payload.get "data" with
  | some v => (v.asStr.getD "").toList
  | none => e.payload.text

def routingField (key : String) : String :=
  ((e.payload.get "_routing").bind fun r => r.strField key).getD ""

def slots : List EventSlot :=
  [.bare "event-id" e.eventId.toText.toList, .bare "origin" e.origin.toList,
    .bare "ev-type" e.evType.toList, .escaped "data" e.dataStr,
    .bare "topic" (e.routingField "topic_path").toList,
    .bare "correlation" (e.routingField "correlation_id").toList,
    .bare "source-node" (e.routingField "source_node_id").toList]

/-- What is evaluated for the event. -/
def evaluated : Text :=
  let data := ((e.payload.strField "data").getD "").toList
  if e.evType = "assert" then "(assert ".toList ++ (data ++ ")".toList)
  else if e.evType = "goal" then data
  else "(assert (coire-event".toList ++ (e.slots.flatMap EventSlot.text ++ "))".toList)

/-- `CString::new`: a text with a zero character does not reach CLIPS. -/
def cString (t : Text) : Option Text := if Char.ofNat 0 ∈ t then none else some t

/-- One form that asserts one fact, with the values of the event in its slots. -/
def factTokens : List Token :=
  [.lparen, .symbol "assert".toList, .lparen, .symbol "coire-event".toList] ++
    (e.slots.flatMap EventSlot.tokens ++ [.rparen, .rparen])

/-- CLIPS reads the text as that form and nothing else. -/
def BecomesFact : Prop := (cString e.evaluated).map scan = some e.factTokens

/-- The strings that are spliced in as they are. -/
def spliced : List Text :=
  [e.origin.toList, e.evType.toList, (e.routingField "topic_path").toList,
    (e.routingField "correlation_id").toList, (e.routingField "source_node_id").toList]

/-- The spliced strings have nothing to escape, and no string has a zero character. -/
def Contained : Prop :=
  (∀ t ∈ e.spliced, '"' ∉ t ∧ '\\' ∉ t ∧ Char.ofNat 0 ∉ t) ∧
    ∀ d ∈ e.payload.strField "data", Char.ofNat 0 ∉ d.toList

variable {e}

theorem uuid_plain (u : Uuid) {c : Char} (hc : c = '"' ∨ c = '\\' ∨ c = Char.ofNat 0) :
    c ∉ u.toText.toList := by
  intro h
  rcases Uuid.mem_toText h with rfl | ⟨d, hd, rfl⟩
  · exact absurd hc (by decide)
  · have hhex : ∀ d < 16, ¬ (Uuid.hexChar d = '"' ∨ Uuid.hexChar d = '\\' ∨
        Uuid.hexChar d = Char.ofNat 0) := by decide
    exact hhex d hd hc

def slotNames : List String :=
  ["event-id", "origin", "ev-type", "data", "topic", "correlation", "source-node"]

theorem slots_name {s : EventSlot} (hs : s ∈ e.slots) : ∃ n ∈ slotNames, s.name = n.toList := by
  simp only [slots, List.mem_cons, List.not_mem_nil, or_false] at hs
  rcases hs with rfl | rfl | rfl | rfl | rfl | rfl | rfl <;>
    exact ⟨_, by simp [slotNames], rfl⟩

theorem slots_field : ∀ s ∈ e.slots, IsField s.name (.symbol s.name) := by
  have hnames : ∀ n ∈ slotNames, isSymbol n.toList := by decide
  intro s hs
  obtain ⟨n, hn, hname⟩ := slots_name hs
  rw [hname]
  exact isField_symbol (hnames n hn)

theorem slots_settle : ∀ s ∈ e.slots, s.Settles := by
  intro s hs
  simp only [slots, List.mem_cons, List.not_mem_nil, or_false] at hs
  rcases hs with rfl | rfl | rfl | rfl | rfl | rfl | rfl
  case inr.inr.inr.inl => exact fun _ => EventSlot.escaped_reads _ _
  all_goals exact EventSlot.bare_settles _ _

theorem slots_reads :
    (∀ s ∈ e.slots, s.Reads) ↔ ∀ t ∈ e.spliced, '"' ∉ t ∧ '\\' ∉ t := by
  have hid : '"' ∉ e.eventId.toText.toList ∧ '\\' ∉ e.eventId.toText.toList :=
    ⟨uuid_plain _ (.inl rfl), uuid_plain _ (.inr (.inl rfl))⟩
  simp only [slots, spliced, List.forall_mem_cons, EventSlot.bare_reads, EventSlot.escaped_reads, hid,
    List.not_mem_nil, false_imp_iff, implies_true, and_true, true_and, not_false_eq_true, and_self]

theorem nul_dataStr :
    Char.ofNat 0 ∉ e.dataStr ↔ ∀ d ∈ e.payload.strField "data", Char.ofNat 0 ∉ d.toList := by
  unfold dataStr Json.strField
  cases e.payload.get "data" with
  | none => simp [Json.nul_text]
  | some v =>
    cases hv : v.asStr with
    | none => simp [hv]
    | some d => simp [hv]

theorem nul_escape (v : Text) : Char.ofNat 0 ∈ Transpile.escape '"' v ↔ Char.ofNat 0 ∈ v := by
  simp only [Transpile.escape, List.mem_flatMap]
  constructor
  · rintro ⟨c, hc, h⟩
    split at h
    · obtain rfl : Char.ofNat 0 = c := by simpa using h
      exact hc
    · obtain rfl : Char.ofNat 0 = c := by simpa using h
      exact hc
  · intro h
    exact ⟨_, h, by decide⟩

theorem nul_slots : Char.ofNat 0 ∉ e.slots.flatMap EventSlot.text ↔
    (∀ t ∈ e.spliced, Char.ofNat 0 ∉ t) ∧ Char.ofNat 0 ∉ e.dataStr := by
  have hid := uuid_plain e.eventId (.inr (.inr rfl))
  have hnames : ∀ n ∈ slotNames, Char.ofNat 0 ∉ n.toList := by decide
  have htext : ∀ s ∈ e.slots, Char.ofNat 0 ∉ s.text ↔ Char.ofNat 0 ∉ s.written := by
    intro s hs
    obtain ⟨n, hn, hname⟩ := slots_name hs
    simp [EventSlot.text, hname, hnames n hn]
  have hslots : (∀ s ∈ e.slots, Char.ofNat 0 ∉ s.written) ↔
      (∀ t ∈ e.spliced, Char.ofNat 0 ∉ t) ∧ Char.ofNat 0 ∉ e.dataStr := by
    simp only [slots, spliced, List.forall_mem_cons, EventSlot.bare, EventSlot.escaped, nul_escape, hid,
      List.not_mem_nil, false_imp_iff, implies_true, and_true, not_false_eq_true, true_and]
    tauto
  rw [← hslots, List.mem_flatMap]
  simp only [not_exists, not_and]
  exact forall₂_congr htext

/-- The form up to its slots. -/
theorem scan_form (u : Text) : scan ("(assert (coire-event".toList ++ (' ' :: u)) =
    [.lparen, .symbol "assert".toList, .lparen, .symbol "coire-event".toList] ++ scan u := by
  have hassert := isField_symbol (s := "assert".toList) (by decide)
  have hevent := isField_symbol (s := "coire-event".toList) (by decide)
  have hsplit : "(assert (coire-event".toList =
      '(' :: ("assert".toList ++ ' ' :: '(' :: "coire-event".toList) := by decide +kernel
  rw [hsplit, List.cons_append, List.append_assoc, scan_lparen, List.cons_append,
    hassert _ _ (.inl rfl), scan_space, List.cons_append, scan_lparen, hevent _ _ (.inl rfl),
    scan_space]
  rfl

/-- An answer of a peer, with quotes and a backslash in its body. -/
def answer (origin : String) : ClaraEvent where
  eventId := ⟨7⟩
  sessionId := ⟨1⟩
  origin := origin
  createdAtMs := 0
  payload := .obj [("type", .str "hohi"), ("text", .str "say \"a\\b\""),
    ("_routing", .obj [("topic_path", .str "consults/e1")])]
  status := .pending

example : (answer "ritual/hohi").evaluated = ("(assert (coire-event" ++
    " (event-id \"00000000-0000-0000-0000-000000000007\") (origin \"ritual/hohi\")" ++
    " (ev-type \"hohi\") (data \"\x7b\\\"type\\\":\\\"hohi\\\",\\\"text\\\":\\\"say \\\\\\\"a" ++
    "\\\\\\\\b\\\\\\\"\\\",\\\"_routing\\\":\x7b\\\"topic_path\\\":\\\"consults/e1\\\"\x7d\x7d\")" ++
    " (topic \"consults/e1\") (correlation \"\") (source-node \"\")))").toList := by
  decide +kernel

end ClaraEvent
end Cerebellum
