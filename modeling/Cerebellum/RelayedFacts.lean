import Cerebellum.ReadAhead
import Cerebellum.SessionTableau

/-! The row of a fact: the key it is seeded under, and the key under which a relayed event with
the same text looks for it. -/
namespace Cerebellum
open Transpile

/-! ### The texts of a fact -/

section Texts
variable {φ : Type} {F : FloatText φ}

theorem skipWs_asBytes {s : Text} (h : ∀ c ∈ s.head?, Text.isWhitespace c = false) :
    skipWs (Text.asBytes s) = Text.asBytes s := by
  cases s with
  | nil => rfl
  | cons c s =>
    obtain ⟨b, u, hbu, hascii, hother⟩ := Text.asBytes_head c s
    rw [hbu]
    refine skipWs_cons ?_ u
    by_contra hspace
    have hb : Text.isAsciiWhitespace b := by simpa using hspace
    by_cases hc : c.toNat < 128
    · have hwhite := space_of_ascii hb
      rw [hascii hc, h c rfl] at hwhite
      cases hwhite
    · have hsmall : b.toNat < 128 := by
        simp only [Text.isAsciiWhitespace, Bool.or_eq_true, beq_iff_eq] at hb
        rcases hb with (((rfl | rfl) | rfl) | rfl) | rfl <;> decide
      exact hother hc hsmall

/-- The parser takes the whole text for the term. -/
def ReadsWhole (F : FloatText φ) (s : Text) (t : Transpile.Term φ) : Prop :=
  ruleTerm F (Text.asBytes s) = .ok t []

theorem parse_of_whole {s : Text} {t : Transpile.Term φ} (htrim : Text.trim s = s)
    (h : ReadsWhole F s t) : parsePrologTerm F s = .ok t :=
  parsePrologTerm_eq_ok.mpr ⟨[], by rw [htrim]; exact h⟩

/-- A fact is read from the source as the event parser reads it from its own text. -/
theorem parsePrologRules_fact {s : Text} {t : Transpile.Term φ} (htrim : Text.trim s = s)
    (h : ReadsWhole F s t) (hc : isCallable t) :
    parsePrologRules F (s ++ ['.']) = [⟨t, []⟩] := by
  have hbytes : Text.asBytes (s ++ ['.']) = Text.asBytes s ++ ['.'] := by
    rw [Text.asBytes_append]
    rfl
  have hclause := parseClause_fact (skipWs_asBytes (htrim ▸ Text.trim_head s)) h hc []
  rw [parsePrologRules, hbytes, rulesLoop, hclause]
  change _ :: rulesLoop F _ [] = _
  rw [rulesLoop_nil]

end Texts

/-! ### Rows of events -/

section Keys
variable {φ : Type} {F : FloatText φ} {m : Mint} {sid : Uuid}

/-- What names the row that an event about the term is recorded in. -/
def eventKey (F : FloatText φ) (t : Transpile.Term φ) : String × List String :=
  (String.ofList (termFunctor F t), (extractGroundArgs F t).map String.ofList)

theorem argsPattern_ground {args : List (Transpile.Term φ)} (h : termsAreGround args)
    (vars : List Text) : argsPattern F args vars = (args.map (renderPrologTerm F), vars) := by
  induction args with
  | nil => rfl
  | cons arg args ih =>
    simp only [termsAreGround, Bool.and_eq_true] at h
    cases arg with
    | var x => simp [termIsGround] at h
    | _ => simp [argsPattern, ih h.2]

/-- Without variables there are no stars in the pattern. -/
theorem rowKey_ground {t : Transpile.Term φ} (h : termIsGround t) : rowKey F t = eventKey F t := by
  cases t with
  | compound functor args =>
    have hargs : termsAreGround args := by simpa [termIsGround] using h
    rw [rowKey, termArgsPattern, argsPattern_ground hargs, eventKey, extractGroundArgs]
  | _ => rfl

theorem getEntry_updateTruth (s : LiveTableau) (functor : String) (args : List String)
    (truth : TruthValue) (bindings : List Binding) (k : String × List String) :
    (s.updateTruth m sid functor args truth bindings).tableau.getEntry sid k.1 k.2 =
      if k = (functor, args) then
        some (((s.tableau.getEntry sid k.1 k.2).map fun e => e.withTruth
          (Dagda.minimalEntry (m.uuid s.minted) (m.clock s.minted) sid functor args truth
            bindings)).getD
          (Dagda.minimalEntry (m.uuid s.minted) (m.clock s.minted) sid functor args truth bindings))
      else s.tableau.getEntry sid k.1 k.2 := by
  simp only [Dagda.getEntry_eq_find]
  have hkey : (sid, k.1, k.2) = (sid, functor, args) ↔ k = (functor, args) := by
    simp [Prod.ext_iff]
  have hmerge : ∀ a b : PredicateEntry, a.key = b.key → (a.withTruth b).key = a.key :=
    fun a b _ => PredicateEntry.withTruth_key a b
  have hfind := Keyed.find_upsert hmerge s.tableau.rows
    (Dagda.minimalEntry (m.uuid s.minted) (m.clock s.minted) sid functor args truth bindings)
    (sid, k.1, k.2)
  refine hfind.trans ?_
  exact if_congr hkey rfl rfl

section Keeps
variable {β : Type} {f : PredicateEntry → β} {b : β} {k : String × List String}

/-- What an update leaves of a row as it is. -/
theorem updateTruth_keeps (hf : ∀ e e' : PredicateEntry, f (e.withTruth e') = f e)
    {s : LiveTableau} (h : ∃ e, s.tableau.getEntry sid k.1 k.2 = some e ∧ f e = b)
    (functor : String) (args : List String) (truth : TruthValue) (bindings : List Binding) :
    ∃ e, (s.updateTruth m sid functor args truth bindings).tableau.getEntry sid k.1 k.2 = some e ∧
      f e = b := by
  obtain ⟨e, he, hb⟩ := h
  rw [getEntry_updateTruth, he]
  split
  · exact ⟨_, rfl, (hf e _).trans hb⟩
  · exact ⟨e, rfl, hb⟩

theorem updates_keeps (hf : ∀ e e' : PredicateEntry, f (e.withTruth e') = f e)
    {s s' : LiveTableau} (hupdates : Relation.ReflTransGen (Updates m sid) s s')
    (h : ∃ e, s.tableau.getEntry sid k.1 k.2 = some e ∧ f e = b) :
    ∃ e, s'.tableau.getEntry sid k.1 k.2 = some e ∧ f e = b := by
  induction hupdates with
  | refl => exact h
  | tail _ hstep ih =>
    obtain ⟨functor, args, truth, bindings, rfl⟩ := hstep
    exact updateTruth_keeps hf ih functor args truth bindings

end Keeps

/-- The session has a row under this key, and it was built with this id. -/
def HasRow (sid : Uuid) (k : String × List String) (id : Uuid) (t : Dagda) : Prop :=
  ∃ e, t.getEntry sid k.1 k.2 = some e ∧ e.entryId = id

theorem updateTruth_hasRow {s : LiveTableau} {k : String × List String} {id : Uuid}
    (h : HasRow sid k id s.tableau) (functor : String) (args : List String) (truth : TruthValue)
    (bindings : List Binding) :
    HasRow sid k id (s.updateTruth m sid functor args truth bindings).tableau :=
  updateTruth_keeps (fun _ _ => rfl) h functor args truth bindings

/-- A row keeps its id whatever is updated. -/
theorem updates_hasRow {s s' : LiveTableau} (hupdates : Relation.ReflTransGen (Updates m sid) s s')
    {k : String × List String} {id : Uuid} (h : HasRow sid k id s.tableau) :
    HasRow sid k id s'.tableau :=
  updates_keeps (fun _ _ => rfl) hupdates h

/-- No row is added for a key that has one. -/
theorem updateTruth_keys {s : LiveTableau} {functor : String} {args : List String} {e : PredicateEntry}
    (h : s.tableau.getEntry sid functor args = some e) (truth : TruthValue)
    (bindings : List Binding) :
    (s.updateTruth m sid functor args truth bindings).tableau.rows.map PredicateEntry.key =
      s.tableau.rows.map PredicateEntry.key := by
  rw [Dagda.getEntry_eq_find] at h
  obtain ⟨hrow, hkey⟩ := Keyed.mem_of_find h
  have hmem : (sid, functor, args) ∈ s.tableau.rows.map PredicateEntry.key :=
    hkey ▸ List.mem_map_of_mem hrow
  have hmerge : ∀ a b : PredicateEntry, a.key = b.key → (a.withTruth b).key = a.key :=
    fun a b _ => PredicateEntry.withTruth_key a b
  have hkeys := Keyed.keys_upsert hmerge s.tableau.rows
    (Dagda.minimalEntry (m.uuid s.minted) (m.clock s.minted) sid functor args truth bindings)
  exact hkeys.trans (if_pos hmem)

variable (m sid) in
theorem truth_updateTruth (s : LiveTableau) (functor : String) (args : List String)
    (truth : TruthValue) (bindings : List Binding) (k : String × List String) :
    ((s.updateTruth m sid functor args truth bindings).tableau.getEntry sid k.1 k.2).map
        PredicateEntry.truthValue =
      if k = (functor, args) then some truth
      else (s.tableau.getEntry sid k.1 k.2).map PredicateEntry.truthValue := by
  rw [getEntry_updateTruth]
  split
  · cases s.tableau.getEntry sid k.1 k.2 <;> rfl
  · rfl

/-- An event about a term that has a row changes the truth of the row, and adds none. -/
theorem recordTerm_of_row {s : LiveTableau} {t : Transpile.Term φ} {id : Uuid}
    (h : HasRow sid (eventKey F t) id s.tableau) (truth : TruthValue) :
    ((recordTerm F m sid truth t s).tableau.getEntry sid (eventKey F t).1 (eventKey F t).2).map
        PredicateEntry.truthValue = some truth ∧
      (recordTerm F m sid truth t s).tableau.rows.map PredicateEntry.key =
        s.tableau.rows.map PredicateEntry.key := by
  obtain ⟨e, he, -⟩ := h
  have hkeys := updateTruth_keys (m := m) he truth []
  have htruth := truth_updateTruth m sid s (eventKey F t).1 (eventKey F t).2 truth [] (eventKey F t)
  rw [if_pos rfl] at htruth
  unfold recordTerm
  dsimp only
  split
  · next seed hseed =>
    -- the row of the stars exists too
    refine ⟨?_, (updateTruth_keys hseed truth _).trans hkeys⟩
    rw [truth_updateTruth]
    split
    · rfl
    · exact htruth
  · exact ⟨htruth, hkeys⟩

end Keys

section Facts
variable {φ : Type}

/-- A ground fact is seeded in the row that events with its text go to: an assert or a retract of
it, at any later time, finds the row that the fact was seeded in and adds no other. -/
theorem fact_updated_in_place (F : FloatText φ) (m : Mint) (sid : Uuid) (s : LiveTableau)
    {text : Text} {t : Transpile.Term φ} (htrim : Text.trim text = text)
    (hread : ReadsWhole F text t) (hc : isCallable t) (hground : termIsGround t)
    (events : List Json) {payload : Json} {evType : String} {truth : TruthValue}
    (htype : payload.strField "type" = some evType) (htruth : eventTruth evType = some truth)
    (hdata : payload.strField "data" = some (String.ofList text)) :
    let seeded := seedTableauFromSource F m sid s (String.ofList (text ++ ['.']))
    let before := events.foldl (recordEventInTableau F m sid) seeded
    let after := recordEventInTableau F m sid before payload
    rowKey F t = eventKey F t ∧
      seeded.tableau.getEntry sid (rowKey F t).1 (rowKey F t).2 =
        some (factEntry F m sid s.minted t) ∧
      HasRow sid (eventKey F t) (m.uuid s.minted) after.tableau ∧
      (after.tableau.getEntry sid (eventKey F t).1 (eventKey F t).2).map
        PredicateEntry.truthValue = some truth ∧
      after.tableau.rows.map PredicateEntry.key =
        before.tableau.rows.map PredicateEntry.key := by
  intro seeded before after
  have hkey := rowKey_ground (F := F) hground
  have hseeded : seeded.tableau.getEntry sid (rowKey F t).1 (rowKey F t).2 =
      some (factEntry F m sid s.minted t) := by
    have hrules : parsePrologRules F (String.ofList (text ++ ['.'])).toList = [⟨t, []⟩] := by
      rw [String.toList_ofList]
      exact parsePrologRules_fact htrim hread hc
    simp only [seeded, seedTableauFromSource, hrules, seedEntries, ruleEntries, List.isEmpty_nil,
      if_true, List.append_nil, List.foldl_cons, List.foldl_nil, Dagda.getEntry_eq_find]
    exact (Keyed.find_overwrite _ _ _).trans (if_pos rfl)
  have hbefore : HasRow sid (eventKey F t) (m.uuid s.minted) before.tableau :=
    updates_hasRow (recordEvents_updates seeded events) ⟨_, hkey ▸ hseeded, rfl⟩
  have hafter : after = recordTerm F m sid truth t before := by
    simp only [after, recordEventInTableau, htype, hdata, htruth, String.toList_ofList,
      parse_of_whole htrim hread]
  refine ⟨hkey, hseeded, ?_, ?_⟩
  · exact updates_hasRow (recordEvent_updates before payload) hbefore
  · rw [hafter]
    exact recordTerm_of_row hbefore truth

theorem fact_retracted :
    let text := "p(a,'x y')".toList
    let seeded := seedTableauFromSource noFloats .counting ⟨0⟩ .new (String.ofList (text ++ ['.']))
    let payload : Json := .obj [("data", .str (String.ofList text)), ("type", .str "retract")]
    let key := eventKey noFloats (.compound ['p'] [.atom ['a'], .atom "x y".toList])
    ((recordEventInTableau noFloats .counting ⟨0⟩ seeded payload).tableau.getEntry ⟨0⟩ key.1
      key.2).map PredicateEntry.truthValue = some .knownFalse := by
  intro text seeded payload key
  have hread : ReadsWhole noFloats text (.compound ['p'] [.atom ['a'], .atom "x y".toList]) := by
    unfold ReadsWhole
    decide +kernel
  have htype : payload.strField "type" = some "retract" := rfl
  exact (fact_updated_in_place noFloats .counting ⟨0⟩ .new (by decide +kernel) hread rfl rfl []
    htype rfl rfl).2.2.2.1

end Facts

end Cerebellum
