import Cerebellum.CawsSpec
import Cerebellum.Lib.Transition

/-! Runs of one engine: caws calls interleaved with `ritual/` events that the controller
writes into its mailbox. The invariants tie the tables to what was written: every cached
payload came in with an event, every offer and every emitted message went out once. -/
namespace Cerebellum
open Transition

inductive EngineStep where
  | arrive (label : String) (payload : Json)
  | call (c : Call)

theorem World.mem_log {w : World} {sid : Uuid} {m : String × Json} :
    m ∈ w.log sid ↔ ∃ r ∈ w.rows, r.sessionId = sid ∧ (r.origin, r.payload) = m := by
  simp [World.log, and_assoc]

namespace Engine

/-- All that was ever written into the engine's mailbox. -/
def log (s : Engine) : List (String × Json) := s.world.log s.session

def step (ord : RowOrder) (s : Engine) : EngineStep → Engine
  | .arrive label payload =>
    { s with world := s.world.emit s.session ("ritual/" ++ label) payload }
  | .call c => s.call ord c

theorem emitCaws_log (s : Engine) (origin : String) (payload block : Dict) :
    (s.emitCaws origin payload block).log = s.log ++ [(origin, cawsJson payload block)] := by
  simp [log, emitCaws, World.emit_log]

theorem arrive_log (ord : RowOrder) (s : Engine) (label : String) (payload : Json) :
    (s.step ord (.arrive label payload)).log = s.log ++ [("ritual/" ++ label, payload)] := by
  simp [log, step, World.emit_log]

/-- The event one fresh offer leaves behind. -/
def offerEvent (e : OfferKey × Term) : String × Json :=
  ("evaluator/offering", cawsJson e.1.payload (offerBlock e.2 e.1.target e.1.topic))

def emitEvent (key : EmitKey) (cid : Term) : String × Json :=
  ("evaluator/emit", cawsJson key.payload (emitBlock cid key.target key.topic key.kind))

theorem offerDict_fresh {s : Engine} {key : OfferKey}
    (h : Table.find key s.caws.offerSent = none) :
    let cid := Term.atom (s.world.uuid s.world.tick).toText
    (s.offerDict key).1 = cid ∧ (s.offerDict key).2.session = s.session ∧
      (s.offerDict key).2.caws = { s.caws with offerSent := s.caws.offerSent ++ [(key, cid)] } ∧
      (s.offerDict key).2.log = s.log ++ [offerEvent (key, cid)] ∧
      (s.offerDict key).2.world.tick = s.world.tick + 2 ∧
      (s.offerDict key).2.world.uuid = s.world.uuid := by
  have hlog := emitCaws_log s.cawsUuid.2 "evaluator/offering" key.payload
    (offerBlock (.atom s.cawsUuid.1.toText) key.target key.topic)
  simp only [offerDict, h]
  refine ⟨rfl, rfl, rfl, hlog, ?_, ?_⟩
  · simp [emitCaws, cawsUuid]
  · simp [emitCaws, cawsUuid]

theorem emitCid_fresh {s : Engine} {cid : Term} (key : EmitKey) (h : cid ∉ s.caws.emitted) :
    (s.emitCid key cid).session = s.session ∧
      (s.emitCid key cid).caws = { s.caws with emitted := s.caws.emitted ++ [cid] } ∧
      (s.emitCid key cid).log = s.log ++ [emitEvent key cid] := by
  have hlog := emitCaws_log s "evaluator/emit" key.payload
    (emitBlock cid key.target key.topic key.kind)
  simp only [emitCid, h, if_false]
  exact ⟨rfl, rfl, hlog⟩

section Atomic
variable {ord : RowOrder} {s t : Engine}

theorem Act.session_eq (h : Act ord s t) : t.session = s.session := by
  cases h with
  | offer key hk => exact (offerDict_fresh hk).2.1
  | emitCid key cid hn _ => exact (emitCid_fresh key hn).1
  | _ => rfl

/-- An engine only ever adds `evaluator/` events of its own to the log. -/
theorem Act.log_append (h : Act ord s t) :
    ∃ ms, t.log = s.log ++ ms ∧ ∀ m ∈ ms, originLike "evaluator/" m.1 = true := by
  cases h with
  | drain => exact ⟨[], by simp [log], by simp⟩
  | mint => exact ⟨[], by simp [log, cawsUuid], by simp⟩
  | offer key hk => exact ⟨_, (offerDict_fresh hk).2.2.2.1, by simp [offerEvent]; decide⟩
  | emitCid key cid hn _ => exact ⟨_, (emitCid_fresh key hn).2.2, by simp [emitEvent]; decide⟩
  | squawk payload tags topic => exact ⟨_, emitCaws_log _ _ _ _, by simp; decide⟩
  | memo c hc => exact ⟨[], by simp [log], by simp⟩

/-- A cached payload stays cached, unchanged. -/
theorem Act.lookup_mono (h : Act ord s t) {slot : Slot} {cid : Term} {p : Dict}
    (hp : s.caws.lookup slot cid = some p) : t.caws.lookup slot cid = some p := by
  cases h with
  | drain => rw [drain_lookup, hp]; rfl
  | mint => exact hp
  | offer key hk => rw [(offerDict_fresh hk).2.2.1]; cases slot <;> exact hp
  | emitCid key c hn _ => rw [(emitCid_fresh key hn).2.1]; cases slot <;> exact hp
  | squawk payload tags topic => exact hp
  | memo c hc => rw [hc.lookup]; exact hp

/-- An action is a drain, or it adds pending events of the engine's own and leaves the
caches as they are. -/
theorem Act.rows_cases (h : Act ord s t) : t = s.drain ord ∨
    (∃ es, t.world.rows = s.world.rows ++ es ∧ ∀ e ∈ es, e.sessionId = s.session ∧
      e.status = .pending ∧ originLike "evaluator/" e.origin = true) ∧
    ∀ slot cid, t.caws.lookup slot cid = s.caws.lookup slot cid := by
  have hone : ∀ (u : Engine) (rest : String) (p b : Dict), u.session = s.session →
      u.world.rows = s.world.rows →
      ∃ es, (u.emitCaws ("evaluator/" ++ rest) p b).world.rows = s.world.rows ++ es ∧
        ∀ e ∈ es, e.sessionId = s.session ∧ e.status = .pending ∧
          originLike "evaluator/" e.origin = true := by
    intro u rest p b hs hr
    refine ⟨[u.world.newEvent u.session ("evaluator/" ++ rest) (cawsJson p b)], ?_, ?_⟩
    · rw [← hr]
      exact World.emit_rows ..
    · simp only [List.mem_singleton, forall_eq]
      exact ⟨hs, rfl, originLike_append _ _ (by decide)⟩
  cases h with
  | drain => exact .inl rfl
  | mint => exact .inr ⟨⟨[], by simp [cawsUuid], by simp⟩, fun _ _ => rfl⟩
  | offer key hk =>
    have hw : (s.offerDict key).2.world = (s.cawsUuid.2.emitCaws "evaluator/offering" key.payload
      (offerBlock (.atom s.cawsUuid.1.toText) key.target key.topic)).world := by
      simp [offerDict, hk]
    refine .inr ⟨?_, fun slot cid => ?_⟩
    · rw [hw]
      exact hone s.cawsUuid.2 "offering" _ _ rfl rfl
    · rw [(offerDict_fresh hk).2.2.1]
      cases slot <;> rfl
  | emitCid key cid hn _ =>
    have hw : (s.emitCid key cid).world = (s.emitCaws "evaluator/emit" key.payload
      (emitBlock cid key.target key.topic key.kind)).world := by
      simp [Engine.emitCid, hn]
    refine .inr ⟨?_, fun slot cid => ?_⟩
    · rw [hw]
      exact hone s "emit" _ _ rfl rfl
    · rw [(emitCid_fresh key hn).2.1]
      cases slot <;> rfl
  | squawk payload tags topic => exact .inr ⟨hone s "squawk" _ _ rfl rfl, fun _ _ => rfl⟩
  | memo c hc => exact .inr ⟨⟨[], by simp, by simp⟩, fun slot cid => hc.lookup slot cid⟩

/-- Every cached payload was carried by an event of the mailbox. -/
def Sound (s : Engine) : Prop := ∀ slot cid p, s.caws.lookup slot cid = some p →
  ∃ m ∈ s.log, carries slot cid m.1 m.2 = some p

theorem batch_mem_log {e : ClaraEvent} (h : e ∈ s.batch ord) : (e.origin, e.payload) ∈ s.log := by
  obtain ⟨r, hr, hsel, rfl⟩ := (World.mem_poll ord).mp h
  simp only [OriginFilter.selects, Bool.and_eq_true, beq_iff_eq] at hsel
  exact World.mem_log.mpr ⟨r, hr, hsel.1.1, rfl⟩

theorem drain_sound (ord : RowOrder) (hs : s.Sound) : (s.drain ord).Sound := by
  intro slot cid p hp
  have hlog : (s.drain ord).log = s.log := by simp [log]
  rw [hlog]
  rw [drain_lookup, Option.or_eq_some_iff] at hp
  rcases hp with hp | ⟨-, hp⟩
  · exact hs slot cid p hp
  · obtain ⟨e, he, hc⟩ := List.exists_of_findSome?_eq_some hp
    have hb : e ∈ s.batch ord := (List.takeWhile_sublist _).subset he
    exact ⟨_, batch_mem_log hb, hc⟩

theorem Act.sound (h : Act ord s t) (hs : s.Sound) : t.Sound := by
  intro slot cid p hp
  obtain ⟨ms, hms, -⟩ := h.log_append
  have hold : s.caws.lookup slot cid = some p → ∃ m ∈ t.log, carries slot cid m.1 m.2 = some p := by
    intro h'
    obtain ⟨m, hm, hc⟩ := hs slot cid p h'
    exact ⟨m, by rw [hms]; exact List.mem_append_left _ hm, hc⟩
  cases h with
  | drain => exact drain_sound ord hs slot cid p hp
  | mint => exact hold hp
  | offer key hk =>
    refine hold ?_
    rw [(offerDict_fresh hk).2.2.1] at hp
    cases slot <;> exact hp
  | emitCid key c hn _ =>
    refine hold ?_
    rw [(emitCid_fresh key hn).2.1] at hp
    cases slot <;> exact hp
  | squawk payload tags topic => exact hold hp
  | memo c hc => exact hold (by rwa [hc.lookup] at hp)

theorem Sound.isCid (hs : s.Sound) {slot : Slot} {cid : Term}
    (h : (s.caws.lookup slot cid).isSome = true) : cid.IsCid := by
  obtain ⟨p, hp⟩ := Option.isSome_iff_exists.mp h
  obtain ⟨m, -, hm⟩ := hs slot cid p hp
  have hcor : ∃ p', correlate m.2 = .caws cid p' := by
    unfold carries at hm
    cases hc : correlate m.2 with
    | caws c p' =>
      cases hk : RitualKind.ofOrigin m.1 with
      | none => simp [hc, hk] at hm
      | some kind =>
        simp only [hc, hk, Option.ite_none_right_eq_some] at hm
        exact ⟨p', by rw [hm.1.1]⟩
    | foreign => simp [hc] at hm
    | malformed => simp [hc] at hm
  obtain ⟨p', hcor⟩ := hcor
  unfold correlate at hcor
  cases hj : m.2 with
  | obj f =>
    simp only [hj, Term.ofJson, Term.get_ofFields] at hcor
    cases hr : Fields.get "_routing" f with
    | none => simp [hr] at hcor
    | some r =>
      cases r with
      | obj g =>
        simp only [hr, Option.map_some, Term.ofJson, Term.get_ofFields] at hcor
        cases hg : Fields.get "correlation_id" g with
        | none => simp [hg] at hcor
        | some j =>
          simp only [hg, Option.map_some, Correlated.caws.injEq] at hcor
          exact ⟨j, hcor.1.symm⟩
      | bool b => cases b <;> simp [hr, Term.ofJson] at hcor
      | _ => simp [hr, Term.ofJson] at hcor
  | bool b => cases b <;> simp [hj, Term.ofJson] at hcor
  | _ => simp [hj, Term.ofJson] at hcor

theorem Act.supply (h : Act ord s t) :
    t.world.uuid = s.world.uuid ∧ s.world.tick ≤ t.world.tick := by
  cases h with
  | drain => exact ⟨rfl, le_refl _⟩
  | mint => exact ⟨rfl, Nat.le_succ _⟩
  | offer key hk =>
    obtain ⟨-, -, -, -, htick, huuid⟩ := offerDict_fresh hk
    exact ⟨huuid, by omega⟩
  | emitCid key cid hn _ => simp [Engine.emitCid, hn, emitCaws]
  | squawk payload tags topic => simp [emitCaws]
  | memo c hc => exact ⟨rfl, le_refl _⟩

/-- The offers the engine remembers are the Offerings it wrote, one event for each key,
each under an id of its own. -/
structure OffersLogged (s : Engine) : Prop where
  events : s.log.filter (fun m => m.1 == "evaluator/offering") = s.caws.offerSent.map offerEvent
  keys : (s.caws.offerSent.map Prod.fst).Nodup
  cids : (s.caws.offerSent.map Prod.snd).Nodup
  minted : ∀ e ∈ s.caws.offerSent, ∃ n < s.world.tick, e.2 = .atom (s.world.uuid n).toText

theorem OffersLogged.congr (hs : s.OffersLogged) (hsent : t.caws.offerSent = s.caws.offerSent)
    (hsup : t.world.uuid = s.world.uuid ∧ s.world.tick ≤ t.world.tick) {l : List (String × Json)}
    (hlog : t.log = s.log ++ l) (hms : ∀ m ∈ l, m.1 ≠ "evaluator/offering") :
    t.OffersLogged := by
  refine ⟨?_, by rw [hsent]; exact hs.keys, by rw [hsent]; exact hs.cids, ?_⟩
  · have hnone : l.filter (fun m => m.1 == "evaluator/offering") = [] := by
      simpa [List.filter_eq_nil_iff] using hms
    rw [hlog, List.filter_append, hnone, List.append_nil, hsent, hs.events]
  · intro e he
    rw [hsent] at he
    obtain ⟨n, hn, hcid⟩ := hs.minted e he
    exact ⟨n, by omega, by rw [hsup.1]; exact hcid⟩

theorem OffersLogged.offer (hs : s.OffersLogged) {key : OfferKey}
    (hk : Table.find key s.caws.offerSent = none) : (s.offerDict key).2.OffersLogged := by
  obtain ⟨-, -, hcaws, hlog, htick, huuid⟩ := offerDict_fresh hk
  have hsent := congrArg Caws.offerSent hcaws
  have hkey : key ∉ s.caws.offerSent.map Prod.fst := by
    intro hm
    obtain ⟨e, he, rfl⟩ := List.mem_map.mp hm
    have hsome := Table.find_isSome_iff.mpr ⟨e.2, he⟩
    simp [hk] at hsome
  -- the id is minted now, the older ones were minted before
  have hcid : Term.atom (s.world.uuid s.world.tick).toText ∉ s.caws.offerSent.map Prod.snd := by
    intro hm
    obtain ⟨e, he, hec⟩ := List.mem_map.mp hm
    obtain ⟨n, hn, hn'⟩ := hs.minted e he
    rw [hec, Term.atom.injEq, Uuid.toText_inj] at hn'
    have := s.world.uuidNew hn'
    omega
  refine ⟨?_, ?_, ?_, ?_⟩
  · rw [hlog, hsent, List.filter_append, hs.events, List.map_append]
    rfl
  · rw [hsent, List.map_append, List.nodup_append]
    exact ⟨hs.keys, by simp, by
      intro a ha b hb
      simp only [List.map_cons, List.map_nil, List.mem_singleton] at hb
      rintro rfl
      exact hkey (hb ▸ ha)⟩
  · rw [hsent, List.map_append, List.nodup_append]
    exact ⟨hs.cids, by simp, by
      intro a ha b hb
      simp only [List.map_cons, List.map_nil, List.mem_singleton] at hb
      rintro rfl
      exact hcid (hb ▸ ha)⟩
  · intro e he
    rw [hsent, List.mem_append, List.mem_singleton] at he
    rw [htick, huuid]
    rcases he with he | rfl
    · obtain ⟨n, hn, hc⟩ := hs.minted e he
      exact ⟨n, by omega, hc⟩
    · exact ⟨s.world.tick, by omega, rfl⟩

theorem Act.offersLogged (h : Act ord s t) (hs : s.OffersLogged) : t.OffersLogged := by
  have hsup := h.supply
  cases h with
  | offer key hk => exact hs.offer hk
  | drain =>
    have hsent := congrArg Caws.offerSent (s.caws.cacheEvents_frame (s.batch ord))
    exact hs.congr hsent hsup (l := []) (by simp [log]) (by simp)
  | mint => exact hs.congr rfl hsup (l := []) (by simp [log, cawsUuid]) (by simp)
  | emitCid key cid hn _ =>
    obtain ⟨-, hcaws, hlog⟩ := emitCid_fresh key hn
    have hsent : (s.emitCid key cid).caws.offerSent = s.caws.offerSent := by rw [hcaws]
    exact hs.congr hsent hsup hlog (by simp [emitEvent])
  | squawk payload tags topic => exact hs.congr rfl hsup (emitCaws_log _ _ _ _) (by simp)
  | memo c hc => exact hs.congr hc.offerSent hsup (l := []) (by simp [log]) (by simp)

theorem Act.offerSent_mono (h : Act ord s t) {e : OfferKey × Term} (he : e ∈ s.caws.offerSent) :
    e ∈ t.caws.offerSent := by
  cases h with
  | offer key hk =>
    rw [(offerDict_fresh hk).2.2.1]
    exact List.mem_append_left _ he
  | drain => rwa [drain_caws, Caws.cacheEvents_frame]
  | mint => exact he
  | emitCid key cid hn _ => rwa [(emitCid_fresh key hn).2.1]
  | squawk payload tags topic => exact he
  | memo c hc => rwa [hc.offerSent]

/-- The correlation id of a message on its way out. -/
def emittedCid (m : String × Json) : Option Json :=
  if m.1 = "evaluator/emit" then (m.2.get "_caws").bind (·.get "correlation_id") else none

theorem emittedCid_emitEvent (key : EmitKey) (cid : Term) :
    emittedCid (emitEvent key cid) = some cid.toJson := by
  simp [emittedCid, emitEvent, cawsJson, emitBlock, Term.toFields, Fields.get]

/-- The ids the engine remembers as emitted are those of the messages it wrote. -/
structure EmitsLogged (s : Engine) : Prop where
  events : s.log.filterMap emittedCid = s.caws.emitted.map Term.toJson
  nodup : s.caws.emitted.Nodup
  isCid : ∀ cid ∈ s.caws.emitted, cid.IsCid

theorem EmitsLogged.congr (hs : s.EmitsLogged) (hsent : t.caws.emitted = s.caws.emitted)
    {l : List (String × Json)} (hlog : t.log = s.log ++ l)
    (hms : ∀ m ∈ l, m.1 ≠ "evaluator/emit") : t.EmitsLogged := by
  refine ⟨?_, by rw [hsent]; exact hs.nodup, by rw [hsent]; exact hs.isCid⟩
  have hnone : l.filterMap emittedCid = [] := by
    refine List.filterMap_eq_nil_iff.mpr fun m hm => ?_
    simp [emittedCid, hms m hm]
  rw [hlog, List.filterMap_append, hnone, List.append_nil, hsent, hs.events]

theorem EmitsLogged.emit (hs : s.EmitsLogged) (key : EmitKey) {cid : Term}
    (hn : cid ∉ s.caws.emitted) (hcid : cid.IsCid) : (s.emitCid key cid).EmitsLogged := by
  obtain ⟨-, hcaws, hlog⟩ := emitCid_fresh key hn
  have hsent := congrArg Caws.emitted hcaws
  refine ⟨?_, ?_, ?_⟩
  · rw [hlog, hsent, List.filterMap_append, hs.events, List.map_append]
    simp [emittedCid_emitEvent]
  · rw [hsent, List.nodup_append]
    exact ⟨hs.nodup, by simp, by
      intro a ha b hb
      rw [List.mem_singleton] at hb
      rintro rfl
      exact hn (hb ▸ ha)⟩
  · intro c hc
    rw [hsent, List.mem_append, List.mem_singleton] at hc
    rcases hc with hc | rfl
    · exact hs.isCid c hc
    · exact hcid

theorem Act.emitsLogged (h : Act ord s t) (hsound : s.Sound) (hs : s.EmitsLogged) :
    t.EmitsLogged := by
  cases h with
  | offer key hk =>
    obtain ⟨-, -, hcaws, hlog, -⟩ := offerDict_fresh hk
    have hsent : (s.offerDict key).2.caws.emitted = s.caws.emitted := by rw [hcaws]
    exact hs.congr hsent hlog (by simp [offerEvent])
  | drain =>
    have hsent := congrArg Caws.emitted (s.caws.cacheEvents_frame (s.batch ord))
    exact hs.congr hsent (l := []) (by simp [log]) (by simp)
  | mint => exact hs.congr rfl (l := []) (by simp [log, cawsUuid]) (by simp)
  | emitCid key cid hn hc =>
    refine hs.emit key hn ?_
    rcases hc with ⟨slot, hslot⟩ | ⟨u, rfl⟩
    · exact hsound.isCid hslot
    · exact Term.isCid_atom _
  | squawk payload tags topic => exact hs.congr rfl (emitCaws_log _ _ _ _) (by simp)
  | memo c hc => exact hs.congr hc.emitted (l := []) (by simp [log]) (by simp)

end Atomic

/-- The tables agree with the mailbox. -/
structure Consistent (s : Engine) : Prop where
  sound : s.Sound
  offers : s.OffersLogged
  emits : s.EmitsLogged

theorem evaluator_not_ritual {origin : String} (h : originLike "evaluator/" origin = true) :
    originLike "ritual/" origin = false := by
  rw [originLike_eq _ _ (by decide)] at h ⊢
  obtain ⟨rest, hrest⟩ := List.isPrefixOf_iff_prefix.mp h
  rw [← hrest]
  rfl

theorem ritual_ne_evaluator (label rest : String) : "ritual/" ++ label ≠ "evaluator/" ++ rest := by
  intro h
  have h' := congrArg (fun x : String => x.toList.head?) h
  simp at h'

theorem step_consistent (ord : RowOrder) {s : Engine} (i : EngineStep) (hs : s.Consistent) :
    (s.step ord i).Consistent := by
  cases i with
  | call c =>
    exact call_invariant (fun s t h hs => ⟨h.sound hs.sound, h.offersLogged hs.offers,
      h.emitsLogged hs.sound hs.emits⟩) c hs
  | arrive label payload =>
    have hlog := arrive_log ord s label payload
    refine ⟨?_, ?_, ?_⟩
    · intro slot cid p hp
      obtain ⟨m, hm, hc⟩ := hs.sound slot cid p hp
      exact ⟨m, by rw [hlog]; exact List.mem_append_left _ hm, hc⟩
    · refine hs.offers.congr rfl (by simp [step]) hlog ?_
      simpa using ritual_ne_evaluator label "offering"
    · refine hs.emits.congr rfl hlog ?_
      simpa using ritual_ne_evaluator label "emit"

theorem step_lookup_mono (ord : RowOrder) {s : Engine} (i : EngineStep) {slot : Slot} {cid : Term}
    {p : Dict} (h : s.caws.lookup slot cid = some p) :
    (s.step ord i).caws.lookup slot cid = some p := by
  cases i with
  | arrive label payload => exact h
  | call c => exact call_invariant (fun _ _ hact => hact.lookup_mono) c h

theorem step_offerSent_mono (ord : RowOrder) {s : Engine} (i : EngineStep) {e : OfferKey × Term}
    (h : e ∈ s.caws.offerSent) : e ∈ (s.step ord i).caws.offerSent := by
  cases i with
  | arrive label payload => exact h
  | call c => exact call_invariant (fun _ _ hact => hact.offerSent_mono) c h

theorem log_step (ord : RowOrder) (s : Engine) (i : EngineStep) :
    ∃ ms, (s.step ord i).log = s.log ++ ms := by
  cases i with
  | arrive label payload => exact ⟨_, arrive_log ord s label payload⟩
  | call c =>
    refine call_invariant (P := fun t => ∃ ms, t.log = s.log ++ ms) ?_ c ⟨[], by simp⟩
    rintro t u h ⟨ms, hms⟩
    obtain ⟨ns, hns, -⟩ := h.log_append
    exact ⟨ms ++ ns, by rw [hns, hms, List.append_assoc]⟩

theorem log_run (ord : RowOrder) (s : Engine) (is : List EngineStep) :
    ∃ ms, (run (step ord) s is).log = s.log ++ ms := by
  induction is generalizing s with
  | nil => exact ⟨[], by simp [run]⟩
  | cons i is ih =>
    obtain ⟨ms, hms⟩ := s.log_step ord i
    obtain ⟨ns, hns⟩ := ih (s.step ord i)
    exact ⟨ms ++ ns, by rw [run, hns, hms, List.append_assoc]⟩

end Engine

/-- An engine that has just been created: its session's mailbox is still empty. -/
structure FreshEngine where
  session : Uuid
  world : World
  empty : ∀ r ∈ world.rows, r.sessionId ≠ session

namespace FreshEngine

def start (f : FreshEngine) : Engine := ⟨f.session, f.world, {}⟩

theorem start_log (f : FreshEngine) : f.start.log = [] := by
  have h : f.world.rows.filter (·.sessionId == f.session) = [] := by
    simpa [List.filter_eq_nil_iff] using f.empty
  simp [Engine.log, World.log, start, h]

theorem start_consistent (f : FreshEngine) : f.start.Consistent := by
  refine ⟨?_, ⟨?_, ?_, ?_, ?_⟩, ⟨?_, ?_, ?_⟩⟩
  · intro slot cid p h
    cases slot <;> simp [start, Caws.lookup] at h
  · rw [start_log]
    simp [start]
  · simp [start]
  · simp [start]
  · simp [start]
  · rw [start_log]
    simp [start]
  · simp [start]
  · simp [start]

theorem consistent (f : FreshEngine) (ord : RowOrder) (is : List EngineStep) :
    (run (Engine.step ord) f.start is).Consistent :=
  run_invariant (C := fun _ _ => True) (fun _ i _ => Engine.step_consistent ord i)
    (fun _ _ => trivial) f.start_consistent

/-- The first engine of a process. -/
def first : FreshEngine := ⟨⟨1⟩, World.start, by simp [World.start, World.rows, Coire.new]⟩

end FreshEngine

end Cerebellum
