import Cerebellum.EngineRun

/-! Auto-tee edges: a node forwards a cached event, Hohi or Tabu along each of its edges
under the correlation id it came in with. Two memos guard the forward, one per edge and
id, one per id alone. -/
namespace Cerebellum
open Transition

def cawsField (k : String) (m : String × Json) : Option Json :=
  (m.2.get "_caws").bind (·.get k)

/-- A message on its way to `target` on `topic` under `cid`. -/
def isEmit (target topic : String) (cid : Term) (m : String × Json) : Bool :=
  m.1 == "evaluator/emit" && cawsField "correlation_id" m == some cid.toJson &&
    cawsField "target_node_id" m == some (Term.atom target).toJson &&
    cawsField "topic_path" m == some (Term.atom topic).toJson

theorem isEmit_emitEvent (key : EmitKey) (cid : Term) :
    isEmit key.target key.topic cid (Engine.emitEvent key cid) = true := by
  simp [isEmit, cawsField, Engine.emitEvent, Engine.cawsJson, Engine.emitBlock, Term.toFields,
    Fields.get]

/-- The edges of a node: target, topic and kind of each. -/
structure TeeEdge where
  target : String
  topic : String
  kind : MsgKind

namespace Engine
variable (ord : RowOrder)

/-- A payload of the kind is there for the call: cached, or waiting for its drain. -/
def teeReady (s : Engine) (kind : MsgKind) (cid : Term) : Prop :=
  (s.caws.teePayload kind cid).isSome = true ∨ ((s.drain ord).caws.teePayload kind cid).isSome = true

theorem teeReady_iff {s : Engine} {kind : MsgKind} {cid : Term} :
    s.teeReady ord kind cid ↔ ((s.drain ord).caws.teePayload kind cid).isSome = true := by
  refine ⟨fun h => h.elim (fun hc => ?_) id, .inr⟩
  rw [Caws.teePayload_eq] at hc ⊢
  obtain ⟨p, hp⟩ := Option.isSome_iff_exists.mp hc
  exact Option.isSome_of_mem ((Act.drain s).lookup_mono hp)

/-- The call can go through: the batch it drains raises no error, and if the engine has
emitted under `cid` before, that message went to the same target and topic. -/
def TeeClear (edge : String) (te : TeeEdge) (cid : Term) (s : Engine) : Prop :=
  (edge, cid) ∉ s.caws.teed → s.teeReady ord te.kind cid →
    (∀ e ∈ s.batch ord, correlate e.payload ≠ .malformed) ∧
    (cid ∈ s.caws.emitted → ∃ m ∈ s.log, isEmit te.target te.topic cid m = true)

variable {ord}

/-- At most one message ever goes out under one id. -/
theorem countP_isEmit_le {s : Engine} (hs : s.EmitsLogged) (target topic : String) (cid : Term) :
    s.log.countP (isEmit target topic cid) ≤ 1 := by
  have hle : s.log.countP (isEmit target topic cid) ≤
      (s.log.filterMap emittedCid).count cid.toJson := by
    rw [List.count, List.countP_filterMap]
    refine List.countP_mono_left fun m _ hm => ?_
    simp only [isEmit, Bool.and_eq_true, beq_iff_eq] at hm
    have he : emittedCid m = some cid.toJson := by
      rw [emittedCid, if_pos hm.1.1.1]
      exact hm.1.1.2
    simp [he]
  have hone : (s.caws.emitted.map Term.toJson).count cid.toJson ≤ 1 := by
    refine List.nodup_iff_count_le_one.mp ?_ _
    refine hs.nodup.map_on fun a ha b hb h => ?_
    exact (hs.isCid a ha).toJson_inj (hs.isCid b hb) h
  rw [hs.events] at hle
  exact hle.trans hone

theorem exists_emit_of_emitCid {s : Engine} (key : EmitKey) {cid : Term}
    (h : cid ∈ s.caws.emitted → ∃ m ∈ s.log, isEmit key.target key.topic cid m = true) :
    ∃ m ∈ (s.emitCid key cid).log, isEmit key.target key.topic cid m = true := by
  by_cases hm : cid ∈ s.caws.emitted
  · have he : s.emitCid key cid = s := by simp [emitCid, hm]
    rw [he]
    exact h hm
  · rw [(emitCid_fresh key hm).2.2]
    exact ⟨_, List.mem_append_right _ (by simp), isEmit_emitEvent key cid⟩

/-- The four ways a tee call ends. -/
theorem cawsTee_cases (ord : RowOrder) (s : Engine) (edge target topic : String) (kind : MsgKind) (cid : Term) :
    (edge, cid) ∈ s.caws.teed ∧ (s.cawsTee ord edge target topic kind cid).2 = s ∨
    (edge, cid) ∉ s.caws.teed ∧ (s.drainRitualEvents ord).1 = false ∧
      (s.cawsTee ord edge target topic kind cid).2 = s.drain ord ∨
    (edge, cid) ∉ s.caws.teed ∧ (s.drain ord).caws.teePayload kind cid = none ∧
      (s.cawsTee ord edge target topic kind cid).2 = s.drain ord ∨
    ∃ p, (edge, cid) ∉ s.caws.teed ∧ (s.drain ord).caws.teePayload kind cid = some p ∧
      (s.cawsTee ord edge target topic kind cid).2 =
        { s.drain ord with caws := { (s.drain ord).caws with
            teed := (s.drain ord).caws.teed ++ [(edge, cid)] } }.emitCid
          ⟨target, topic, kind, stripRouting p⟩ cid := by
  unfold cawsTee
  rw [unlessSeen_eq]
  by_cases hm : (edge, cid) ∈ s.caws.teed
  · exact .inl ⟨hm, by simp [hm]⟩
  · by_cases hok : (s.drainRitualEvents ord).1 = true
    · cases hp : (s.drain ord).caws.teePayload kind cid with
      | none => exact .inr (.inr (.inl ⟨hm, rfl, by simp [hm, hok]⟩))
      | some p => exact .inr (.inr (.inr ⟨p, hm, rfl, by simp [hm, hok]⟩))
    · exact .inr (.inl ⟨hm, by simpa using hok, by simp [hm, hok]⟩)

theorem blind_teed : Blind Caws.teed :=
  ⟨fun _ _ _ _ _ => rfl, fun _ _ => rfl, fun _ _ => rfl, fun _ _ => rfl⟩

/-- What holds of a node's engine while its tees go through: the memo of an edge is never
set without the message that belongs to it. -/
structure TeeSound (edges : String → TeeEdge) (s : Engine) : Prop where
  consistent : s.Consistent
  sent : ∀ edge cid, (edge, cid) ∈ s.caws.teed → ∃ m ∈ s.log,
     isEmit (edges edge).target (edges edge).topic cid m = true

/-- What one step of the run is assumed to satisfy. -/
def TeeStepOk (ord : RowOrder) (edges : String → TeeEdge) (s : Engine) (i : EngineStep) : Prop :=
  ∀ edge target topic kind cid, i = .call (.tee edge target topic kind cid) →
    edges edge = ⟨target, topic, kind⟩ ∧ s.TeeClear ord edge (edges edge) cid

theorem teeSound_tee {edges : String → TeeEdge} {s : Engine} (hs : TeeSound edges s)
    {edge : String} {cid : Term} (hclear : s.TeeClear ord edge (edges edge) cid) :
    ∀ edge' cid', (edge', cid') ∈ (s.cawsTee ord edge (edges edge).target (edges edge).topic
        (edges edge).kind cid).2.caws.teed →
      ∃ m ∈ (s.cawsTee ord edge (edges edge).target (edges edge).topic (edges edge).kind
        cid).2.log, isEmit (edges edge').target (edges edge').topic cid' m = true := by
  intro edge' cid' hmem
  have hdrain : (s.drain ord).caws.teed = s.caws.teed := drain_view blind_teed ord s
  have hdlog : (s.drain ord).log = s.log := by simp [log]
  rcases cawsTee_cases ord s edge (edges edge).target (edges edge).topic
    (edges edge).kind cid with ⟨-, he⟩ | ⟨-, -, he⟩ | ⟨-, -, he⟩ | ⟨p, hm, hp, he⟩
  · rw [he] at hmem ⊢
    exact hs.sent edge' cid' hmem
  · rw [he, hdrain] at hmem
    rw [he, hdlog]
    exact hs.sent edge' cid' hmem
  · rw [he, hdrain] at hmem
    rw [he, hdlog]
    exact hs.sent edge' cid' hmem
  · have hready : s.teeReady ord (edges edge).kind cid := .inr (Option.isSome_of_mem hp)
    obtain ⟨-, hlogged⟩ := hclear hm hready
    rw [he, emitCid_view blind_teed, hdrain, List.mem_append, List.mem_singleton] at hmem
    rw [he]
    have hemitted : (s.drain ord).caws.emitted = s.caws.emitted := by
      rw [drain_caws, Caws.cacheEvents_frame]
    rcases hmem with hmem | heq
    · obtain ⟨m, hml, hme⟩ := hs.sent edge' cid' hmem
      refine ⟨m, ?_, hme⟩
      have hgrow : ∀ (t : Engine) (key : EmitKey), m ∈ t.log → m ∈ (t.emitCid key cid).log := by
        intro t key ht
        by_cases hin : cid ∈ t.caws.emitted
        · have : t.emitCid key cid = t := by simp [emitCid, hin]
          rwa [this]
        · rw [(emitCid_fresh key hin).2.2]
          exact List.mem_append_left _ ht
      exact hgrow _ _ (by rw [← hdlog] at hml; exact hml)
    · cases heq
      refine exists_emit_of_emitCid _ fun hin => ?_
      obtain ⟨m, hml, hme⟩ := hlogged (hemitted ▸ hin)
      exact ⟨m, by rw [← hdlog] at hml; exact hml, hme⟩

theorem teeSound_step {edges : String → TeeEdge} {s : Engine} {i : EngineStep}
    (hok : TeeStepOk ord edges s i) (hs : TeeSound edges s) : TeeSound edges (s.step ord i) := by
  refine ⟨step_consistent ord i hs.consistent, ?_⟩
  obtain ⟨ms, hms⟩ := s.log_step ord i
  -- every step but a tee leaves the memo as it is and only adds to the log
  have hkeep : (s.step ord i).caws.teed = s.caws.teed → ∀ edge cid,
      (edge, cid) ∈ (s.step ord i).caws.teed → ∃ m ∈ (s.step ord i).log,
        isEmit (edges edge).target (edges edge).topic cid m = true := by
    intro hteed edge cid hmem
    obtain ⟨m, hm, he⟩ := hs.sent edge cid (hteed ▸ hmem)
    exact ⟨m, by rw [hms]; exact List.mem_append_left _ hm, he⟩
  cases i with
  | arrive label payload => exact hkeep rfl
  | call c =>
    by_cases htee : ∃ edge target topic kind cid, c = .tee edge target topic kind cid
    · obtain ⟨edge, target, topic, kind, cid, rfl⟩ := htee
      obtain ⟨hedge, hclear⟩ := hok edge target topic kind cid rfl
      have h := teeSound_tee hs hclear
      simp only [hedge] at h
      exact h
    · refine hkeep (call_view blind_teed ord s c ?_ ?_ ?_ ?_)
      · exact fun _ _ _ _ _ _ _ _ => rfl
      · exact fun _ _ _ _ _ _ _ => rfl
      · intro e t p k cid hc
        exact absurd ⟨e, t, p, k, cid, hc⟩ htee
      · exact fun _ _ _ _ _ _ _ => rfl

/-- A tee call with its payload at hand sets the memo of its edge. -/
theorem teed_of_ready {s : Engine} {edge : String} {te : TeeEdge} {cid : Term}
    (hclear : s.TeeClear ord edge te cid) (hready : s.teeReady ord te.kind cid) :
    (edge, cid) ∈ (s.cawsTee ord edge te.target te.topic te.kind cid).2.caws.teed := by
  rcases cawsTee_cases ord s edge te.target te.topic te.kind cid with
    ⟨hm, he⟩ | ⟨hm, hok, -⟩ | ⟨-, hp, -⟩ | ⟨p, -, -, he⟩
  · rw [he]
    exact hm
  · have hok' := (s.drain_ok ord).mpr (hclear hm hready).1
    rw [hok] at hok'
    cases hok'
  · have hsome := (teeReady_iff ord).mp hready
    rw [hp] at hsome
    cases hsome
  · rw [he, emitCid_view blind_teed]
    exact List.mem_append_right _ (by simp)

end Engine

open Engine

/-- Auto-tee delivers along every edge of a node, exactly once, in every run in which each
tee call that finds a payload is clear: its drain raises no error, and an earlier message
under the same correlation id went to the same target and topic. -/
theorem auto_tee_delivers (ord : RowOrder) (f : FreshEngine) (edges : String → TeeEdge)
    (steps : List EngineStep)
    (hok : ∀ v ∈ visits (step ord) f.start steps, TeeStepOk ord edges v.1 v.2) :
    ∀ v ∈ visits (step ord) f.start steps, ∀ edge cid,
      v.2 = .call (.tee edge (edges edge).target (edges edge).topic (edges edge).kind cid) →
      v.1.teeReady ord (edges edge).kind cid →
      (run (step ord) f.start steps).log.countP
        (isEmit (edges edge).target (edges edge).topic cid) = 1 := by
  intro v hv edge cid hcall hready
  have h0 : TeeSound edges f.start := ⟨f.start_consistent, by simp [FreshEngine.start]⟩
  have hinv := visits_invariant (P := TeeSound edges) (fun s i => teeSound_step) hok h0
  obtain ⟨u, w, hsteps, hstate⟩ := mem_visits hv
  have hafter := teeSound_step (hok v hv) (hinv v hv)
  have hmemo : (edge, cid) ∈ (v.1.step ord v.2).caws.teed := by
    rw [hcall]
    exact teed_of_ready (hok v hv edge _ _ _ cid hcall).2 hready
  obtain ⟨m, hm, hemit⟩ := hafter.sent edge cid hmemo
  have hend : run (step ord) f.start steps = run (step ord) (v.1.step ord v.2) w := by
    rw [hsteps, run_append, ← hstate]
    rfl
  obtain ⟨ms, hms⟩ := log_run ord (v.1.step ord v.2) w
  have hpos : 0 < (run (step ord) f.start steps).log.countP
      (isEmit (edges edge).target (edges edge).topic cid) := by
    rw [hend, hms]
    exact List.countP_pos_iff.mpr ⟨m, List.mem_append_left _ hm, hemit⟩
  have hle := countP_isEmit_le (f.consistent ord steps).emits (edges edge).target
    (edges edge).topic cid
  omega

/-- An application message under the correlation id `x`. -/
def eventX : EngineStep :=
  .arrive "event" (.obj [("_routing", .obj [("correlation_id", .str "x")]), ("note", .str "hi")])

def fanOut : String → TeeEdge
  | "e1" => ⟨"n2", "event/e1", .event⟩
  | _ => ⟨"n3", "event/e2", .event⟩

def teeX (edge : String) : EngineStep :=
  .call (.tee edge (fanOut edge).target (fanOut edge).topic (fanOut edge).kind (.atom "x"))

/-- One edge, called again on a re-run of the goal. -/
theorem auto_tee_delivers_rerun :
    (run (step .stable) FreshEngine.first.start [eventX, teeX "e1", teeX "e1"]).log.countP
      (isEmit "n2" "event/e1" (.atom "x")) = 1 := by
  have hclear : ∀ s : Engine, (s.caws.teed = [] ∧ s.caws.emitted = [] ∧
      ∀ e ∈ s.batch .stable, correlate e.payload ≠ .malformed) ∨
      ("e1", Term.atom "x") ∈ s.caws.teed → TeeStepOk .stable fanOut s (teeX "e1") := by
    rintro s hs edge target topic kind cid hi
    simp only [teeX, EngineStep.call.injEq, Call.tee.injEq] at hi
    obtain ⟨rfl, rfl, rfl, rfl, rfl⟩ := hi
    refine ⟨rfl, fun hm _ => ?_⟩
    rcases hs with ⟨-, hemit, hbatch⟩ | hs
    · exact ⟨hbatch, by simp [hemit]⟩
    · exact absurd hs hm
  have h := auto_tee_delivers .stable FreshEngine.first fanOut [eventX, teeX "e1", teeX "e1"] (by
    intro v hv
    simp only [visits, List.mem_cons, List.not_mem_nil, or_false] at hv
    rcases hv with rfl | rfl | rfl
    · intro edge target topic kind cid hi
      simp [eventX] at hi
    · exact hclear _ (.inl (by decide +kernel))
    · exact hclear _ (.inr (by decide +kernel)))
  exact h (_, teeX "e1") (by simp [visits]; exact .inr (.inl rfl)) "e1" (.atom "x") rfl
    (.inr (by decide +kernel))

/-- Two edges share the incoming id: the second is marked as teed and sends nothing. -/
theorem fan_out_loses_second_edge :
    ∃ v ∈ visits (step .stable) FreshEngine.first.start [eventX, teeX "e1", teeX "e2"],
      v.2 = teeX "e2" ∧ v.1.teeReady .stable (fanOut "e2").kind (.atom "x") ∧
      (run (step .stable) FreshEngine.first.start [eventX, teeX "e1", teeX "e2"]).log.countP
        (isEmit (fanOut "e2").target (fanOut "e2").topic (.atom "x")) = 0 := by
  refine ⟨(run (step .stable) FreshEngine.first.start [eventX, teeX "e1"], teeX "e2"), ?_, rfl,
    .inl (by decide +kernel), by decide +kernel⟩
  simp [visits, run]

end Cerebellum
