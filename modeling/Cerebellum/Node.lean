import Cerebellum.EngineRun
import Cerebellum.ControllerSpec

/-! A node: one controller and one Prolog engine around the same mailbox. The engine's
offers become the controller's pending entries, each at most once. -/
namespace Cerebellum
open CycleController

structure Node where
  ctrl : CycleController
  caws : Caws

inductive NodeStep where
  | call (c : Call)
  | publish (publishOk : ClaraEvent → Bool)
  | ingest (t : TephraEnvelope)
  | age

namespace Node

def engine (n : Node) : Engine := ⟨n.ctrl.prologId, n.ctrl.world, n.caws⟩

def step (ord : RowOrder) (iter : HashOrder) (n : Node) : NodeStep → Node
  | .call c =>
    let s := n.engine.call ord c
    ⟨{ n.ctrl with world := s.world }, s.caws⟩
  | .publish publishOk =>
    match n.ctrl.ritualHandle with
    | some h => ⟨(n.ctrl.publishEvaluatorEvents ord h publishOk).1, n.caws⟩
    | none => n
  | .ingest t => ⟨n.ctrl.ingestTephra iter t, n.caws⟩
  | .age => ⟨n.ctrl.ageOffers iter, n.caws⟩

end Node

namespace CycleController

theorem cawsDirective_later (w : World) (e : ClaraEvent) (h : RitualHandle) :
    w.Later (cawsDirective w e h).2 := by
  rcases cawsDirective_world h w e with he | he
  · rw [he]
    exact .refl w
  · rw [he]
    exact .newV4 w

theorem publishEvent_later (h : RitualHandle) (publishOk : ClaraEvent → Bool) (c : CycleController)
    (e : ClaraEvent) : c.world.Later (c.publishEvent h publishOk e).1.world := by
  have hd := cawsDirective_later c.world e h
  unfold publishEvent
  generalize cawsDirective c.world e h = d at hd ⊢
  obtain ⟨caws, w⟩ := d
  cases caws with
  | none => by_cases hok : publishOk e = true <;> simp only [hok]; exacts [hd.trans (.newV4 w), hd]
  | some d => by_cases hok : publishOk e = true <;> simp only [hok] <;> exact hd

theorem publishEvents_later (h : RitualHandle) (publishOk : ClaraEvent → Bool) (c : CycleController)
    (es : List ClaraEvent) : c.world.Later (publishEvents h publishOk c es).1.world := by
  induction es generalizing c with
  | nil => exact .refl _
  | cons e es ih => exact (publishEvent_later h publishOk c e).trans (ih _)

theorem publishEvaluatorEvents_later (ord : RowOrder) (h : RitualHandle)
    (publishOk : ClaraEvent → Bool) (c : CycleController) :
    c.world.Later (c.publishEvaluatorEvents ord h publishOk).1.world :=
  (World.Later.poll ord c.world c.prologId (.startsWith "evaluator/")).trans
    (publishEvents_later h publishOk
      { c with world := (c.world.poll ord c.prologId (.startsWith "evaluator/")).2 }
      (c.world.poll ord c.prologId (.startsWith "evaluator/")).1)

end CycleController

theorem toJson_uuid (u : Uuid) : (Term.atom u.toText).toJson = .str u.toText := by
  have h : ∀ s, Uuid.parseStr s = none → u.toText ≠ s := by
    intro s hs he
    have := Uuid.parseStr_toText u
    rw [he, hs] at this
    cases this
  simp [Term.toJson, h "null" (by decide), h "true" (by decide), h "false" (by decide)]

/-- A row that holds the Offering made under `cid`. -/
def rowOffers (cid : Uuid) (r : ClaraEvent) : Prop :=
  ∃ key, (r.origin, r.payload) = Engine.offerEvent (key, .atom cid.toText)

/-- A row whose sender does not wait for a reply. -/
def rowSilent (r : ClaraEvent) : Prop :=
  ∃ p b, r.payload = Engine.cawsJson p b ∧ Fields.get "expects_reply" b = some (.atom "false")

section Registration
variable (h : RitualHandle) (publishOk : ClaraEvent → Bool) (c : CycleController)

theorem registers_of_silent {e : ClaraEvent} (he : rowSilent e) :
    c.registers h publishOk e = none := by
  obtain ⟨p, b, hp, hb⟩ := he
  have hc : (e.payload.get "_caws").bind Json.asObject = some (Term.toFields b) := by
    simp [hp, Engine.cawsJson, Json.asObject]
  have hr : ((Fields.get "expects_reply" (Term.toFields b)).bind Json.asBool).getD true = false := by
    simp [Term.get_toFields, hb, Term.toJson, Json.asBool]
  simp [registers, cawsDirective, hc, hr]

theorem registers_of_offer {e : ClaraEvent} {cid : Uuid} (he : rowOffers cid e) :
    ∀ k, c.registers h publishOk e = some k → k = cid := by
  obtain ⟨key, hk⟩ := he
  have hp : e.payload = Engine.cawsJson key.payload
      (Engine.offerBlock (.atom cid.toText) key.target key.topic) := congrArg Prod.snd hk
  have hc : (e.payload.get "_caws").bind Json.asObject = some (Term.toFields
      (Engine.offerBlock (.atom cid.toText) key.target key.topic)) := by
    simp [hp, Engine.cawsJson, Json.asObject]
  have hid : ((Fields.get "correlation_id" (Term.toFields (Engine.offerBlock (.atom cid.toText)
      key.target key.topic))).bind Json.asStr).bind Uuid.parseStr = some cid := by
    simp [Term.get_toFields, Engine.offerBlock, Fields.get, toJson_uuid, Json.asStr,
      Uuid.parseStr_toText]
  intro k hk
  simp only [registers, cawsDirective, hc, hid] at hk
  split_ifs at hk
  · exact (Option.some.inj hk).symm

/-- Publishing registers only offers whose row it has polled. -/
theorem mem_registersAll {es : List ClaraEvent}
    (hes : ∀ e ∈ es, (∃ cid, rowOffers cid e) ∨ rowSilent e) {k : Uuid}
    (hk : k ∈ registersAll h publishOk c es) : ∃ e ∈ es, rowOffers k e := by
  induction es generalizing c with
  | nil => simp [registersAll] at hk
  | cons e es ih =>
    rw [registersAll, List.mem_append, Option.mem_toList] at hk
    rcases hk with hk | hk
    · refine ⟨e, by simp, ?_⟩
      rcases hes e (by simp) with ⟨cid, hcid⟩ | hs
      · rw [registers_of_offer h publishOk c hcid k hk]
        exact hcid
      · rw [registers_of_silent h publishOk c hs] at hk
        cases hk
    · obtain ⟨e', he', hr⟩ := ih _ (fun e he => hes e (List.mem_cons_of_mem _ he)) hk
      exact ⟨e', List.mem_cons_of_mem _ he', hr⟩

end Registration

end Cerebellum
