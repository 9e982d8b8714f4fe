import Cerebellum.Controller

/-! What each ritual operation of the controller does to the pending offers and to the
two mailboxes, one specification per operation. -/
namespace Cerebellum.CycleController

@[simp] theorem writeBoth_pendingOffers (c : CycleController) (o : String) (b : Json) :
    (c.writeBoth o b).pendingOffers = c.pendingOffers := rfl
@[simp] theorem writeBoth_prologId (c : CycleController) (o : String) (b : Json) :
    (c.writeBoth o b).prologId = c.prologId := rfl
@[simp] theorem writeBoth_clipsId (c : CycleController) (o : String) (b : Json) :
    (c.writeBoth o b).clipsId = c.clipsId := rfl

/-- The two mailboxes of the session. -/
def Mailbox (c : CycleController) (sid : Uuid) : Prop := sid = c.prologId ∨ sid = c.clipsId

theorem writeBoth_log {c : CycleController} {sid : Uuid} (h : c.Mailbox sid) (o : String)
    (b : Json) : (c.writeBoth o b).world.log sid = c.world.log sid ++ [(o, b)] := by
  have hne := c.idsDistinct
  rcases h with rfl | rfl
  · simp [writeBoth, World.emit_log, hne.symm]
  · simp [writeBoth, World.emit_log, hne]

/-- The body `ingest_tephra` writes, or `none` when it drops the envelope. -/
def ingested (iter : HashOrder) (c : CycleController) (t : TephraEnvelope) : Option Json :=
  match t.payload with
  | .encrypted _ _ _ _ => none
  | .plaintext body =>
    if t.isReply then
      if (c.resolvedKey iter t).isNone && (c.ownPerformance t || !c.addressedToMe t) then none
      else some (stampRouting t body)
    else if c.ownEcho t || c.addressedElsewhere t then none
    else some (stampRouting t body)

/-- The pending entry an envelope settles. -/
def settled (iter : HashOrder) (c : CycleController) (t : TephraEnvelope) : Option Uuid :=
  match t.payload with
  | .encrypted _ _ _ _ => none
  | .plaintext _ => if t.isReply then c.resolvedKey iter t else none

def eraseOffer (m : PendingOffers) : Option Uuid → PendingOffers
  | some cid => m.erase cid
  | none => m

theorem ingestTephra_eq (iter : HashOrder) (c : CycleController) (t : TephraEnvelope) :
    c.ingestTephra iter t = match c.ingested iter t with
      | none => c
      | some body =>
        { c with pendingOffers := eraseOffer c.pendingOffers (c.settled iter t) }.writeBoth
          ("ritual/" ++ t.label) body := by
  unfold ingestTephra ingested settled
  cases t.payload with
  | encrypted => rfl
  | plaintext body =>
    by_cases hr : t.isReply = true
    · cases hk : c.resolvedKey iter t with
      | none =>
        by_cases hd : (c.ownPerformance t || !c.addressedToMe t) = true
        · simp [hr, resolvePendingOffer, hk, hd]
        · simp [hr, resolvePendingOffer, hk, hd, eraseOffer]
      | some cid => simp [hr, resolvePendingOffer, hk, eraseOffer]
    · by_cases he : c.ownEcho t = true
      · simp [hr, he]
      · by_cases ha : c.addressedElsewhere t = true
        · simp [hr, he, ha]
        · simp [hr, he, ha, eraseOffer]

/-- A settled offer is always written out: no entry is dropped silently. -/
theorem ingested_of_settled {iter : HashOrder} {c : CycleController} {t : TephraEnvelope}
    {cid : Uuid} (h : c.settled iter t = some cid) : ∃ body, t.payload = .plaintext body ∧
      t.isReply = true ∧ c.resolvedKey iter t = some cid ∧
      c.ingested iter t = some (stampRouting t body) := by
  unfold settled at h
  cases hp : t.payload with
  | encrypted => simp [hp] at h
  | plaintext body =>
    simp only [hp] at h
    by_cases hr : t.isReply = true
    · rw [if_pos hr] at h
      exact ⟨body, rfl, hr, h, by simp [ingested, hp, hr, h]⟩
    · simp [hr] at h

/-- A fold that takes each element or keeps what it has ends with one of them. -/
theorem mem_of_foldl_pick {α : Type*} {f : Option α → α → Option α}
    (hf : ∀ best y, f best y = some y ∨ f best y = best) (l : List α) (best : Option α) {x : α}
    (h : l.foldl f best = some x) : x ∈ l ∨ best = some x := by
  induction l generalizing best with
  | nil => exact .inr h
  | cons y l ih =>
    rcases ih _ h with hm | hb
    · exact .inl (List.mem_cons_of_mem _ hm)
    · rcases hf best y with hy | hkeep
      · rw [hy, Option.some.injEq] at hb
        exact .inl (by simp [hb])
      · rw [hkeep] at hb
        exact .inr hb

theorem maxByKey_mem {α : Type*} (key : α → Nat) {l : List α} {x : α}
    (h : maxByKey key l = some x) : x ∈ l := by
  refine (mem_of_foldl_pick (fun best y => ?_) l none h).resolve_right (by simp)
  cases best with
  | none => exact .inl rfl
  | some z =>
    by_cases hz : key z ≤ key y
    · exact .inl (by simp [hz])
    · exact .inr (by simp [hz])

/-- A reply removes an entry only when it is for our performance and the entry is there:
the one it names, or without a correlation id one that was published without. -/
theorem resolvedKey_some {iter : HashOrder} {c : CycleController} {t : TephraEnvelope}
    {cid : Uuid} (h : c.resolvedKey iter t = some cid) :
    c.ownPerformance t = true ∧ cid ∈ c.pendingOffers ∧
      (t.correlationId = some cid ∨ t.correlationId = none ∧
        ∃ o ∈ c.pendingOffers.lookup cid, o.expectsCorrelation = false) := by
  unfold resolvedKey at h
  by_cases ho : c.ownPerformance t = true
  · rw [if_pos ho] at h
    refine ⟨ho, ?_⟩
    cases hc : t.correlationId with
    | some k =>
      simp only [hc] at h
      by_cases hk : k ∈ c.pendingOffers
      · rw [if_pos hk] at h
        cases h
        exact ⟨hk, .inl rfl⟩
      · simp [hk] at h
    | none =>
      simp only [hc, Option.map_eq_some_iff] at h
      obtain ⟨e, he, rfl⟩ := h
      obtain ⟨hmem, hexp⟩ := List.mem_filter.mp (maxByKey_mem _ he)
      have hmem' : e ∈ c.pendingOffers.entries := (iter.perm _).mem_iff.mp hmem
      have hlook : e.2 ∈ c.pendingOffers.lookup e.1 := AList.mem_lookup_iff.mpr hmem'
      refine ⟨AList.lookup_isSome.mp (Option.isSome_of_mem hlook), .inr ⟨rfl, e.2, hlook, ?_⟩⟩
      simpa using hexp
  · simp [ho] at h

theorem mem_bump {m : PendingOffers} {cid : Uuid} : cid ∈ bump m ↔ cid ∈ m := by
  simp [bump, AList.mem_keys, AList.keys, List.keys]

theorem timedOut_nodup (iter : HashOrder) (c : CycleController) : (c.timedOut iter).Nodup := by
  unfold timedOut
  refine (List.filter_sublist.map _).nodup ?_
  exact ((iter.perm _).map Sigma.fst).nodup_iff.mpr (bump c.pendingOffers).nodupKeys

theorem mem_of_mem_timedOut {iter : HashOrder} {c : CycleController} {cid : Uuid}
    (h : cid ∈ c.timedOut iter) : cid ∈ c.pendingOffers := by
  obtain ⟨e, he, rfl⟩ := List.mem_map.mp h
  have hmem := (iter.perm _).mem_iff.mp (List.mem_of_mem_filter he)
  exact mem_bump.mp (AList.mem_keys.mpr (List.mem_map_of_mem hmem))

/-- The correlation id a timeout Tabu reports for an offer. -/
def timeoutCorrelation (m : PendingOffers) (cid : Uuid) : Option Uuid :=
  match m.lookup cid with
  | some o => if o.expectsCorrelation then some cid else none
  | none => none

theorem expireOffer_eq (c : CycleController) (cid : Uuid) :
    c.expireOffer cid = { c with pendingOffers := c.pendingOffers.erase cid }.writeBoth
      "ritual/tabu-timeout" (timeoutBody (timeoutCorrelation c.pendingOffers cid)) := by
  unfold expireOffer timeoutCorrelation assertEvaluatorTimeoutTabu
  cases c.pendingOffers.lookup cid with
  | none => rfl
  | some o => rfl

theorem mem_expireOffers (l : List Uuid) (c : CycleController) (k : Uuid) :
    k ∈ (l.foldl expireOffer c).pendingOffers ↔ k ∈ c.pendingOffers ∧ k ∉ l := by
  induction l generalizing c with
  | nil => simp
  | cons cid l ih =>
    rw [List.foldl_cons, ih, expireOffer_eq, writeBoth_pendingOffers, AList.mem_erase]
    simp only [List.mem_cons, not_or]
    tauto

theorem expireOffers_log (l : List Uuid) (hl : l.Nodup) (c : CycleController) {sid : Uuid}
    (h : c.Mailbox sid) :
    (l.foldl expireOffer c).world.log sid = c.world.log sid ++ l.map fun cid =>
      ("ritual/tabu-timeout", timeoutBody (timeoutCorrelation c.pendingOffers cid)) := by
  induction l generalizing c with
  | nil => simp
  | cons cid l ih =>
    obtain ⟨hnot, hl⟩ := List.nodup_cons.mp hl
    have hm : (c.expireOffer cid).Mailbox sid := by
      rw [expireOffer_eq]
      exact h
    have hm' : { c with pendingOffers := c.pendingOffers.erase cid }.Mailbox sid := h
    rw [List.foldl_cons, ih hl _ hm, expireOffer_eq, writeBoth_log hm', writeBoth_pendingOffers]
    have hrest : ∀ k ∈ l, timeoutCorrelation (c.pendingOffers.erase cid) k =
        timeoutCorrelation c.pendingOffers k := by
      intro k hk
      have hne : k ≠ cid := fun he => hnot (he ▸ hk)
      simp [timeoutCorrelation, AList.lookup_erase_ne hne]
    simp only [List.append_assoc, List.map_cons, List.singleton_append, List.append_cancel_left_eq,
      List.cons.injEq, true_and]
    exact List.map_congr_left fun k hk => by simp [hrest k hk]

theorem ageOffers_pending (iter : HashOrder) (c : CycleController) (cid : Uuid) :
    cid ∈ (c.ageOffers iter).pendingOffers ↔ cid ∈ c.pendingOffers ∧ cid ∉ c.timedOut iter := by
  rw [ageOffers, mem_expireOffers, mem_bump]

theorem ageOffers_log (iter : HashOrder) (c : CycleController) {sid : Uuid} (h : c.Mailbox sid) :
    (c.ageOffers iter).world.log sid = c.world.log sid ++ (c.timedOut iter).map fun cid =>
      ("ritual/tabu-timeout", timeoutBody (timeoutCorrelation (bump c.pendingOffers) cid)) :=
  expireOffers_log _ (c.timedOut_nodup iter) _ h

section Publish
variable (handle : RitualHandle) (publishOk : ClaraEvent → Bool)

/-- The offer a publish registers. -/
def registers (c : CycleController) (e : ClaraEvent) : Option Uuid :=
  if publishOk e then
    match cawsDirective c.world e handle with
    | (some d, _) => if d.expectsReply then some d.correlationId else none
    | (none, world) => some world.newV4.1
  else none

def registersAll : CycleController → List ClaraEvent → List Uuid
  | _, [] => []
  | c, e :: es => (c.registers handle publishOk e).toList ++
      registersAll (c.publishEvent handle publishOk e).1 es

theorem cawsDirective_world (w : World) (e : ClaraEvent) :
    (cawsDirective w e handle).2 = w ∨ (cawsDirective w e handle).2 = w.newV4.2 := by
  unfold cawsDirective
  cases (e.payload.get "_caws").bind Json.asObject with
  | none => exact .inl rfl
  | some caws =>
    dsimp only
    cases ((Fields.get "correlation_id" caws).bind Json.asStr).bind Uuid.parseStr with
    | none => exact .inr rfl
    | some cid => exact .inl rfl

/-- Publishing touches no mailbox: it only mints ids and registers offers. -/
theorem publishEvent_spec (c : CycleController) (e : ClaraEvent) :
    (c.publishEvent handle publishOk e).1.prologId = c.prologId ∧
    (c.publishEvent handle publishOk e).1.clipsId = c.clipsId ∧
    (c.publishEvent handle publishOk e).1.world.rows = c.world.rows ∧
    ∀ k, k ∈ (c.publishEvent handle publishOk e).1.pendingOffers ↔
      k ∈ c.pendingOffers ∨ c.registers handle publishOk e = some k := by
  have hrows : (cawsDirective c.world e handle).2.rows = c.world.rows := by
    rcases cawsDirective_world handle c.world e with h | h
    · rw [h]
    · rw [h, World.newV4_rows]
  unfold publishEvent registers
  generalize cawsDirective c.world e handle = d at hrows ⊢
  obtain ⟨caws, w⟩ := d
  by_cases hok : publishOk e = true
  · cases caws with
    | none =>
      refine ⟨by simp [hok], by simp [hok], by simp [hok, hrows], fun k => ?_⟩
      simp [hok, AList.mem_insert, or_comm, eq_comm]
    | some d =>
      refine ⟨by simp [hok], by simp [hok], by simp [hok, hrows], fun k => ?_⟩
      by_cases hr : d.expectsReply = true
      · simp [hok, hr, AList.mem_insert, or_comm, eq_comm]
      · simp [hok, hr]
  · cases caws with
    | none => exact ⟨by simp [hok], by simp [hok], by simp [hok, hrows], fun k => by simp [hok]⟩
    | some d => exact ⟨by simp [hok], by simp [hok], by simp [hok, hrows], fun k => by simp [hok]⟩

theorem publishEvents_spec (c : CycleController) (es : List ClaraEvent) :
    (publishEvents handle publishOk c es).1.prologId = c.prologId ∧
    (publishEvents handle publishOk c es).1.clipsId = c.clipsId ∧
    (publishEvents handle publishOk c es).1.world.rows = c.world.rows ∧
    ∀ k, k ∈ (publishEvents handle publishOk c es).1.pendingOffers ↔
      k ∈ c.pendingOffers ∨ k ∈ registersAll handle publishOk c es := by
  induction es generalizing c with
  | nil => exact ⟨rfl, rfl, rfl, fun k => by simp [publishEvents, registersAll]⟩
  | cons e es ih =>
    obtain ⟨h1, h2, h3, h4⟩ := publishEvent_spec handle publishOk c e
    obtain ⟨i1, i2, i3, i4⟩ := ih (c.publishEvent handle publishOk e).1
    refine ⟨i1.trans h1, i2.trans h2, i3.trans h3, fun k => ?_⟩
    rw [publishEvents, i4, h4, registersAll, List.mem_append, Option.mem_toList, or_assoc]

/-- The offers one publish pass registers. -/
def evaluatorRegisters (ord : RowOrder) (c : CycleController) : List Uuid :=
  let (events, world) := c.world.poll ord c.prologId (.startsWith "evaluator/")
  registersAll handle publishOk { c with world := world } events

theorem publishEvaluatorEvents_rows (ord : RowOrder) (c : CycleController) :
    (c.publishEvaluatorEvents ord handle publishOk).1.world.rows = c.world.rows.map fun r =>
      if (OriginFilter.startsWith "evaluator/").selects c.prologId r then r.withStatus .processed
      else r := by
  have hrows := (publishEvents_spec handle publishOk
    { c with world := (c.world.poll ord c.prologId (.startsWith "evaluator/")).2 }
    (c.world.poll ord c.prologId (.startsWith "evaluator/")).1).2.2.1
  exact hrows.trans (World.poll_rows ord c.world c.prologId _)

/-- What is still pending after publishing was pending before and is no outbound row. -/
theorem publishEvaluatorEvents_pending (ord : RowOrder) (c : CycleController) {r : ClaraEvent}
    (hr : r ∈ (c.publishEvaluatorEvents ord handle publishOk).1.world.rows)
    (hsid : r.sessionId = c.prologId) (hst : r.status = .pending) :
    r ∈ c.world.rows ∧ originLike "evaluator/" r.origin = false := by
  rw [publishEvaluatorEvents_rows] at hr
  obtain ⟨hold, -, hsel⟩ := Coire.mem_flip_pending.mp ⟨hr, hst⟩
  refine ⟨hold, ?_⟩
  simpa [OriginFilter.selects, OriginFilter.cond, hsid, hst] using hsel

theorem publishEvaluatorEvents_spec (ord : RowOrder) (c : CycleController) :
    (c.publishEvaluatorEvents ord handle publishOk).1.prologId = c.prologId ∧
    (c.publishEvaluatorEvents ord handle publishOk).1.clipsId = c.clipsId ∧
    (∀ s, (c.publishEvaluatorEvents ord handle publishOk).1.world.log s = c.world.log s) ∧
    ∀ k, k ∈ (c.publishEvaluatorEvents ord handle publishOk).1.pendingOffers ↔
      k ∈ c.pendingOffers ∨ k ∈ c.evaluatorRegisters handle publishOk ord := by
  obtain ⟨h1, h2, hrows, hpend⟩ := publishEvents_spec handle publishOk
    { c with world := (c.world.poll ord c.prologId (.startsWith "evaluator/")).2 }
    (c.world.poll ord c.prologId (.startsWith "evaluator/")).1
  refine ⟨h1, h2, fun s => ?_, hpend⟩
  have hlog := World.poll_log ord c.world c.prologId s (.startsWith "evaluator/")
  unfold publishEvaluatorEvents
  rw [World.log, hrows, ← World.log, hlog]

end Publish

end Cerebellum.CycleController
