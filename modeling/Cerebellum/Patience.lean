import Cerebellum.Settlement
import Cerebellum.Cycle

/-! How long an Offering waits. Publishing, peer envelopes, the engines and the checks of
`has_converged` come in any order; each check makes every pending offer one cycle older and drops
those whose patience is exhausted. -/
namespace Cerebellum
open CycleController Transition

inductive CycleStep where
  | engines (acts : List MailAct)
  | publish (publishOk : ClaraEvent → Bool)
  | ingest (t : TephraEnvelope)
  | check (curr : CoireSnapshot) (i : CycleInput)

def CycleStep.isCheck : CycleStep → Bool
  | .check _ _ => true
  | .engines _ | .publish _ | .ingest _ => false

def PendingOffer.older (o : PendingOffer) : PendingOffer :=
  { o with cyclesWaiting := o.cyclesWaiting + 1 }

namespace CycleController

section Published
variable (handle : RitualHandle) (publishOk : ClaraEvent → Bool)

/-- The offer a publish registers, with the message it went out in. -/
def offer (c : CycleController) (e : ClaraEvent) : Option (Uuid × Outgoing) :=
  if publishOk e then
    match cawsDirective c.world e handle with
    | (some d, _) =>
      if d.expectsReply then some (d.correlationId, ⟨cleanBody e.payload, d.label, d.routing⟩)
      else none
    | (none, world) => some (world.newV4.1, ⟨eventValue e, Label.offering, {}⟩)
  else none

def offers : CycleController → List ClaraEvent → List (Uuid × Outgoing)
  | _, [] => []
  | c, e :: es => (c.offer handle publishOk e).toList ++
      offers (c.publishEvent handle publishOk e).1 es

/-- What the map says of `k` once the offer is registered. -/
def entryOf (k : Uuid) (before : Option PendingOffer) :
    Option (Uuid × Outgoing) → Option PendingOffer
  | none => before
  | some (cid, msg) =>
    if k = cid then some (.fresh msg.routing.correlationId.isSome msg.routing.topicPath) else before

theorem cawsDirective_routing {w w' : World} {e : ClaraEvent} {d : CawsDirective}
    (h : cawsDirective w e handle = (some d, w')) :
    d.routing.correlationId = some d.correlationId := by
  unfold cawsDirective at h
  split at h
  next => cases h
  next =>
    obtain ⟨hd, -⟩ := Prod.mk.inj h
    rw [← Option.some.inj hd]

theorem publishEvent_entry (c : CycleController) (e : ClaraEvent) (k : Uuid) :
    (c.publishEvent handle publishOk e).1.pendingOffers.lookup k =
      entryOf k (c.pendingOffers.lookup k) (c.offer handle publishOk e) := by
  unfold publishEvent offer
  cases hd : cawsDirective c.world e handle with
  | mk caws world =>
    cases caws with
    | none =>
      by_cases hok : publishOk e = true
      · by_cases hk : k = world.newV4.1
        · subst hk
          simp [hok, entryOf]
        · simp [hok, entryOf, hk, AList.lookup_insert_ne]
      · simp [hok, entryOf]
    | some d =>
      have hrouting := cawsDirective_routing handle hd
      by_cases hok : publishOk e = true
      · by_cases hr : d.expectsReply = true
        · by_cases hk : k = d.correlationId
          · subst hk
            simp [hok, hr, entryOf, hrouting]
          · simp [hok, hr, entryOf, hk, AList.lookup_insert_ne]
        · simp [hok, hr, entryOf]
      · simp [hok, entryOf]

@[simp] theorem publishEvent_patience (c : CycleController) (e : ClaraEvent) :
    (c.publishEvent handle publishOk e).1.evaluatorPatienceCycles = c.evaluatorPatienceCycles := by
  unfold publishEvent
  cases cawsDirective c.world e handle with
  | mk caws world =>
    cases caws with
    | none =>
      simp only
      split <;> rfl
    | some d =>
      simp only
      split <;> rfl

theorem publishEvents_patience (c : CycleController) (es : List ClaraEvent) :
    (publishEvents handle publishOk c es).1.evaluatorPatienceCycles =
      c.evaluatorPatienceCycles := by
  induction es generalizing c with
  | nil => rfl
  | cons e es ih =>
    rw [publishEvents]
    exact (ih _).trans (publishEvent_patience handle publishOk c e)

/-- An offer nobody registers is as before. -/
theorem publishEvents_other {c : CycleController} {es : List ClaraEvent} {k : Uuid}
    (hk : k ∉ (c.offers handle publishOk es).map Prod.fst) :
    (publishEvents handle publishOk c es).1.pendingOffers.lookup k = c.pendingOffers.lookup k := by
  induction es generalizing c with
  | nil => rfl
  | cons e es ih =>
    rw [offers, List.map_append, List.mem_append, not_or] at hk
    rw [publishEvents]
    refine (ih hk.2).trans ?_
    rw [publishEvent_entry]
    cases ho : c.offer handle publishOk e with
    | none => rfl
    | some x =>
      have hne : k ≠ x.1 := by simpa [ho] using hk.1
      simp [entryOf, hne]

/-- An offer registered once starts to wait, and knows whether its message named it. -/
theorem publishEvents_fresh {c : CycleController} {es : List ClaraEvent} {cid : Uuid}
    {msg : Outgoing} (hmem : (cid, msg) ∈ c.offers handle publishOk es)
    (hnodup : ((c.offers handle publishOk es).map Prod.fst).Nodup) :
    (publishEvents handle publishOk c es).1.pendingOffers.lookup cid =
      some (.fresh msg.routing.correlationId.isSome msg.routing.topicPath) := by
  induction es generalizing c with
  | nil => simp [offers] at hmem
  | cons e es ih =>
    rw [offers, List.map_append, List.nodup_append] at hnodup
    obtain ⟨-, hrest, hdisjoint⟩ := hnodup
    rw [publishEvents]
    rcases List.mem_append.mp hmem with hmem | hmem
    · have ho : c.offer handle publishOk e = some (cid, msg) := by simpa using hmem
      have hnot : cid ∉ (offers handle publishOk (c.publishEvent handle publishOk e).1 es).map
          Prod.fst := by
        intro hin
        exact hdisjoint cid (by simp [ho]) cid hin rfl
      refine (publishEvents_other handle publishOk hnot).trans ?_
      rw [publishEvent_entry, ho]
      simp [entryOf]
    · exact ih hmem hrest

/-- The offers one publish pass registers, each with its message. -/
def evaluatorOffers (ord : RowOrder) (c : CycleController) : List (Uuid × Outgoing) :=
  let (events, world) := c.world.poll ord c.prologId (.startsWith "evaluator/")
  offers handle publishOk { c with world := world } events

/-- A message names the offer it is for, or none. -/
theorem offer_correlation {c : CycleController} {e : ClaraEvent} {cid : Uuid} {msg : Outgoing}
    (h : c.offer handle publishOk e = some (cid, msg)) :
    msg.routing.correlationId = none ∨ msg.routing.correlationId = some cid := by
  unfold offer at h
  split at h
  next =>
    split at h
    next d world hd =>
      split at h
      next =>
        obtain ⟨rfl, rfl⟩ := Prod.mk.inj (Option.some.inj h)
        exact .inr (cawsDirective_routing handle hd)
      next => cases h
    next =>
      obtain ⟨-, rfl⟩ := Prod.mk.inj (Option.some.inj h)
      exact .inl rfl
  next => cases h

theorem offers_correlation {c : CycleController} {es : List ClaraEvent} {cid : Uuid}
    {msg : Outgoing} (h : (cid, msg) ∈ c.offers handle publishOk es) :
    msg.routing.correlationId = none ∨ msg.routing.correlationId = some cid := by
  induction es generalizing c with
  | nil => simp [offers] at h
  | cons e es ih =>
    rcases List.mem_append.mp h with h | h
    · exact offer_correlation handle publishOk (by simpa using h)
    · exact ih h

end Published

/-! ### One check -/

theorem lookup_bump (m : PendingOffers) (k : Uuid) :
    (bump m).lookup k = (m.lookup k).map PendingOffer.older := by
  cases hk : m.lookup k with
  | none =>
    have hnot := AList.lookup_eq_none.mp hk
    exact AList.lookup_eq_none.mpr fun h => hnot (mem_bump.mp h)
  | some o =>
    refine AList.mem_lookup_iff.mpr ?_
    have hmem := AList.mem_lookup_iff.mp (show o ∈ m.lookup k from hk)
    exact List.mem_map.mpr ⟨⟨k, o⟩, hmem, rfl⟩

theorem mem_timedOut {iter : HashOrder} {c : CycleController} {k : Uuid} :
    k ∈ c.timedOut iter ↔ ∃ o, c.pendingOffers.lookup k = some o ∧
      c.evaluatorPatienceCycles ≤ o.cyclesWaiting + 1 := by
  have hentry : ∀ o, ⟨k, o⟩ ∈ iter.order (bump c.pendingOffers).entries ↔
      (c.pendingOffers.lookup k).map PendingOffer.older = some o := by
    intro o
    rw [(iter.perm _).mem_iff, ← AList.mem_lookup_iff, lookup_bump, Option.mem_def]
  simp only [timedOut, List.mem_map, List.mem_filter, decide_eq_true_eq]
  constructor
  · rintro ⟨⟨k', o⟩, ⟨hmem, hle⟩, rfl⟩
    obtain ⟨o', ho', rfl⟩ := Option.map_eq_some_iff.mp ((hentry o).mp hmem)
    exact ⟨o', ho', hle⟩
  · rintro ⟨o, ho, hle⟩
    exact ⟨⟨k, o.older⟩, ⟨(hentry _).mpr (by rw [ho]; rfl), hle⟩, rfl⟩

theorem lookup_expireOffers {l : List Uuid} {c : CycleController} {k : Uuid} (hk : k ∉ l) :
    (l.foldl expireOffer c).pendingOffers.lookup k = c.pendingOffers.lookup k := by
  induction l generalizing c with
  | nil => rfl
  | cons cid l ih =>
    rw [List.mem_cons, not_or] at hk
    rw [List.foldl_cons, ih hk.2, expireOffer_eq, writeBoth_pendingOffers,
      AList.lookup_erase_ne hk.1]

theorem expireOffers_patience (l : List Uuid) (c : CycleController) :
    (l.foldl expireOffer c).evaluatorPatienceCycles = c.evaluatorPatienceCycles := by
  induction l generalizing c with
  | nil => rfl
  | cons cid l ih => exact ih (c.expireOffer cid)

/-- An offer that is not timed out gets older by one, whatever becomes of the others. -/
theorem lookup_ageOffers {iter : HashOrder} {c : CycleController} {k : Uuid}
    (hk : k ∉ c.timedOut iter) :
    (c.ageOffers iter).pendingOffers.lookup k =
      (c.pendingOffers.lookup k).map PendingOffer.older := by
  rw [ageOffers, lookup_expireOffers hk, lookup_bump]

/-! ### Steps -/

variable (ord : RowOrder) (iter : HashOrder)

/-- The controller when a check comes to the offers: the root goal may have been queried. -/
def requeried (c : CycleController) (curr : CoireSnapshot) (i : CycleInput) : CycleController :=
  if (curr.prologPending == 0 && curr.clipsPending == 0) && i.agendaEmpty then
    c.reEvaluateRootGoal ord i
  else c

@[simp] theorem requeried_pendingOffers (c : CycleController) (curr : CoireSnapshot)
    (i : CycleInput) : (c.requeried ord curr i).pendingOffers = c.pendingOffers := by
  unfold requeried
  split <;> rfl

@[simp] theorem requeried_patience (c : CycleController) (curr : CoireSnapshot) (i : CycleInput) :
    (c.requeried ord curr i).evaluatorPatienceCycles = c.evaluatorPatienceCycles := by
  unfold requeried
  split <;> rfl

def cycleStep (c : CycleController) : CycleStep → CycleController
  | .engines acts => { c with world := runActs ord c.world acts }
  | .publish publishOk => c.ritualStep ord iter (.publish publishOk)
  | .ingest t => c.ingestTephra iter t
  | .check curr i => (c.hasConverged ord iter curr i).2

theorem cycleStep_check (c : CycleController) (curr : CoireSnapshot) (i : CycleInput) :
    c.cycleStep ord iter (.check curr i) = (c.requeried ord curr i).ageOffers iter := rfl

/-- A check tells the patience of an offer from its own counter. -/
theorem check_entry (d : CycleController) (curr : CoireSnapshot) (i : CycleInput)
    (k : Uuid) :
    (d.cycleStep ord iter (.check curr i)).pendingOffers.lookup k =
      (d.pendingOffers.lookup k).bind fun o =>
        if d.evaluatorPatienceCycles ≤ o.cyclesWaiting + 1 then none else some o.older := by
  rw [cycleStep_check]
  have htimed : k ∈ (d.requeried ord curr i).timedOut iter ↔
      ∃ o, d.pendingOffers.lookup k = some o ∧
        d.evaluatorPatienceCycles ≤ o.cyclesWaiting + 1 := by
    rw [mem_timedOut, requeried_pendingOffers, requeried_patience]
  by_cases ht : k ∈ (d.requeried ord curr i).timedOut iter
  · obtain ⟨o, ho, hle⟩ := htimed.mp ht
    have hgone : k ∉ ((d.requeried ord curr i).ageOffers iter).pendingOffers := by
      rw [ageOffers_pending]
      exact fun hin => hin.2 ht
    rw [AList.lookup_eq_none.mpr hgone, ho, Option.bind_some, if_pos hle]
  · rw [lookup_ageOffers ht, requeried_pendingOffers]
    cases ho : d.pendingOffers.lookup k with
    | none => rfl
    | some o =>
      have hlt : ¬ d.evaluatorPatienceCycles ≤ o.cyclesWaiting + 1 :=
        fun hle => ht (htimed.mpr ⟨o, ho, hle⟩)
      rw [Option.bind_some, if_neg hlt]
      rfl

/-- The offers a step registers. -/
def offersBy (c : CycleController) : CycleStep → List (Uuid × Outgoing)
  | .publish publishOk =>
    match c.ritualHandle with
    | some h => c.evaluatorOffers h publishOk ord
    | none => []
  | .engines _ | .ingest _ | .check _ _ => []

/-- The step is a reply that resolves the offer. -/
def replies (cid : Uuid) (c : CycleController) : CycleStep → Bool
  | .ingest t => c.settled iter t == some cid
  | .engines _ | .publish _ | .check _ _ => false

/-- The timeouts a check writes into each of the two mailboxes. -/
def timeouts (c : CycleController) : CycleStep → List Write
  | .check curr i => (c.requeried ord curr i).writes iter .age
  | .engines _ | .publish _ | .ingest _ => []

theorem cycleStep_patience (c : CycleController) (s : CycleStep) :
    (c.cycleStep ord iter s).evaluatorPatienceCycles = c.evaluatorPatienceCycles := by
  cases s with
  | engines acts => rfl
  | publish publishOk =>
    simp only [cycleStep, ritualStep]
    cases c.ritualHandle with
    | none => rfl
    | some h => exact publishEvents_patience h publishOk _ _
  | ingest t =>
    simp only [cycleStep, ingestTephra_eq]
    cases c.ingested iter t <;> rfl
  | check curr i =>
    rw [cycleStep_check, ageOffers, expireOffers_patience]
    exact requeried_patience ord c curr i

/-- An offer that is neither registered nor answered by a step waits on as it was, unless the
step is a check. -/
theorem cycleStep_entry {c : CycleController} {s : CycleStep} {cid : Uuid}
    (hcheck : s.isCheck = false) (hnew : cid ∉ (c.offersBy ord s).map Prod.fst)
    (hsilent : c.replies iter cid s = false) :
    (c.cycleStep ord iter s).pendingOffers.lookup cid = c.pendingOffers.lookup cid := by
  cases s with
  | engines acts => rfl
  | publish publishOk =>
    simp only [cycleStep, ritualStep, offersBy] at hnew ⊢
    cases hh : c.ritualHandle with
    | none => rfl
    | some h =>
      rw [hh] at hnew
      exact publishEvents_other h publishOk hnew
  | ingest t =>
    have hne : c.settled iter t ≠ some cid := by simpa [replies] using hsilent
    simp only [cycleStep, ingestTephra_eq]
    cases c.ingested iter t with
    | none => rfl
    | some body =>
      rw [writeBoth_pendingOffers]
      cases hk : c.settled iter t with
      | none => rfl
      | some k =>
        have hck : cid ≠ k := by
          rintro rfl
          exact hne hk
        exact AList.lookup_erase_ne hck
  | check curr i => cases hcheck

theorem cycleStep_fresh {c : CycleController} {s : CycleStep} {cid : Uuid} {msg : Outgoing}
    (hmem : (cid, msg) ∈ c.offersBy ord s) (hnodup : ((c.offersBy ord s).map Prod.fst).Nodup) :
    (c.cycleStep ord iter s).pendingOffers.lookup cid =
        some (.fresh msg.routing.correlationId.isSome msg.routing.topicPath) ∧
      (msg.routing.correlationId = none ∨ msg.routing.correlationId = some cid) := by
  cases s with
  | publish publishOk =>
    simp only [cycleStep, ritualStep, offersBy] at hmem hnodup ⊢
    cases hh : c.ritualHandle with
    | none => simp [hh] at hmem
    | some h =>
      rw [hh] at hmem hnodup
      exact ⟨publishEvents_fresh h publishOk hmem hnodup, offers_correlation h publishOk hmem⟩
  | engines acts => cases hmem
  | ingest t => cases hmem
  | check curr i => cases hmem

/-! ### Waiting -/

/-- Where an offer stands `n` checks after it was published: it waits, or has been dropped. -/
structure Stands (p : Nat) (cid : Uuid) (o : PendingOffer) (n : Nat) (c : CycleController) :
    Prop where
  patience : c.evaluatorPatienceCycles = p
  entry : c.pendingOffers.lookup cid =
    if n < max p 1 then some { o with cyclesWaiting := n } else none

variable {ord iter} {c : CycleController} {cid : Uuid} {o : PendingOffer} {p n : Nat}

theorem Stands.mem_timedOut_iff (h : Stands p cid o n c) (curr : CoireSnapshot) (i : CycleInput) :
    cid ∈ (c.requeried ord curr i).timedOut iter ↔ n + 1 = max p 1 := by
  rw [mem_timedOut, requeried_pendingOffers, requeried_patience, h.entry, h.patience]
  by_cases hn : n < max p 1
  · simp only [hn, if_true, Option.some.injEq]
    constructor
    · rintro ⟨o', rfl, hle⟩
      simp only at hle
      omega
    · intro he
      exact ⟨_, rfl, by simp only; omega⟩
  · simp only [hn, if_false, reduceCtorEq, false_and, exists_false, false_iff]
    omega

/-- Only an offer that is pending is resolved by a reply. -/
theorem mem_of_replies {s : CycleStep} (h : c.replies iter cid s = true) :
    cid ∈ c.pendingOffers := by
  cases s with
  | ingest t =>
    obtain ⟨body, -, -, hk, -⟩ := ingested_of_settled (beq_iff_eq.mp h)
    exact (resolvedKey_some hk).2.1
  | engines acts => cases h
  | publish publishOk => cases h
  | check curr i => cases h

theorem Stands.replies_eq_false (h : Stands p cid o n c) {s : CycleStep}
    (hsilent : n < max p 1 → c.replies iter cid s = false) : c.replies iter cid s = false := by
  by_cases hn : n < max p 1
  · exact hsilent hn
  · have hgone := h.entry
    rw [if_neg hn, AList.lookup_eq_none] at hgone
    exact Bool.eq_false_iff.mpr fun hr => hgone (mem_of_replies hr)

theorem Stands.step (h : Stands p cid o n c) {s : CycleStep}
    (hnew : cid ∉ (c.offersBy ord s).map Prod.fst)
    (hsilent : n < max p 1 → c.replies iter cid s = false) :
    Stands p cid o (n + s.isCheck.toNat) (c.cycleStep ord iter s) := by
  refine ⟨(cycleStep_patience ord iter c s).trans h.patience, ?_⟩
  cases hcheck : s.isCheck with
  | false =>
    rw [cycleStep_entry ord iter hcheck hnew (h.replies_eq_false hsilent)]
    exact h.entry
  | true =>
    cases s with
    | check curr i =>
      rw [check_entry, h.entry, h.patience, Bool.toNat_true]
      by_cases hn : n < max p 1
      · rw [if_pos hn, Option.bind_some]
        by_cases hlast : p ≤ n + 1
        · rw [if_pos hlast, if_neg (by omega)]
        · rw [if_neg hlast, if_pos (by omega)]
          rfl
      · rw [if_neg hn, if_neg (by omega)]
        rfl
    | engines acts => cases hcheck
    | publish publishOk => cases hcheck
    | ingest t => cases hcheck

/-- The timeouts a check writes for one offer. -/
theorem Stands.timeouts_eq (h : Stands p cid o n c) (s : CycleStep) :
    (c.timeouts ord iter s).filter (·.settles == some cid) =
      if s.isCheck = true ∧ n + 1 = max p 1 then
        [⟨some cid, "ritual/tabu-timeout",
          timeoutBody (if o.expectsCorrelation then some cid else none)⟩]
      else [] := by
  cases s with
  | check curr i =>
    have htimed : cid ∈ (c.requeried ord curr i).timedOut iter ↔ n + 1 = max p 1 :=
      h.mem_timedOut_iff curr i
    have hfilter : ((c.requeried ord curr i).timedOut iter).filter (· == cid) =
        if n + 1 = max p 1 then [cid] else [] := by
      rw [List.filter_beq]
      split
      next hn =>
        rw [List.count_eq_one_of_mem (timedOut_nodup iter _) (htimed.mpr hn)]
        rfl
      next hn =>
        rw [List.count_eq_zero_of_not_mem fun hin => hn (htimed.mp hin)]
        rfl
    have hmap : (c.timeouts ord iter (.check curr i)).filter (·.settles == some cid) =
        (((c.requeried ord curr i).timedOut iter).filter (· == cid)).map fun k =>
          ⟨some k, "ritual/tabu-timeout",
            timeoutBody (timeoutCorrelation (bump c.pendingOffers) k)⟩ := by
      simp only [timeouts, writes, requeried_pendingOffers, List.filter_map]
      rfl
    rw [hmap, hfilter]
    by_cases hn : n + 1 = max p 1
    · have hentry := h.entry
      rw [if_pos (by omega)] at hentry
      have hcorrelation : timeoutCorrelation (bump c.pendingOffers) cid =
          if o.expectsCorrelation then some cid else none := by
        simp [timeoutCorrelation, lookup_bump, hentry, PendingOffer.older]
      simp [hn, CycleStep.isCheck, hcorrelation]
    · simp [hn]
  | engines acts => simp [timeouts, CycleStep.isCheck]
  | publish publishOk => simp [timeouts, CycleStep.isCheck]
  | ingest t => simp [timeouts, CycleStep.isCheck]

theorem Stands.run (h : Stands p cid o n c) {w : List CycleStep}
    (hnew : ∀ v ∈ visits (cycleStep ord iter) c w, cid ∉ (v.1.offersBy ord v.2).map Prod.fst)
    (hsilent : n < max p 1 → ∀ v ∈ visits (cycleStep ord iter) c w,
      v.1.replies iter cid v.2 = false) :
    Stands p cid o (n + w.countP CycleStep.isCheck) (Transition.run (cycleStep ord iter) c w) ∧
    ((visits (cycleStep ord iter) c w).flatMap fun v => v.1.timeouts ord iter v.2).filter
        (·.settles == some cid) =
      if n < max p 1 ∧ max p 1 ≤ n + w.countP CycleStep.isCheck then
        [⟨some cid, "ritual/tabu-timeout",
          timeoutBody (if o.expectsCorrelation then some cid else none)⟩]
      else [] := by
  induction w generalizing c n with
  | nil =>
    refine ⟨h, ?_⟩
    rw [if_neg (by rw [List.countP_nil]; omega)]
    rfl
  | cons s w ih =>
    have hstep := h.step (hnew (c, s) (by simp [visits]))
      fun hn => hsilent hn (c, s) (by simp [visits])
    have hrest := ih hstep (fun v hv => hnew v (List.mem_cons_of_mem _ hv))
      fun hn v hv => hsilent (by omega) v (List.mem_cons_of_mem _ hv)
    have hcount : n + (s :: w).countP CycleStep.isCheck =
        n + s.isCheck.toNat + w.countP CycleStep.isCheck := by
      rw [List.countP_cons]
      cases s.isCheck <;> simp
      omega
    rw [hcount]
    refine ⟨hrest.1, ?_⟩
    rw [visits, List.flatMap_cons, List.filter_append, hrest.2, h.timeouts_eq]
    generalize timeoutBody (if o.expectsCorrelation then some cid else none) = body
    cases hcheck : s.isCheck with
    | false => simp
    | true =>
      simp only [Bool.toNat_true, true_and]
      by_cases hn : n + 1 = max p 1
      · rw [if_pos hn, if_neg (by omega), if_pos (by omega), List.append_nil]
      · rw [if_neg hn, List.nil_append]
        by_cases hlt : n < max p 1 ∧ max p 1 ≤ n + 1 + w.countP CycleStep.isCheck
        · rw [if_pos hlt, if_pos (by omega)]
        · rw [if_neg hlt, if_neg (by omega)]

/-! ### Runs -/

variable (ord iter)

/-- Everything registered over a run, the offers pending at its start included. -/
def offered (c : CycleController) (steps : List CycleStep) : List Uuid :=
  c.pendingOffers.keys ++
    (visits (cycleStep ord iter) c steps).flatMap fun v => (v.1.offersBy ord v.2).map Prod.fst

/-- Behind `u` the step `s` publishes an offer in the message `msg`, and in what is left of the
run, `w`, no reply resolves it. -/
structure NeverAnswered (c : CycleController) (u : List CycleStep) (s : CycleStep)
    (w : List CycleStep) (cid : Uuid) (msg : Outgoing) : Prop where
  published : (cid, msg) ∈ (Transition.run (cycleStep ord iter) c u).offersBy ord s
  silent : ∀ v ∈ visits (cycleStep ord iter) (Transition.run (cycleStep ord iter) c (u ++ [s])) w,
    v.1.replies iter cid v.2 = false

/-- The timeout of an offer carries the id its message had, if it had one. -/
def timeoutWrite (cid : Uuid) (msg : Outgoing) : Write :=
  ⟨some cid, "ritual/tabu-timeout", timeoutBody msg.routing.correlationId⟩

/-- Patience along one run. -/
structure KeepsPatience (c : CycleController) (steps : List CycleStep) : Prop where
  /-- The map counts the checks since the offer was published, and holds it until its last. -/
  waits : ∀ u s w cid msg, steps = u ++ s :: w → NeverAnswered ord iter c u s w cid msg →
    (Transition.run (cycleStep ord iter) c steps).pendingOffers.lookup cid =
      if w.countP CycleStep.isCheck < max c.evaluatorPatienceCycles 1 then
        some ⟨w.countP CycleStep.isCheck, msg.routing.correlationId.isSome, msg.routing.topicPath⟩
      else none
  /-- That last check, and no other step of the run, writes its timeout. -/
  timesOut : ∀ u s w cid msg, steps = u ++ s :: w → NeverAnswered ord iter c u s w cid msg →
    ((visits (cycleStep ord iter) c steps).flatMap fun v => v.1.timeouts ord iter v.2).filter
        (·.settles == some cid) =
      if w.countP CycleStep.isCheck < max c.evaluatorPatienceCycles 1 then []
      else [timeoutWrite cid msg]
  itsCheck : ∀ u s w curr i x cid msg, steps = u ++ s :: (w ++ .check curr i :: x) →
    NeverAnswered ord iter c u s (w ++ .check curr i :: x) cid msg →
    ((Transition.run (cycleStep ord iter) c (u ++ s :: w)).timeouts ord iter
        (.check curr i)).filter (·.settles == some cid) =
      if w.countP CycleStep.isCheck + 1 = max c.evaluatorPatienceCycles 1 then
        [timeoutWrite cid msg]
      else []
  named : ∀ u s w cid msg, steps = u ++ s :: w → NeverAnswered ord iter c u s w cid msg →
    msg.routing.correlationId = none ∨ msg.routing.correlationId = some cid
  /-- The timeouts go into both mailboxes alike. -/
  bothAlike : ∀ v ∈ visits (cycleStep ord iter) c steps, ∀ curr i, v.2 = .check curr i →
    ∀ sid, v.1.Mailbox sid → (v.1.cycleStep ord iter v.2).world.log sid =
      (v.1.requeried ord curr i).world.log sid ++
        (v.1.timeouts ord iter v.2).map fun x => (x.origin, x.payload)
  /-- What a check does to an offer depends on its own counter alone. -/
  apart : ∀ v ∈ visits (cycleStep ord iter) c steps, ∀ curr i, v.2 = .check curr i →
    ∀ k, (v.1.cycleStep ord iter v.2).pendingOffers.lookup k =
      (v.1.pendingOffers.lookup k).bind fun o =>
        if c.evaluatorPatienceCycles ≤ o.cyclesWaiting + 1 then none else some o.older
  unconverged : ∀ v ∈ visits (cycleStep ord iter) c steps, ∀ curr i, v.2 = .check curr i →
    v.1.timeouts ord iter v.2 ≠ [] → (v.1.hasConverged ord iter curr i).1 = false

variable {ord iter} {u w : List CycleStep} {s : CycleStep} {msg : Outgoing}

theorem run_snoc (c : CycleController) (u : List CycleStep) (s : CycleStep) :
    Transition.run (cycleStep ord iter) c (u ++ [s]) =
      (Transition.run (cycleStep ord iter) c u).cycleStep ord iter s := run_append _ _ _

theorem run_published (c : CycleController) (u w : List CycleStep) (s : CycleStep) :
    Transition.run (cycleStep ord iter) c (u ++ s :: w) = Transition.run (cycleStep ord iter)
      (Transition.run (cycleStep ord iter) c (u ++ [s])) w := by
  rw [← run_append, List.append_assoc]
  rfl

theorem visits_published (c : CycleController) (u w : List CycleStep) (s : CycleStep) :
    visits (cycleStep ord iter) c (u ++ s :: w) = visits (cycleStep ord iter) c u ++
      (Transition.run (cycleStep ord iter) c u, s) ::
        visits (cycleStep ord iter) (Transition.run (cycleStep ord iter) c (u ++ [s])) w := by
  rw [visits_append, run_snoc]
  rfl

/-- The offer is new when it is published, and is not published again. -/
structure Once (ord : RowOrder) (iter : HashOrder) (c : CycleController) (u : List CycleStep)
    (s : CycleStep) (w : List CycleStep) (cid : Uuid) : Prop where
  start : cid ∉ c.pendingOffers
  before : ∀ v ∈ visits (cycleStep ord iter) c u, cid ∉ (v.1.offersBy ord v.2).map Prod.fst
  itself : (((Transition.run (cycleStep ord iter) c u).offersBy ord s).map Prod.fst).Nodup
  after : ∀ v ∈ visits (cycleStep ord iter) (Transition.run (cycleStep ord iter) c (u ++ [s])) w,
    cid ∉ (v.1.offersBy ord v.2).map Prod.fst

theorem once_of_nodup (hn : (c.offered ord iter (u ++ s :: w)).Nodup)
    (h : NeverAnswered ord iter c u s w cid msg) : Once ord iter c u s w cid := by
  have hmem : cid ∈ ((Transition.run (cycleStep ord iter) c u).offersBy ord s).map Prod.fst :=
    List.mem_map.mpr ⟨_, h.published, rfl⟩
  rw [offered, visits_published, List.flatMap_append, List.flatMap_cons, List.nodup_append,
    List.nodup_append, List.nodup_append] at hn
  obtain ⟨-, ⟨-, ⟨hitself, -, hafter⟩, hbefore⟩, hstart⟩ := hn
  refine ⟨?_, ?_, hitself, ?_⟩
  · intro hin
    refine hstart cid (AList.mem_keys.mp hin) cid ?_ rfl
    exact List.mem_append_right _ (List.mem_append_left _ hmem)
  · intro v hv hin
    exact hbefore cid (List.mem_flatMap.mpr ⟨v, hv, hin⟩) cid (List.mem_append_left _ hmem) rfl
  · intro v hv hin
    exact hafter cid hmem cid (List.mem_flatMap.mpr ⟨v, hv, hin⟩) rfl

/-- Ahead of its publish there is neither entry nor timeout. -/
theorem Once.unheard (h : Once ord iter c u s w cid) (o : PendingOffer) :
    Stands c.evaluatorPatienceCycles cid o
        (max c.evaluatorPatienceCycles 1 + u.countP CycleStep.isCheck)
        (Transition.run (cycleStep ord iter) c u) ∧
    ((visits (cycleStep ord iter) c u).flatMap fun v => v.1.timeouts ord iter v.2).filter
        (·.settles == some cid) = [] := by
  have habsent : Stands c.evaluatorPatienceCycles cid o (max c.evaluatorPatienceCycles 1) c := by
    refine ⟨rfl, ?_⟩
    rw [if_neg (lt_irrefl _)]
    exact AList.lookup_eq_none.mpr h.start
  obtain ⟨hstands, htimeouts⟩ := habsent.run h.before fun hlt => absurd hlt (lt_irrefl _)
  refine ⟨hstands, htimeouts.trans ?_⟩
  rw [if_neg fun hlt => lt_irrefl _ hlt.1]

/-- Right behind its publish the offer begins to wait. -/
theorem Once.stands (h : Once ord iter c u s w cid)
    (hpub : (cid, msg) ∈ (Transition.run (cycleStep ord iter) c u).offersBy ord s) :
    Stands c.evaluatorPatienceCycles cid
        (.fresh msg.routing.correlationId.isSome msg.routing.topicPath) 0
        (Transition.run (cycleStep ord iter) c (u ++ [s])) ∧
      (msg.routing.correlationId = none ∨ msg.routing.correlationId = some cid) := by
  obtain ⟨hentry, hnamed⟩ := cycleStep_fresh ord iter hpub h.itself
  have hpatience := (h.unheard (.fresh true none)).1.patience
  refine ⟨⟨?_, ?_⟩, hnamed⟩
  · rw [run_snoc, cycleStep_patience, hpatience]
  · rw [run_snoc, hentry, if_pos (by omega)]
    rfl

theorem timeouts_of_publish {d : CycleController} (hpub : (cid, msg) ∈ d.offersBy ord s) :
    d.timeouts ord iter s = [] := by
  cases s with
  | check curr i => cases hpub
  | engines acts | publish publishOk | ingest t => rfl

theorem timeoutWrite_eq (h : msg.routing.correlationId = none ∨
    msg.routing.correlationId = some cid) :
    (⟨some cid, "ritual/tabu-timeout", timeoutBody
      (if (PendingOffer.fresh msg.routing.correlationId.isSome msg.routing.topicPath).expectsCorrelation
        then some cid else none)⟩ : Write) = timeoutWrite cid msg := by
  rcases h with h | h <;> simp [timeoutWrite, PendingOffer.fresh, h]

/-- An offer that is published once and never answered, over the whole run. -/
theorem NeverAnswered.waits (h : NeverAnswered ord iter c u s w cid msg)
    (hn : (c.offered ord iter (u ++ s :: w)).Nodup) :
    Stands c.evaluatorPatienceCycles cid
        (.fresh msg.routing.correlationId.isSome msg.routing.topicPath)
        (w.countP CycleStep.isCheck)
        (Transition.run (cycleStep ord iter) c (u ++ s :: w)) ∧
    ((visits (cycleStep ord iter) c (u ++ s :: w)).flatMap fun v =>
        v.1.timeouts ord iter v.2).filter (·.settles == some cid) =
      if w.countP CycleStep.isCheck < max c.evaluatorPatienceCycles 1 then []
      else [timeoutWrite cid msg] := by
  have honce := once_of_nodup hn h
  obtain ⟨hstands, hnamed⟩ := honce.stands h.published
  obtain ⟨hend, htimeouts⟩ := hstands.run honce.after fun _ => h.silent
  rw [Nat.zero_add] at hend htimeouts
  refine ⟨?_, ?_⟩
  · rw [run_published]
    exact hend
  · rw [visits_published, List.flatMap_append, List.flatMap_cons, List.filter_append,
      List.filter_append, (honce.unheard (.fresh true none)).2,
      timeouts_of_publish h.published, htimeouts, timeoutWrite_eq hnamed]
    by_cases hlt : w.countP CycleStep.isCheck < max c.evaluatorPatienceCycles 1
    · rw [if_pos hlt, if_neg (by omega)]
      rfl
    · rw [if_neg hlt, if_pos (by omega)]
      rfl

theorem NeverAnswered.take {x : List CycleStep}
    (h : NeverAnswered ord iter c u s (w ++ x) cid msg) :
    NeverAnswered ord iter c u s w cid msg := by
  refine ⟨h.published, fun v hv => h.silent v ?_⟩
  rw [visits_append]
  exact List.mem_append_left _ hv

theorem offered_take {x : List CycleStep} (hn : (c.offered ord iter (u ++ x)).Nodup) :
    (c.offered ord iter u).Nodup := by
  rw [offered, visits_append, List.flatMap_append, ← List.append_assoc] at hn
  exact (List.nodup_append.mp hn).1

theorem patience_of_visit (c : CycleController) {steps : List CycleStep}
    {v : CycleController × CycleStep} (hv : v ∈ visits (cycleStep ord iter) c steps) :
    v.1.evaluatorPatienceCycles = c.evaluatorPatienceCycles := by
  refine visits_invariant (P := fun d : CycleController =>
    d.evaluatorPatienceCycles = c.evaluatorPatienceCycles) (C := fun _ _ => True) ?_
    (fun _ _ => trivial) rfl v hv
  intro d s _ hd
  exact (cycleStep_patience ord iter d s).trans hd

/-- Every offer waits exactly its patience, in every run in which no id is registered twice. -/
theorem keeps_patience (ord : RowOrder) (iter : HashOrder) (c : CycleController)
    (steps : List CycleStep) (hn : (c.offered ord iter steps).Nodup) :
    KeepsPatience ord iter c steps where
  waits := by
    rintro u s w cid msg rfl h
    exact (h.waits hn).1.entry
  timesOut := by
    rintro u s w cid msg rfl h
    exact (h.waits hn).2
  itsCheck := by
    rintro u s w curr i x cid msg rfl h
    rw [← List.cons_append, ← List.append_assoc] at hn
    have hwaits := h.take.waits (offered_take hn)
    have hnamed := ((once_of_nodup (offered_take hn) h.take).stands h.published).2
    rw [hwaits.1.timeouts_eq, timeoutWrite_eq hnamed]
    simp only [CycleStep.isCheck, true_and]
  named := by
    rintro u s w cid msg rfl h
    exact ((once_of_nodup hn h).stands h.published).2
  bothAlike := by
    rintro ⟨d, s⟩ hv curr i rfl sid hsid
    have hm : (d.requeried ord curr i).Mailbox sid := by
      unfold requeried
      split <;> exact hsid
    exact ritualStep_log ord iter (d.requeried ord curr i) (s := .age) hm (by simp)
  apart := by
    rintro ⟨d, s⟩ hv curr i rfl k
    rw [← patience_of_visit c hv]
    exact check_entry ord iter d curr i k
  unconverged := by
    rintro ⟨d, s⟩ hv curr i rfl htimeouts
    have htimed : ((d.requeried ord curr i).timedOut iter).isEmpty = false := by
      refine Bool.eq_false_iff.mpr fun hempty => htimeouts ?_
      simp only [timeouts, writes, List.isEmpty_iff.mp hempty, List.map_nil]
    change (_ && !(!((d.requeried ord curr i).timedOut iter).isEmpty) && _) = false
    rw [htimed]
    simp

/-- Two offers of which the second is published a check later, with a patience of two. -/
def staggeredRun : List CycleStep :=
  let emit (cid : Uuid) : CycleStep := .engines [.emit ⟨1⟩ "evaluator/offering"
    (.obj [("_caws", .obj [("correlation_id", .str cid.toText)])])]
  let check : CycleStep := .check ⟨0, 0⟩ {}
  [emit ⟨7⟩, .publish fun _ => true, check, emit ⟨8⟩, .publish fun _ => true, check, check]

theorem staggeredRun_keeps_patience :
    ({ joined with evaluatorPatienceCycles := 2 }.offered .stable .listed staggeredRun) =
        [⟨7⟩, ⟨8⟩] ∧
      KeepsPatience .stable .listed { joined with evaluatorPatienceCycles := 2 } staggeredRun := by
  have hoffered : ({ joined with evaluatorPatienceCycles := 2 }.offered .stable .listed
      staggeredRun) = [⟨7⟩, ⟨8⟩] := by
    decide +kernel
  refine ⟨hoffered, keeps_patience .stable .listed _ _ ?_⟩
  rw [hoffered]
  decide

end CycleController
end Cerebellum
