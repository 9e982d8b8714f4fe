import Cerebellum.Caws
import Mathlib.Data.List.TakeWhile
import Mathlib.Logic.Relation

/-! What the drain leaves in the caches, and every caws call as a chain of a few atomic
actions on the engine. -/
namespace Cerebellum

/-- The caches a drain fills, as places to look a correlation id up in. -/
inductive Slot where
  | result
  | failed
  | message (kind : MsgKind)
  | offering
  deriving DecidableEq

def RitualKind.feeds : RitualKind → Slot → Bool
  | .hohi, .result => true
  | .hohi, .message .hohi => true
  | .tabu, .failed => true
  | .tabu, .message .tabu => true
  | .tabuTimeout, .failed => true
  | .event, .message .event => true
  | .offering, .offering => true
  | _, _ => false

/-- The payload an event contributes to a slot under `cid`. -/
def carries (slot : Slot) (cid : Term) (origin : String) (payload : Json) : Option Dict :=
  match correlate payload, RitualKind.ofOrigin origin with
  | .caws c p, some kind => if c = cid ∧ kind.feeds slot = true then some p else none
  | _, _ => none

theorem ofOrigin_ritual {origin : String} {kind : RitualKind}
    (h : RitualKind.ofOrigin origin = some kind) : originLike "ritual/" origin = true := by
  unfold RitualKind.ofOrigin at h
  split_ifs at h with h1 h2 h3 h4 h5
  all_goals subst origin; decide

theorem carries_ritual {slot : Slot} {cid : Term} {origin : String} {payload : Json}
    (h : (carries slot cid origin payload).isSome = true) : originLike "ritual/" origin = true := by
  unfold carries at h
  cases hk : RitualKind.ofOrigin origin with
  | none => cases hc : correlate payload <;> simp [hk, hc] at h
  | some kind => exact ofOrigin_ritual hk

/-- The origins that feed a slot. -/
def Slot.origins : Slot → List String
  | .result => ["ritual/hohi"]
  | .failed => ["ritual/tabu", "ritual/tabu-timeout"]
  | .message .event => ["ritual/event"]
  | .message .hohi => ["ritual/hohi"]
  | .message .tabu => ["ritual/tabu"]
  | .offering => ["ritual/offering"]

theorem carries_isSome_iff {slot : Slot} {cid : Term} {origin : String} {payload : Json} :
    (carries slot cid origin payload).isSome = true ↔
      origin ∈ slot.origins ∧ ∃ p, correlate payload = .caws cid p := by
  have hfeeds : (∃ kind, RitualKind.ofOrigin origin = some kind ∧ kind.feeds slot = true) ↔
      origin ∈ slot.origins := by
    unfold RitualKind.ofOrigin
    split_ifs with h1 h2 h3 h4 h5
    · subst h1; cases slot <;> (try rename_i k; cases k) <;> simp [RitualKind.feeds, Slot.origins]
    · subst h2; cases slot <;> (try rename_i k; cases k) <;> simp [RitualKind.feeds, Slot.origins]
    · subst h3; cases slot <;> (try rename_i k; cases k) <;> simp [RitualKind.feeds, Slot.origins]
    · subst h4; cases slot <;> (try rename_i k; cases k) <;> simp [RitualKind.feeds, Slot.origins]
    · subst h5; cases slot <;> (try rename_i k; cases k) <;> simp [RitualKind.feeds, Slot.origins]
    · cases slot <;> (try rename_i k; cases k) <;> simp [Slot.origins, *]
  rw [← hfeeds]
  unfold carries
  cases hc : correlate payload with
  | foreign => simp
  | malformed => simp
  | caws c p =>
    cases hk : RitualKind.ofOrigin origin with
    | none => simp
    | some kind =>
      by_cases he : c = cid <;> by_cases hf : kind.feeds slot = true <;> simp [he, hf]

namespace Caws

def lookup (c : Caws) : Slot → Term → Option Dict
  | .result, cid => Table.find cid c.result
  | .failed, cid => Table.find cid c.failed
  | .message kind, cid => Table.find (kind, cid) c.message
  | .offering, cid => (Table.find cid c.offering).map Prod.snd

theorem teePayload_eq (c : Caws) (kind : MsgKind) (cid : Term) :
    c.teePayload kind cid = c.lookup (match kind with
      | .hohi => .result
      | .tabu => .failed
      | .event => .message .event) cid := by
  cases kind <;> rfl

/-- The first message of a kind for `cid` is kept, later ones change nothing. -/
theorem cacheByOrigin_lookup (c : Caws) (origin : String) (cid' cid : Term) (p : Dict)
    (slot : Slot) : (c.cacheByOrigin origin cid' p).lookup slot cid =
      (c.lookup slot cid).or (match RitualKind.ofOrigin origin with
        | some kind => if cid' = cid ∧ kind.feeds slot = true then some p else none
        | none => none) := by
  unfold cacheByOrigin
  cases RitualKind.ofOrigin origin with
  | none => simp
  | some kind =>
    by_cases hc : cid' = cid
    · subst hc
      cases kind <;> rcases slot with _ | _ | k | _ <;> (try cases k) <;>
        simp [lookup, Table.find_insertNew, RitualKind.feeds]
      -- what is left is the offering cache, which keeps a topic beside the payload
      cases Table.find cid' c.offering <;> rfl
    · have hc' : cid ≠ cid' := Ne.symm hc
      cases kind <;> rcases slot with _ | _ | k | _ <;>
        simp [lookup, Table.find_insertNew, hc, hc']

theorem cacheEvent_lookup {c c' : Caws} {e : ClaraEvent} (h : c.cacheEvent e = some c')
    (slot : Slot) (cid : Term) :
    c'.lookup slot cid = (c.lookup slot cid).or (carries slot cid e.origin e.payload) := by
  unfold cacheEvent at h
  unfold carries
  cases hc : correlate e.payload with
  | malformed => simp [hc] at h
  | foreign =>
    simp only [hc, Option.some.injEq] at h
    subst h
    simp
  | caws cid' p =>
    simp only [hc, Option.some.injEq] at h
    subst h
    rw [cacheByOrigin_lookup]
    cases RitualKind.ofOrigin e.origin <;> rfl

/-- The part of a batch ahead of the first event that raises an error. -/
def readable (es : List ClaraEvent) : List ClaraEvent :=
  es.takeWhile fun e => correlate e.payload ≠ .malformed

theorem cacheEvents_lookup (c : Caws) (es : List ClaraEvent) (slot : Slot) (cid : Term) :
    (c.cacheEvents es).1.lookup slot cid = (c.lookup slot cid).or
      ((readable es).findSome? fun e => carries slot cid e.origin e.payload) := by
  induction es generalizing c with
  | nil => simp [cacheEvents, readable]
  | cons e es ih =>
    cases hc : c.cacheEvent e with
    | none =>
      have hm : correlate e.payload = .malformed := by
        unfold cacheEvent at hc
        cases h : correlate e.payload <;> simp [h] at hc ⊢
      simp [cacheEvents, hc, readable, hm]
    | some c' =>
      have hm : correlate e.payload ≠ .malformed := by
        intro h
        simp [cacheEvent, h] at hc
      have hr : readable (e :: es) = e :: readable es := by simp [readable, hm]
      rw [cacheEvents, hc, hr, List.findSome?_cons]
      simp only
      rw [ih, cacheEvent_lookup hc]
      cases c.lookup slot cid <;> cases carries slot cid e.origin e.payload <;> rfl

theorem cacheEvents_ok (c : Caws) (es : List ClaraEvent) :
    (c.cacheEvents es).2 = true ↔ ∀ e ∈ es, correlate e.payload ≠ .malformed := by
  induction es generalizing c with
  | nil => simp [cacheEvents]
  | cons e es ih =>
    unfold cacheEvents cacheEvent
    cases h : correlate e.payload <;> simp [h, ih]

/-- Two engines' tables that agree on everything the drain and the publishing touch. -/
structure SameCaches (c d : Caws) : Prop where
  offerSent : c.offerSent = d.offerSent
  result : c.result = d.result
  failed : c.failed = d.failed
  offering : c.offering = d.offering
  message : c.message = d.message
  emitted : c.emitted = d.emitted

theorem SameCaches.lookup {c d : Caws} (h : c.SameCaches d) (slot : Slot) (cid : Term) :
    c.lookup slot cid = d.lookup slot cid := by
  cases slot <;> simp [Caws.lookup, h.result, h.failed, h.message, h.offering]

/-- A drain writes into its four caches only. -/
theorem cacheEvents_frame (c : Caws) (es : List ClaraEvent) :
    (c.cacheEvents es).1 = { c with
      result := (c.cacheEvents es).1.result
      failed := (c.cacheEvents es).1.failed
      offering := (c.cacheEvents es).1.offering
      message := (c.cacheEvents es).1.message } := by
  induction es generalizing c with
  | nil => rfl
  | cons e es ih =>
    cases hc : c.cacheEvent e with
    | none => simp [cacheEvents, hc]
    | some c' =>
      have hframe : c' = { c with
          result := c'.result
          failed := c'.failed
          offering := c'.offering
          message := c'.message } := by
        unfold cacheEvent at hc
        cases h : correlate e.payload with
        | malformed => simp [h] at hc
        | foreign =>
          simp only [h, Option.some.injEq] at hc
          subst hc
          rfl
        | caws cid p =>
          simp only [h, Option.some.injEq] at hc
          subst hc
          unfold cacheByOrigin
          split <;> rfl
      simp only [cacheEvents, hc]
      rw [ih c']
      rw [hframe]

end Caws

namespace Engine
variable (ord : RowOrder)

/-- The events one drain reads. -/
def batch (s : Engine) : List ClaraEvent := (s.world.poll ord s.session (.startsWith "ritual/")).1

def drain (s : Engine) : Engine := (s.drainRitualEvents ord).2

@[simp] theorem drain_session (s : Engine) : (s.drain ord).session = s.session := rfl
@[simp] theorem drain_world (s : Engine) :
    (s.drain ord).world = (s.world.poll ord s.session (.startsWith "ritual/")).2 := rfl

theorem drain_rows (s : Engine) : (s.drain ord).world.rows = s.world.rows.map fun r =>
    if (OriginFilter.startsWith "ritual/").selects s.session r then r.withStatus .processed else r :=
  World.poll_rows ord s.world s.session _

theorem drain_caws (s : Engine) :
    (s.drain ord).caws = (s.caws.cacheEvents (s.batch ord)).1 := rfl

theorem drain_ok (s : Engine) : (s.drainRitualEvents ord).1 = true ↔
    ∀ e ∈ s.batch ord, correlate e.payload ≠ .malformed :=
  s.caws.cacheEvents_ok (s.batch ord)

theorem drain_lookup (s : Engine) (slot : Slot) (cid : Term) :
    (s.drain ord).caws.lookup slot cid = (s.caws.lookup slot cid).or
      ((Caws.readable (s.batch ord)).findSome? fun e => carries slot cid e.origin e.payload) :=
  s.caws.cacheEvents_lookup (s.batch ord) slot cid

/-- The atomic actions of the caws predicates. `memo` is bookkeeping: it leaves the
caches and the two publish tables alone. -/
inductive Act : Engine → Engine → Prop where
  | drain (s : Engine) : Act s (s.drain ord)
  | mint (s : Engine) : Act s s.cawsUuid.2
  | offer (s : Engine) (key : OfferKey) (h : Table.find key s.caws.offerSent = none) :
      Act s (s.offerDict key).2
  | emitCid (s : Engine) (key : EmitKey) (cid : Term) (h : cid ∉ s.caws.emitted)
      (hc : (∃ slot, (s.caws.lookup slot cid).isSome = true) ∨ ∃ u : Uuid, cid = .atom u.toText) :
      Act s (s.emitCid key cid)
  | squawk (s : Engine) (payload : Dict) (tags topic : Term) :
      Act s (s.emitCaws "evaluator/squawk" payload
        [("expects_reply", .atom "false"), ("tags", tags), ("topic_path", topic)])
  | memo (s : Engine) (c : Caws) (h : c.SameCaches s.caws) : Act s { s with caws := c }

abbrev Acts := Relation.ReflTransGen (Act ord)

variable {ord}

theorem Acts.offerDict (s : Engine) (key : OfferKey) : Acts ord s (s.offerDict key).2 := by
  cases h : Table.find key s.caws.offerSent with
  | some cid =>
    have he : (s.offerDict key).2 = s := by simp [Engine.offerDict, h]
    rw [he]
  | none => exact .single (.offer s key h)

theorem Acts.emitCid {s : Engine} (key : EmitKey) {cid : Term}
    (hc : (∃ slot, (s.caws.lookup slot cid).isSome = true) ∨ ∃ u : Uuid, cid = .atom u.toText) :
    Acts ord s (s.emitCid key cid) := by
  by_cases h : cid ∈ s.caws.emitted
  · have he : s.emitCid key cid = s := by simp [Engine.emitCid, h]
    rw [he]
  · exact .single (.emitCid s key cid h hc)

theorem Acts.cawsOffer (ord : RowOrder) (s : Engine) (target topic : String) (payload : CawsPayload) :
    Acts ord s (s.cawsOffer target topic payload).2 := by
  unfold Engine.cawsOffer
  cases payload.payloadDict with
  | succeeds dict => exact Acts.offerDict s _
  | fails => exact .refl
  | throws => exact .refl

/-- A guarded predicate stops at its memo, stops at a drain that raises an error, or goes
on from the drained engine. -/
theorem unlessSeen_eq {α : Type*} (s : Engine) (seen : Bool) (skip : α)
    (body : Engine → Outcome α × Engine) : s.unlessSeen ord seen skip body =
      if seen then (.succeeds skip, s)
      else if (s.drainRitualEvents ord).1 then body (s.drain ord) else (.throws, s.drain ord) := by
  unfold unlessSeen Engine.drain
  generalize s.drainRitualEvents ord = r
  obtain ⟨ok, t⟩ := r
  cases ok <;> rfl

theorem cawsAwait_eq (s : Engine) (cid : Term) : s.cawsAwait ord cid =
    match s.caws.lookup .result cid, s.caws.lookup .failed cid with
    | some r, _ => (.succeeds r, s)
    | none, some _ => (.fails, s)
    | none, none =>
      if (s.drainRitualEvents ord).1 then
        match (s.drain ord).caws.lookup .result cid with
        | some r => (.succeeds r, s.drain ord)
        | none => (.fails, s.drain ord)
      else (.throws, s.drain ord) := by
  unfold cawsAwait Engine.drain
  simp only [Caws.lookup]
  generalize s.drainRitualEvents ord = r
  obtain ⟨ok, t⟩ := r
  cases Table.find cid s.caws.result with
  | some q => rfl
  | none =>
    cases Table.find cid s.caws.failed with
    | some q => rfl
    | none =>
      cases ok with
      | true =>
        cases ht : Table.find cid t.caws.result with
        | some q => simp only [ht]; rfl
        | none => simp only [ht]; rfl
      | false => rfl

theorem Acts.unlessSeen {α : Type*} {s : Engine} {seen : Bool} {skip : α}
    {body : Engine → Outcome α × Engine} (hb : ∀ t, Acts ord t (body t).2) :
    Acts ord s (s.unlessSeen ord seen skip body).2 := by
  have hd : Acts ord s (s.drain ord) := .single (.drain s)
  rw [unlessSeen_eq]
  split
  · exact .refl
  · split
    · exact hd.trans (hb _)
    · exact hd

theorem Acts.cawsAwait (s : Engine) (cid : Term) : Acts ord s (s.cawsAwait ord cid).2 := by
  have hd : Acts ord s (s.drain ord) := .single (.drain s)
  rw [cawsAwait_eq]
  split
  · exact .refl
  · exact .refl
  · split
    · split <;> exact hd
    · exact hd

theorem Acts.call (s : Engine) (c : Call) : Acts ord s (s.call ord c) := by
  cases c with
  | offer target topic payload => exact Acts.cawsOffer ord s target topic payload
  | await cid => exact Acts.cawsAwait s cid
  | consult target topic payload =>
    have ho := Acts.cawsOffer ord s target topic payload
    simp only [Engine.call, cawsConsult]
    generalize s.cawsOffer target topic payload = r at ho
    obtain ⟨o, s'⟩ := r
    cases o with
    | succeeds cid => exact ho.trans (Acts.cawsAwait s' cid)
    | fails => exact ho
    | throws => exact ho
  | pipe edge target topic cid =>
    refine Acts.unlessSeen fun t => ?_
    split
    · exact (Acts.offerDict t _).trans (.single (.memo _ _ ⟨rfl, rfl, rfl, rfl, rfl, rfl⟩))
    · exact .refl
  | edgeReply edge kind cid =>
    refine Acts.unlessSeen fun t => ?_
    split
    · exact .single (.memo _ _ ⟨rfl, rfl, rfl, rfl, rfl, rfl⟩)
    · exact .refl
  | emit target topic kind payload =>
    simp only [Engine.call, cawsEmit]
    cases payload.payloadDict with
    | succeeds dict =>
      dsimp only
      split
      · exact .refl
      · have hm : Acts ord s s.cawsUuid.2 := .single (.mint s)
        exact (hm.trans (Acts.emitCid _ (.inr ⟨_, rfl⟩))).trans
          (.single (.memo _ _ ⟨rfl, rfl, rfl, rfl, rfl, rfl⟩))
    | fails => exact .refl
    | throws => exact .refl
  | squawk topic tags payload =>
    simp only [Engine.call, cawsSquawk]
    cases payload.payloadDict with
    | succeeds dict => exact .single (.squawk s dict _ _)
    | fails => exact .refl
    | throws => exact .refl
  | tee edge target topic kind cid =>
    refine Acts.unlessSeen fun t => ?_
    split
    · rename_i payload hp
      rw [Caws.teePayload_eq] at hp
      have hmemo : Acts ord t
          { t with caws := { t.caws with teed := t.caws.teed ++ [(edge, cid)] } } :=
        .single (.memo t _ ⟨rfl, rfl, rfl, rfl, rfl, rfl⟩)
      exact hmemo.trans (Acts.emitCid _ (.inl ⟨_, Option.isSome_of_mem hp⟩))
    · exact .refl
  | edgeMessage edge kind cid =>
    refine Acts.unlessSeen fun t => ?_
    split
    · exact .single (.memo _ _ ⟨rfl, rfl, rfl, rfl, rfl, rfl⟩)
    · exact .refl

theorem Acts.invariant {P : Engine → Prop} (h : ∀ s t, Act ord s t → P s → P t) {s t : Engine}
    (hacts : Acts ord s t) (hs : P s) : P t := by
  induction hacts with
  | refl => exact hs
  | tail _ hact ih => exact h _ _ hact ih

/-- What every atomic action keeps, every call keeps. -/
theorem call_invariant {P : Engine → Prop} (h : ∀ s t, Act ord s t → P s → P t) {s : Engine}
    (c : Call) (hs : P s) : P (s.call ord c) :=
  Acts.invariant h (Acts.call s c) hs

/-- A view of the tables that neither the drain nor the publishing changes. -/
structure Blind {γ : Type*} (view : Caws → γ) : Prop where
  drain : ∀ c r f o m,
    view { c with result := r, failed := f, offering := o, message := m } = view c
  offer : ∀ c x, view { c with offerSent := x } = view c
  emit : ∀ c x, view { c with emitted := x } = view c
  emitSent : ∀ c x, view { c with emitSent := x } = view c

section Frame
variable {γ : Type*} {view : Caws → γ} (hb : Blind view)
include hb

theorem drain_view (ord : RowOrder) (s : Engine) : view (s.drain ord).caws = view s.caws := by
  rw [drain_caws, Caws.cacheEvents_frame]
  exact hb.drain ..

theorem offerDict_view (s : Engine) (key : OfferKey) :
    view (s.offerDict key).2.caws = view s.caws := by
  unfold offerDict
  split
  · rfl
  · exact hb.offer ..

theorem emitCid_view (s : Engine) (key : EmitKey) (cid : Term) :
    view (s.emitCid key cid).caws = view s.caws := by
  unfold emitCid
  split
  · rfl
  · exact hb.emit ..

theorem cawsOffer_view (s : Engine) (target topic : String) (payload : CawsPayload) :
    view (s.cawsOffer target topic payload).2.caws = view s.caws := by
  unfold cawsOffer
  cases payload.payloadDict with
  | succeeds dict => exact offerDict_view hb s _
  | fails => rfl
  | throws => rfl

theorem cawsAwait_view (s : Engine) (cid : Term) :
    view (s.cawsAwait ord cid).2.caws = view s.caws := by
  have hd := drain_view hb ord s
  rw [cawsAwait_eq]
  split
  · rfl
  · rfl
  · split
    · split <;> exact hd
    · exact hd

theorem unlessSeen_view {α : Type*} {s : Engine} {seen : Bool} {skip : α}
    {body : Engine → Outcome α × Engine} (hbody : ∀ t, view (body t).2.caws = view t.caws) :
    view (s.unlessSeen ord seen skip body).2.caws = view s.caws := by
  have hd := drain_view hb ord s
  rw [unlessSeen_eq]
  split
  · rfl
  · split
    · exact (hbody _).trans hd
    · exact hd

/-- A call leaves a view alone unless it is the one edge predicate that writes it. -/
theorem call_view (ord : RowOrder) (s : Engine) (c : Call)
    (hpipe : ∀ e t p cid, c = .pipe e t p cid →
      ∀ d x y, view { d with piped := x, edgeOffer := y } = view d)
    (hreply : ∀ e k cid, c = .edgeReply e k cid →
      ∀ d x y, view { d with edgeReplied := x, edgeResult := y } = view d)
    (htee : ∀ e t p k cid, c = .tee e t p k cid → ∀ d x, view { d with teed := x } = view d)
    (hmsg : ∀ e k cid, c = .edgeMessage e k cid →
      ∀ d x y, view { d with edgeMsgSeen := x, edgeMessage := y } = view d) :
    view (s.call ord c).caws = view s.caws := by
  cases c with
  | offer target topic payload => exact cawsOffer_view hb s target topic payload
  | await cid => exact cawsAwait_view hb s cid
  | consult target topic payload =>
    have ho := cawsOffer_view hb s target topic payload
    simp only [Engine.call, cawsConsult]
    generalize s.cawsOffer target topic payload = r at ho
    obtain ⟨o, s'⟩ := r
    cases o with
    | succeeds cid => exact (cawsAwait_view hb s' cid).trans ho
    | fails => exact ho
    | throws => exact ho
  | pipe edge target topic cid =>
    refine unlessSeen_view hb fun t => ?_
    split
    · exact (hpipe _ _ _ _ rfl ..).trans (offerDict_view hb t _)
    · rfl
  | edgeReply edge kind cid =>
    refine unlessSeen_view hb fun t => ?_
    split
    · exact hreply _ _ _ rfl ..
    · rfl
  | emit target topic kind payload =>
    simp only [Engine.call, cawsEmit]
    cases payload.payloadDict with
    | succeeds dict =>
      dsimp only
      split
      · rfl
      · exact (hb.emitSent ..).trans (emitCid_view hb s.cawsUuid.2 _ _)
    | fails => rfl
    | throws => rfl
  | squawk topic tags payload =>
    simp only [Engine.call, cawsSquawk]
    cases payload.payloadDict <;> rfl
  | tee edge target topic kind cid =>
    refine unlessSeen_view hb fun t => ?_
    split
    · exact (emitCid_view hb _ _ _).trans (htee _ _ _ _ _ rfl ..)
    · rfl
  | edgeMessage edge kind cid =>
    refine unlessSeen_view hb fun t => ?_
    split
    · exact hmsg _ _ _ rfl ..
    · rfl

end Frame

end Engine

end Cerebellum
