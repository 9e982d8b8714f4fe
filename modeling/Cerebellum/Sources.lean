import Cerebellum.Seeding
import Cerebellum.Lib.Keyed
import Cerebellum.Lib.OrderBy
import Cerebellum.Lib.Transition
import Mathlib.Data.Set.Function

/-! The source registry with its artifacts and its expiry: registration under the content hash,
artifacts generated on demand, deletion and the sweep. -/
namespace Cerebellum
open Transition

/-- A row of `source_registry`. -/
structure SourceRow extends SourceEntry where
  label : Option String
  createdAtMs : Int
  expiresAtMs : Option Int
  deriving DecidableEq

/-- A row of `source_artifacts`. -/
structure ArtifactEntry where
  artifactId : Uuid
  sourceId : Uuid
  artifactType : String
  content : String
  generatedAtMs : Int
  expiresAtMs : Option Int
  deriving DecidableEq

/-- `expires_at_ms IS NOT NULL AND expires_at_ms <= ?`. -/
def expired (now : Int) : Option Int → Bool
  | none => false
  | some t => decide (t ≤ now)

/-- `ORDER BY generated_at_ms DESC`. -/
abbrev ArtifactOrder := OrderBy fun a : ArtifactEntry => -a.generatedAtMs

inductive SourceError where
  | generator
  | primaryKey
  deriving DecidableEq, Repr

/-- The two tables with their primary keys. -/
structure SourceTables where
  sources : List SourceRow
  artifacts : List ArtifactEntry
  sourceKey : (sources.map (·.sourceId)).Nodup
  artifactKey : (artifacts.map (·.artifactId)).Nodup

namespace SourceTables

def new : SourceTables := ⟨[], [], List.nodup_nil, List.nodup_nil⟩

/-- `INSERT INTO source_registry`. -/
def insertSource (s : SourceTables) (r : SourceRow) : Except SourceError SourceTables :=
  if h : r.sourceId ∈ s.sources.map (·.sourceId) then .error .primaryKey
  else .ok { s with
    sources := s.sources ++ [r]
    sourceKey := by
      rw [List.map_append]
      exact List.nodup_append.mpr ⟨s.sourceKey, by simp, by
        intro a ha b hb he
        rw [he, List.mem_singleton.mp hb] at ha
        exact h ha⟩ }

/-- `INSERT INTO source_artifacts`. -/
def insertArtifact (s : SourceTables) (a : ArtifactEntry) : Except SourceError SourceTables :=
  if h : a.artifactId ∈ s.artifacts.map (·.artifactId) then .error .primaryKey
  else .ok { s with
    artifacts := s.artifacts ++ [a]
    artifactKey := by
      rw [List.map_append]
      exact List.nodup_append.mpr ⟨s.artifactKey, by simp, by
        intro x hx b hb he
        rw [he, List.mem_singleton.mp hb] at hx
        exact h hx⟩ }

/-- `DELETE FROM source_registry WHERE p`, with the number of rows deleted. -/
def deleteSources (s : SourceTables) (p : SourceRow → Bool) : Nat × SourceTables :=
  (s.sources.countP p, { s with
    sources := s.sources.filter fun r => !p r
    sourceKey := s.sourceKey.sublist (List.filter_sublist.map _) })

/-- `DELETE FROM source_artifacts WHERE p`, with the number of rows deleted. -/
def deleteArtifacts (s : SourceTables) (p : ArtifactEntry → Bool) : Nat × SourceTables :=
  (s.artifacts.countP p, { s with
    artifacts := s.artifacts.filter fun a => !p a
    artifactKey := s.artifactKey.sublist (List.filter_sublist.map _) })

/-- The id of a new source and its clock reading are taken only when the content is new. -/
def register (hash : String → String) (newId : Uuid) (now : Int) (s : SourceTables)
    (sourceType : String) (label : Option String) (content : String) (expiresAtMs : Option Int) :
    Except SourceError (Uuid × Bool) × SourceTables :=
  match s.sources.find? fun r => r.contentHash == hash content && r.sourceType == sourceType with
  | some r => (.ok (r.sourceId, false), s)
  | none =>
    match s.insertSource { sourceId := newId, contentHash := hash content, sourceType := sourceType
                           label := label, content := content, createdAtMs := now
                           expiresAtMs := expiresAtMs } with
    | .ok s => (.ok (newId, true), s)
    | .error e => (.error e, s)

def get (s : SourceTables) (sid : Uuid) : Option SourceRow := s.sources.find? (·.sourceId == sid)

def getArtifactBySource (ord : ArtifactOrder) (s : SourceTables) (sid : Uuid)
    (artifactType : String) : Option ArtifactEntry :=
  (ord.sort (s.artifacts.filter fun a => a.sourceId == sid && a.artifactType == artifactType)).head?

/-- `none` in the answer when the source does not exist. -/
def getOrCreateArtifact (ord : ArtifactOrder) (newId : Uuid) (now : Int) (s : SourceTables)
    (sid : Uuid) (artifactType : String) (expiresAtMs : Option Int)
    (generator : String → Option String) :
    Except SourceError (Option ArtifactEntry) × SourceTables :=
  match s.getArtifactBySource ord sid artifactType with
  | some a => (.ok (some a), s)
  | none =>
    match s.get sid with
    | none => (.ok none, s)
    | some entry =>
      match generator entry.content with
      | none => (.error .generator, s)
      | some content =>
        let a : ArtifactEntry :=
          { artifactId := newId, sourceId := sid, artifactType := artifactType, content := content
            generatedAtMs := now, expiresAtMs := expiresAtMs }
        match s.insertArtifact a with
        | .ok s => (.ok (some a), s)
        | .error e => (.error e, s)

def delete (s : SourceTables) (sid : Uuid) : SourceTables :=
  ((s.deleteArtifacts (·.sourceId == sid)).2.deleteSources (·.sourceId == sid)).2

/-- The four `DELETE`s in their order, and the sum of what they delete. -/
def sweepExpired (s : SourceTables) (now : Int) : Nat × SourceTables :=
  let (artFromSources, s) := s.deleteArtifacts fun a =>
    s.sources.any fun r => expired now r.expiresAtMs && r.sourceId == a.sourceId
  let (sources, s) := s.deleteSources fun r => expired now r.expiresAtMs
  let (orphans, s) := s.deleteArtifacts fun a => !s.sources.any (·.sourceId == a.sourceId)
  let (artExpired, s) := s.deleteArtifacts fun a => expired now a.expiresAtMs
  (artFromSources + sources + orphans + artExpired, s)

/-- The part of the registry the deductions are seeded from. -/
def toRegistry (s : SourceTables) : SourceRegistry := ⟨s.sources.map (·.toSourceEntry)⟩

theorem get_toRegistry (s : SourceTables) (sid : Uuid) :
    s.toRegistry.get sid = (s.get sid).map (·.toSourceEntry) := by
  simp only [toRegistry, SourceRegistry.get, get, List.find?_map]
  rfl

/-- Registration does to the part the deductions see what they expect of it. -/
theorem register_toRegistry (hash : String → String) {newId : Uuid} (now : Int) {s : SourceTables}
    (sourceType : String) (label : Option String) (content : String) (expiresAtMs : Option Int)
    (hnew : newId ∉ s.sources.map (·.sourceId)) :
    let (answer, s') := s.register hash newId now sourceType label content expiresAtMs
    let (sid, reg) := s.toRegistry.register hash newId sourceType content
    answer.map Prod.fst = .ok sid ∧ s'.toRegistry = reg := by
  have hfind : s.toRegistry.rows.find?
      (fun e => e.contentHash == hash content && e.sourceType == sourceType) =
      (s.sources.find? fun r => r.contentHash == hash content && r.sourceType == sourceType).map
        (·.toSourceEntry) := by
    simp only [toRegistry, List.find?_map]
    rfl
  unfold register SourceRegistry.register
  rw [hfind]
  cases s.sources.find? fun r => r.contentHash == hash content && r.sourceType == sourceType with
  | some r => exact ⟨rfl, rfl⟩
  | none => simp [insertSource, hnew, toRegistry, Except.map]

end SourceTables

/-- A call on the registry; the ids and the generator come from outside. -/
inductive SourceOp where
  | register (newId : Uuid) (sourceType : String) (label : Option String) (content : String)
    (expiresAtMs : Option Int)
  | getOrCreateArtifact (newId : Uuid) (sid : Uuid) (artifactType : String)
    (expiresAtMs : Option Int) (generator : String → Option String)
  | delete (sid : Uuid)
  | sweepExpired

namespace SourceTables
variable (hash : String → String) (ord : ArtifactOrder)

/-- A call and the clock reading it takes. -/
def step (s : SourceTables) (o : Int × SourceOp) : SourceTables :=
  match o.2 with
  | .register newId sourceType label content expiresAtMs =>
    (s.register hash newId o.1 sourceType label content expiresAtMs).2
  | .getOrCreateArtifact newId sid artifactType expiresAtMs generator =>
    (s.getOrCreateArtifact ord newId o.1 sid artifactType expiresAtMs generator).2
  | .delete sid => s.delete sid
  | .sweepExpired => (s.sweepExpired o.1).2

variable {hash : String → String} {ord : ArtifactOrder} {s : SourceTables} {now : Int}

theorem insertSource_ok {r : SourceRow} {s' : SourceTables} (h : s.insertSource r = .ok s') :
    s'.sources = s.sources ++ [r] ∧ s'.artifacts = s.artifacts ∧
      r.sourceId ∉ s.sources.map (·.sourceId) := by
  unfold insertSource at h
  split at h
  · cases h
  · cases h
    exact ⟨rfl, rfl, ‹_›⟩

theorem insertArtifact_ok {a : ArtifactEntry} {s' : SourceTables}
    (h : s.insertArtifact a = .ok s') :
    s'.sources = s.sources ∧ s'.artifacts = s.artifacts ++ [a] := by
  unfold insertArtifact at h
  split at h
  · cases h
  · cases h
    exact ⟨rfl, rfl⟩

/-- Registration answers with the row that has the hash and the type, or appends one. -/
theorem register_cases (hash : String → String) (newId : Uuid) (now : Int) (s : SourceTables)
    (sourceType : String) (label : Option String) (content : String) (expiresAtMs : Option Int) :
    (∃ r ∈ s.sources, r.contentHash = hash content ∧ r.sourceType = sourceType ∧
      s.register hash newId now sourceType label content expiresAtMs =
        (.ok (r.sourceId, false), s)) ∨
    ((∀ r ∈ s.sources, ¬(r.contentHash = hash content ∧ r.sourceType = sourceType)) ∧
      ((∃ s', s'.sources = s.sources ++ [⟨⟨newId, hash content, sourceType, content⟩, label, now,
          expiresAtMs⟩] ∧
        s.register hash newId now sourceType label content expiresAtMs = (.ok (newId, true), s')) ∨
      ∃ e, s.register hash newId now sourceType label content expiresAtMs = (.error e, s))) := by
  unfold register
  cases hfind : s.sources.find? fun r =>
      r.contentHash == hash content && r.sourceType == sourceType with
  | some r =>
    have hr := List.find?_some hfind
    simp only [Bool.and_eq_true, beq_iff_eq] at hr
    exact .inl ⟨r, List.mem_of_find?_eq_some hfind, hr.1, hr.2, rfl⟩
  | none =>
    refine .inr ⟨fun r hr => by simpa using List.find?_eq_none.mp hfind r hr, ?_⟩
    dsimp only
    cases hins : s.insertSource ⟨⟨newId, hash content, sourceType, content⟩, label, now,
        expiresAtMs⟩ with
    | ok s' => exact .inl ⟨s', (insertSource_ok hins).1, rfl⟩
    | error e => exact .inr ⟨e, rfl⟩

/-- Artifacts come and go without the sources. -/
theorem getOrCreateArtifact_sources (newId sid : Uuid) (artifactType : String)
    (expiresAtMs : Option Int) (generator : String → Option String) :
    (s.getOrCreateArtifact ord newId now sid artifactType expiresAtMs generator).2.sources =
      s.sources := by
  unfold getOrCreateArtifact
  split
  · rfl
  · split
    · rfl
    · split
      · rfl
      · dsimp only
        split
        · rename_i h
          exact (insertArtifact_ok h).1
        · rfl

/-- Everything a sweep does to the tables. -/
theorem sweepExpired_spec (s : SourceTables) (now : Int) :
    (s.sweepExpired now).2.sources = s.sources.filter (fun r => !expired now r.expiresAtMs) ∧
    (s.sweepExpired now).2.artifacts = s.artifacts.filter (fun a => !expired now a.expiresAtMs &&
      s.sources.any fun r => !expired now r.expiresAtMs && r.sourceId == a.sourceId) ∧
    (s.sweepExpired now).1 + (s.sweepExpired now).2.sources.length +
      (s.sweepExpired now).2.artifacts.length = s.sources.length + s.artifacts.length := by
  refine ⟨rfl, ?_, ?_⟩
  · simp only [sweepExpired, deleteArtifacts, deleteSources, List.filter_filter, List.any_filter]
    refine List.filter_congr fun a _ => ?_
    rw [Bool.eq_iff_iff]
    simp only [Bool.and_eq_true, Bool.not_eq_true', Bool.not_not]
    refine ⟨fun h => ⟨h.1, h.2.1⟩, fun h => ⟨h.1, h.2, ?_⟩⟩
    -- an expired source cannot have the id of one that is kept
    rw [← Bool.not_eq_true]
    intro hexp
    obtain ⟨r, hr, hrexp⟩ := List.any_eq_true.mp h.2
    obtain ⟨r', hr', hrexp'⟩ := List.any_eq_true.mp hexp
    simp only [Bool.and_eq_true, Bool.not_eq_true', beq_iff_eq] at hrexp hrexp'
    have hsame := List.inj_on_of_nodup_map s.sourceKey hr hr' (hrexp.2.trans hrexp'.2.symm)
    rw [hsame, hrexp'.1] at hrexp
    exact absurd hrexp.1 (by simp)
  · have h1 := Keyed.countP_add_kept (fun a => s.sources.any fun r =>
      expired now r.expiresAtMs && r.sourceId == a.sourceId) s.artifacts
    have h2 := Keyed.countP_add_kept (fun r => expired now r.expiresAtMs) s.sources
    have h3 := Keyed.countP_add_kept (fun a => !(s.sources.filter fun r =>
      !expired now r.expiresAtMs).any (·.sourceId == a.sourceId)) (s.artifacts.filter fun a =>
        !s.sources.any fun r => expired now r.expiresAtMs && r.sourceId == a.sourceId)
    have h4 := Keyed.countP_add_kept (fun a => expired now a.expiresAtMs)
      ((s.artifacts.filter fun a => !s.sources.any fun r =>
        expired now r.expiresAtMs && r.sourceId == a.sourceId).filter fun a =>
        !!(s.sources.filter fun r => !expired now r.expiresAtMs).any (·.sourceId == a.sourceId))
    simp only [sweepExpired, deleteArtifacts, deleteSources]
    omega

/-- Everything a call can do to the sources. -/
theorem step_sources (hash : String → String) (ord : ArtifactOrder) (s : SourceTables)
    (o : Int × SourceOp) :
    (s.step hash ord o).sources = s.sources ∨
    (∃ newId sourceType label content expiresAtMs,
      o.2 = .register newId sourceType label content expiresAtMs ∧
      (∀ r ∈ s.sources, ¬(r.contentHash = hash content ∧ r.sourceType = sourceType)) ∧
      (s.step hash ord o).sources =
        s.sources ++ [⟨⟨newId, hash content, sourceType, content⟩, label, o.1, expiresAtMs⟩]) ∨
    (∃ sid, o.2 = .delete sid ∧
      (s.step hash ord o).sources = s.sources.filter fun r => !r.sourceId == sid) ∨
    (o.2 = .sweepExpired ∧
      (s.step hash ord o).sources = s.sources.filter fun r => !expired o.1 r.expiresAtMs) := by
  obtain ⟨now, op⟩ := o
  cases op with
  | register newId sourceType label content expiresAtMs =>
    rcases register_cases hash newId now s sourceType label content expiresAtMs with
      ⟨r, -, -, -, hreg⟩ | ⟨hno, ⟨s', hs', hreg⟩ | ⟨e, hreg⟩⟩
    · exact .inl (congrArg (fun x => x.2.sources) hreg)
    · refine .inr (.inl ⟨newId, sourceType, label, content, expiresAtMs, rfl, hno, ?_⟩)
      exact (congrArg (fun x => x.2.sources) hreg).trans hs'
    · exact .inl (congrArg (fun x => x.2.sources) hreg)
  | getOrCreateArtifact newId sid artifactType expiresAtMs generator =>
    exact .inl (getOrCreateArtifact_sources newId sid artifactType expiresAtMs generator)
  | delete sid => exact .inr (.inr (.inl ⟨sid, rfl, rfl⟩))
  | sweepExpired => exact .inr (.inr (.inr ⟨rfl, rfl⟩))

/-- `idx_source_hash_type`. -/
def OnePerContent (s : SourceTables) : Prop :=
  (s.sources.map fun r => (r.contentHash, r.sourceType)).Nodup

/-- Sources are looked up before they are inserted, so the index is never violated. -/
theorem OnePerContent.step (h : s.OnePerContent) (o : Int × SourceOp) :
    (s.step hash ord o).OnePerContent := by
  unfold OnePerContent at h ⊢
  rcases step_sources hash ord s o with
    hs | ⟨newId, sourceType, label, content, expiresAtMs, -, hno, hs⟩ | ⟨sid, -, hs⟩ | ⟨-, hs⟩
  · rw [hs]
    exact h
  · rw [hs, List.map_append]
    refine List.nodup_append.mpr ⟨h, by simp, fun a ha b hb he => ?_⟩
    obtain ⟨r, hr, rfl⟩ := List.mem_map.mp ha
    rw [List.map_singleton, List.mem_singleton] at hb
    rw [hb] at he
    exact hno r hr (by simpa using he)
  · rw [hs]
    exact h.sublist (List.filter_sublist.map _)
  · rw [hs]
    exact h.sublist (List.filter_sublist.map _)

theorem onePerContent_run (hash : String → String) (ord : ArtifactOrder)
    (calls : List (Int × SourceOp)) :
    (run (SourceTables.step hash ord) SourceTables.new calls).OnePerContent :=
  run_invariant (P := SourceTables.OnePerContent) (C := fun _ _ => True)
    (fun _ o _ h => h.step o) (fun _ _ => trivial) List.nodup_nil

end SourceTables

/-- Whatever calls came one after the other, no content has two rows of one type, and a sweep
leaves exactly the sources that have not expired and the artifacts of these that have not
expired either, and counts the rows it removes. -/
theorem registry_consistent (hash : String → String) (ord : ArtifactOrder)
    (calls : List (Int × SourceOp)) :
    let s := run (SourceTables.step hash ord) SourceTables.new calls
    s.OnePerContent ∧ ∀ now : Int,
      let swept := (s.sweepExpired now).2
      (∀ a ∈ swept.artifacts, ∃ r ∈ swept.sources, r.sourceId = a.sourceId) ∧
      (∀ r ∈ swept.sources, ∀ t, r.expiresAtMs = some t → now < t) ∧
      (∀ a ∈ swept.artifacts, ∀ t, a.expiresAtMs = some t → now < t) ∧
      swept.sources = s.sources.filter (fun r => !expired now r.expiresAtMs) ∧
      swept.artifacts = s.artifacts.filter (fun a => !expired now a.expiresAtMs &&
        s.sources.any fun r => !expired now r.expiresAtMs && r.sourceId == a.sourceId) ∧
      (s.sweepExpired now).1 + swept.sources.length + swept.artifacts.length =
        s.sources.length + s.artifacts.length := by
  intro s
  have hlater : ∀ {now : Int} {x : Option Int}, (!expired now x) = true →
      ∀ t, x = some t → now < t := by
    rintro now x hx t rfl
    simpa [expired] using hx
  refine ⟨SourceTables.onePerContent_run hash ord calls, fun now => ?_⟩
  obtain ⟨hsources, hartifacts, hcount⟩ := s.sweepExpired_spec now
  intro swept
  have hmem : ∀ a ∈ swept.artifacts, (!expired now a.expiresAtMs) = true ∧
      ∃ r ∈ s.sources, (!expired now r.expiresAtMs) = true ∧ r.sourceId = a.sourceId := by
    intro a ha
    rw [show swept.artifacts = _ from hartifacts, List.mem_filter, Bool.and_eq_true,
      List.any_eq_true] at ha
    obtain ⟨-, hexp, r, hr, hboth⟩ := ha
    rw [Bool.and_eq_true, beq_iff_eq] at hboth
    exact ⟨hexp, r, hr, hboth.1, hboth.2⟩
  refine ⟨fun a ha => ?_, fun r hr => ?_, fun a ha => hlater (hmem a ha).1, hsources,
    hartifacts, hcount⟩
  · obtain ⟨-, r, hr, hexp, hid⟩ := hmem a ha
    exact ⟨r, by rw [show swept.sources = _ from hsources]; exact List.mem_filter.mpr ⟨hr, hexp⟩,
      hid⟩
  · rw [show swept.sources = _ from hsources, List.mem_filter] at hr
    exact hlater hr.2

namespace SourceTables
variable {hash : String → String} {ord : ArtifactOrder} {s : SourceTables}

/-- A source stays unless it is deleted or swept after its own expiry. -/
theorem mem_step {r : SourceRow} (hr : r ∈ s.sources) {o : Int × SourceOp}
    (hdel : o.2 ≠ .delete r.sourceId)
    (hsweep : ∀ t, r.expiresAtMs = some t → o.1 < t) : r ∈ (s.step hash ord o).sources := by
  rcases step_sources hash ord s o with
    hs | ⟨_, _, _, _, _, -, -, hs⟩ | ⟨sid, ho, hs⟩ | ⟨-, hs⟩
  · rw [hs]
    exact hr
  · rw [hs]
    exact List.mem_append_left _ hr
  · have hne : r.sourceId ≠ sid := fun he => hdel (by rw [ho, he])
    rw [hs]
    exact List.mem_filter.mpr ⟨hr, by simpa using hne⟩
  · rw [hs, List.mem_filter]
    refine ⟨hr, ?_⟩
    cases ht : r.expiresAtMs with
    | none => rfl
    | some t => simpa [expired] using hsweep t ht

theorem mem_run {r : SourceRow} (hr : r ∈ s.sources) {later : List (Int × SourceOp)}
    (hdel : ∀ o ∈ later, o.2 ≠ .delete r.sourceId)
    (hsweep : ∀ o ∈ later, ∀ t, r.expiresAtMs = some t → o.1 < t) :
    r ∈ (run (SourceTables.step hash ord) s later).sources := by
  induction later generalizing s with
  | nil => exact hr
  | cons o later ih =>
    exact ih (mem_step hr (hdel o (by simp)) (hsweep o (by simp)))
      (fun x hx => hdel x (List.mem_cons_of_mem _ hx))
      fun x hx => hsweep x (List.mem_cons_of_mem _ hx)

theorem get_of_mem {r : SourceRow} (hr : r ∈ s.sources) : s.get r.sourceId = some r :=
  (Keyed.find_eq_some_iff s.sourceKey).mpr ⟨hr, rfl⟩

theorem get_eq_none {sid : Uuid} (h : ∀ r ∈ s.sources, r.sourceId ≠ sid) : s.get sid = none := by
  refine List.find?_eq_none.mpr fun r hr => ?_
  simpa using h r hr

/-- The id finds the content at every later time before the promised expiry, whatever is
called in between, as long as the id itself is not deleted. -/
def Lives (hash : String → String) (ord : ArtifactOrder) (s : SourceTables) (now : Int)
    (sid : Uuid) (content : String) (expiry : Option Int) : Prop :=
  ∀ (later : List (Int × SourceOp)) (t : Int),
    (now :: (later.map Prod.fst ++ [t])).Pairwise (· ≤ ·) → (∀ o ∈ later, o.2 ≠ .delete sid) →
    (∀ e, expiry = some e → t < e) →
    ((run (SourceTables.step hash ord) s later).get sid).map (·.content) = some content

/-- A row lives at least until the expiry that is asked for. -/
def Covers (own promised : Option Int) : Prop :=
  ∀ t, own = some t → ∃ e, promised = some e ∧ e ≤ t

/-- A row outlives what it covers. -/
theorem lives_of_covers {r : SourceRow} (hr : r ∈ s.sources) {now : Int} {expiry : Option Int}
    (hcov : Covers r.expiresAtMs expiry) :
    Lives hash ord s now r.sourceId r.content expiry := by
  intro later t hclock hdel hbefore
  have hle : ∀ o ∈ later, o.1 ≤ t := by
    intro o ho
    have hpair := (List.pairwise_append.mp (List.pairwise_cons.mp hclock).2).2.2
    exact hpair o.1 (List.mem_map_of_mem ho) t (by simp)
  have hmem : r ∈ (run (SourceTables.step hash ord) s later).sources := by
    refine mem_run hr hdel fun o ho x hx => ?_
    obtain ⟨e, he, hex⟩ := hcov x hx
    exact lt_of_le_of_lt (hle o ho) (lt_of_lt_of_le (hbefore e he) hex)
  rw [get_of_mem hmem]
  rfl

/-- A row that does not cover what is promised while it still runs is swept too early. -/
theorem not_lives {r : SourceRow} (hr : r ∈ s.sources) {now : Int} {content : String}
    {expiry : Option Int} (hcov : ¬Covers r.expiresAtMs expiry)
    (hopen : ∀ e, expiry = some e → now < e) :
    ¬Lives hash ord s now r.sourceId content expiry := by
  intro h
  simp only [Covers, not_forall, not_exists, not_and, not_le] at hcov
  obtain ⟨t, ht, hlt⟩ := hcov
  have hbefore : ∀ e, expiry = some e → max now t < e := fun e he => max_lt (hopen e he) (hlt e he)
  have hget := h [(max now t, .sweepExpired)] (max now t) (by simp) (by simp) hbefore
  have hgone : (run (SourceTables.step hash ord) s [(max now t, .sweepExpired)]).get r.sourceId =
      none := by
    refine get_eq_none fun x hx hid => ?_
    obtain ⟨hx, hexp⟩ := List.mem_filter.mp hx
    have hsame := List.inj_on_of_nodup_map s.sourceKey hx hr hid
    simp [hsame, ht, expired] at hexp
  rw [hgone] at hget
  cases hget

end SourceTables

/-- The content a call registers. -/
def SourceOp.content : SourceOp → Option String
  | .register _ _ _ content _ => some content
  | _ => none

namespace SourceTables
variable {hash : String → String} {ord : ArtifactOrder} {s : SourceTables}

/-- Every row has the hash of its content, and its content was used. -/
def Hashed (hash : String → String) (used : Set String) (s : SourceTables) : Prop :=
  ∀ r ∈ s.sources, r.contentHash = hash r.content ∧ r.content ∈ used

theorem Hashed.step {used : Set String} (h : Hashed hash used s) {o : Int × SourceOp}
    (hused : ∀ content, o.2.content = some content → content ∈ used) :
    Hashed hash used (s.step hash ord o) := by
  intro r hr
  rcases step_sources hash ord s o with
    hs | ⟨newId, sourceType, label, content, expiresAtMs, ho, -, hs⟩ | ⟨sid, -, hs⟩ | ⟨-, hs⟩
  · exact h r (hs ▸ hr)
  · rw [hs] at hr
    rcases List.mem_append.mp hr with hr | hr
    · exact h r hr
    · rw [List.mem_singleton.mp hr]
      exact ⟨rfl, hused content (by rw [ho]; rfl)⟩
  · rw [hs] at hr
    exact h r (List.mem_filter.mp hr).1
  · rw [hs] at hr
    exact h r (List.mem_filter.mp hr).1

theorem hashed_run (hash : String → String) (ord : ArtifactOrder) {used : Set String}
    {calls : List (Int × SourceOp)}
    (hused : ∀ o ∈ calls, ∀ content, o.2.content = some content → content ∈ used) :
    Hashed hash used (run (SourceTables.step hash ord) SourceTables.new calls) := by
  refine run_invariant (P := Hashed hash used)
    (C := fun _ o => ∀ content, o.2.content = some content → content ∈ used)
    (fun _ _ hC h => h.step hC) (fun v hv => ?_) (fun r hr => by cases hr)
  have hmem : v.2 ∈ (visits (SourceTables.step hash ord) SourceTables.new calls).map Prod.snd :=
    List.mem_map_of_mem hv
  rw [visits_map_snd] at hmem
  exact hused v.2 hmem

end SourceTables

/-- A registered source lives as long as its caller was promised exactly when the registry had
no row for the content with an earlier expiry, or the promise is over at once. -/
theorem source_lives_iff (hash : String → String) (ord : ArtifactOrder)
    (history : List (Int × SourceOp)) (newId : Uuid) (now : Int) (sourceType : String)
    (label : Option String) (content : String) (expiry : Option Int) (sid : Uuid) (isNew : Bool)
    (hinj : Set.InjOn hash
      {c | c = content ∨ ∃ o ∈ history, o.2.content = some c})
    (hreg : ((run (SourceTables.step hash ord) SourceTables.new history).register hash newId now
      sourceType label content expiry).1 = .ok (sid, isNew)) :
    SourceTables.Lives hash ord ((run (SourceTables.step hash ord) SourceTables.new
        history).register hash newId now sourceType label content expiry).2 now sid content expiry ↔
      (∃ e, expiry = some e ∧ e ≤ now) ∨
      ∀ r ∈ (run (SourceTables.step hash ord) SourceTables.new history).sources,
        r.contentHash = hash content → r.sourceType = sourceType →
        SourceTables.Covers r.expiresAtMs expiry := by
  have hhash : SourceTables.Hashed hash {c | c = content ∨ ∃ o ∈ history, o.2.content = some c}
      (run (SourceTables.step hash ord) SourceTables.new history) :=
    SourceTables.hashed_run hash ord fun o ho c hc => .inr ⟨o, ho, hc⟩
  have hone : (run (SourceTables.step hash ord) SourceTables.new history).OnePerContent :=
    SourceTables.onePerContent_run hash ord history
  revert hreg
  generalize run (SourceTables.step hash ord) SourceTables.new history = s at hhash hone ⊢
  intro hreg
  by_cases hover : ∃ e, expiry = some e ∧ e ≤ now
  · -- no time is left in which the id would have to be found
    refine iff_of_true (fun later t hclock _ hbefore => ?_) (.inl hover)
    obtain ⟨e, he, hle⟩ := hover
    have hnow : now ≤ t := (List.pairwise_cons.mp hclock).1 t (by simp)
    exact absurd (hbefore e he) (not_lt.mpr (hle.trans hnow))
  have hopen : ∀ e, expiry = some e → now < e := fun e he =>
    not_le.mp fun hle => hover ⟨e, he, hle⟩
  rw [or_iff_right hover]
  rcases SourceTables.register_cases hash newId now s sourceType label content expiry with
    ⟨r, hr, hrhash, hrtype, hcall⟩ | ⟨hno, ⟨s', hs', hcall⟩ | ⟨e, hcall⟩⟩
  · rw [hcall] at hreg ⊢
    obtain rfl : r.sourceId = sid := congrArg Prod.fst (Except.ok.inj hreg)
    have hcontent : r.content = content :=
      hinj (hhash r hr).2 (.inl rfl) ((hhash r hr).1.symm.trans hrhash)
    constructor
    · intro hlives x hx hxhash hxtype
      have hsame : x = r := List.inj_on_of_nodup_map hone hx hr (by
        simp [hrhash, hrtype, hxhash, hxtype])
      by_contra hcov
      rw [hsame] at hcov
      exact SourceTables.not_lives hr hcov hopen hlives
    · intro hcov
      rw [← hcontent]
      exact SourceTables.lives_of_covers hr (hcov r hr hrhash hrtype)
  · rw [hcall] at hreg ⊢
    obtain rfl : newId = sid := congrArg Prod.fst (Except.ok.inj hreg)
    refine iff_of_true ?_ fun r hr hrhash hrtype => absurd ⟨hrhash, hrtype⟩ (hno r hr)
    have hmem : ⟨⟨newId, hash content, sourceType, content⟩, label, now, expiry⟩ ∈ s'.sources := by
      rw [hs']
      simp
    exact SourceTables.lives_of_covers hmem fun t ht => ⟨t, ht, le_refl t⟩
  · rw [hcall] at hreg
    cases hreg

def registeredUntilTen : List (Int × SourceOp) :=
  [(0, .register ⟨1⟩ "prolog" none "p." (some 10))]

/-- The same content registered again until 7, while its row lives until 10. -/
theorem source_lives_iff_shorter :
    Set.InjOn (id : String → String)
      {c | c = "p." ∨ ∃ o ∈ registeredUntilTen, o.2.content = some c} ∧
    SourceTables.Lives id (.stable _) ((run (SourceTables.step id (.stable _)) SourceTables.new
      registeredUntilTen).register id ⟨2⟩ 5 "prolog" none "p." (some 7)).2 5 ⟨1⟩ "p." (some 7) := by
  have hinj : Set.InjOn (id : String → String)
      {c | c = "p." ∨ ∃ o ∈ registeredUntilTen, o.2.content = some c} :=
    Function.injective_id.injOn
  refine ⟨hinj, (source_lives_iff id (.stable _) registeredUntilTen ⟨2⟩ 5 "prolog" none "p."
    (some 7) ⟨1⟩ false hinj rfl).mpr (.inr ?_)⟩
  intro r hr _ _ t ht
  have hrows : (run (SourceTables.step id (.stable _)) SourceTables.new
      registeredUntilTen).sources = [⟨⟨⟨1⟩, "p.", "prolog", "p."⟩, none, 0, some 10⟩] := rfl
  rw [hrows] at hr
  obtain rfl := List.mem_singleton.mp hr
  exact ⟨7, rfl, by cases ht; decide⟩

/-- Registered until 10 and then for ever, swept at 10: the second caller's source is gone. -/
theorem permanent_source_swept : ¬∀ (hash : String → String) (ord : ArtifactOrder)
    (history : List (Int × SourceOp)) (newId : Uuid) (now : Int) (sourceType : String)
    (label : Option String) (content : String) (expiry : Option Int) (sid : Uuid) (isNew : Bool),
    Set.InjOn hash {c | c = content ∨ ∃ o ∈ history, o.2.content = some c} →
    ((run (SourceTables.step hash ord) SourceTables.new history).register hash newId now
      sourceType label content expiry).1 = .ok (sid, isNew) →
    SourceTables.Lives hash ord ((run (SourceTables.step hash ord) SourceTables.new
      history).register hash newId now sourceType label content expiry).2 now sid content
        expiry := by
  intro h
  have hlives := h id (.stable _) registeredUntilTen ⟨2⟩ 5 "prolog" none "p." none ⟨1⟩ false
    Function.injective_id.injOn rfl
  have hget := hlives [(10, .sweepExpired)] 10 (by decide) (by simp) (by simp)
  cases hget

end Cerebellum
