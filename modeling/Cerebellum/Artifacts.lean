import Cerebellum.Sources
import Mathlib.Logic.Function.Basic

/-! Concurrent `get_or_create_artifact` calls for one source and one artifact type: the lookup,
the load of the source, the generator and the insert are steps of their own. -/
namespace Cerebellum
open Transition

/-- Where a call stands. Between two steps the lock is free. -/
inductive CallPhase where
  | lookup
  | load
  | generate (content : String)
  | insert (text : String)
  | done (answer : Except SourceError (Option ArtifactEntry))

/-- The calls, each with its expiry, its generator and the id it will mint. -/
structure ArtifactCalls (κ : Type*) where
  sourceId : Uuid
  artifactType : String
  expiresAtMs : κ → Option Int
  generator : κ → String → Option String
  newId : κ → Uuid
  newId_injective : Function.Injective newId

/-- The tables, the calls, and those of them whose generator ran to success. -/
structure ArtifactRace (κ : Type*) where
  tables : SourceTables
  phase : κ → CallPhase
  generated : List κ

namespace ArtifactRace
variable {κ : Type*} [DecidableEq κ] (ord : ArtifactOrder) (c : ArtifactCalls κ)

def start (tables : SourceTables) : ArtifactRace κ := ⟨tables, fun _ => .lookup, []⟩

def go (s : ArtifactRace κ) (k : κ) (p : CallPhase) : ArtifactRace κ :=
  { s with phase := Function.update s.phase k p }

/-- The artifact a call is about to insert. -/
def artifact (k : κ) (now : Int) (text : String) : ArtifactEntry :=
  { artifactId := c.newId k, sourceId := c.sourceId, artifactType := c.artifactType
    content := text, generatedAtMs := now, expiresAtMs := c.expiresAtMs k }

/-- The next step of a call, and the clock reading in case it inserts. -/
def step (s : ArtifactRace κ) (x : κ × Int) : ArtifactRace κ :=
  match s.phase x.1 with
  | .lookup =>
    match s.tables.getArtifactBySource ord c.sourceId c.artifactType with
    | some a => s.go x.1 (.done (.ok (some a)))
    | none => s.go x.1 .load
  | .load =>
    match s.tables.get c.sourceId with
    | none => s.go x.1 (.done (.ok none))
    | some entry => s.go x.1 (.generate entry.content)
  | .generate content =>
    match c.generator x.1 content with
    | none => s.go x.1 (.done (.error .generator))
    | some text => { s.go x.1 (.insert text) with generated := s.generated ++ [x.1] }
  | .insert text =>
    match s.tables.insertArtifact (artifact c x.1 x.2 text) with
    | .ok tables =>
      { s.go x.1 (.done (.ok (some (artifact c x.1 x.2 text)))) with tables := tables }
    | .error e => s.go x.1 (.done (.error e))
  | .done _ => s

/-- A call that is not interrupted does what `get_or_create_artifact` does in one piece. -/
theorem run_alone (s : ArtifactRace κ) (k : κ) (now : Int) (h : s.phase k = .lookup) :
    let e := run (step ord c) s [(k, now), (k, now), (k, now), (k, now)]
    let whole := s.tables.getOrCreateArtifact ord (c.newId k) now c.sourceId c.artifactType
      (c.expiresAtMs k) (c.generator k)
    e.phase k = .done whole.1 ∧ e.tables = whole.2 := by
  simp only [run, SourceTables.getOrCreateArtifact]
  cases hlookup : s.tables.getArtifactBySource ord c.sourceId c.artifactType with
  | some a => simp [step, h, hlookup, go]
  | none =>
    cases hload : s.tables.get c.sourceId with
    | none => simp [step, h, hlookup, hload, go]
    | some entry =>
      cases hgen : c.generator k entry.content with
      | none => simp [step, h, hlookup, hload, hgen, go]
      | some text =>
        cases hins : s.tables.insertArtifact (artifact c k now text) with
        | ok tables =>
          have hins' := hins
          simp only [artifact] at hins'
          simp [step, h, hlookup, hload, hgen, hins', go, artifact]
        | error e =>
          have hins' := hins
          simp only [artifact] at hins'
          simp [step, h, hlookup, hload, hgen, hins, hins', go]

/-- The rows of the pair. -/
def pairRows (s : ArtifactRace κ) : List ArtifactEntry :=
  s.tables.artifacts.filter fun a => a.sourceId == c.sourceId && a.artifactType == c.artifactType

/-- The source is there and the call's generator succeeds on it. -/
def Viable (s : ArtifactRace κ) (k : κ) : Prop :=
  ∃ entry, s.tables.get c.sourceId = some entry ∧ (c.generator k entry.content).isSome

/-- The call has missed in its lookup and is not through. -/
def InFlight (s : ArtifactRace κ) (k : κ) : Prop :=
  s.phase k ≠ .lookup ∧ ∀ answer, s.phase k ≠ .done answer

/-- The generator ran to success at most once, there is at most one row, and the callers
that got an artifact got the same. -/
structure Once (s : ArtifactRace κ) : Prop where
  generatedOnce : s.generated.length ≤ 1
  oneRow : (s.pairRows c).length ≤ 1
  sameAnswer : ∀ k k' a a', s.phase k = .done (.ok (some a)) → s.phase k' = .done (.ok (some a')) →
    a.artifactId = a'.artifactId ∧ a.content = a'.content

/-- A call that will generate does not miss while another one that will is in flight. -/
def Alone (s : ArtifactRace κ) (k : κ) : Prop :=
  s.phase k = .lookup → s.pairRows c = [] → s.Viable c k → ∀ k', s.Viable c k' → ¬s.InFlight k'

/-- What a step of a call can do. -/
inductive Move (s : ArtifactRace κ) (x : κ × Int) : ArtifactRace κ → Prop
  | done (answer : Except SourceError (Option ArtifactEntry)) : s.phase x.1 = .done answer →
    Move s x s
  | hit (a : ArtifactEntry) : s.phase x.1 = .lookup →
    s.tables.getArtifactBySource ord c.sourceId c.artifactType = some a →
    Move s x (s.go x.1 (.done (.ok (some a))))
  | miss : s.phase x.1 = .lookup →
    s.tables.getArtifactBySource ord c.sourceId c.artifactType = none → Move s x (s.go x.1 .load)
  | noSource : s.phase x.1 = .load → s.tables.get c.sourceId = none →
    Move s x (s.go x.1 (.done (.ok none)))
  | loaded (entry : SourceRow) : s.phase x.1 = .load → s.tables.get c.sourceId = some entry →
    Move s x (s.go x.1 (.generate entry.content))
  | failed (content : String) : s.phase x.1 = .generate content →
    c.generator x.1 content = none → Move s x (s.go x.1 (.done (.error .generator)))
  | generated (content text : String) : s.phase x.1 = .generate content →
    c.generator x.1 content = some text →
    Move s x { s.go x.1 (.insert text) with generated := s.generated ++ [x.1] }
  | inserted (text : String) (tables : SourceTables) : s.phase x.1 = .insert text →
    s.tables.insertArtifact (artifact c x.1 x.2 text) = .ok tables →
    Move s x { s.go x.1 (.done (.ok (some (artifact c x.1 x.2 text)))) with tables := tables }
  | refused (text : String) (e : SourceError) : s.phase x.1 = .insert text →
    s.tables.insertArtifact (artifact c x.1 x.2 text) = .error e →
    Move s x (s.go x.1 (.done (.error e)))

theorem move_step (s : ArtifactRace κ) (x : κ × Int) : Move ord c s x (s.step ord c x) := by
  unfold step
  cases hp : s.phase x.1 with
  | lookup =>
    dsimp only
    cases hl : s.tables.getArtifactBySource ord c.sourceId c.artifactType with
    | some a => exact .hit a hp hl
    | none => exact .miss hp hl
  | load =>
    dsimp only
    cases hg : s.tables.get c.sourceId with
    | none => exact .noSource hp hg
    | some entry => exact .loaded entry hp hg
  | generate content =>
    dsimp only
    cases hg : c.generator x.1 content with
    | none => exact .failed content hp hg
    | some text => exact .generated content text hp hg
  | insert text =>
    dsimp only
    cases hi : s.tables.insertArtifact (artifact c x.1 x.2 text) with
    | ok tables => exact .inserted text tables hp hi
    | error e => exact .refused text e hp hi
  | done answer => exact .done answer hp

variable {ord c} {s s' : ArtifactRace κ} {x : κ × Int} {k : κ}

@[simp] theorem go_tables (s : ArtifactRace κ) (k : κ) (p : CallPhase) :
    (s.go k p).tables = s.tables := rfl

@[simp] theorem go_generated (s : ArtifactRace κ) (k : κ) (p : CallPhase) :
    (s.go k p).generated = s.generated := rfl

@[simp] theorem go_self (s : ArtifactRace κ) (k : κ) (p : CallPhase) : (s.go k p).phase k = p :=
  Function.update_self ..

theorem go_other (s : ArtifactRace κ) {k k' : κ} (p : CallPhase) (h : k' ≠ k) :
    (s.go k p).phase k' = s.phase k' := Function.update_of_ne h ..

/-- A step of one call leaves the others where they are. -/
theorem Move.phase_other (h : Move ord c s x s') (hk : k ≠ x.1) : s'.phase k = s.phase k := by
  cases h with
  | done => rfl
  | _ => exact go_other s _ hk

/-- The source is never touched. -/
theorem Move.sources (h : Move ord c s x s') : s'.tables.sources = s.tables.sources := by
  cases h with
  | inserted text tables hp hi => exact (SourceTables.insertArtifact_ok hi).1
  | _ => rfl

theorem Move.get (h : Move ord c s x s') : s'.tables.get c.sourceId = s.tables.get c.sourceId := by
  rw [SourceTables.get, h.sources]
  rfl

theorem Move.viable_iff (h : Move ord c s x s') : s'.Viable c k ↔ s.Viable c k := by
  rw [Viable, h.get]
  rfl

/-- What holds in every interleaving: a call generates from the stored source, one that inserts
has generated, and every new row is the row of a call that is through. -/
structure Shape (c : ArtifactCalls κ) (tables : SourceTables) (s : ArtifactRace κ) : Prop where
  generating : ∀ k content, s.phase k = .generate content →
    ∃ entry, s.tables.get c.sourceId = some entry ∧ entry.content = content
  inserting : ∀ k text, s.phase k = .insert text → k ∈ s.generated ∧ s.Viable c k
  rows : ∀ a ∈ s.tables.artifacts, a ∈ tables.artifacts ∨
    ∃ k answer, a.artifactId = c.newId k ∧ s.phase k = .done answer

omit [DecidableEq κ] in
theorem shape_start (c : ArtifactCalls κ) (tables : SourceTables) :
    Shape c tables (start tables : ArtifactRace κ) where
  generating _ _ h := by cases h
  inserting _ _ h := by cases h
  rows _ ha := .inl ha

omit [DecidableEq κ] in
/-- Every call mints an id that no row has yet, so an insert is never refused. -/
theorem Shape.fresh {tables : SourceTables} (h : Shape c tables s)
    (hfresh : ∀ k, c.newId k ∉ tables.artifacts.map (·.artifactId)) {text : String}
    (hp : s.phase k = .insert text) : c.newId k ∉ s.tables.artifacts.map (·.artifactId) := by
  intro hmem
  obtain ⟨a, ha, hid⟩ := List.mem_map.mp hmem
  rcases h.rows a ha with ha | ⟨k', answer, hid', hdone⟩
  · exact hfresh k (hid ▸ List.mem_map_of_mem ha)
  · rw [c.newId_injective (hid.symm.trans hid'), hdone] at hp
    cases hp

/-- Where a call stands after a step. -/
theorem Move.phase_self (h : Move ord c s x s') : 
    (∃ answer, s'.phase x.1 = .done answer) ∨
    (s.phase x.1 = .lookup ∧ s'.phase x.1 = .load) ∨
    (∃ entry, s.tables.get c.sourceId = some entry ∧ s'.phase x.1 = .generate entry.content) ∨
    (∃ content text, s.phase x.1 = .generate content ∧ c.generator x.1 content = some text ∧
      s'.phase x.1 = .insert text ∧ s'.generated = s.generated ++ [x.1]) := by
  cases h with
  | done answer hp => exact .inl ⟨answer, hp⟩
  | miss hp => exact .inr (.inl ⟨hp, go_self ..⟩)
  | loaded entry hp hg => exact .inr (.inr (.inl ⟨entry, hg, go_self ..⟩))
  | generated content text hp hg =>
    exact .inr (.inr (.inr ⟨content, text, hp, hg, go_self .., rfl⟩))
  | _ => exact .inl ⟨_, go_self ..⟩

theorem Move.generated_sub (h : Move ord c s x s') (hk : k ∈ s.generated) : k ∈ s'.generated := by
  cases h with
  | generated => exact List.mem_append_left _ hk
  | _ => exact hk

/-- A call that is through stays so. -/
theorem Move.done_stays (h : Move ord c s x s') {answer : Except SourceError (Option ArtifactEntry)}
    (hk : s.phase k = .done answer) : s'.phase k = .done answer := by
  by_cases hx : k = x.1
  · subst hx
    cases h with
    | done => exact hk
    | _ => simp_all
  · rw [h.phase_other hx]
    exact hk

theorem Shape.move {tables : SourceTables} (h : Shape c tables s) (hm : Move ord c s x s') :
    Shape c tables s' where
  generating k content hk := by
    rw [hm.get]
    by_cases hx : k = x.1
    · subst hx
      rcases hm.phase_self with ⟨_, hp⟩ | ⟨-, hp⟩ | ⟨entry, hg, hp⟩ | ⟨_, _, -, -, hp, -⟩
      · rw [hp] at hk
        cases hk
      · rw [hp] at hk
        cases hk
      · rw [hp] at hk
        exact ⟨entry, hg, by cases hk; rfl⟩
      · rw [hp] at hk
        cases hk
    · exact h.generating k content (hm.phase_other hx ▸ hk)
  inserting k text hk := by
    rw [hm.viable_iff]
    by_cases hx : k = x.1
    · subst hx
      rcases hm.phase_self with ⟨_, hp⟩ | ⟨-, hp⟩ | ⟨entry, hg, hp⟩ | ⟨content, t, hc, hg, hp, hl⟩
      · rw [hp] at hk
        cases hk
      · rw [hp] at hk
        cases hk
      · rw [hp] at hk
        cases hk
      · obtain ⟨entry, he, rfl⟩ := h.generating _ content hc
        exact ⟨by rw [hl]; simp, entry, he, by rw [hg]; rfl⟩
    · have hold := h.inserting k text (hm.phase_other hx ▸ hk)
      exact ⟨hm.generated_sub hold.1, hold.2⟩
  rows a ha := by
    have hold : a ∈ s.tables.artifacts → a ∈ tables.artifacts ∨
        ∃ k answer, a.artifactId = c.newId k ∧ s'.phase k = .done answer := by
      intro ha
      rcases h.rows a ha with ha | ⟨k, answer, hid, hdone⟩
      · exact .inl ha
      · exact .inr ⟨k, answer, hid, hm.done_stays hdone⟩
    cases hm with
    | inserted text t hp hi =>
      have ha' : a ∈ t.artifacts := ha
      rw [(SourceTables.insertArtifact_ok hi).2] at ha'
      rcases List.mem_append.mp ha' with ha' | ha'
      · exact hold ha'
      · rw [List.mem_singleton.mp ha']
        exact .inr ⟨x.1, _, rfl, go_self ..⟩
    | _ => exact hold ha

omit [DecidableEq κ] in
theorem mem_pairRows_of_lookup {a : ArtifactEntry}
    (h : s.tables.getArtifactBySource ord c.sourceId c.artifactType = some a) :
    a ∈ s.pairRows c := (ord.perm _).mem_iff.mp (List.mem_of_mem_head? h)

omit [DecidableEq κ] in
theorem pairRows_eq_nil_iff (ord : ArtifactOrder) :
    s.tables.getArtifactBySource ord c.sourceId c.artifactType = none ↔ s.pairRows c = [] := by
  have hperm : (ord.sort (s.pairRows c)).Perm (s.pairRows c) := ord.perm _
  refine List.head?_eq_none_iff.trans ⟨fun h => ?_, fun h => ?_⟩
  · change ord.sort (s.pairRows c) = [] at h
    rw [h] at hperm
    exact hperm.nil_eq.symm
  · change ord.sort (s.pairRows c) = []
    rw [h] at hperm ⊢
    exact List.perm_nil.mp hperm

/-- Only an insert changes the rows of the pair. -/
theorem Move.pairRows_cases (h : Move ord c s x s') : s'.pairRows c = s.pairRows c ∨
    ∃ text, s.phase x.1 = .insert text ∧
      s'.phase x.1 = .done (.ok (some (artifact c x.1 x.2 text))) ∧
      s'.pairRows c = s.pairRows c ++ [artifact c x.1 x.2 text] := by
  cases h with
  | inserted text tables hp hi =>
    refine .inr ⟨text, hp, go_self .., ?_⟩
    change tables.artifacts.filter _ = _
    rw [(SourceTables.insertArtifact_ok hi).2, List.filter_append]
    simp [artifact, pairRows]
  | _ => exact .inl rfl

theorem Move.pairRows_sub (h : Move ord c s x s') {a : ArtifactEntry} (ha : a ∈ s.pairRows c) :
    a ∈ s'.pairRows c := by
  rcases h.pairRows_cases with hrows | ⟨text, -, -, hrows⟩
  · exact hrows ▸ ha
  · rw [hrows]
    exact List.mem_append_left _ ha

/-- A call comes into flight by a missed lookup. -/
theorem Move.inFlight (h : Move ord c s x s') (hk : s'.InFlight k) :
    s.InFlight k ∨ (k = x.1 ∧ s.phase k = .lookup ∧ s.pairRows c = []) := by
  by_cases hx : k = x.1
  · subst hx
    obtain ⟨hne, hnd⟩ := hk
    cases h with
    | done answer hp => exact absurd hp (hnd answer)
    | miss hp hl => exact .inr ⟨rfl, hp, (pairRows_eq_nil_iff ord).mp hl⟩
    | loaded entry hp => exact .inl ⟨by simp [hp], by simp [hp]⟩
    | generated content text hp => exact .inl ⟨by simp [hp], by simp [hp]⟩
    | _ => exact absurd (go_self ..) (hnd _)
  · rw [InFlight, h.phase_other hx] at hk
    exact .inl hk

theorem Move.mem_generated (h : Move ord c s x s') (hk : k ∈ s'.generated) :
    k ∈ s.generated ∨ ∃ text, s'.phase k = .insert text := by
  cases h with
  | generated content text hp hg =>
    rcases List.mem_append.mp hk with hk | hk
    · exact .inl hk
    · rw [List.mem_singleton.mp hk]
      exact .inr ⟨text, go_self ..⟩
  | _ => exact .inl hk

omit [DecidableEq κ] in
theorem mem_inserted {x : κ × Int} {text : String} {t tables : SourceTables}
    (h : tables.insertArtifact (artifact c x.1 x.2 text) = .ok t) :
    artifact c x.1 x.2 text ∈ t.artifacts.filter
      fun a => a.sourceId == c.sourceId && a.artifactType == c.artifactType := by
  rw [(SourceTables.insertArtifact_ok h).2]
  exact List.mem_filter.mpr ⟨by simp, by simp [artifact]⟩

/-- A call about to insert stands there until its row is in. -/
theorem Move.inserting {tables : SourceTables} (h : Move ord c s x s') (hs : Shape c tables s)
    (hfresh : ∀ k, c.newId k ∉ tables.artifacts.map (·.artifactId)) {text : String}
    (hk : s.phase k = .insert text) : s'.pairRows c ≠ [] ∨ s'.phase k = .insert text := by
  by_cases hx : k = x.1
  · subst hx
    cases h with
    | refused text' e hp hi =>
      have hnew := hs.fresh hfresh hp
      simp [SourceTables.insertArtifact, artifact, hnew] at hi
    | inserted text' t hp hi => exact .inl (List.ne_nil_of_mem (mem_inserted hi))
    | _ => simp_all
  · exact .inr ((h.phase_other hx).trans hk)

/-- A call answers with a row of the pair. -/
theorem Move.answer (h : Move ord c s x s') {a : ArtifactEntry}
    (hk : s'.phase k = .done (.ok (some a))) :
    s.phase k = .done (.ok (some a)) ∨ a ∈ s'.pairRows c := by
  by_cases hx : k = x.1
  · subst hx
    cases h with
    | done answer hp => exact .inl hk
    | hit b hp hl =>
      obtain rfl : b = a := by simpa using hk
      exact .inr (mem_pairRows_of_lookup hl)
    | inserted text t hp hi =>
      obtain rfl : artifact c x.1 x.2 text = a := by simpa using hk
      exact .inr (mem_inserted hi)
    | _ => simp at hk
  · exact .inl ((h.phase_other hx).symm.trans hk)

/-- What holds when no two calls that will generate are in flight at once. -/
structure Token (c : ArtifactCalls κ) (s : ArtifactRace κ) : Prop where
  lone : ∀ k k', s.Viable c k → s.InFlight k → s.Viable c k' → s.InFlight k' → k = k'
  free : s.pairRows c ≠ [] → ∀ k, s.Viable c k → ¬s.InFlight k
  kept : ∀ k ∈ s.generated, s.pairRows c ≠ [] ∨ ∃ text, s.phase k = .insert text
  answered : ∀ k a, s.phase k = .done (.ok (some a)) → a ∈ s.pairRows c
  generatedOnce : s.generated.length ≤ 1
  oneRow : (s.pairRows c).length ≤ 1

omit [DecidableEq κ] in
theorem token_start {tables : SourceTables}
    (h : ((start tables : ArtifactRace κ).pairRows c).length ≤ 1) :
    Token c (start tables : ArtifactRace κ) where
  lone _ _ _ h := absurd rfl h.1
  free _ _ _ h := absurd rfl h.1
  kept _ h := by cases h
  answered _ _ h := by cases h
  generatedOnce := Nat.zero_le _
  oneRow := h

omit [DecidableEq κ] in
theorem Token.once (h : Token c s) : Once c s where
  generatedOnce := h.generatedOnce
  oneRow := h.oneRow
  sameAnswer k k' a a' hk hk' := by
    have ha := h.answered k a hk
    have ha' := h.answered k' a' hk'
    have hlen := h.oneRow
    match hrows : s.pairRows c with
    | [] =>
      rw [hrows] at ha
      cases ha
    | [b] =>
      rw [hrows, List.mem_singleton] at ha ha'
      rw [ha, ha']
      exact ⟨rfl, rfl⟩
    | _ :: _ :: _ =>
      rw [hrows] at hlen
      simp at hlen

omit [DecidableEq κ] in
theorem inFlight_insert {text : String} (h : s.phase k = .insert text) : s.InFlight k :=
  ⟨by simp [h], by simp [h]⟩

omit [DecidableEq κ] in
/-- A call about to insert does so into an empty pair. -/
theorem Token.pairRows_nil {tables : SourceTables} (h : Token c s) (hs : Shape c tables s)
    {text : String} (hp : s.phase k = .insert text) : s.pairRows c = [] := by
  by_contra hne
  exact h.free hne k (hs.inserting k text hp).2 (inFlight_insert hp)

omit [DecidableEq κ] in
/-- A call about to generate is the first to do so. -/
theorem Token.generated_nil {tables : SourceTables} (h : Token c s) (hs : Shape c tables s)
    {content text : String} (hp : s.phase k = .generate content)
    (hg : c.generator k content = some text) : s.generated = [] := by
  have hflight : s.InFlight k := ⟨by simp [hp], by simp [hp]⟩
  obtain ⟨entry, he, rfl⟩ := hs.generating k content hp
  have hviable : s.Viable c k := ⟨entry, he, by rw [hg]; rfl⟩
  by_contra hne
  obtain ⟨k', hk'⟩ := List.exists_mem_of_ne_nil _ hne
  rcases h.kept k' hk' with hrows | ⟨text', hp'⟩
  · exact h.free hrows k hviable hflight
  · have hsame := h.lone k' k (hs.inserting k' text' hp').2 (inFlight_insert hp') hviable hflight
    rw [hsame, hp] at hp'
    cases hp'

theorem Token.move {tables : SourceTables} (h : Token c s) (hs : Shape c tables s)
    (hfresh : ∀ k, c.newId k ∉ tables.artifacts.map (·.artifactId)) (halone : s.Alone c x.1)
    (hm : Move ord c s x s') : Token c s' where
  lone k k' hv hf hv' hf' := by
    rw [hm.viable_iff] at hv hv'
    rcases hm.inFlight hf with hf | ⟨rfl, hp, hrows⟩
    · rcases hm.inFlight hf' with hf' | ⟨rfl, hp', hrows'⟩
      · exact h.lone k k' hv hf hv' hf'
      · exact absurd hf (halone hp' hrows' hv' k hv)
    · rcases hm.inFlight hf' with hf' | ⟨rfl, -, -⟩
      · exact absurd hf' (halone hp hrows hv k' hv')
      · rfl
  free hrows k hv hf := by
    rw [hm.viable_iff] at hv
    rcases hm.pairRows_cases with hsame | ⟨text, hp, hdone, -⟩
    · rw [hsame] at hrows
      rcases hm.inFlight hf with hf | ⟨-, -, hnil⟩
      · exact h.free hrows k hv hf
      · exact hrows hnil
    · rcases hm.inFlight hf with hf' | ⟨rfl, hlook, -⟩
      · have hk := h.lone k x.1 hv hf' (hs.inserting x.1 text hp).2 (inFlight_insert hp)
        rw [hk] at hf
        exact hf.2 _ hdone
      · rw [hp] at hlook
        cases hlook
  kept k hk := by
    rcases hm.mem_generated hk with hk | ⟨text, hp⟩
    · rcases h.kept k hk with hrows | ⟨text, hp⟩
      · obtain ⟨a, ha⟩ := List.exists_mem_of_ne_nil _ hrows
        exact .inl (List.ne_nil_of_mem (hm.pairRows_sub ha))
      · exact (hm.inserting hs hfresh hp).imp_right fun hp => ⟨text, hp⟩
    · exact .inr ⟨text, hp⟩
  answered k a hk := by
    rcases hm.answer hk with hk | ha
    · exact hm.pairRows_sub (h.answered k a hk)
    · exact ha
  generatedOnce := by
    cases hm with
    | generated content text hp hg => simp [h.generated_nil hs hp hg]
    | _ => exact h.generatedOnce
  oneRow := by
    rcases hm.pairRows_cases with hsame | ⟨text, hp, -, hrows⟩
    · rw [hsame]
      exact h.oneRow
    · rw [hrows, h.pairRows_nil hs hp]
      simp

theorem shape_run {tables : SourceTables} (hs : Shape c tables s) (schedule : List (κ × Int)) :
    Shape c tables (run (step ord c) s schedule) := by
  induction schedule generalizing s with
  | nil => exact hs
  | cons x schedule ih => exact ih (hs.move (move_step ord c s x))

theorem token_run {tables : SourceTables} (hs : Shape c tables s) (ht : Token c s)
    (hfresh : ∀ k, c.newId k ∉ tables.artifacts.map (·.artifactId)) {schedule : List (κ × Int)}
    (halone : ∀ v ∈ visits (step ord c) s schedule, v.1.Alone c v.2.1) :
    Token c (run (step ord c) s schedule) := by
  refine (run_invariant (P := fun s => Shape c tables s ∧ Token c s)
    (C := fun s x => s.Alone c x.1) (fun s x hC h => ?_) halone ⟨hs, ht⟩).2
  have hm := move_step ord c s x
  exact ⟨h.1.move hm, h.2.move h.1 hfresh hC hm⟩

/-- A call that will generate, or has. -/
def Generates (c : ArtifactCalls κ) (s : ArtifactRace κ) (k : κ) : Prop :=
  k ∈ s.generated ∨ (s.Viable c k ∧ s.InFlight k)

theorem Generates.move {tables : SourceTables} (h : Generates c s k) (hs : Shape c tables s)
    (hm : Move ord c s x s') : Generates c s' k := by
  rcases h with hk | ⟨hv, hf⟩
  · exact .inl (hm.generated_sub hk)
  · by_cases hx : k = x.1
    · subst hx
      cases hm with
      | done answer hp => exact absurd hp (hf.2 answer)
      | hit a hp => exact absurd hp hf.1
      | miss hp => exact absurd hp hf.1
      | noSource hp hg =>
        obtain ⟨entry, he, -⟩ := hv
        rw [hg] at he
        cases he
      | loaded entry hp hg => exact .inr ⟨hv, by simp, by simp⟩
      | failed content hp hg =>
        obtain ⟨entry, he, hsome⟩ := hv
        obtain ⟨entry', he', rfl⟩ := hs.generating x.1 content hp
        rw [he] at he'
        cases he'
        rw [hg] at hsome
        cases hsome
      | generated content text hp hg => exact .inl (by simp)
      | inserted text t hp hi => exact .inl (hs.inserting x.1 text hp).1
      | refused text e hp hi => exact .inl (hs.inserting x.1 text hp).1
    · refine .inr ⟨hm.viable_iff.mpr hv, ?_⟩
      rw [InFlight, hm.phase_other hx]
      exact hf

theorem generates_run (ord : ArtifactOrder) {tables : SourceTables} (hs : Shape c tables s)
    (h : Generates c s k) (schedule : List (κ × Int)) : Generates c (run (step ord c) s schedule) k := by
  induction schedule generalizing s with
  | nil => exact h
  | cons x schedule ih =>
    have hm := move_step ord c s x
    exact ih (hs.move hm) (h.move hs hm)

/-- Two calls that will generate and overlap both do, if they are let finish. -/
theorem generated_twice {tables : SourceTables} (hs : Shape c tables s) {k' : κ} (hne : k ≠ k')
    (h : Generates c s k) (h' : Generates c s k') {schedule : List (κ × Int)}
    (hend : ∀ k, ¬(run (step ord c) s schedule).InFlight k) :
    2 ≤ (run (step ord c) s schedule).generated.length := by
  have hk := (generates_run ord hs h schedule).resolve_right fun hv => hend k hv.2
  have hk' := (generates_run ord hs h' schedule).resolve_right fun hv => hend k' hv.2
  by_contra hlen
  match hgen : (run (step ord c) s schedule).generated with
  | [] =>
    rw [hgen] at hk
    cases hk
  | [b] =>
    rw [hgen, List.mem_singleton] at hk hk'
    exact hne (hk.trans hk'.symm)
  | _ :: _ :: _ =>
    rw [hgen] at hlen
    simp at hlen

/-- However the calls interleave, an artifact is generated once as long as no call that will
generate misses in its lookup while another such call is in flight; and once all calls are
through, only then. -/
theorem artifact_once_iff {κ : Type*} [DecidableEq κ] (ord : ArtifactOrder) (c : ArtifactCalls κ)
    (tables : SourceTables) (hrows : ((start tables : ArtifactRace κ).pairRows c).length ≤ 1)
    (hfresh : ∀ k, c.newId k ∉ tables.artifacts.map (·.artifactId))
    (schedule : List (κ × Int)) :
    ((∀ v ∈ visits (step ord c) (start tables) schedule, v.1.Alone c v.2.1) →
      (∀ v ∈ visits (step ord c) (start tables) schedule, Once c v.1) ∧
        Once c (run (step ord c) (start tables) schedule)) ∧
    ((∀ k, ¬(run (step ord c) (start tables) schedule).InFlight k) →
      (Once c (run (step ord c) (start tables) schedule) ↔
        ∀ v ∈ visits (step ord c) (start tables) schedule, v.1.Alone c v.2.1)) := by
  have hs : Shape c tables (start tables : ArtifactRace κ) := shape_start c tables
  have ht : Token c (start tables : ArtifactRace κ) := token_start hrows
  have henough : ∀ {schedule : List (κ × Int)},
      (∀ v ∈ visits (step ord c) (start tables) schedule, v.1.Alone c v.2.1) →
      Once c (run (step ord c) (start tables) schedule) :=
    fun halone => (token_run hs ht hfresh halone).once
  refine ⟨fun halone => ⟨fun v hv => ?_, henough halone⟩, fun hend => ⟨fun honce => ?_, henough⟩⟩
  · obtain ⟨u, w, rfl, hstate⟩ := mem_visits hv
    rw [hstate]
    refine henough fun y hy => halone y ?_
    rw [visits_append]
    exact List.mem_append_left _ hy
  · intro v hv hlook hnil hv1 k' hv2 hf
    obtain ⟨u, w, rfl, hstate⟩ := mem_visits hv
    rw [run_append, run, ← hstate] at honce hend
    have hshape : Shape c tables v.1 := hstate ▸ shape_run hs u
    have hm := move_step ord c v.1 v.2
    have hne : v.2.1 ≠ k' := by
      rintro rfl
      exact hf.1 hlook
    have hload : (v.1.step ord c v.2).phase v.2.1 = .load := by
      have hmiss := (pairRows_eq_nil_iff ord).mpr hnil
      simp [step, hlook, hmiss]
    have hmine : Generates c (v.1.step ord c v.2) v.2.1 :=
      .inr ⟨hm.viable_iff.mpr hv1, by simp [hload], by simp [hload]⟩
    have hother : Generates c (v.1.step ord c v.2) k' :=
      Generates.move (.inr ⟨hv2, hf⟩) hshape hm
    have htwo := generated_twice (hshape.move hm) hne hmine hother hend
    have hone := honce.generatedOnce
    omega

/-- Two calls for the graph of a source that is registered. -/
def twoCalls : ArtifactCalls Bool where
  sourceId := ⟨1⟩
  artifactType := "dot"
  expiresAtMs _ := none
  generator _ content := some content
  newId k := if k then ⟨3⟩ else ⟨2⟩
  newId_injective := by
    intro k k' h
    cases k <;> cases k' <;> simp_all

def oneSource : SourceTables :=
  (SourceTables.new.register id ⟨1⟩ 0 "prolog" none "p." none).2

/-- One call after the other. -/
theorem artifact_once_iff_in_turn :
    (∀ v ∈ visits (step (.stable _) twoCalls) (start oneSource)
      [(false, 5), (false, 5), (false, 5), (false, 5), (true, 6)], v.1.Alone twoCalls v.2.1) ∧
    Once twoCalls (run (step (.stable _) twoCalls) (start oneSource)
      [(false, 5), (false, 5), (false, 5), (false, 5), (true, 6)]) := by
  have halone : ∀ v ∈ visits (step (.stable _) twoCalls) (start oneSource)
      [(false, 5), (false, 5), (false, 5), (false, 5), (true, 6)], v.1.Alone twoCalls v.2.1 := by
    simp only [visits, List.mem_cons, List.not_mem_nil, or_false]
    rintro v (rfl | rfl | rfl | rfl | rfl) hlook hnil
    · exact fun _ k' _ hf => absurd rfl hf.1
    · cases hlook
    · cases hlook
    · cases hlook
    · cases hnil
  exact ⟨halone, ((artifact_once_iff (.stable _) twoCalls oneSource (by decide) (by decide) _).1
    halone).2⟩

/-- Both calls look up before either inserts: the generator runs twice. -/
theorem artifact_generated_twice : ¬∀ (ord : ArtifactOrder) (c : ArtifactCalls Bool)
    (tables : SourceTables), ((start tables : ArtifactRace Bool).pairRows c).length ≤ 1 →
    (∀ k, c.newId k ∉ tables.artifacts.map (·.artifactId)) →
    ∀ schedule : List (Bool × Int), Once c (run (step ord c) (start tables) schedule) := by
  intro h
  have honce := h (.stable _) twoCalls oneSource (by decide) (by decide) [(false, 5), (true, 5),
    (false, 5), (true, 5), (false, 5), (true, 5), (false, 5), (true, 6)]
  have htwo := honce.generatedOnce
  revert htwo
  decide +kernel

end ArtifactRace

end Cerebellum
