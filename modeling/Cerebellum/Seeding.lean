import Cerebellum.Text
import Cerebellum.Json
import Cerebellum.Uuid
import Cerebellum.Lib.Keyed

/-! The knowledge a deduction is seeded with: how `start_deduce` resolves the sources of a
request, what the snapshot of the run keeps of them, and what `resume_deduce` reads back. -/
namespace Cerebellum

/-- The scanner of `split_clips_constructs`. -/
structure ConstructScan where
  constructs : List (List Char) := []
  depth : Int := 0
  start : Option Nat := none
  inString : Bool := false
  inComment : Bool := false
  /-- The character after a backslash in a string is skipped. -/
  escaped : Bool := false

/-- One character; `source` is the whole text and `i` the position of `b` in it. -/
def ConstructScan.step (source : List Char) (s : ConstructScan) (b : Char) (i : Nat) :
    ConstructScan :=
  if s.inComment then { s with inComment := b != '\n' }
  else if s.inString then
    if s.escaped then { s with escaped := false }
    else if b = '\\' && decide (i + 1 < source.length) then { s with escaped := true }
    else { s with inString := b != '"' }
  else if b = ';' then { s with inComment := true }
  else if b = '"' then { s with inString := true }
  else if b = '(' then
    { s with start := if s.depth = 0 then some i else s.start, depth := s.depth + 1 }
  else if b = ')' then
    let depth := s.depth - 1
    if depth = 0 then
      match s.start with
      | some from_ =>
        let construct := Text.trim ((source.drop from_).take (i + 1 - from_))
        { s with
          depth := depth
          start := none
          constructs := if construct.isEmpty then s.constructs else s.constructs ++ [construct] }
      | none => { s with depth := depth }
    else { s with depth := depth }
  else s

/-- The top-level constructs of a CLIPS text: balanced parentheses outside of comments and
strings. -/
def splitClipsConstructs (source : String) : List String :=
  let chars := source.toList
  (chars.zipIdx.foldl (fun s p => s.step chars p.1 p.2) ({} : ConstructScan)).constructs.map
    String.ofList

structure SourceEntry where
  sourceId : Uuid
  contentHash : String
  sourceType : String
  content : String
  deriving DecidableEq

/-- The `source_registry` table. -/
structure SourceRegistry where
  rows : List SourceEntry

namespace SourceRegistry

def get (reg : SourceRegistry) (sid : Uuid) : Option SourceEntry :=
  reg.rows.find? (·.sourceId == sid)

/-- A text that is already there under its hash and type keeps its id. -/
def register (hash : String → String) (newId : Uuid) (reg : SourceRegistry)
    (sourceType content : String) : Uuid × SourceRegistry :=
  match reg.rows.find? fun e => e.contentHash == hash content && e.sourceType == sourceType with
  | some e => (e.sourceId, reg)
  | none => (newId, ⟨reg.rows ++ [⟨newId, hash content, sourceType, content⟩]⟩)

end SourceRegistry

structure DeduceRequest where
  prologClauses : List String := []
  clipsConstructs : List String := []
  clipsFile : Option String := none
  prologSourceId : Option Uuid := none
  clipsSourceId : Option Uuid := none
  context : List Json := []

/-- What a session is seeded with. -/
structure Seeds where
  prologClauses : List String
  clipsFile : Option String
  clipsConstructs : List String
  context : List Json
  deriving DecidableEq

/-- The parts of a snapshot that are written by one handler and read by the other. -/
structure DeductionSnapshot where
  deductionId : Uuid
  prologClauses : List String
  clipsConstructs : List String
  clipsFile : Option String
  prologSessionId : Uuid
  clipsSessionId : Uuid
  context : List Json
  prologSourceId : Option Uuid
  clipsSourceId : Option Uuid

/-- What the handlers take from their surroundings: the hash, the ids minted for new
sources, and the files. -/
structure SourceEnv where
  hash : String → String
  newPrologId : Uuid
  newClipsId : Uuid
  readFile : String → Option String

/-- Split stored content back into individual clauses. -/
def loadedClauses (content : String) : List String :=
  (((Text.lines content.toList).map Text.trim).filter fun l => !l.isEmpty).map String.ofList

def joinLines (parts : List String) : String := "\n".intercalate parts

/-- Inline clauses are registered and used as they are. -/
def registerClauses (env : SourceEnv) (reg : SourceRegistry) (clauses : List String) :
    List String × Option Uuid × SourceRegistry :=
  if clauses.isEmpty then (clauses, none, reg)
  else
    let (sid, reg) := reg.register env.hash env.newPrologId "prolog" (joinLines clauses)
    (clauses, some sid, reg)

def resolvePrologSource (env : SourceEnv) (reg : SourceRegistry) (sourceId : Option Uuid)
    (clauses : List String) : List String × Option Uuid × SourceRegistry :=
  match sourceId with
  | none => registerClauses env reg clauses
  | some sid =>
    match reg.get sid with
    | some entry => (loadedClauses entry.content, some sid, reg)
    | none => registerClauses env reg clauses

/-- The text of the file, or of the inline constructs, is registered; both are used as they
are. -/
def registerConstructs (env : SourceEnv) (reg : SourceRegistry) (clipsFile : Option String)
    (constructs : List String) : Option String × List String × Option Uuid × SourceRegistry :=
  let content := match clipsFile with
    | some path => env.readFile path
    | none => if constructs.isEmpty then none else some (joinLines constructs)
  match content with
  | none => (clipsFile, constructs, none, reg)
  | some content =>
    let (sid, reg) := reg.register env.hash env.newClipsId "clips" content
    (clipsFile, constructs, some sid, reg)

def resolveClipsSource (env : SourceEnv) (reg : SourceRegistry) (sourceId : Option Uuid)
    (clipsFile : Option String) (constructs : List String) :
    Option String × List String × Option Uuid × SourceRegistry :=
  match sourceId with
  | none => registerConstructs env reg clipsFile constructs
  | some sid =>
    match reg.get sid with
    | some entry => (none, splitClipsConstructs entry.content, some sid, reg)
    | none => registerConstructs env reg clipsFile constructs

/-- The seeds of a request and the ids of the sources they were taken from. -/
def startSeeds (env : SourceEnv) (reg : SourceRegistry) (req : DeduceRequest) :
    Seeds × Option Uuid × Option Uuid :=
  let (clauses, prologSrc, reg) := resolvePrologSource env reg req.prologSourceId req.prologClauses
  let (file, constructs, clipsSrc, _) :=
    resolveClipsSource env reg req.clipsSourceId req.clipsFile req.clipsConstructs
  (⟨clauses, file, constructs, req.context⟩, prologSrc, clipsSrc)

/-- The snapshot saved at the end of the run. The source ids come back with the result, so a
run that ends with an error has none. -/
def startSnapshot (env : SourceEnv) (reg : SourceRegistry) (req : DeduceRequest)
    (deductionId prologId clipsId : Uuid) (runOk : Bool) : DeductionSnapshot :=
  let (_, prologSrc, clipsSrc) := startSeeds env reg req
  { deductionId := deductionId
    prologClauses := req.prologClauses
    clipsConstructs := req.clipsConstructs
    clipsFile := req.clipsFile
    prologSessionId := prologId
    clipsSessionId := clipsId
    context := req.context
    prologSourceId := if runOk then prologSrc else none
    clipsSourceId := if runOk then clipsSrc else none }

/-- The `deduction_snapshots` table. -/
abbrev SnapshotTable := List DeductionSnapshot

namespace SnapshotTable

def saveSnapshot (t : SnapshotTable) (snap : DeductionSnapshot) : SnapshotTable :=
  Keyed.upsert DeductionSnapshot.deductionId Keyed.overwrite t snap

def loadSnapshot (t : SnapshotTable) (deductionId : Uuid) : Option DeductionSnapshot :=
  t.find? (·.deductionId == deductionId)

end SnapshotTable

inductive ResumeError where
  | snapshotNotFound
  | sessionStillActive
  deriving DecidableEq

/-- The seeds of a run resumed from the snapshot; only the context can be overridden. -/
def DeductionSnapshot.seeds (snap : DeductionSnapshot) (context : Option (List Json)) : Seeds :=
  ⟨snap.prologClauses, snap.clipsFile, snap.clipsConstructs, context.getD snap.context⟩

def resumeSeeds (snapshots : SnapshotTable) (active : List Uuid) (deductionId : Uuid)
    (context : Option (List Json)) : Except ResumeError Seeds :=
  match snapshots.loadSnapshot deductionId with
  | none => .error .snapshotNotFound
  | some snap =>
    if active.contains snap.prologSessionId || active.contains snap.clipsSessionId then
      .error .sessionStillActive
    else .ok (snap.seeds context)

/-- The snapshot a resumed run leaves: the seeds it was given, and the source ids of the
snapshot it came from. -/
def resumeSnapshot (snap : DeductionSnapshot) (context : Option (List Json))
    (deductionId prologId clipsId : Uuid) : DeductionSnapshot :=
  { snap with
    deductionId := deductionId
    prologSessionId := prologId
    clipsSessionId := clipsId
    context := context.getD snap.context }

namespace SourceRegistry

/-- A source that is in the registry is found there also after another one was registered. -/
theorem get_register {hash : String → String} {newId sid : Uuid} {reg : SourceRegistry}
    {entry : SourceEntry} (h : reg.get sid = some entry) (sourceType content : String) :
    (reg.register hash newId sourceType content).2.get sid = some entry := by
  unfold register
  split
  · exact h
  · unfold get at h ⊢
    rw [List.find?_append, h]
    rfl

end SourceRegistry

theorem registerClauses_get {env : SourceEnv} {reg : SourceRegistry} {sid : Uuid}
    {entry : SourceEntry} (h : reg.get sid = some entry) (clauses : List String) :
    (registerClauses env reg clauses).2.2.get sid = some entry := by
  unfold registerClauses
  split
  · exact h
  · exact SourceRegistry.get_register h _ _

theorem registerClauses_fst (env : SourceEnv) (reg : SourceRegistry) (clauses : List String) :
    (registerClauses env reg clauses).1 = clauses := by
  unfold registerClauses
  split <;> rfl

theorem resolvePrologSource_get {env : SourceEnv} {reg : SourceRegistry} {sid : Uuid}
    {entry : SourceEntry} (h : reg.get sid = some entry) (sourceId : Option Uuid)
    (clauses : List String) :
    (resolvePrologSource env reg sourceId clauses).2.2.get sid = some entry := by
  unfold resolvePrologSource
  split
  · exact registerClauses_get h clauses
  · split
    · exact h
    · exact registerClauses_get h clauses

theorem registerConstructs_seeds (env : SourceEnv) (reg : SourceRegistry) (file : Option String)
    (constructs : List String) : (registerConstructs env reg file constructs).1 = file ∧
      (registerConstructs env reg file constructs).2.1 = constructs := by
  unfold registerConstructs
  dsimp only
  generalize (match file with
    | some path => env.readFile path
    | none => if constructs.isEmpty then none else some (joinLines constructs)) = content
  cases content <;> exact ⟨rfl, rfl⟩

/-- A request whose run is persisted; the sources it names are in the registry. -/
structure PersistedRequest where
  env : SourceEnv
  registry : SourceRegistry
  request : DeduceRequest
  prologPresent : ∀ sid, request.prologSourceId = some sid → ∃ e, registry.get sid = some e
  clipsPresent : ∀ sid, request.clipsSourceId = some sid → ∃ e, registry.get sid = some e
  deductionId : Uuid
  prologId : Uuid
  clipsId : Uuid

namespace PersistedRequest
variable (R : PersistedRequest)

def seeds : Seeds := (startSeeds R.env R.registry R.request).1

def snapshot (runOk : Bool) : DeductionSnapshot :=
  startSnapshot R.env R.registry R.request R.deductionId R.prologId R.clipsId runOk

/-- Whatever else was and will be saved under other ids, and however the run ended, a resume
without overrides seeds the new session as the original one was. -/
def Reseeds : Prop :=
  ∀ (before later : SnapshotTable) (runOk : Bool) (active : List Uuid),
    R.prologId ∉ active → R.clipsId ∉ active →
    resumeSeeds ((later.filter (·.deductionId != R.deductionId)).foldl SnapshotTable.saveSnapshot
      (before.saveSnapshot (R.snapshot runOk))) active R.deductionId none = .ok R.seeds

/-- Snapshots saved under other ids are not in the way. -/
theorem loadSnapshot_later (later t : SnapshotTable) (id : Uuid) :
    ((later.filter (·.deductionId != id)).foldl SnapshotTable.saveSnapshot t).loadSnapshot id =
      t.loadSnapshot id := by
  induction later generalizing t with
  | nil => rfl
  | cons snap later ih =>
    by_cases h : snap.deductionId = id
    · simpa [h] using ih t
    · have hone : (t.saveSnapshot snap).loadSnapshot id = t.loadSnapshot id :=
        (Keyed.find_overwrite t snap id).trans (if_neg h)
      simpa [h, hone] using ih (t.saveSnapshot snap)

/-- What a resume reads are the inline fields of the original request. -/
theorem resumeSeeds_snapshot (before later : SnapshotTable) (runOk : Bool) {active : List Uuid}
    (hp : R.prologId ∉ active) (hc : R.clipsId ∉ active) :
    resumeSeeds ((later.filter (·.deductionId != R.deductionId)).foldl SnapshotTable.saveSnapshot
      (before.saveSnapshot (R.snapshot runOk))) active R.deductionId none =
        .ok ⟨R.request.prologClauses, R.request.clipsFile, R.request.clipsConstructs,
          R.request.context⟩ := by
  have hload : (before.saveSnapshot (R.snapshot runOk)).loadSnapshot R.deductionId =
      some (R.snapshot runOk) :=
    (Keyed.find_overwrite before (R.snapshot runOk) R.deductionId).trans (if_pos rfl)
  have hidle : (active.contains (R.snapshot runOk).prologSessionId ||
      active.contains (R.snapshot runOk).clipsSessionId) = false := by
    simpa [snapshot, startSnapshot] using ⟨hp, hc⟩
  rw [resumeSeeds, loadSnapshot_later, hload]
  simp only [hidle, Bool.false_eq_true, if_false]
  rfl

/-- The seeds of the original session: what a named source holds comes before the inline
fields. -/
theorem seeds_eq : R.seeds =
    ⟨((R.request.prologSourceId.bind R.registry.get).map fun e => loadedClauses e.content).getD
        R.request.prologClauses,
      if R.request.clipsSourceId.isSome then none else R.request.clipsFile,
      ((R.request.clipsSourceId.bind R.registry.get).map fun e =>
        splitClipsConstructs e.content).getD R.request.clipsConstructs,
      R.request.context⟩ := by
  have hprolog : (resolvePrologSource R.env R.registry R.request.prologSourceId
      R.request.prologClauses).1 = ((R.request.prologSourceId.bind R.registry.get).map fun e =>
        loadedClauses e.content).getD R.request.prologClauses := by
    unfold resolvePrologSource
    cases R.request.prologSourceId with
    | none => exact registerClauses_fst _ _ _
    | some sid =>
      cases h : R.registry.get sid with
      | none => simpa [h] using registerClauses_fst R.env R.registry R.request.prologClauses
      | some e => simp [h]
  have hclips : ∀ reg : SourceRegistry,
      (∀ sid e, R.registry.get sid = some e → reg.get sid = some e) →
      (resolveClipsSource R.env reg R.request.clipsSourceId R.request.clipsFile
        R.request.clipsConstructs).1 =
          (if R.request.clipsSourceId.isSome then none else R.request.clipsFile) ∧
      (resolveClipsSource R.env reg R.request.clipsSourceId R.request.clipsFile
        R.request.clipsConstructs).2.1 = ((R.request.clipsSourceId.bind R.registry.get).map fun e =>
          splitClipsConstructs e.content).getD R.request.clipsConstructs := by
    intro reg hreg
    unfold resolveClipsSource
    cases hid : R.request.clipsSourceId with
    | none => simpa using registerConstructs_seeds R.env reg _ _
    | some sid =>
      obtain ⟨e, he⟩ := R.clipsPresent sid hid
      simp [hreg sid e he, he]
  obtain ⟨hfile, hconstructs⟩ := hclips _ fun sid e he =>
    @resolvePrologSource_get R.env _ _ _ he R.request.prologSourceId R.request.prologClauses
  unfold seeds startSeeds
  simp only [hprolog, hfile, hconstructs]

/-- A resume seeds the same knowledge exactly when the sources the request names hold what
the request also has inline. -/
theorem resume_reseeds_iff : R.Reseeds ↔
    (∀ sid e, R.request.prologSourceId = some sid → R.registry.get sid = some e →
      loadedClauses e.content = R.request.prologClauses) ∧
    (∀ sid e, R.request.clipsSourceId = some sid → R.registry.get sid = some e →
      R.request.clipsFile = none ∧
        splitClipsConstructs e.content = R.request.clipsConstructs) := by
  have hiff : R.Reseeds ↔ (⟨R.request.prologClauses, R.request.clipsFile,
      R.request.clipsConstructs, R.request.context⟩ : Seeds) = R.seeds := by
    constructor
    · intro h
      have h1 := h [] [] true [] (by simp) (by simp)
      rw [R.resumeSeeds_snapshot [] [] true (by simp) (by simp)] at h1
      exact Except.ok.inj h1
    · intro h before later runOk active hp hc
      rw [R.resumeSeeds_snapshot before later runOk hp hc, h]
  rw [hiff, seeds_eq, Seeds.mk.injEq]
  simp only [and_true]
  refine and_congr ?_ ?_
  · cases hp : R.request.prologSourceId with
    | none => simp
    | some sid =>
      obtain ⟨e, he⟩ := R.prologPresent sid hp
      simp only [Option.bind_some, he, Option.map_some, Option.getD_some]
      refine ⟨fun h x y hx hy => ?_, fun h => (h sid e rfl he).symm⟩
      cases hx
      rw [he] at hy
      cases hy
      exact h.symm
  · cases hc : R.request.clipsSourceId with
    | none => simp
    | some sid =>
      obtain ⟨e, he⟩ := R.clipsPresent sid hc
      simp only [Option.bind_some, he, Option.map_some, Option.getD_some, Option.isSome_some,
        if_true]
      refine ⟨fun h x y hx hy => ?_, fun h => ⟨(h sid e rfl he).1, (h sid e rfl he).2.symm⟩⟩
      cases hx
      rw [he] at hy
      cases hy
      exact ⟨h.1, h.2.symm⟩

end PersistedRequest

/-- However often a run is resumed and persisted again, the seeds stay those of the first
snapshot. -/
theorem resumed_seeds_stay (snap : DeductionSnapshot) (ids : List (Uuid × Uuid × Uuid)) :
    (ids.foldl (fun s i => resumeSnapshot s none i.1 i.2.1 i.2.2) snap).seeds none =
      snap.seeds none := by
  induction ids generalizing snap with
  | nil => rfl
  | cons i ids ih => exact ih _

/-- The only knowledge of the request is a registered Prolog source. -/
def sourceOnly : PersistedRequest where
  env := ⟨id, ⟨20⟩, ⟨21⟩, fun _ => none⟩
  registry := ⟨[⟨⟨5⟩, "h", "prolog", "man(stan).\nmortal(X) :- man(X).\n"⟩]⟩
  request := { prologSourceId := some ⟨5⟩ }
  prologPresent := by
    intro sid h
    cases h
    exact ⟨_, rfl⟩
  clipsPresent := by
    intro sid h
    cases h
  deductionId := ⟨30⟩
  prologId := ⟨1⟩
  clipsId := ⟨2⟩

/-- The first session knows two clauses, the resumed one none. -/
theorem resumed_session_has_no_clauses :
    sourceOnly.seeds.prologClauses = ["man(stan).", "mortal(X) :- man(X)."] ∧
    resumeSeeds (SnapshotTable.saveSnapshot [] (sourceOnly.snapshot true)) [] ⟨30⟩ none =
      .ok ⟨[], none, [], []⟩ ∧
    ¬ sourceOnly.Reseeds := by
  refine ⟨by decide +kernel, rfl, fun h => ?_⟩
  have hsame := (sourceOnly.resume_reseeds_iff.mp h).1 ⟨5⟩ _ rfl rfl
  revert hsame
  decide +kernel

end Cerebellum
