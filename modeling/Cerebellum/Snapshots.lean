import Cerebellum.Sweep
import Cerebellum.JsonCodec

/-! Deduction snapshots in the store: `save_snapshot` writes one as a row of seventeen columns,
`load_snapshot` and `list_snapshots` decode the rows. -/
namespace Cerebellum

/-- The types of the number columns. -/
inductive IntColumn where
  | integer
  | bigint

/-- A number out of the range of its column is refused. -/
def IntColumn.Fits : IntColumn → Int → Prop
  | .integer, n => -2 ^ 31 ≤ n ∧ n < 2 ^ 31
  | .bigint, n => -2 ^ 63 ≤ n ∧ n < 2 ^ 63

instance (t : IntColumn) (n : Int) : Decidable (t.Fits n) :=
  match t with
  | .integer => inferInstanceAs (Decidable (_ ∧ _))
  | .bigint => inferInstanceAs (Decidable (_ ∧ _))

/-- A whole `DeductionSnapshot`; its times are `i64`. -/
structure FullSnapshot extends SnapshotRow where
  initialGoal : Option String
  maxCycles : UInt32
  status : String
  cyclesRun : UInt32
  tableauEntries : Json
  dotArtifactId : Option Uuid
  createdAt_fits : IntColumn.bigint.Fits createdAtMs
  expiresAt_fits : IntColumn.bigint.Fits expiresAtMs

/-- `serde_json` on one type. -/
structure TextCodec (α : Type) where
  toString : α → String
  fromStr : String → Option α
  fromStr_toString : ∀ a, fromStr (toString a) = some a

/-- `serde_json` on the three types kept as JSON. -/
structure SnapshotCodec where
  strings : TextCodec (List String)
  values : TextCodec (List Json)
  value : TextCodec Json

namespace SnapshotCodec

def valuesFromText (s : String) : Option (List Json) :=
  match Json.fromText s with
  | some (.arr xs) => some xs
  | _ => none

theorem valuesFromText_toText (xs : List Json) :
    valuesFromText (Json.toText (.arr xs)) = some xs := by
  rw [valuesFromText, Json.fromText_toText]

theorem stringsFromText_toText (xs : List String) :
    JsonText.strings.fromText (JsonText.strings.toText xs) = some xs :=
  JsonText.strings.fromText_toText xs

/-- JSON texts without white space. -/
def json : SnapshotCodec where
  strings := ⟨JsonText.strings.toText, JsonText.strings.fromText, stringsFromText_toText⟩
  values := ⟨fun xs => Json.toText (.arr xs), valuesFromText, valuesFromText_toText⟩
  value := ⟨Json.toText, Json.fromText, Json.fromText_toText⟩

end SnapshotCodec

/-- A row of `deduction_snapshots`, every column in its type. -/
structure SnapshotColumns where
  deductionId : String
  prologClauses : String
  clipsConstructs : String
  clipsFile : Option String
  initialGoal : Option String
  maxCycles : Int
  status : String
  cyclesRun : Int
  prologSessionId : String
  clipsSessionId : String
  createdAtMs : Int
  expiresAtMs : Int
  context : String
  tableauEntries : String
  prologSourceId : Option String
  clipsSourceId : Option String
  dotArtifactId : Option String
  maxCycles_fits : IntColumn.integer.Fits maxCycles
  cyclesRun_fits : IntColumn.integer.Fits cyclesRun
  createdAt_fits : IntColumn.bigint.Fits createdAtMs
  expiresAt_fits : IntColumn.bigint.Fits expiresAtMs

inductive SnapshotError where
  /-- A value that does not fit its column. -/
  | database
  | json
  /-- `Uuid::parse_str(…).unwrap()`. -/
  | panic
  deriving DecidableEq

/-- `n as u32`. -/
def asU32 (n : Int) : UInt32 := UInt32.ofNat (n % 2 ^ 32).toNat

namespace SnapshotColumns

/-- `ON CONFLICT (deduction_id) DO UPDATE SET`. -/
def onConflict (old new : SnapshotColumns) : SnapshotColumns :=
  { old with
    prologClauses := new.prologClauses
    clipsConstructs := new.clipsConstructs
    clipsFile := new.clipsFile
    initialGoal := new.initialGoal
    maxCycles := new.maxCycles
    status := new.status
    cyclesRun := new.cyclesRun
    prologSessionId := new.prologSessionId
    clipsSessionId := new.clipsSessionId
    createdAtMs := new.createdAtMs
    expiresAtMs := new.expiresAtMs
    context := new.context
    tableauEntries := new.tableauEntries
    prologSourceId := new.prologSourceId
    clipsSourceId := new.clipsSourceId
    dotArtifactId := new.dotArtifactId
    maxCycles_fits := new.maxCycles_fits
    cyclesRun_fits := new.cyclesRun_fits
    createdAt_fits := new.createdAt_fits
    expiresAt_fits := new.expiresAt_fits }

theorem onConflict_key (old new : SnapshotColumns) (_ : old.deductionId = new.deductionId) :
    (old.onConflict new).deductionId = old.deductionId := rfl

/-- The snapshot `load_snapshot` and `list_snapshots` make of a row. Context and tableau fall
back to their defaults, the optional ids to `None`. -/
def decode (c : SnapshotCodec) (r : SnapshotColumns) : Except SnapshotError FullSnapshot := do
  let some deductionId := Uuid.parseStr r.deductionId | throw .panic
  let some prologClauses := c.strings.fromStr r.prologClauses | throw .json
  let some clipsConstructs := c.strings.fromStr r.clipsConstructs | throw .json
  let some prologSessionId := Uuid.parseStr r.prologSessionId | throw .panic
  let some clipsSessionId := Uuid.parseStr r.clipsSessionId | throw .panic
  return {
    deductionId := deductionId
    prologClauses := prologClauses
    clipsConstructs := clipsConstructs
    clipsFile := r.clipsFile
    initialGoal := r.initialGoal
    maxCycles := asU32 r.maxCycles
    status := r.status
    cyclesRun := asU32 r.cyclesRun
    prologSessionId := prologSessionId
    clipsSessionId := clipsSessionId
    createdAtMs := r.createdAtMs
    expiresAtMs := r.expiresAtMs
    context := (c.values.fromStr r.context).getD []
    tableauEntries := (c.value.fromStr r.tableauEntries).getD .null
    prologSourceId := r.prologSourceId.bind Uuid.parseStr
    clipsSourceId := r.clipsSourceId.bind Uuid.parseStr
    dotArtifactId := r.dotArtifactId.bind Uuid.parseStr
    createdAt_fits := r.createdAt_fits
    expiresAt_fits := r.expiresAt_fits }

end SnapshotColumns

/-- The row `save_snapshot` binds, when every column takes its value. -/
def FullSnapshot.columns (c : SnapshotCodec) (snap : FullSnapshot) : Option SnapshotColumns :=
  if h : IntColumn.integer.Fits snap.maxCycles.toNat ∧
      IntColumn.integer.Fits snap.cyclesRun.toNat then
    some {
      deductionId := snap.deductionId.toText
      prologClauses := c.strings.toString snap.prologClauses
      clipsConstructs := c.strings.toString snap.clipsConstructs
      clipsFile := snap.clipsFile
      initialGoal := snap.initialGoal
      maxCycles := snap.maxCycles.toNat
      status := snap.status
      cyclesRun := snap.cyclesRun.toNat
      prologSessionId := snap.prologSessionId.toText
      clipsSessionId := snap.clipsSessionId.toText
      createdAtMs := snap.createdAtMs
      expiresAtMs := snap.expiresAtMs
      context := c.values.toString snap.context
      tableauEntries := c.value.toString snap.tableauEntries
      prologSourceId := snap.prologSourceId.map Uuid.toText
      clipsSourceId := snap.clipsSourceId.map Uuid.toText
      dotArtifactId := snap.dotArtifactId.map Uuid.toText
      maxCycles_fits := h.1
      cyclesRun_fits := h.2
      createdAt_fits := snap.createdAt_fits
      expiresAt_fits := snap.expiresAt_fits }
  else none

theorem asU32_toNat (n : UInt32) : asU32 n.toNat = n := by
  have hn := n.toNat_lt
  have hmod : (n.toNat : Int) % 2 ^ 32 = n.toNat := Int.emod_eq_of_lt (by omega) (by omega)
  rw [asU32, hmod, Int.toNat_natCast, UInt32.ofNat_toNat]

theorem bind_parseStr_map_toText (id : Option Uuid) :
    (id.map Uuid.toText).bind Uuid.parseStr = id := by
  cases id with
  | none => rfl
  | some u => exact Uuid.parseStr_toText u

/-- What is written is read back. -/
theorem SnapshotColumns.decode_columns {c : SnapshotCodec} {snap : FullSnapshot}
    {r : SnapshotColumns} (h : snap.columns c = some r) : r.decode c = .ok snap := by
  unfold FullSnapshot.columns at h
  split at h
  · cases h
    simp only [decode, Uuid.parseStr_toText, c.strings.fromStr_toString, c.values.fromStr_toString,
      c.value.fromStr_toString, bind_parseStr_map_toText, asU32_toNat, Option.getD_some]
    rfl
  · cases h

theorem FullSnapshot.columns_key {c : SnapshotCodec} {snap : FullSnapshot} {r : SnapshotColumns}
    (h : snap.columns c = some r) : r.deductionId = snap.deductionId.toText := by
  unfold columns at h
  split at h
  · cases h
    rfl
  · cases h

/-- The row is bound when the two counters fit an `INTEGER`. -/
theorem FullSnapshot.columns_isSome_iff (c : SnapshotCodec) (snap : FullSnapshot) :
    (snap.columns c).isSome ↔ snap.maxCycles.toNat < 2 ^ 31 ∧ snap.cyclesRun.toNat < 2 ^ 31 := by
  have hfits : ∀ n : Nat, IntColumn.integer.Fits n ↔ n < 2 ^ 31 := by
    intro n
    unfold IntColumn.Fits
    omega
  simp [columns, hfits]

/-- The table: its primary key is one, and its rows are ones the decoders take. -/
structure SnapshotStore (c : SnapshotCodec) where
  rows : List SnapshotColumns
  key : (rows.map (·.deductionId)).Nodup
  reads : ∀ r ∈ rows, ∃ snap, r.decode c = .ok snap

namespace SnapshotStore
variable {c : SnapshotCodec}

def new : SnapshotStore c := ⟨[], List.nodup_nil, by simp⟩

/-- The conflict clause sets every column but the key. -/
theorem onConflict_eq {old new : SnapshotColumns} (h : old.deductionId = new.deductionId) :
    old.onConflict new = new := by
  cases old
  cases new
  cases h
  rfl

theorem upsert_onConflict (rows : List SnapshotColumns) (new : SnapshotColumns) :
    Keyed.upsert (·.deductionId) SnapshotColumns.onConflict rows new =
      Keyed.upsert (·.deductionId) Keyed.overwrite rows new := by
  unfold Keyed.upsert
  split
  · refine List.map_congr_left fun r _ => ?_
    by_cases h : r.deductionId = new.deductionId
    · rw [if_pos h, if_pos h, onConflict_eq h]
      rfl
    · rw [if_neg h, if_neg h]
  · rfl

/-- The `INSERT` of a row that decodes. -/
def insert (s : SnapshotStore c) (r : SnapshotColumns) (h : ∃ snap, r.decode c = .ok snap) :
    SnapshotStore c where
  rows := Keyed.upsert (·.deductionId) SnapshotColumns.onConflict s.rows r
  key := Keyed.nodup_upsert SnapshotColumns.onConflict_key s.key r
  reads x hx := by
    rw [upsert_onConflict, Keyed.mem_overwrite] at hx
    rcases hx with rfl | ⟨hx, -⟩
    · exact h
    · exact s.reads x hx

def saveSnapshot (s : SnapshotStore c) (snap : FullSnapshot) :
    Except SnapshotError (SnapshotStore c) :=
  if h : (snap.columns c).isSome then
    .ok (s.insert ((snap.columns c).get h)
      ⟨snap, SnapshotColumns.decode_columns (Option.some_get h).symm⟩)
  else .error .database

def loadSnapshot (s : SnapshotStore c) (deductionId : Uuid) :
    Except SnapshotError (Option FullSnapshot) :=
  match s.rows.find? (·.deductionId == deductionId.toText) with
  | none => .ok none
  | some r => (r.decode c).map some

/-- `ORDER BY created_at_ms DESC`, with the `LIMIT`. -/
def listSnapshots (ord : OrderBy fun r : SnapshotColumns => -r.createdAtMs) (s : SnapshotStore c)
    (limit : Option UInt32) : Except SnapshotError (List FullSnapshot) :=
  let rows := ord.sort s.rows
  let rows := match limit with
    | some n => rows.take n.toNat
    | none => rows
  rows.mapM (SnapshotColumns.decode c)

theorem columns_of_saveSnapshot {s s' : SnapshotStore c} {snap : FullSnapshot}
    (h : s.saveSnapshot snap = .ok s') : (snap.columns c).isSome := by
  by_contra hnone
  rw [saveSnapshot, dif_neg hnone] at h
  cases h

theorem saveSnapshot_eq {s : SnapshotStore c} {snap : FullSnapshot} {r : SnapshotColumns}
    (h : snap.columns c = some r) (hd : ∃ snap, r.decode c = .ok snap) :
    s.saveSnapshot snap = .ok (s.insert r hd) := by
  have hsome : (snap.columns c).isSome := by rw [h]; rfl
  have hget : (snap.columns c).get hsome = r := Option.get_of_eq_some hsome h
  have hsame : ∀ (x : SnapshotColumns) (hx : ∃ snap, x.decode c = .ok snap), x = r →
      s.insert x hx = s.insert r hd := by
    rintro x hx rfl
    rfl
  rw [saveSnapshot, dif_pos hsome, hsame _ _ hget]

theorem find_insert (s : SnapshotStore c) (r : SnapshotColumns)
    (h : ∃ snap, r.decode c = .ok snap) (k : String) :
    (s.insert r h).rows.find? (·.deductionId == k) =
      if r.deductionId = k then some r else s.rows.find? (·.deductionId == k) := by
  have hfind : Keyed.find SnapshotColumns.deductionId
      (Keyed.upsert SnapshotColumns.deductionId Keyed.overwrite s.rows r) k =
        if r.deductionId = k then some r else Keyed.find SnapshotColumns.deductionId s.rows k :=
    Keyed.find_overwrite s.rows r k
  rw [← upsert_onConflict] at hfind
  exact hfind

/-- A save answers its own id with the row that was bound, and no other id otherwise than
before. -/
theorem loadSnapshot_insert (s : SnapshotStore c) {snap : FullSnapshot} {r : SnapshotColumns}
    (h : snap.columns c = some r) (hd : ∃ snap, r.decode c = .ok snap) (id : Uuid) :
    (s.insert r hd).loadSnapshot id =
      if id = snap.deductionId then .ok (some snap) else s.loadSnapshot id := by
  unfold loadSnapshot
  rw [find_insert, FullSnapshot.columns_key h]
  by_cases hid : id = snap.deductionId
  · simp [hid, SnapshotColumns.decode_columns h, Except.map]
  · simp [hid, Ne.symm hid]

/-- A list of rows that decode is decoded whole. -/
theorem mapM_decode {rows : List SnapshotColumns}
    (h : ∀ r ∈ rows, ∃ snap, r.decode c = .ok snap) :
    ∃ snaps, rows.mapM (SnapshotColumns.decode c) = .ok snaps ∧
      ∀ r ∈ rows, ∀ snap, r.decode c = .ok snap → snap ∈ snaps := by
  induction rows with
  | nil => exact ⟨[], rfl, by simp⟩
  | cons r rows ih =>
    obtain ⟨snap, hsnap⟩ := h r (by simp)
    obtain ⟨snaps, hall, hmem⟩ := ih fun x hx => h x (List.mem_cons_of_mem _ hx)
    refine ⟨snap :: snaps, ?_, ?_⟩
    · rw [List.mapM_cons, hsnap, hall]
      rfl
    · intro x hx y hy
      rcases List.mem_cons.mp hx with rfl | hx
      · rw [hsnap] at hy
        cases hy
        exact List.mem_cons_self
      · exact List.mem_cons_of_mem _ (hmem x hx y hy)

/-- A limit that leaves no row out lists every snapshot of the table. -/
theorem mem_listSnapshots (ord : OrderBy fun r : SnapshotColumns => -r.createdAtMs)
    (s : SnapshotStore c) {limit : Option UInt32} (hl : ∀ n ∈ limit, s.rows.length ≤ n.toNat)
    {r : SnapshotColumns} (hr : r ∈ s.rows) {snap : FullSnapshot} (h : r.decode c = .ok snap) :
    ∃ snaps, s.listSnapshots ord limit = .ok snaps ∧ snap ∈ snaps := by
  have hall : s.listSnapshots ord limit = (ord.sort s.rows).mapM (SnapshotColumns.decode c) := by
    cases limit with
    | none => rfl
    | some n =>
      have hlen : (ord.sort s.rows).length ≤ n.toNat := by
        rw [(ord.perm s.rows).length_eq]
        exact hl n rfl
      simp only [listSnapshots, List.take_of_length_le hlen]
  have hreads : ∀ x ∈ ord.sort s.rows, ∃ snap, x.decode c = .ok snap := fun x hx =>
    s.reads x ((ord.mem_sort).mp hx)
  obtain ⟨snaps, hdec, hmem⟩ := mapM_decode hreads
  exact ⟨snaps, hall.trans hdec, hmem r ((ord.mem_sort).mpr hr) snap h⟩

/-- A saved snapshot comes back from both readers, and no other is changed. A list with a limit
that is too small for the table may leave it out. -/
def RoundTrips (ord : OrderBy fun r : SnapshotColumns => -r.createdAtMs) (s : SnapshotStore c)
    (snap : FullSnapshot) : Prop :=
  ∃ s', s.saveSnapshot snap = .ok s' ∧
    s'.loadSnapshot snap.deductionId = .ok (some snap) ∧
    (∀ limit : Option UInt32, (∀ n ∈ limit, s'.rows.length ≤ n.toNat) →
      ∃ snaps, s'.listSnapshots ord limit = .ok snaps ∧ snap ∈ snaps) ∧
    ∀ id, id ≠ snap.deductionId → s'.loadSnapshot id = s.loadSnapshot id

/-- A snapshot comes back exactly when both its counters fit the `INTEGER` columns they are
kept in. -/
theorem roundTrips_iff (ord : OrderBy fun r : SnapshotColumns => -r.createdAtMs)
    (s : SnapshotStore c) (snap : FullSnapshot) : s.RoundTrips ord snap ↔
      snap.maxCycles.toNat < 2 ^ 31 ∧ snap.cyclesRun.toNat < 2 ^ 31 := by
  rw [← FullSnapshot.columns_isSome_iff c]
  constructor
  · rintro ⟨s', hsave, -⟩
    exact columns_of_saveSnapshot hsave
  · intro h
    obtain ⟨r, hr⟩ := Option.isSome_iff_exists.mp h
    have hd : ∃ snap, r.decode c = .ok snap := ⟨snap, SnapshotColumns.decode_columns hr⟩
    refine ⟨s.insert r hd, saveSnapshot_eq hr hd, ?_, ?_, ?_⟩
    · rw [loadSnapshot_insert s hr, if_pos rfl]
    · intro limit hl
      have hmem : r ∈ (s.insert r hd).rows := by
        simp only [insert, upsert_onConflict]
        exact Keyed.mem_overwrite.mpr (.inl rfl)
      exact mem_listSnapshots ord _ hl hmem (SnapshotColumns.decode_columns hr)
    · intro id hid
      rw [loadSnapshot_insert s hr, if_neg hid]

/-- A run with a budget of `2 ^ 31` cycles. -/
def testSnapshot : FullSnapshot :=
  { deductionId := ⟨1⟩, prologClauses := ["p."], clipsConstructs := [], clipsFile := none
    prologSessionId := ⟨2⟩, clipsSessionId := ⟨3⟩, context := [], prologSourceId := none
    clipsSourceId := none, createdAtMs := 0, expiresAtMs := 1000, initialGoal := some "p"
    maxCycles := 2147483648, status := "Converged", cyclesRun := 3, tableauEntries := .arr []
    dotArtifactId := none, createdAt_fits := by decide, expiresAt_fits := by decide }

theorem testSnapshot_is_refused :
    ¬ RoundTrips (c := SnapshotCodec.json) (OrderBy.stable _) new testSnapshot := by
  rintro ⟨s', hsave, -⟩
  have hfits := (FullSnapshot.columns_isSome_iff _ _).mp (columns_of_saveSnapshot hsave)
  exact absurd hfits.1 (by decide)

end SnapshotStore
end Cerebellum
