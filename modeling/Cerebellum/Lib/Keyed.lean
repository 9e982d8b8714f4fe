import Mathlib.Data.List.Induction
import Mathlib.Data.List.Nodup

/-! Tables with a primary key, and `INSERT … ON CONFLICT DO UPDATE` on them. -/
namespace Keyed
variable {α κ : Type*} [DecidableEq κ] (key : α → κ)

/-- Insert a row, or merge it into the row that has its key. -/
def upsert (merge : α → α → α) (rows : List α) (new : α) : List α :=
  if key new ∈ rows.map key then rows.map fun r => if key r = key new then merge r new else r
  else rows ++ [new]

/-- The merge that overwrites every column. -/
def overwrite (_ new : α) : α := new

variable {key} {merge : α → α → α}

theorem keys_upsert (hm : ∀ a b, key a = key b → key (merge a b) = key a) (rows : List α)
    (new : α) : (upsert key merge rows new).map key =
      if key new ∈ rows.map key then rows.map key else rows.map key ++ [key new] := by
  unfold upsert
  split
  · rw [List.map_map]
    refine List.map_congr_left fun r _ => ?_
    by_cases h : key r = key new
    · simp [h, hm r new h]
    · simp [h]
  · simp

/-- The key stays one. -/
theorem nodup_upsert (hm : ∀ a b, key a = key b → key (merge a b) = key a) {rows : List α}
    (h : (rows.map key).Nodup) (new : α) : ((upsert key merge rows new).map key).Nodup := by
  rw [keys_upsert hm]
  split
  · exact h
  · rename_i hnew
    exact List.nodup_append.mpr ⟨h, by simp, by simpa using fun r hr he => hnew (by
      rw [← he]; exact List.mem_map_of_mem hr)⟩

theorem mem_upsert {rows : List α} {new r : α} : r ∈ upsert key merge rows new ↔
    (r ∈ rows ∧ key r ≠ key new) ∨ (∃ old ∈ rows, key old = key new ∧ r = merge old new) ∨
      (key new ∉ rows.map key ∧ r = new) := by
  unfold upsert
  split
  · rename_i hmem
    rw [List.mem_map]
    constructor
    · rintro ⟨old, hold, rfl⟩
      by_cases hk : key old = key new
      · exact .inr (.inl ⟨old, hold, hk, by simp [hk]⟩)
      · rw [if_neg hk]
        exact .inl ⟨hold, hk⟩
    · rintro (⟨hr, hk⟩ | ⟨old, hold, hk, rfl⟩ | ⟨hno, -⟩)
      · exact ⟨r, hr, if_neg hk⟩
      · exact ⟨old, hold, if_pos hk⟩
      · exact absurd hmem hno
  · rename_i hno
    rw [List.mem_append, List.mem_singleton]
    constructor
    · rintro (hr | rfl)
      · exact .inl ⟨hr, fun hk => hno (hk ▸ List.mem_map_of_mem hr)⟩
      · exact .inr (.inr ⟨hno, rfl⟩)
    · rintro (⟨hr, -⟩ | ⟨old, hold, hk, -⟩ | ⟨-, rfl⟩)
      · exact .inl hr
      · exact absurd (hk ▸ List.mem_map_of_mem hold) hno
      · exact .inr rfl

/-- Rows picked by `p` are not touched when `p` picks neither the new row nor what it is
merged into. -/
theorem filter_upsert {p : α → Bool} {rows : List α} {new : α} (hnew : p new = false)
    (hmerge : ∀ r ∈ rows, key r = key new → p r = false ∧ p (merge r new) = false) :
    (upsert key merge rows new).filter p = rows.filter p := by
  unfold upsert
  split
  · rw [List.filter_map]
    have hsame : ∀ r ∈ rows, (p ∘ fun r => if key r = key new then merge r new else r) r = p r := by
      intro r hr
      by_cases hk : key r = key new
      · simp [hk, hmerge r hr hk]
      · simp [hk]
    rw [List.filter_congr hsame]
    refine (List.map_congr_left fun r hr => ?_).trans (List.map_id _)
    obtain ⟨hr, hp⟩ := List.mem_filter.mp hr
    refine if_neg fun hk => ?_
    rw [(hmerge r hr hk).1] at hp
    cases hp
  · simp [hnew]

theorem mem_overwrite {rows : List α} {new r : α} : r ∈ upsert key overwrite rows new ↔
    r = new ∨ (r ∈ rows ∧ key r ≠ key new) := by
  rw [mem_upsert]
  by_cases hmem : key new ∈ rows.map key
  · obtain ⟨old, hold, hk⟩ := List.mem_map.mp hmem
    constructor
    · rintro (h | ⟨-, -, -, rfl⟩ | ⟨hno, -⟩)
      · exact .inr h
      · exact .inl rfl
      · exact absurd hmem hno
    · rintro (rfl | h)
      · exact .inr (.inl ⟨old, hold, hk, rfl⟩)
      · exact .inl h
  · constructor
    · rintro (h | ⟨old, hold, hk, -⟩ | ⟨-, rfl⟩)
      · exact .inr h
      · exact absurd (hk ▸ List.mem_map_of_mem hold) hmem
      · exact .inl rfl
    · rintro (rfl | h)
      · exact .inr (.inr ⟨hmem, rfl⟩)
      · exact .inl h

/-- The map a table stands for. -/
def find (key : α → κ) (rows : List α) (k : κ) : Option α := rows.find? fun r => key r == k

theorem find_eq_none_iff {rows : List α} {k : κ} : find key rows k = none ↔ k ∉ rows.map key := by
  simp [find, List.find?_eq_none]

theorem mem_of_find {rows : List α} {k : κ} {r : α} (h : find key rows k = some r) :
    r ∈ rows ∧ key r = k :=
  ⟨List.mem_of_find?_eq_some h, by simpa using List.find?_some h⟩

theorem find_map {γ : Type*} (f : α → γ) (rows : List α) (k : κ) : (find key rows k).map f =
    ((rows.map fun r => (key r, f r)).find? fun p => p.1 == k).map (·.2) := by
  rw [List.find?_map, Option.map_map]
  rfl

/-- Two tables that agree in their keys and in a column agree in what a key finds there. -/
theorem find_column {β γ : Type*} {key' : β → κ} {f : α → γ} {g : β → γ} {rows : List α}
    {rows' : List β}
    (h : rows.map (fun r => (key r, f r)) = rows'.map fun r => (key' r, g r)) (k : κ) :
    (find key rows k).map f = (find key' rows' k).map g := by
  rw [find_map, find_map, h]

/-- Under a primary key, a row is what its key finds. -/
theorem find_eq_some_iff {rows : List α} (h : (rows.map key).Nodup) {k : κ} {r : α} :
    find key rows k = some r ↔ r ∈ rows ∧ key r = k := by
  constructor
  · exact mem_of_find
  · rintro ⟨hr, rfl⟩
    cases hx : find key rows (key r) with
    | none => exact absurd (List.mem_map_of_mem hr) (find_eq_none_iff.mp hx)
    | some x =>
      obtain ⟨hmem, hkey⟩ := mem_of_find hx
      rw [List.inj_on_of_nodup_map h hmem hr hkey]

/-- After an upsert the key of the new row finds it, merged into what was there, and every
other key finds what it found before. -/
theorem find_upsert (hm : ∀ a b, key a = key b → key (merge a b) = key a) (rows : List α)
    (new : α) (k : κ) : find key (upsert key merge rows new) k =
      if k = key new then some (((find key rows k).map fun r => merge r new).getD new)
      else find key rows k := by
  unfold upsert
  split
  · rename_i hmem
    have hsame : (fun r => key r == k) ∘ (fun r => if key r = key new then merge r new else r) =
        fun r => key r == k := by
      funext r
      by_cases hr : key r = key new
      · simp [hr, hm r new hr]
      · simp [hr]
    have hfind : find key (rows.map fun r => if key r = key new then merge r new else r) k =
        (find key rows k).map fun r => if key r = key new then merge r new else r := by
      unfold find
      rw [List.find?_map, hsame]
    rw [hfind]
    cases hold : find key rows k with
    | none =>
      have hno := find_eq_none_iff.mp hold
      by_cases hk : k = key new
      · exact absurd (hk ▸ hmem) hno
      · simp [hk]
    | some old =>
      have hkey : key old = k := (mem_of_find hold).2
      by_cases hk : k = key new
      · simp [hkey, hk]
      · simp [hkey, hk]
  · rename_i hno
    by_cases hk : k = key new
    · subst hk
      have hnone : find key rows (key new) = none := find_eq_none_iff.mpr hno
      unfold find at hnone ⊢
      simp [hnone]
    · unfold find
      simp [hk, beq_eq_false_iff_ne.mpr (Ne.symm hk)]

/-- A lookup finds the row written last under its key. -/
theorem find_overwrite (rows : List α) (new : α) (k : κ) :
    find key (upsert key overwrite rows new) k =
      if key new = k then some new else find key rows k := by
  have hm : ∀ a b : α, key a = key b → key (overwrite a b) = key a := fun _ _ h => h.symm
  rw [find_upsert hm]
  by_cases hk : key new = k
  · subst hk
    cases find key rows (key new) <;> simp [overwrite]
  · simp [hk, Ne.symm hk]

/-- Deleting rows takes away the keys that find one of them. -/
theorem find_filter {rows : List α} (h : (rows.map key).Nodup) (p : α → Bool) (k : κ) :
    find key (rows.filter p) k = (find key rows k).filter p := by
  have h' : ((rows.filter p).map key).Nodup := h.sublist (List.filter_sublist.map key)
  refine Option.ext fun r => ?_
  rw [find_eq_some_iff h', Option.filter_eq_some_iff, find_eq_some_iff h, List.mem_filter]
  exact and_right_comm

/-- A `DELETE` counts the rows that go. -/
theorem countP_add_kept (p : α → Bool) (rows : List α) :
    rows.countP p + (rows.filter fun r => !p r).length = rows.length := by
  rw [← List.countP_eq_length_filter, List.length_eq_countP_add_countP p]
  simp

/-- An upsert on encoded rows is the encoding of the upsert, when the encoding keeps keys
apart and commutes with the merge. -/
theorem upsert_map {β ι : Type*} [DecidableEq ι] {key' : β → ι} {merge' : β → β → β} {enc : α → β}
    (hkey : ∀ a b, key' (enc a) = key' (enc b) ↔ key a = key b)
    (hmerge : ∀ a b, key a = key b → merge' (enc a) (enc b) = enc (merge a b)) (rows : List α)
    (new : α) :
    upsert key' merge' (rows.map enc) (enc new) = (upsert key merge rows new).map enc := by
  have hmem : key' (enc new) ∈ (rows.map enc).map key' ↔ key new ∈ rows.map key := by
    simp [hkey]
  unfold upsert
  by_cases h : key new ∈ rows.map key
  · rw [if_pos (hmem.mpr h), if_pos h, List.map_map, List.map_map]
    refine List.map_congr_left fun r _ => ?_
    by_cases hr : key r = key new
    · simp [hkey, hr, hmerge r new hr]
    · simp [hkey, hr]
  · rw [if_neg (fun hm => h (hmem.mp hm)), if_neg h, List.map_append]
    rfl

/-- A list of rows with different keys, written one after the other, is there in the end,
and of the old rows those with other keys. -/
theorem mem_foldl_overwrite {news rows : List α} (h : (news.map key).Nodup) {r : α} :
    r ∈ news.foldl (upsert key overwrite) rows ↔
      r ∈ news ∨ (r ∈ rows ∧ key r ∉ news.map key) := by
  induction news generalizing rows with
  | nil => simp
  | cons new news ih =>
    obtain ⟨hnew, hnews⟩ := List.nodup_cons.mp h
    rw [List.foldl_cons, ih hnews, mem_overwrite, List.map_cons, List.mem_cons, List.mem_cons]
    constructor
    · rintro (hr | ⟨rfl | ⟨hr, hk⟩, hno⟩)
      · exact .inl (.inr hr)
      · exact .inl (.inl rfl)
      · exact .inr ⟨hr, by simp [hk, hno]⟩
    · rintro ((rfl | hr) | ⟨hr, hno⟩)
      · exact .inr ⟨.inl rfl, hnew⟩
      · exact .inl hr
      · rw [not_or] at hno
        exact .inr ⟨.inr ⟨hr, hno.1⟩, hno.2⟩

/-- Writing rows that `p` does not pick, over none that it picks, leaves what it picks. -/
theorem filter_foldl_overwrite {p : α → Bool} {news rows : List α}
    (hnew : ∀ e ∈ news, p e = false)
    (hfree : ∀ e ∈ news, ∀ r ∈ rows, p r = true → key r ≠ key e) :
    (news.foldl (upsert key overwrite) rows).filter p = rows.filter p := by
  induction news generalizing rows with
  | nil => rfl
  | cons new news ih =>
    have hone : (upsert key overwrite rows new).filter p = rows.filter p := by
      refine filter_upsert (hnew new (by simp)) fun r hr hk => ⟨?_, hnew new (by simp)⟩
      rw [← Bool.not_eq_true]
      exact fun hp => hfree new (by simp) r hr hp hk
    rw [List.foldl_cons, ih (fun e he => hnew e (List.mem_cons_of_mem _ he)), hone]
    intro e he r hr hp
    have hold : r ∈ rows.filter p := hone ▸ List.mem_filter.mpr ⟨hr, hp⟩
    exact hfree e (List.mem_cons_of_mem _ he) r (List.mem_filter.mp hold).1 hp

/-! ### A log of rows, each overwriting what has its key -/

/-- A key finds the last row of the log that has it. -/
theorem find_log (news rows : List α) (k : κ) :
    find key (news.foldl (upsert key overwrite) rows) k =
      (find key news.reverse k).or (find key rows k) := by
  induction news using List.reverseRecOn with
  | nil => rfl
  | append_singleton news new ih =>
    rw [List.foldl_append, List.foldl_cons, List.foldl_nil, find_overwrite, ih,
      List.reverse_append, List.reverse_singleton, List.singleton_append]
    by_cases hk : key new = k
    · simp [find, hk]
    · simp [find, hk]

theorem mem_of_log {news : List α} {r : α} (h : r ∈ news.foldl (upsert key overwrite) []) :
    r ∈ news := by
  induction news using List.reverseRecOn with
  | nil => cases h
  | append_singleton news new ih =>
    rw [List.foldl_append, List.foldl_cons, List.foldl_nil, mem_overwrite] at h
    rcases h with rfl | ⟨hr, -⟩
    · simp
    · simp [ih hr]

/-- A row of the log is there in the end when no later row has its key. -/
theorem mem_log {news pre post : List α} {r : α} (hnews : news.Nodup)
    (hsplit : news = pre ++ r :: post) :
    r ∈ news.foldl (upsert key overwrite) [] ↔ key r ∉ post.map key := by
  induction post using List.reverseRecOn generalizing news with
  | nil =>
    rw [hsplit, List.foldl_append, List.foldl_cons, List.foldl_nil, mem_overwrite]
    simp
  | append_singleton post new ih =>
    have hassoc : pre ++ r :: (post ++ [new]) = (pre ++ r :: post) ++ [new] := by simp
    rw [hsplit, hassoc] at hnews ⊢
    obtain ⟨hfirst, -, hnew⟩ := List.nodup_append.mp hnews
    have hne : r ≠ new := hnew r (by simp) new (by simp)
    rw [List.foldl_append, List.foldl_cons, List.foldl_nil, mem_overwrite, ih hfirst rfl]
    simp [hne, and_comm]

end Keyed
