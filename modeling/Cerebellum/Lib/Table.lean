import Mathlib.Data.List.Basic

/-! Append-only tables of key-value facts, looked up by the first match, and the guarded
insertion that keeps the first fact of every key. -/
namespace Table
variable {α β : Type*} [DecidableEq α]

/-- Value of the oldest fact for `k`. -/
def find (k : α) : List (α × β) → Option β
  | [] => none
  | (l, v) :: t => if l = k then some v else find k t

/-- Append a fact unless its key already has one. -/
def insertNew (k : α) (v : β) (t : List (α × β)) : List (α × β) :=
  if (find k t).isSome then t else t ++ [(k, v)]

@[simp] theorem find_nil (k : α) : find k ([] : List (α × β)) = none := rfl

theorem find_append (k : α) (s t : List (α × β)) :
    find k (s ++ t) = (find k s).or (find k t) := by
  induction s with
  | nil => rfl
  | cons e s ih =>
    obtain ⟨l, v⟩ := e
    by_cases hl : l = k
    · simp [find, hl]
    · simpa [find, hl] using ih

theorem find_isSome_iff {k : α} {t : List (α × β)} :
    (find k t).isSome = true ↔ ∃ v, (k, v) ∈ t := by
  induction t with
  | nil => simp
  | cons e t ih =>
    obtain ⟨l, v⟩ := e
    by_cases hl : l = k
    · subst hl
      simp [find]
    · have hl' : k ≠ l := Ne.symm hl
      simpa [find, hl, hl'] using ih

theorem find_mem {k : α} {v : β} {t : List (α × β)} (h : find k t = some v) : (k, v) ∈ t := by
  induction t with
  | nil => simp at h
  | cons e t ih =>
    obtain ⟨l, w⟩ := e
    by_cases hl : l = k
    · subst hl
      simp only [find, if_true, Option.some.injEq] at h
      simp [h]
    · simp only [find, hl, if_false] at h
      exact List.mem_cons_of_mem _ (ih h)

/-- The guarded insertion never changes what a key is bound to. -/
theorem find_insertNew (k l : α) (v : β) (t : List (α × β)) :
    find l (insertNew k v t) = (find l t).or (if l = k then some v else none) := by
  unfold insertNew
  by_cases hs : (find k t).isSome = true
  · rw [if_pos hs]
    by_cases hl : l = k
    · subst hl
      obtain ⟨w, hw⟩ := Option.isSome_iff_exists.mp hs
      simp [hw]
    · simp [hl]
  · rw [if_neg hs, find_append]
    by_cases hl : l = k
    · simp [find, hl]
    · simp [find, hl, Ne.symm hl]

end Table
