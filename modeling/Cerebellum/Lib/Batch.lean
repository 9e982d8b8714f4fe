import Cerebellum.Lib.Transition

/-! Batches worked off item by item until the first error. What was done before the error
stays done; what comes after it is not touched. -/
namespace Batch
open Transition
variable {σ ι ε : Type*}

/-- `step` gives the error, if any, and the state it leaves behind. -/
def upTo (step : σ → ι → Option ε × σ) : σ → List ι → Option ε × σ
  | s, [] => (none, s)
  | s, i :: is =>
    match step s i with
    | (none, s) => upTo step s is
    | (some e, s) => (some e, s)

/-- The moments the batch gets to: the state before each item, paired with that item. -/
def reached (step : σ → ι → Option ε × σ) : σ → List ι → List (σ × ι)
  | _, [] => []
  | s, i :: is =>
    (s, i) :: match step s i with
      | (none, s) => reached step s is
      | (some _, _) => []

/-- The state after an item, whether or not it raised an error. -/
def after (step : σ → ι → Option ε × σ) (s : σ) (i : ι) : σ := (step s i).2

variable {step : σ → ι → Option ε × σ} {s : σ} {is : List ι}

theorem upTo_cons_ok {i : ι} (h : (step s i).1 = none) :
    upTo step s (i :: is) = upTo step (after step s i) is := by
  rw [upTo]
  split
  · rename_i t ht
    rw [after, ht]
  · rename_i e t ht
    rw [ht] at h
    cases h

theorem upTo_cons_error {i : ι} {e : ε} (h : (step s i).1 = some e) :
    upTo step s (i :: is) = (some e, after step s i) := by
  rw [upTo]
  split
  · rename_i t ht
    rw [ht] at h
    cases h
  · rename_i e' t ht
    rw [ht] at h
    cases h
    rw [after, ht]

theorem reached_cons_ok {i : ι} (h : (step s i).1 = none) :
    reached step s (i :: is) = (s, i) :: reached step (after step s i) is := by
  rw [reached]
  split
  · rename_i t ht
    rw [after, ht]
  · rename_i e t ht
    rw [ht] at h
    cases h

theorem reached_cons_error {i : ι} {e : ε} (h : (step s i).1 = some e) :
    reached step s (i :: is) = [(s, i)] := by
  rw [reached]
  split
  · rename_i t ht
    rw [ht] at h
    cases h
  · rfl

/-- Two batches in a row: the second is not begun when the first fails. -/
theorem upTo_append (step : σ → ι → Option ε × σ) (s : σ) (u v : List ι) :
    upTo step s (u ++ v) = match upTo step s u with
      | (none, s) => upTo step s v
      | (some e, s) => (some e, s) := by
  induction u generalizing s with
  | nil => rfl
  | cons i u ih =>
    cases hi : (step s i).1 with
    | none => rw [List.cons_append, upTo_cons_ok hi, upTo_cons_ok hi, ih]
    | some e => rw [List.cons_append, upTo_cons_error hi, upTo_cons_error hi]

/-- A batch goes through exactly when every item does at its turn. -/
theorem upTo_eq_none_iff : (upTo step s is).1 = none ↔
    ∀ v ∈ visits (after step) s is, (step v.1 v.2).1 = none := by
  induction is generalizing s with
  | nil => simp [upTo, visits]
  | cons i is ih =>
    cases h : (step s i).1 with
    | none => rw [upTo_cons_ok h, ih]; simp [visits, h]
    | some e => rw [upTo_cons_error h]; simp [visits, h]

/-- Then it is a plain run, and every item is reached. -/
theorem upTo_of_ok (h : ∀ v ∈ visits (after step) s is, (step v.1 v.2).1 = none) :
    upTo step s is = (none, run (after step) s is) ∧
      reached step s is = visits (after step) s is := by
  induction is generalizing s with
  | nil => exact ⟨rfl, rfl⟩
  | cons i is ih =>
    have hi : (step s i).1 = none := h (s, i) (by simp [visits])
    obtain ⟨h1, h2⟩ := ih (s := after step s i) fun v hv => h v (List.mem_cons_of_mem _ hv)
    rw [upTo_cons_ok hi, reached_cons_ok hi, h1, h2]
    exact ⟨rfl, rfl⟩

/-- Items are reached in the order of the batch, from its first on. -/
theorem reached_prefix (step : σ → ι → Option ε × σ) (s : σ) (is : List ι) :
    (reached step s is).map Prod.snd <+: is := by
  induction is generalizing s with
  | nil => simp [reached]
  | cons i is ih =>
    cases h : (step s i).1 with
    | none =>
      rw [reached_cons_ok h, List.map_cons]
      exact (List.prefix_cons_inj i).mpr (ih _)
    | some e => rw [reached_cons_error h]; simp

/-- A batch whose failing items change nothing and whose other items each add something is
all or nothing only when nothing fails, or the very first item does. -/
theorem upTo_atomic_iff {size : σ → Nat}
    (hfail : ∀ s i, (step s i).1 ≠ none → after step s i = s)
    (hgrow : ∀ s i, (step s i).1 = none → size s < size (after step s i)) :
    ((upTo step s is).1 ≠ none → (upTo step s is).2 = s) ↔
      (upTo step s is).1 = none ∨ ∃ i ∈ is.head?, (step s i).1 ≠ none := by
  -- the state never gets smaller on the way
  have hle : ∀ (is : List ι) (s : σ), size s ≤ size (upTo step s is).2 := by
    intro is
    induction is with
    | nil => intro s; exact Nat.le_refl _
    | cons i is ih =>
      intro s
      cases hi : (step s i).1 with
      | none => rw [upTo_cons_ok hi]; exact Nat.le_trans (Nat.le_of_lt (hgrow s i hi)) (ih _)
      | some e => simp [upTo_cons_error hi, hfail s i (by simp [hi])]
  cases is with
  | nil => simp [upTo]
  | cons i is =>
    cases hi : (step s i).1 with
    | some e => simp [upTo_cons_error hi, hfail s i (by simp [hi]), hi]
    | none =>
      rw [upTo_cons_ok hi]
      simp only [List.head?_cons, Option.mem_some_iff, exists_eq_left', hi, ne_eq,
        not_true_eq_false, or_false]
      constructor
      · intro h
        by_contra herr
        have hsame := h herr
        have hlt := Nat.lt_of_lt_of_le (hgrow s i hi) (hle is (after step s i))
        rw [hsame] at hlt
        exact absurd hlt (Nat.lt_irrefl _)
      · exact fun hok herr => absurd hok herr

end Batch
