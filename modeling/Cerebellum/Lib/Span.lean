import Mathlib.Data.List.TakeWhile
import Mathlib.Data.List.DropRight

/-! The longest prefix on which a predicate holds, where the text goes on with something else,
and a text read item by item. -/
namespace Span
variable {α : Type*} {p : α → Bool} {s u : List α}

theorem takeWhile_append_stop (hs : ∀ a ∈ s, p a) (hu : ∀ a ∈ u.head?, p a = false) :
    (s ++ u).takeWhile p = s := by
  rw [List.takeWhile_append_of_pos hs]
  cases u with
  | nil => simp
  | cons a u => simp [hu a (by simp)]

theorem dropWhile_append_stop (hs : ∀ a ∈ s, p a) (hu : ∀ a ∈ u.head?, p a = false) :
    (s ++ u).dropWhile p = u := by
  rw [List.dropWhile_append_of_pos hs]
  cases u with
  | nil => simp
  | cons a u => simp [hu a (by simp)]

/-- Before a stop the span of a text does not depend on what follows. -/
theorem takeWhile_append_cons {a : α} (h : p a = false) (s u : List α) :
    (s ++ a :: u).takeWhile p = s.takeWhile p := by
  induction s with
  | nil => simp [h]
  | cons b s ih =>
    by_cases hb : p b
    · simp [hb, ih]
    · simp [hb]

theorem dropWhile_append_cons {a : α} (h : p a = false) (s u : List α) :
    (s ++ a :: u).dropWhile p = s.dropWhile p ++ a :: u := by
  induction s with
  | nil => simp [h]
  | cons b s ih =>
    by_cases hb : p b
    · simp [hb, ih]
    · simp [hb]

/-- A span that ends within the text, or ahead of a stop, is that of the longer text. -/
theorem dropWhile_append_left (h : s.dropWhile p ≠ [] ∨ ∀ a ∈ u.head?, p a = false) :
    (s ++ u).dropWhile p = s.dropWhile p ++ u := by
  induction s with
  | nil =>
    have hu : ∀ a ∈ u.head?, p a = false := h.resolve_left (by simp)
    exact dropWhile_append_stop (s := []) (by simp) hu
  | cons b s ih =>
    by_cases hb : p b
    · simp only [List.cons_append, List.dropWhile_cons, hb, if_true] at h ⊢
      exact ih h
    · simp [hb]

theorem takeWhile_append_left (h : s.dropWhile p ≠ [] ∨ ∀ a ∈ u.head?, p a = false) :
    (s ++ u).takeWhile p = s.takeWhile p := by
  induction s with
  | nil =>
    have hu : ∀ a ∈ u.head?, p a = false := h.resolve_left (by simp)
    exact takeWhile_append_stop (s := []) (by simp) hu
  | cons b s ih =>
    by_cases hb : p b
    · simp only [List.cons_append, List.dropWhile_cons, List.takeWhile_cons, hb, if_true] at h ⊢
      rw [ih h]
    · simp [hb]

section Items
variable {β γ : Type*}

/-- Read items off the front until there is none, with what is left then. -/
def drain (next : List α → Option β × List α) : Nat → List α → List β × List α
  | 0, s => ([], s)
  | n + 1, s =>
    match next s with
    | (none, rest) => ([], rest)
    | (some b, rest) =>
      let r := drain next n rest
      (b :: r.1, r.2)

/-- A reader that takes exactly what is written for an item takes a list of them apart. -/
theorem drain_flatMap {next : List α → Option β × List α} {enc : γ → List α} {val : γ → β}
    (hnext : ∀ x rest, next (enc x ++ rest) = (some (val x), rest)) (hend : next [] = (none, []))
    {xs : List γ} {n : Nat} (hn : xs.length < n) :
    drain next n (xs.flatMap enc) = (xs.map val, []) := by
  induction xs generalizing n with
  | nil =>
    obtain ⟨m, rfl⟩ : ∃ m, n = m + 1 := ⟨n - 1, by omega⟩
    simp [drain, hend]
  | cons x xs ih =>
    obtain ⟨m, rfl⟩ : ∃ m, n = m + 1 := ⟨n - 1, by omega⟩
    have hrest := ih (n := m) (by simp at hn; omega)
    simp [drain, hnext, hrest]

end Items

end Span
