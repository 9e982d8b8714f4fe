import Mathlib.Data.List.Basic

/-! Texts that part at some position. Unlike being different, this stays so whatever is put
behind them. -/
namespace Diverge
variable {α β : Type*} {s t : List α}

/-- After a common beginning the texts go on with different letters. -/
def Diverges (s t : List α) : Prop :=
  ∃ p x y s' t', x ≠ y ∧ s = p ++ x :: s' ∧ t = p ++ y :: t'

theorem Diverges.ne (h : Diverges s t) : s ≠ t := by
  rintro rfl
  obtain ⟨p, x, y, s', t', hxy, hs, ht⟩ := h
  rw [hs, List.append_right_inj] at ht
  exact hxy (List.cons.inj ht).1

theorem diverges_cons {x y : α} (h : x ≠ y) (s t : List α) : Diverges (x :: s) (y :: t) :=
  ⟨[], x, y, s, t, h, rfl, rfl⟩

theorem Diverges.append (h : Diverges s t) (u w : List α) : Diverges (s ++ u) (t ++ w) := by
  obtain ⟨p, x, y, s', t', hxy, rfl, rfl⟩ := h
  exact ⟨p, x, y, s' ++ u, t' ++ w, hxy, by simp, by simp⟩

theorem Diverges.behind (h : Diverges s t) (u : List α) : Diverges (u ++ s) (u ++ t) := by
  obtain ⟨p, x, y, s', t', hxy, rfl, rfl⟩ := h
  exact ⟨u ++ p, x, y, s', t', hxy, by simp, by simp⟩

/-- A letter-by-letter encoding keeps texts apart when it keeps letters apart. -/
theorem Diverges.flatMap {f : α → List β} (hf : ∀ x y, x ≠ y → Diverges (f x) (f y))
    (h : Diverges s t) : Diverges (s.flatMap f) (t.flatMap f) := by
  obtain ⟨p, x, y, s', t', hxy, rfl, rfl⟩ := h
  simp only [List.flatMap_append, List.flatMap_cons]
  exact ((hf x y hxy).append _ _).behind _

end Diverge
