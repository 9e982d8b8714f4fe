import Mathlib.Data.List.Basic
import Mathlib.Data.List.Infix

/-! The SQL `LIKE` operator: `%` stands for any text, `_` for any one character. -/
namespace SqlText

/-- `text LIKE pattern`, character by character. -/
def like : List Char → List Char → Bool
  | [], s => s.isEmpty
  | c :: p, s =>
    if c = '%' then s.tails.any (like p)
    else match s with
      | [] => false
      | x :: s => (c == '_' || c == x) && like p s

/-- A pattern text in which no character is special. -/
def Literal (p : List Char) : Prop := '%' ∉ p ∧ '_' ∉ p

instance (p : List Char) : Decidable (Literal p) :=
  inferInstanceAs (Decidable ('%' ∉ p ∧ '_' ∉ p))

theorem like_percent (s : List Char) : like ['%'] s = true := by
  have h : [] ∈ s.tails := by simp
  simp only [like, if_true, List.any_eq_true]
  exact ⟨[], h, rfl⟩

/-- A literal text followed by `%` matches exactly the texts that start with it. -/
theorem like_literal_percent (p s : List Char) (h : Literal p) :
    like (p ++ ['%']) s = p.isPrefixOf s := by
  induction p generalizing s with
  | nil => simp [like_percent]
  | cons c p ih =>
    have hc : c ≠ '%' ∧ c ≠ '_' := by
      refine ⟨?_, ?_⟩
      · rintro rfl
        exact h.1 (by simp)
      · rintro rfl
        exact h.2 (by simp)
    have hp : Literal p :=
      ⟨fun hm => h.1 (List.mem_cons_of_mem _ hm), fun hm => h.2 (List.mem_cons_of_mem _ hm)⟩
    cases s with
    | nil => simp [like, hc.1]
    | cons x s => simp [like, hc.1, hc.2, ih s hp, List.isPrefixOf, beq_eq_decide]

end SqlText
