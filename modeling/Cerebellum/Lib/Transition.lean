import Mathlib.Data.List.Count

/-! Runs of a deterministic step function over a list of inputs, invariants carried
along a run, and how often a Boolean observation of the state flips on the way. -/
namespace Transition
variable {σ ι : Type*}

/-- State reached after all inputs, oldest first. -/
def run (step : σ → ι → σ) : σ → List ι → σ
  | s, [] => s
  | s, i :: is => run step (step s i) is

/-- The moments of a run: the state before each input, paired with that input. -/
def visits (step : σ → ι → σ) : σ → List ι → List (σ × ι)
  | _, [] => []
  | s, i :: is => (s, i) :: visits step (step s i) is

variable {step : σ → ι → σ}

theorem run_eq_foldl (step : σ → ι → σ) (s : σ) (is : List ι) : run step s is = is.foldl step s := by
  induction is generalizing s with
  | nil => rfl
  | cons i is ih => exact ih (step s i)

theorem run_append (s : σ) (u v : List ι) :
    run step s (u ++ v) = run step (run step s u) v := by
  induction u generalizing s with
  | nil => rfl
  | cons i u ih => exact ih (step s i)

theorem visits_append (s : σ) (u v : List ι) :
    visits step s (u ++ v) = visits step s u ++ visits step (run step s u) v := by
  induction u generalizing s with
  | nil => rfl
  | cons i u ih => simp only [List.cons_append, visits, run, ih]

theorem mem_visits_segment {s : σ} {u w z : List ι} {v : σ × ι}
    (h : v ∈ visits step (run step s u) w) : v ∈ visits step s (u ++ (w ++ z)) := by
  rw [visits_append, visits_append]
  exact List.mem_append_right _ (List.mem_append_left _ h)

theorem visits_map_snd (step : σ → ι → σ) (s : σ) (is : List ι) : (visits step s is).map Prod.snd = is := by
  induction is generalizing s with
  | nil => rfl
  | cons i is ih => simp [visits, ih]

/-- Every moment of a run splits it into what came before and what follows. -/
theorem mem_visits {s : σ} {is : List ι} {v : σ × ι} (h : v ∈ visits step s is) :
    ∃ u w, is = u ++ v.2 :: w ∧ v.1 = run step s u := by
  induction is generalizing s with
  | nil => simp [visits] at h
  | cons i is ih =>
    rcases List.mem_cons.mp h with rfl | h
    · exact ⟨[], is, rfl, rfl⟩
    · obtain ⟨u, w, he, hr⟩ := ih h
      exact ⟨i :: u, w, by rw [he]; rfl, hr⟩

/-- The invariant rule: `C` is what each moment of the run is known to satisfy. -/
theorem run_invariant {P : σ → Prop} {C : σ → ι → Prop}
    (hstep : ∀ s i, C s i → P s → P (step s i)) {s : σ} {is : List ι}
    (hC : ∀ v ∈ visits step s is, C v.1 v.2) (h0 : P s) : P (run step s is) := by
  induction is generalizing s with
  | nil => exact h0
  | cons i is ih =>
    refine ih (fun v hv => hC v (List.mem_cons_of_mem _ hv)) ?_
    exact hstep s i (hC (s, i) (by simp [visits])) h0

/-- An invariant holds at every moment of the run, not only at its end. -/
theorem visits_invariant {P : σ → Prop} {C : σ → ι → Prop}
    (hstep : ∀ s i, C s i → P s → P (step s i)) {s : σ} {is : List ι}
    (hC : ∀ v ∈ visits step s is, C v.1 v.2) (h0 : P s) :
    ∀ v ∈ visits step s is, P v.1 := by
  intro v hv
  obtain ⟨u, w, rfl, hr⟩ := mem_visits hv
  rw [hr]
  refine run_invariant hstep (fun x hx => hC x ?_) h0
  rw [visits_append]
  exact List.mem_append_left _ hx

/-- How often the observation `b` turns true along the run. -/
def rises (step : σ → ι → σ) (b : σ → Bool) (s : σ) (is : List ι) : Nat :=
  (visits step s is).countP fun v => !b v.1 && b (step v.1 v.2)

/-- How often the observation `b` turns false along the run. -/
def falls (step : σ → ι → σ) (b : σ → Bool) (s : σ) (is : List ι) : Nat :=
  (visits step s is).countP fun v => b v.1 && !b (step v.1 v.2)

/-- Conservation: what is true at the end was true at the start or rose, and did not fall. -/
theorem toNat_add_rises (step : σ → ι → σ) (b : σ → Bool) (s : σ) (is : List ι) :
    (b s).toNat + rises step b s is = (b (run step s is)).toNat + falls step b s is := by
  induction is generalizing s with
  | nil => simp [rises, falls, visits, run]
  | cons i is ih =>
    have h := ih (step s i)
    simp only [rises, falls, visits, run, List.countP_cons] at h ⊢
    cases hs : b s <;> cases hi : b (step s i) <;> simp [hi] at h ⊢ <;> omega

theorem falls_le (step : σ → ι → σ) (b : σ → Bool) (s : σ) (is : List ι) :
    falls step b s is ≤ (b s).toNat + rises step b s is := by
  have h := toNat_add_rises step b s is
  omega

/-- An observation that never falls rises at most once. -/
theorem rises_le_one (b : σ → Bool) (s : σ) (is : List ι)
    (hb : ∀ v ∈ visits step s is, b v.1 = true → b (step v.1 v.2) = true) :
    rises step b s is ≤ 1 := by
  have hf : falls step b s is = 0 := by
    refine List.countP_eq_zero.mpr fun v hv => ?_
    have h := hb v hv
    cases h1 : b v.1 <;> simp_all
  have h := toNat_add_rises step b s is
  have := Bool.toNat_le (b (run step s is))
  omega

/-- A memo that is only ever set, and is set by the moments of kind `r`, is set at the end
exactly when it was at the start or such a moment came by. -/
theorem memo_run_iff (step : σ → ι → σ) (s : σ) (is : List ι) {b : σ → Prop} {r : σ → ι → Prop}
    (h : ∀ v ∈ visits step s is, b (step v.1 v.2) ↔ b v.1 ∨ r v.1 v.2) :
    b (run step s is) ↔ b s ∨ ∃ v ∈ visits step s is, r v.1 v.2 := by
  induction is generalizing s with
  | nil => simp [run, visits]
  | cons i is ih =>
    have hrest := ih (step s i) fun v hv => h v (List.mem_cons_of_mem _ hv)
    have hfirst := h (s, i) (by simp [visits])
    simp only [run, visits, List.mem_cons, exists_eq_or_imp]
    rw [hrest, hfirst, or_assoc]

theorem countP_or_le {α : Type*} (p q : α → Bool) (l : List α) :
    l.countP (fun v => p v || q v) ≤ l.countP p + l.countP q := by
  induction l with
  | nil => simp
  | cons v l ih =>
    simp only [List.countP_cons]
    cases p v <;> cases q v <;> simp <;> omega

/-- Three kinds of moments that exclude each other, all of kind `f`, are counted within `f`. -/
theorem countP_add_three_le {α : Type*} {p q r f : α → Bool} {l : List α}
    (h : ∀ v ∈ l, (p v).toNat + (q v).toNat + (r v).toNat ≤ (f v).toNat) :
    l.countP p + l.countP q + l.countP r ≤ l.countP f := by
  induction l with
  | nil => simp
  | cons v l ih =>
    have hv := h v (by simp)
    have hl := ih fun x hx => h x (List.mem_cons_of_mem _ hx)
    have hbit : ∀ b : Bool, (if b = true then 1 else 0) = b.toNat := by decide
    simp only [List.countP_cons, hbit]
    omega

/-- Moments of kind `p` are counted within what they contribute to a flattened list. -/
theorem countP_le_count_flatMap {α β : Type*} [DecidableEq β] {p : α → Bool} {f : α → List β}
    {b : β} {l : List α} (h : ∀ v ∈ l, p v = true → b ∈ f v) :
    l.countP p ≤ (l.flatMap f).count b := by
  induction l with
  | nil => simp
  | cons v l ih =>
    have hl := ih fun x hx => h x (List.mem_cons_of_mem _ hx)
    rw [List.countP_cons, List.flatMap_cons, List.count_append]
    by_cases hp : p v = true
    · have hv := List.count_pos_iff.mpr (h v (by simp) hp)
      simp only [hp, if_true]
      omega
    · simp only [hp]
      simp
      omega

/-- A flattened list has one item of kind `q` for each moment of kind `p`. -/
theorem countP_flatMap_eq {α β : Type*} {p : α → Bool} {q : β → Bool} {f : α → List β}
    {l : List α} (h : ∀ v ∈ l, (f v).countP q = (p v).toNat) :
    (l.flatMap f).countP q = l.countP p := by
  induction l with
  | nil => simp
  | cons v l ih =>
    rw [List.flatMap_cons, List.countP_append, List.countP_cons, h v (by simp),
      ih fun x hx => h x (List.mem_cons_of_mem _ hx)]
    cases p v <;> simp [Nat.add_comm]

end Transition
