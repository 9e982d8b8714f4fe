import Cerebellum.Lib.Transition

/-! Isolation of one agent from the others over a whole history. If the others leave the
agent's view alone and its own steps depend on its view only, then what it sees is what it
would see alone. -/
namespace Transition
variable {σ ι υ : Type*}

/-- What an agent sees at its own moments: its view, with the step it takes there. -/
def observations (step : σ → ι → σ) (view : σ → υ) (mine : ι → Bool) (s : σ) (is : List ι) :
    List (υ × ι) :=
  ((visits step s is).filter fun v => mine v.2).map fun v => (view v.1, v.2)

variable {step : σ → ι → σ} {view : σ → υ} {mine : ι → Bool} {alone : υ → ι → υ}

theorem observations_eq_visits (hown : ∀ s i, mine i = true → view (step s i) = alone (view s) i)
    {s : σ} {is : List ι} (hothers : ∀ v ∈ visits step s is, mine v.2 = false →
      view (step v.1 v.2) = view v.1) :
    observations step view mine s is = visits alone (view s) (is.filter mine) := by
  induction is generalizing s with
  | nil => rfl
  | cons i is ih =>
    have hrest := ih (s := step s i) fun v hv => hothers v (List.mem_cons_of_mem _ hv)
    unfold observations at hrest ⊢
    cases hi : mine i with
    | true => simp [visits, hi, hrest, hown s i hi]
    | false =>
      have hsame := hothers (s, i) (by simp [visits]) hi
      simp only at hsame
      simp [visits, hi, hrest, hsame]

/-- Two histories that agree on the agent's own steps look the same to it. -/
theorem observations_congr (hown : ∀ s i, mine i = true → view (step s i) = alone (view s) i)
    {s t : σ} {is js : List ι} (hview : view s = view t) (hsame : is.filter mine = js.filter mine)
    (his : ∀ v ∈ visits step s is, mine v.2 = false → view (step v.1 v.2) = view v.1)
    (hjs : ∀ v ∈ visits step t js, mine v.2 = false → view (step v.1 v.2) = view v.1) :
    observations step view mine s is = observations step view mine t js := by
  rw [observations_eq_visits hown his, observations_eq_visits hown hjs, hview, hsame]

end Transition
