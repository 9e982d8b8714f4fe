import Cerebellum.Lib.Transition
import Mathlib.Logic.Function.Iterate

/-! Calls that run side by side on a shared state. A call is at one of its phases, and one step
of it changes the shared state and takes it to the next phase; the steps of all calls in flight
are interleaved in any order. -/

/-- The shared state, and the phase of each call that has begun. -/
structure Pool (σ φ : Type*) where
  shared : σ
  calls : List φ

namespace Pool
open Transition
variable {σ φ ρ : Type*}

/-- A call begins, or one that has begun takes its next step. -/
inductive Act (ρ : Type*) where
  | enter (r : ρ)
  | step (i : Nat)

variable (entry : ρ → φ) (next : σ → φ → σ × φ)

def step (w : Pool σ φ) : Act ρ → Pool σ φ
  | .enter r => { w with calls := w.calls ++ [entry r] }
  | .step i =>
    match w.calls[i]? with
    | none => w
    | some p => ⟨(next w.shared p).1, w.calls.set i (next w.shared p).2⟩

/-- One call with the shared state to itself, for `n` steps. -/
def alone (n : Nat) (s : σ) (p : φ) : σ × φ := (fun x => next x.1 x.2)^[n] (s, p)

variable {entry next}

/-- Everything an act can do. -/
theorem step_cases (entry : ρ → φ) (next : σ → φ → σ × φ) (w : Pool σ φ) (a : Act ρ) :
    (∃ r, a = .enter r ∧ step entry next w a = ⟨w.shared, w.calls ++ [entry r]⟩) ∨
    (∃ i, a = .step i ∧ w.calls[i]? = none ∧ step entry next w a = w) ∨
    ∃ i p, a = .step i ∧ w.calls[i]? = some p ∧
      step entry next w a = ⟨(next w.shared p).1, w.calls.set i (next w.shared p).2⟩ := by
  cases a with
  | enter r => exact .inl ⟨r, rfl, rfl⟩
  | step i =>
    cases hi : w.calls[i]? with
    | none => exact .inr (.inl ⟨i, rfl, hi, by simp only [step, hi]⟩)
    | some p => exact .inr (.inr ⟨i, p, rfl, hi, by simp only [step, hi]⟩)

/-- A fact that each call relies on holds of all calls after an act, when a call begins with it,
a step establishes it for the call that takes it, and keeps it for the others. -/
theorem forall_calls_step {G : σ → φ → Prop} {w : Pool σ φ} {a : Act ρ}
    (h : ∀ q ∈ w.calls, G w.shared q) (henter : ∀ r, G w.shared (entry r))
    (hself : ∀ i p, a = .step i → w.calls[i]? = some p → G w.shared p →
      G (next w.shared p).1 (next w.shared p).2)
    (hother : ∀ i p, a = .step i → w.calls[i]? = some p → G w.shared p →
      ∀ q ∈ w.calls, G w.shared q → G (next w.shared p).1 q) :
    ∀ q ∈ (step entry next w a).calls, G (step entry next w a).shared q := by
  rcases step_cases entry next w a with ⟨r, -, he⟩ | ⟨i, -, -, he⟩ | ⟨i, p, ha, hi, he⟩
  · rw [he]
    intro q hq
    rcases List.mem_append.mp hq with hq | hq
    · exact h q hq
    · rw [List.mem_singleton.mp hq]
      exact henter r
  · rw [he]
    exact h
  · rw [he]
    have hp := h p (List.mem_of_getElem? hi)
    intro q hq
    rcases List.mem_or_eq_of_mem_set hq with hq | rfl
    · exact hother i p ha hi hp q hq (h q hq)
    · exact hself i p ha hi hp

/-- What has its place in a list keeps it when the list grows. -/
theorem getElem?_grow {l : List φ} {i : Nat} {p : φ} (h : l[i]? = some p) (m : List φ) :
    (l ++ m)[i]? = some p := by
  obtain ⟨hi, -⟩ := List.getElem?_eq_some_iff.mp h
  rw [List.getElem?_append_left hi, h]

theorem getElem?_concat_cases {l : List φ} {i : Nat} {p q : φ} (h : (l ++ [p])[i]? = some q) :
    l[i]? = some q ∨ (i = l.length ∧ q = p) := by
  rcases Nat.lt_trichotomy i l.length with hi | rfl | hi
  · rw [List.getElem?_append_left hi] at h
    exact .inl h
  · rw [List.getElem?_concat_length] at h
    exact .inr ⟨rfl, (Option.some.inj h).symm⟩
  · have hlen : (l ++ [p]).length ≤ i := by
      rw [List.length_append, List.length_singleton]
      omega
    rw [List.getElem?_eq_none hlen] at h
    cases h

/-- Calls of a kind, after one call has changed its phase. -/
theorem countP_set {f : φ → Bool} {l : List φ} {i : Nat} {p : φ} (h : l[i]? = some p) (q : φ) :
    (l.set i q).countP f + (f p).toNat = l.countP f + (f q).toNat := by
  induction l generalizing i with
  | nil => simp at h
  | cons a l ih =>
    have hbit : ∀ b : Bool, (if b = true then 1 else 0) = b.toNat := by decide
    cases i with
    | zero =>
      obtain rfl : a = p := by simpa using h
      simp only [List.set_cons_zero, List.countP_cons, hbit]
      omega
    | succ i =>
      have hi := ih (i := i) (by simpa using h)
      simp only [List.set_cons_succ, List.countP_cons, hbit]
      omega

/-- Calls of a kind, after one has left. -/
theorem countP_eraseIdx {f : φ → Bool} {l : List φ} {i : Nat} {p : φ} (h : l[i]? = some p) :
    (l.eraseIdx i).countP f + (f p).toNat = l.countP f := by
  induction l generalizing i with
  | nil => simp at h
  | cons a l ih =>
    have hbit : ∀ b : Bool, (if b = true then 1 else 0) = b.toNat := by decide
    cases i with
    | zero =>
      obtain rfl : a = p := by simpa using h
      simp only [List.eraseIdx_cons_zero, List.countP_cons, hbit]
    | succ i =>
      have hi := ih (i := i) (by simpa using h)
      simp only [List.eraseIdx_cons_succ, List.countP_cons, hbit]
      omega

/-- Where at most one call is of a kind, two places of that kind are one. -/
theorem place_eq_of_countP_le_one {f : φ → Bool} {l : List φ} (h : l.countP f ≤ 1) {i j : Nat}
    {p q : φ} (hi : l[i]? = some p) (hj : l[j]? = some q) (hp : f p = true) (hq : f q = true) :
    i = j := by
  by_contra hne
  have hcount := countP_eraseIdx (f := f) hi
  have hmem : q ∈ l.eraseIdx i := List.mem_eraseIdx_iff_getElem?.mpr ⟨j, Ne.symm hne, hj⟩
  have hpos : 0 < (l.eraseIdx i).countP f := List.countP_pos_iff.mpr ⟨q, hmem, hq⟩
  rw [hp, Bool.toNat_true] at hcount
  omega

end Pool
