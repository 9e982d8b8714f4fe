import Mathlib.Logic.Function.Basic
import Mathlib.Data.List.Pairwise

/-! Values handed out on request: under a key the same value every time, without a key a
fresh one every time. The supply never repeats itself, and `n` of it is used up. -/
namespace Issue
variable {κ ν : Type*}

/-- A request and the value it was answered with. -/
structure Grant (κ ν : Type*) where
  key : Option κ
  value : ν

def Grant.SameKey (a b : Grant κ ν) : Prop := a.key = b.key ∧ a.key ≠ none

/-- Two requests get one value exactly when they name one key. -/
def Apart (grants : List (Grant κ ν)) : Prop :=
  grants.Pairwise fun a b => a.value = b.value ↔ a.SameKey b

/-- `own` says what each value was issued for. -/
structure Owned (supply : ℕ → ν) (held : κ → Option ν) (n : ℕ) (grants : List (Grant κ ν))
    (own : ν → Option (Option κ)) : Prop where
  used : ∀ v o, own v = some o → ∃ m, m < n ∧ v = supply m
  key : ∀ k v, held k = some v → own v = some (some k)
  grant : ∀ g ∈ grants, own g.value = some g.key
  kept : ∀ g ∈ grants, ∀ k, g.key = some k → held k = some g.value
  apart : Apart grants

def Ledger (supply : ℕ → ν) (held : κ → Option ν) (n : ℕ) (grants : List (Grant κ ν)) : Prop :=
  ∃ own, Owned supply held n grants own

variable {supply : ℕ → ν} {held held' : κ → Option ν} {n n' : ℕ} {grants : List (Grant κ ν)}

theorem Ledger.nil (supply : ℕ → ν) (hheld : ∀ k, held k = none) : Ledger supply held n [] := by
  refine ⟨fun _ => none, ⟨by simp, fun k v h => ?_, by simp, by simp, List.Pairwise.nil⟩⟩
  rw [hheld] at h
  cases h

theorem Ledger.apart (h : Ledger supply held n grants) : Apart grants := by
  obtain ⟨_, hown⟩ := h
  exact hown.apart

/-- More of the supply is used up. -/
theorem Ledger.skip (h : Ledger supply held n grants) (hn : n ≤ n') :
    Ledger supply held n' grants := by
  obtain ⟨own, hown⟩ := h
  refine ⟨own, { hown with used := fun v o hv => ?_ }⟩
  obtain ⟨m, hm, he⟩ := hown.used v o hv
  exact ⟨m, by omega, he⟩

theorem Apart.concat (h : Apart grants) {new : Grant κ ν}
    (hnew : ∀ g ∈ grants, g.value = new.value ↔ g.SameKey new) : Apart (grants ++ [new]) := by
  refine List.pairwise_append.mpr ⟨h, List.pairwise_singleton _ _, fun g hg b hb => ?_⟩
  rw [List.mem_singleton.mp hb]
  exact hnew g hg

/-- A key that has its value is answered with it. -/
theorem Ledger.reuse (h : Ledger supply held n grants) {k : κ} {v : ν} (hk : held k = some v) :
    Ledger supply held n (grants ++ [⟨some k, v⟩]) := by
  obtain ⟨own, hown⟩ := h
  have hmem : ∀ g, g ∈ grants ++ [⟨some k, v⟩] → g ∈ grants ∨ g = ⟨some k, v⟩ :=
    fun g hg => by simpa using hg
  refine ⟨own, ⟨hown.used, hown.key, fun g hg => ?_, fun g hg l hl => ?_,
    hown.apart.concat fun g hg => ?_⟩⟩
  · rcases hmem g hg with hg | rfl
    · exact hown.grant g hg
    · exact hown.key k v hk
  · rcases hmem g hg with hg | rfl
    · exact hown.kept g hg l hl
    · cases hl
      exact hk
  · constructor
    · intro he
      have hsome : g.key = some k := by
        have hg' := hown.grant g hg
        rw [he, hown.key k v hk] at hg'
        exact (Option.some.inj hg').symm
      exact ⟨hsome, by simp [hsome]⟩
    · rintro ⟨he, -⟩
      have hg' := hown.kept g hg k he
      rw [hk] at hg'
      cases hg'
      rfl

/-- The next of the supply goes to a key that has no value yet, or to a request without one. -/
theorem Ledger.issue (hs : Function.Injective supply) (h : Ledger supply held n grants)
    (key : Option κ) (hkey : ∀ k, key = some k → held k = none)
    (hnew : ∀ k, key = some k → held' k = some (supply n))
    (hold : ∀ k, key ≠ some k → held' k = held k) (hn : n < n') :
    Ledger supply held' n' (grants ++ [⟨key, supply n⟩]) := by
  obtain ⟨own, hown⟩ := h
  have hfresh : own (supply n) = none := by
    cases ho : own (supply n) with
    | none => rfl
    | some o =>
      obtain ⟨m, hm, he⟩ := hown.used _ o ho
      exact absurd (hs he) (by omega)
  have hne : ∀ v o, own v = some o → v ≠ supply n := by
    rintro v o hv rfl
    rw [hfresh] at hv
    cases hv
  have hmem : ∀ g, g ∈ grants ++ [⟨key, supply n⟩] → g ∈ grants ∨ g = ⟨key, supply n⟩ :=
    fun g hg => by simpa using hg
  classical
  refine ⟨Function.update own (supply n) (some key), ⟨fun v o hv => ?_, fun k v hk => ?_,
    fun g hg => ?_, fun g hg k hk => ?_, hown.apart.concat fun g hg => ?_⟩⟩
  · by_cases hv' : v = supply n
    · exact ⟨n, hn, hv'⟩
    · rw [Function.update_of_ne hv'] at hv
      obtain ⟨m, hm, he⟩ := hown.used v o hv
      exact ⟨m, by omega, he⟩
  · by_cases hkk : key = some k
    · rw [hnew k hkk] at hk
      cases hk
      rw [Function.update_self, hkk]
    · rw [hold k hkk] at hk
      have ho := hown.key k v hk
      rw [Function.update_of_ne (hne _ _ ho), ho]
  · rcases hmem g hg with hg | rfl
    · have ho := hown.grant g hg
      rw [Function.update_of_ne (hne _ _ ho), ho]
    · exact Function.update_self _ _ _
  · rcases hmem g hg with hg | rfl
    · have hg' := hown.kept g hg k hk
      have hkk : key ≠ some k := by
        intro hkk
        rw [hkey k hkk] at hg'
        cases hg'
      rw [hold k hkk, hg']
    · exact hnew k hk
  · constructor
    · intro he
      exact absurd he (hne _ _ (hown.grant g hg))
    · rintro ⟨he, hsome⟩
      obtain ⟨k, hk⟩ := Option.ne_none_iff_exists'.mp hsome
      have hg' := hown.kept g hg k hk
      rw [hkey k (he.symm.trans hk)] at hg'
      cases hg'

end Issue
