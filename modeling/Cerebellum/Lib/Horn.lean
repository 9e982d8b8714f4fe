import Mathlib.Data.Set.Lattice

/-! Horn rules and what follows from a set of facts by them. -/
namespace Horn
variable {κ : Type*}

structure Rule (κ : Type*) where
  head : κ
  premises : List κ

/-- What the rules give from the facts. -/
inductive Derived (rules : List (Rule κ)) (facts : Set κ) : κ → Prop where
  | fact {k : κ} : k ∈ facts → Derived rules facts k
  | rule {r : Rule κ} : r ∈ rules → (∀ k ∈ r.premises, Derived rules facts k) →
      Derived rules facts r.head

def Closed (rules : List (Rule κ)) (facts : Set κ) : Prop :=
  ∀ r ∈ rules, (∀ k ∈ r.premises, k ∈ facts) → r.head ∈ facts

variable {rules rules' : List (Rule κ)} {facts facts' : Set κ}

theorem closed_derived (rules : List (Rule κ)) (facts : Set κ) :
    Closed rules (Derived rules facts) := fun _ hr hk => .rule hr hk

theorem Derived.least (hsub : facts ⊆ facts') (hclosed : Closed rules facts') {k : κ}
    (h : Derived rules facts k) : k ∈ facts' := by
  induction h with
  | fact hk => exact hsub hk
  | rule hr _ ih => exact hclosed _ hr ih

/-- More facts and more rules give more. -/
theorem Derived.mono (hrules : rules ⊆ rules') (hfacts : facts ⊆ facts') {k : κ}
    (h : Derived rules facts k) : Derived rules' facts' k := by
  induction h with
  | fact hk => exact .fact (hfacts hk)
  | rule hr _ ih => exact .rule (hrules hr) ih

/-- What is derived from derived facts is derived. -/
theorem Derived.trans (hsub : facts' ⊆ Derived rules facts) {k : κ}
    (h : Derived rules facts' k) : Derived rules facts k :=
  h.least hsub (closed_derived rules facts)

/-- Facts that are closed give themselves. -/
theorem derived_iff_of_closed (hclosed : Closed rules facts) {k : κ} :
    Derived rules facts k ↔ k ∈ facts :=
  ⟨Derived.least (Set.Subset.refl _) hclosed, .fact⟩

end Horn
