import Mathlib.Data.List.Sort

/-! What `ORDER BY` on one column promises: the rows, sorted by it. Rows that agree on the
column may come in any order. -/
variable {α κ : Type*}

structure OrderBy [LE κ] (col : α → κ) where
  sort : List α → List α
  perm : ∀ l, (sort l).Perm l
  sorted : ∀ l, (sort l).Pairwise fun a b => col a ≤ col b

namespace OrderBy

/-- Rows that agree on the column stay in the order they were stored in. -/
def stable [LinearOrder κ] (col : α → κ) : OrderBy col where
  sort := List.insertionSort fun a b => col a ≤ col b
  perm := List.perm_insertionSort _
  sorted l :=
    haveI : Std.Total fun a b : α => col a ≤ col b := ⟨fun a b => le_total (col a) (col b)⟩
    haveI : IsTrans α fun a b => col a ≤ col b := ⟨fun _ _ _ => le_trans⟩
    List.pairwise_insertionSort _ l

@[simp] theorem mem_sort [LE κ] {col : α → κ} (ord : OrderBy col) {l : List α} {a : α} :
    a ∈ ord.sort l ↔ a ∈ l := (ord.perm l).mem_iff

end OrderBy
