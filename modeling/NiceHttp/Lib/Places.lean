/-
# Quantities spread over places

A quantity that is spread over finitely many places, an amount of each place's
content: `total` is what there is of it. When one place changes its content,
the total changes by the amount of the old and the new content
(`total_update`), so a step that takes from one place what it puts into another
conserves it.

Key definitions: `total`.
Key theorems: `total_update`, `total_put`, `total_take`, `le_total`,
`total_lt_card`.
-/
import Mathlib.Tactic

namespace Places

variable {ι β M : Type*} [Fintype ι]

/-- The amounts of all places together. -/
def total [AddCommMonoid M] (amount : β → M) (g : ι → β) : M := ∑ i, amount (g i)

/-- The bags of all places together have as many elements as the places. -/
theorem card_total {α : Type*} (amount : β → Multiset α) (g : ι → β) :
    (total amount g).card = total (fun b => (amount b).card) g := map_sum Multiset.cardHom _ _

/-- Places with one each at most, and an empty one, have less than one each. -/
theorem total_lt_card {amount : β → ℕ} {g : ι → β} (h : ∀ j, amount (g j) ≤ 1) {i : ι} (hi : amount (g i) = 0) :
    total amount g < Fintype.card ι := by
  have hlt : total amount g < ∑ _ : ι, 1 :=
    Finset.sum_lt_sum (fun j _ => h j) ⟨i, Finset.mem_univ i, by rw [hi]; exact one_pos⟩
  simpa using hlt

section Update

variable [DecidableEq ι] [AddCommMonoid M]

/-- **One place changes its content.** -/
theorem total_update (amount : β → M) (g : ι → β) (i : ι) (b : β) :
    total amount (Function.update g i b) + amount (g i) = total amount g + amount b := by
  have hsplit : ∀ g' : ι → β, total amount g' = amount (g' i) + ∑ j ∈ Finset.univ.erase i, amount (g' j) :=
    fun g' => (Finset.add_sum_erase _ _ (Finset.mem_univ i)).symm
  have hrest : ∑ j ∈ Finset.univ.erase i, amount (Function.update g i b j) =
      ∑ j ∈ Finset.univ.erase i, amount (g j) :=
    Finset.sum_congr rfl fun j hj => by rw [Function.update_of_ne (Finset.ne_of_mem_erase hj)]
  calc total amount (Function.update g i b) + amount (g i)
      = amount b + ∑ j ∈ Finset.univ.erase i, amount (g j) + amount (g i) := by
        rw [hsplit, hrest, Function.update_self]
    _ = amount (g i) + ∑ j ∈ Finset.univ.erase i, amount (g j) + amount b := by abel
    _ = total amount g + amount b := by rw [hsplit g]

variable [IsRightCancelAdd M] {amount : β → M} {g : ι → β} {i : ι} {b : β} {x : M}

/-- More in a place is more in total. -/
theorem total_put (h : amount b = amount (g i) + x) :
    total amount (Function.update g i b) = total amount g + x := by
  refine add_right_cancel (b := amount (g i)) ?_
  rw [total_update, h, add_assoc, add_comm x]

/-- What is taken from a place is left in total, and what was taken. -/
theorem total_take (h : amount (g i) = amount b + x) :
    total amount g = total amount (Function.update g i b) + x := by
  refine add_right_cancel (b := amount b) ?_
  rw [← total_update amount g i b, h, add_assoc, add_comm x]

/-- A change that keeps the amount of its place keeps the total. -/
theorem total_keep (h : amount b = amount (g i)) : total amount (Function.update g i b) = total amount g := by
  rw [total_put (x := 0) (by rw [h, add_zero]), add_zero]

end Update

section Order

variable [AddCommMonoid M] [PartialOrder M] [CanonicallyOrderedAdd M]

/-- A place has no more than there is. -/
theorem le_total [IsOrderedAddMonoid M] (amount : β → M) (g : ι → β) (i : ι) : amount (g i) ≤ total amount g :=
  Finset.single_le_sum (f := fun j => amount (g j)) (fun _ _ => zero_le) (Finset.mem_univ i)

theorem total_eq_zero_iff {amount : β → M} {g : ι → β} : total amount g = 0 ↔ ∀ i, amount (g i) = 0 := by
  rw [total, Finset.sum_eq_zero_iff]
  exact ⟨fun h i => h i (Finset.mem_univ i), fun h i _ => h i⟩

end Order

end Places
