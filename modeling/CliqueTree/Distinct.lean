/-!
# Lists without repeats

`distinct` keeps each element of a list where it first occurs.
-/

set_option autoImplicit false

namespace CliqueTree

/-- The list without an entry that occurs before. -/
def distinct {α : Type} [DecidableEq α] : List α → List α
  | [] => []
  | a :: rest => a :: (distinct rest).filter (· ≠ a)

theorem mem_distinct {α : Type} [DecidableEq α] {x : α} {l : List α} : x ∈ distinct l ↔ x ∈ l := by
  induction l with
  | nil => rfl
  | cons a l ih => by_cases h : x = a <;> simp [distinct, ih, h]

theorem nodup_distinct {α : Type} [DecidableEq α] (l : List α) : (distinct l).Nodup := by
  induction l with
  | nil => exact List.nodup_nil
  | cons a l ih => exact List.nodup_cons.2 ⟨by simp, ih.filter _⟩

end CliqueTree
