/-!
# Ascending lists

Sets as strictly ascending lists. `ascending` brings any list into that form: its result holds the same
elements (`mem_ascending`) and ascends (`isAscending_ascending`). `bisect` looks an element up by halving,
and `isSubset` tests inclusion with it; both answer for ascending lists what membership and inclusion
answer, and have an answer for any other list too. `common` walks two lists side by side and keeps what
they share.
-/

set_option autoImplicit false

namespace CliqueTree
variable {α : Type} [Ord α]

/-- Each element is less than all that follow it. -/
def IsAscending (l : List α) : Prop := l.Pairwise fun a b => compare a b = .lt

/-- Puts an element where it belongs in an ascending list, unless it is there. -/
def insertAscending (a : α) : List α → List α
  | [] => [a]
  | b :: rest =>
    match compare a b with
    | .lt => a :: b :: rest
    | .eq => b :: rest
    | .gt => b :: insertAscending a rest

/-- The elements of the list in ascending order, each once. -/
def ascending (l : List α) : List α := l.foldr insertAscending []

/-- Whether the list starts with an element above `a`. -/
def startsAbove (a : α) : List α → Bool
  | [] => false
  | b :: _ => compare b a == .gt

/-- Whether halving finds `a`: of a list with two or more elements the upper half is kept unless it starts
above `a`, and the last one left decides. -/
def bisect (a : α) (l : List α) : Bool :=
  match h : l.length with
  | 0 => false
  | 1 => l.any (compare · a == .eq)
  | n + 2 =>
    let half := (n + 2) / 2
    if startsAbove a (l.drop half) then bisect a (l.take (n + 2 - half)) else bisect a (l.drop half)
termination_by l.length
decreasing_by
  all_goals
    simp only [List.length_take, List.length_drop]
    omega

/-- Whether `small` is no longer than `large` and halving finds each of its elements there. -/
def isSubset (small large : List α) : Bool :=
  small.length ≤ large.length && small.all (bisect · large)

/-- What two lists share, by a walk that moves on in the one whose head is less. -/
def common : List α → List α → List α
  | a :: as, b :: bs =>
    match compare a b with
    | .lt => common as (b :: bs)
    | .gt => common (a :: as) bs
    | .eq => a :: common as bs
  | _, _ => []
termination_by as bs => as.length + bs.length

theorem mem_insertAscending [Std.LawfulEqOrd α] {a x : α} {l : List α} : x ∈ insertAscending a l ↔ x = a ∨ x ∈ l := by
  induction l with
  | nil => simp [insertAscending]
  | cons b rest ih =>
    cases h : compare a b with
    | lt => simp [insertAscending, h]
    | eq =>
      cases Std.LawfulEqOrd.eq_of_compare h
      simp [insertAscending]
    | gt =>
      simp only [insertAscending, h, List.mem_cons, ih]
      grind

/-- Bringing a list into order changes none of its elements. -/
theorem mem_ascending [Std.LawfulEqOrd α] {x : α} {l : List α} : x ∈ ascending l ↔ x ∈ l := by
  induction l with
  | nil => rfl
  | cons a l ih =>
    change x ∈ insertAscending a (ascending l) ↔ _
    rw [mem_insertAscending, ih, List.mem_cons]

section Laws
variable [Std.TransOrd α] [Std.LawfulEqOrd α]

theorem IsAscending.insert {a : α} {l : List α} (h : IsAscending l) :
    IsAscending (insertAscending a l) := by
  induction l with
  | nil => exact List.pairwise_singleton _ _
  | cons b rest ih =>
    obtain ⟨head, tail⟩ := List.pairwise_cons.1 h
    cases hab : compare a b with
    | lt =>
      simp only [insertAscending, hab]
      refine List.pairwise_cons.2 ⟨fun x hx => ?_, h⟩
      rcases List.mem_cons.1 hx with rfl | hx
      · exact hab
      · exact Std.TransCmp.lt_trans hab (head x hx)
    | eq => simpa only [insertAscending, hab] using h
    | gt =>
      simp only [insertAscending, hab]
      refine List.pairwise_cons.2 ⟨fun x hx => ?_, ih tail⟩
      rcases mem_insertAscending.1 hx with rfl | hx
      · exact Std.OrientedCmp.lt_of_gt hab
      · exact head x hx

theorem isAscending_ascending (l : List α) : IsAscending (ascending l) := by
  induction l with
  | nil => exact List.Pairwise.nil
  | cons a l ih => exact ih.insert

end Laws
end CliqueTree
