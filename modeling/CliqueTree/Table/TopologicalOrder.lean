import CliqueTree.Table.Rows

/-!
# Topological orders

Rows list the children of each vertex. A depth-first walk enters each vertex once, in ascending order of the
ids it starts from, and looks at the children of a vertex from the last to the first. A vertex is placed in
front of all that were placed before it when its last child has been looked at, so it comes before its
children. Marks tell how far the walk is with each vertex: a child whose mark is open when it is looked at
closes a cycle.

The walk ends because each step enters a fresh vertex, or looks at a child of an open one, or places it.
-/

set_option autoImplicit false

namespace CliqueTree
namespace Rows

/-- How far the walk is with a vertex. -/
inductive Mark where
  /-- Not entered. -/
  | fresh
  /-- Entered and not placed. -/
  | opened
  | placed
  deriving DecidableEq, Repr

/-- The marks of the vertices, and the order so far. -/
structure Progress where
  marks : Array Mark
  order : List Nat
  deriving DecidableEq, Repr

namespace Progress

/-- None of `n` vertices is entered. -/
def start (n : Nat) : Progress := ⟨Array.replicate n .fresh, []⟩

def enter (p : Progress) (v : Nat) : Progress := { p with marks := p.marks.setIfInBounds v .opened }

/-- Places `v` in front. -/
def place (p : Progress) (v : Nat) : Progress := ⟨p.marks.setIfInBounds v .placed, v :: p.order⟩

/-- How many vertices are fresh. -/
def freshCount (p : Progress) : Nat := p.marks.count .fresh

theorem freshCount_enter_lt {p : Progress} {v : Nat} (fresh : p.marks[v]? = some .fresh) :
    (p.enter v).freshCount < p.freshCount := by
  obtain ⟨bound, mark⟩ := Array.getElem?_eq_some_iff.1 fresh
  have some : 0 < p.marks.count .fresh := Array.count_pos_iff.2 (mark ▸ Array.getElem_mem bound)
  rw [freshCount, freshCount, enter, Array.setIfInBounds_def, dif_pos bound, Array.count_set, mark]
  exact Nat.sub_one_lt_of_lt some

theorem freshCount_place_le (p : Progress) (v : Nat) : (p.place v).freshCount ≤ p.freshCount := by
  rw [freshCount, freshCount, place, Array.setIfInBounds_def]
  split
  · rw [Array.count_set]
    simp
  · exact Nat.le_refl _

end Progress

/-- An open vertex, and how many of its children have not been looked at. -/
structure Frame (r : Rows) where
  vertex : Nat
  remaining : Nat
  bound : remaining ≤ (r.get vertex).length

/-- The frame of `v` when it is entered. -/
def enter (r : Rows) (v : Nat) : Frame r := ⟨v, (r.get v).length, Nat.le_refl _⟩

/-- The steps that the open vertices can still take: one for each child, and one to be placed. -/
def stepsOpen {r : Rows} : List (Frame r) → Nat
  | [] => 0
  | f :: below => f.remaining + 1 + stepsOpen below

/-- Works the open vertices off, the innermost first. The error is the child that closes a cycle. -/
def settle (r : Rows) : List (Frame r) → Progress → Except Nat Progress
  | [], p => .ok p
  | ⟨v, 0, _⟩ :: below, p => r.settle below (p.place v)
  | ⟨v, left + 1, bound⟩ :: below, p =>
    let child := (r.get v)[left]
    match _mark : p.marks[child]? with
    | some .opened => .error child
    | some .fresh => r.settle (r.enter child :: ⟨v, left, Nat.le_of_succ_le bound⟩ :: below) (p.enter child)
    | some .placed | none => r.settle (⟨v, left, Nat.le_of_succ_le bound⟩ :: below) p
termination_by stack p => (p.freshCount, stepsOpen stack)
decreasing_by
  · exact Prod.Lex.right' _ (p.freshCount_place_le v) (by simp [stepsOpen])
  · exact Prod.Lex.left _ _ (Progress.freshCount_enter_lt _mark)
  all_goals exact Prod.Lex.right _ (by simp [stepsOpen])

/-- Enters `root` if it is fresh, and works off what that opens. -/
def settleFrom (r : Rows) (p : Progress) (root : Nat) : Except Nat Progress :=
  if p.marks[root]? = some .fresh then r.settle [r.enter root] (p.enter root) else .ok p

/-- An order in which each vertex comes before its children, or a vertex on a cycle. -/
def topologicalOrder (r : Rows) : Except Nat (List Nat) := do
  let p ← (List.range r.size).foldlM r.settleFrom (.start r.size)
  return p.order

end Rows
end CliqueTree
