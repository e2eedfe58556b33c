import CliqueTree.Table.Rows

/-!
# Disjoint sets

A partition of the ids below some number. Each id points to another of its class or, as the
representative of the class, to itself. Looking up a representative points every id on the way directly
at it. Two classes are merged by pointing one representative at the other, the one of lesser rank at the
one of greater rank; the rank of a representative grows only when the two were equal, so ranks grow
strictly along the pointers and the way to a representative is short.
-/

set_option autoImplicit false

namespace CliqueTree

/-- A partition of the ids below the size of its arrays. -/
structure DisjointSet where
  /-- The id that each id points to. -/
  parent : Array Nat
  rank : Array Nat
  deriving DecidableEq, Repr

namespace DisjointSet

/-- Each of `n` ids in a class of its own. -/
def singletons (n : Nat) : DisjointSet := ⟨Array.range n, Array.replicate n 0⟩

def size (s : DisjointSet) : Nat := s.parent.size

def parentOf (s : DisjointSet) (x : Nat) : Nat := (s.parent[x]?).getD x

def rankOf (s : DisjointSet) (x : Nat) : Nat := (s.rank[x]?).getD 0

/-- Points `x` at `root`. -/
def point (s : DisjointSet) (x root : Nat) : DisjointSet :=
  { s with parent := s.parent.setIfInBounds x root }

/-- The end of the way from `x`, of at most `steps` pointers, and the set in which all ids on it point
there. -/
def findWithin : Nat → DisjointSet → Nat → Nat × DisjointSet
  | 0, s, x => (x, s)
  | steps + 1, s, x =>
    if s.parentOf x = x then (x, s)
    else
      let (root, t) := findWithin steps s (s.parentOf x)
      (root, t.point x root)

/-- The representative of the class of `x`. No way passes an id twice, so it has fewer pointers than there
are ids. -/
def find (s : DisjointSet) (x : Nat) : Nat × DisjointSet := findWithin s.size s x

/-- Merges the classes of two different representatives. -/
def merge (s : DisjointSet) (a b : Nat) : DisjointSet :=
  if s.rankOf a < s.rankOf b then s.point a b
  else if s.rankOf a = s.rankOf b then { s.point b a with rank := s.rank.modify a (· + 1) }
  else s.point b a

/-- Merges the classes of `a` and `b`; the first part tells whether they were different. -/
def union (s : DisjointSet) (a b : Nat) : Bool × DisjointSet :=
  let (rootA, s) := s.find a
  let (rootB, s) := s.find b
  if rootA = rootB then (false, s) else (true, s.merge rootA rootB)

/-- `find` for an id of the set. -/
def checkedFind (s : DisjointSet) (x : Nat) : Except GraphError (Nat × DisjointSet) := do
  return s.find (← Rows.checkId s.size x)

/-- `union` for two ids of the set. -/
def checkedUnion (s : DisjointSet) (a b : Nat) : Except GraphError (Bool × DisjointSet) := do
  return s.union (← Rows.checkId s.size a) (← Rows.checkId s.size b)

/-- The text by which the state of the set is shown. -/
def describe (s : DisjointSet) : String :=
  let row (xs : Array Nat) : String := "[" ++ ", ".intercalate (xs.toList.map Nat.repr) ++ "]"
  "DisjointSet \x7b parent: " ++ row s.parent ++ ", rank: " ++ row s.rank ++ " \x7d"

end DisjointSet
end CliqueTree
