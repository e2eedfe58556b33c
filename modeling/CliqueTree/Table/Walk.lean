import CliqueTree.Distinct
import CliqueTree.Table.Rows

/-!
# Walks over rows of ids

A walk follows rows from given starting ids and meets every id once. What is met waits on a frontier, and
the vertex whose row named it first goes with it. The frontier alone decides the order: taken from the
front while new ids join at the back, the walk is breadth-first; taken from where new ids join, it is
depth-first. `forest` starts a new walk at every given root that no earlier walk has met.

A walk ends because each entry of the rows can put at most one id on the frontier.
-/

set_option autoImplicit false

namespace CliqueTree

/-- A vertex that a walk has met, and the vertex from whose row it was met; a starting vertex has none. -/
structure Visit where
  vertex : Nat
  parent : Option Nat := none
  deriving DecidableEq, Repr

/-- Where ids that were just met join those that wait; the front is taken next. -/
inductive Frontier where
  /-- At the back, in the order of the row: breadth-first. -/
  | queue
  /-- At the front, the last entry of the row foremost: depth-first. -/
  | stack
  deriving DecidableEq, Repr

/-- The frontier after new ids have joined. -/
def Frontier.extend {α : Type} (f : Frontier) (waiting new : List α) : List α :=
  match f with
  | .queue => waiting ++ new
  | .stack => new.reverse ++ waiting

@[simp] theorem Frontier.length_extend {α : Type} (f : Frontier) (waiting new : List α) :
    (f.extend waiting new).length = waiting.length + new.length := by
  cases f <;> simp [extend]; omega

namespace Rows

/-- The ids that the row of `v` names and that are not met yet, each once, in the order of the row. -/
def unmet (r : Rows) (met : List Nat) (v : Nat) : List Nat :=
  (distinct (r.get v)).filter (· ∉ met)

/-- How many entries name an id that is not met yet. -/
def unmetEntries (r : Rows) (met : List Nat) : Nat := r.entries.countP (· ∉ met)

/-- Meeting new ids uses up an entry for each of them. -/
theorem unmetEntries_append_add_length {r : Rows} {met new : List Nat} (nodup : new.Nodup)
    (named : ∀ x ∈ new, x ∈ r.entries) (fresh : ∀ x ∈ new, x ∉ met) :
    r.unmetEntries (met ++ new) + new.length ≤ r.unmetEntries met := by
  have inside : new ⊆ r.entries.filter (fun x => x ∉ met ∧ x ∈ new) := fun x hx => by
    simp [named x hx, fresh x hx, hx]
  have used := nodup.length_le_of_subset inside
  rw [← List.countP_eq_length_filter] at used
  have split : ∀ l : List Nat, l.countP (· ∉ met ++ new) + l.countP (fun x => x ∉ met ∧ x ∈ new) =
      l.countP (· ∉ met) := by
    intro l
    induction l with
    | nil => rfl
    | cons x l ih =>
      by_cases hm : x ∈ met <;> by_cases hn : x ∈ new <;>
        simp only [List.countP_cons, List.mem_append, hm, hn] <;> simp at ih ⊢ <;> omega
  have := split r.entries
  simp only [unmetEntries]
  omega

theorem mem_unmet {r : Rows} {met : List Nat} {v x : Nat} :
    x ∈ r.unmet met v ↔ x ∈ r.get v ∧ x ∉ met := by
  simp [unmet, mem_distinct]

theorem nodup_unmet (r : Rows) (met : List Nat) (v : Nat) : (r.unmet met v).Nodup :=
  (nodup_distinct _).filter _

/-- The visits of a walk in the order in which they leave the frontier, from the visits that wait there.
`met` holds every id that has ever been on it. -/
def walkFrom (r : Rows) (f : Frontier) (met : List Nat) : List Visit → List Visit
  | [] => []
  | visit :: waiting =>
    let new := r.unmet met visit.vertex
    visit :: r.walkFrom f (met ++ new) (f.extend waiting (new.map (⟨·, some visit.vertex⟩)))
termination_by waiting => r.unmetEntries met + waiting.length
decreasing_by
  have := unmetEntries_append_add_length (r.nodup_unmet met visit.vertex)
    (fun x hx => mem_entries_of_mem_get (mem_unmet.1 hx).1) (fun x hx => (mem_unmet.1 hx).2)
  simp only [Frontier.length_extend, List.length_map, List.length_cons]
  omega

/-- The visits of the walk that starts at `source`, where the ids of `met` count as met already. -/
def walk (r : Rows) (f : Frontier) (met : List Nat) (source : Nat) : List Visit :=
  r.walkFrom f (met ++ [source]) [⟨source, none⟩]

/-- What is reachable from `source`, breadth-first. -/
def breadthFirst (r : Rows) (source : Nat) : List Nat := (r.walk .queue [] source).map (·.vertex)

/-- `breadthFirst` from an id that has a row. -/
def checkedBreadthFirst (r : Rows) (source : Nat) : Except GraphError (List Nat) := do
  return r.breadthFirst (← checkId r.size source)

/-- What is reachable from `source`, depth-first. -/
def depthFirst (r : Rows) (source : Nat) : List Nat := (r.walk .stack [] source).map (·.vertex)

/-- Adds the breadth-first walk from `root` to the visits so far, unless one of them is to `root`. -/
def plant (r : Rows) (visits : List Visit) (root : Nat) : List Visit :=
  let met := visits.map (·.vertex)
  if root ∈ met then visits else visits ++ r.walk .queue met root

/-- The visits of breadth-first walks from each of `roots` that no earlier walk has met. -/
def forest (r : Rows) (roots : List Nat) : List Visit := roots.foldl r.plant []

end Rows
end CliqueTree
