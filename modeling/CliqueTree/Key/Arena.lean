import CliqueTree.Distinct
import CliqueTree.Key.Basic
import CliqueTree.Table.Rows

/-!
# Arenas

The keys of a graph in the order of their first occurrence. The position of a key is its id, so keys and the
ids below the size stand for each other. What takes ids back to keys leaves out an id past the end.
-/

set_option autoImplicit false

namespace CliqueTree

/-- Keys, each once. -/
structure Arena (K : Type) where
  keys : Array K
  nodup : keys.toList.Nodup

namespace Arena
variable {K : Type} [VertexKey K]

/-- The keys of a list where they first occur. -/
def ofKeys (keys : List K) : Arena K := ⟨(distinct keys).toArray, nodup_distinct keys⟩

def size (a : Arena K) : Nat := a.keys.size

/-- All ids, in order. -/
def ids (a : Arena K) : List Nat := List.range a.size

/-- The id of a key. -/
def id (a : Arena K) (k : K) : Except GraphError Nat :=
  match a.keys.idxOf? k with
  | some i => .ok i
  | none => .error (.unknownVertex (describe k))

/-- The key with an id. -/
def key? (a : Arena K) (i : Nat) : Option K := a.keys[i]?

/-- The key with an id, which must be below the size. -/
def key (a : Arena K) (i : Nat) : Except GraphError K :=
  match a.key? i with
  | some k => .ok k
  | none => .error (.noSuchId i)

/-- The keys with the given ids. -/
def keysOf (a : Arena K) (ids : List Nat) : List K := ids.filterMap a.key?

/-- The keys at the ends of an edge. -/
def edge? (a : Arena K) (e : Edge) : Option (K × K) := do return (← a.key? e.1, ← a.key? e.2)

/-- The keys at the ends of the edges. -/
def edgesOf (a : Arena K) (edges : Array Edge) : List (K × K) := edges.toList.filterMap a.edge?

/-- The ids at the ends of an edge; an unknown first end is reported before an unknown second one. -/
def edgeId (a : Arena K) (e : K × K) : Except GraphError Edge := do return (← a.id e.1, ← a.id e.2)

/-- The ids at the ends of the edges, or the first end that is unknown. -/
def edgeIds (a : Arena K) (edges : List (K × K)) : Except GraphError (List Edge) := edges.mapM a.edgeId

theorem key?_eq_some_iff {a : Arena K} {k : K} {i : Nat} :
    a.key? i = some k ↔ a.keys.toList.idxOf? k = some i := by
  have inj := a.nodup
  rw [List.idxOf?_eq_some_iff, key?, ← Array.getElem?_toList, List.getElem?_eq_some_iff]
  constructor
  · rintro ⟨hi, rfl⟩
    exact ⟨hi, rfl, fun j hj heq => Nat.ne_of_lt hj ((List.getElem_inj inj).1 heq)⟩
  · rintro ⟨hi, hk, _⟩
    exact ⟨hi, hk⟩

/-- Ids and keys stand for each other. -/
theorem id_eq_ok_iff {a : Arena K} {k : K} {i : Nat} : a.id k = .ok i ↔ a.key? i = some k := by
  rw [key?_eq_some_iff, ← List.idxOf?_toArray, Array.toArray_toList, id]
  cases a.keys.idxOf? k <;> simp

/-- Only a key that is not in the arena has no id. -/
theorem id_eq_error_iff {a : Arena K} {k : K} {e : GraphError} :
    a.id k = .error e ↔ k ∉ a.keys.toList ∧ e = .unknownVertex (describe k) := by
  rw [id, ← List.idxOf?_eq_none_iff, ← List.idxOf?_toArray, Array.toArray_toList]
  cases a.keys.idxOf? k <;> simp [eq_comm]

end Arena
end CliqueTree
