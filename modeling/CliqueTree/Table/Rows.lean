import CliqueTree.Error

/-!
# Rows of ids

Inside a graph a vertex is known by its id, its position in the order of insertion. `Rows` lists for every
id the ids that belong to it, neighbours or parents, in the order in which they were added and as often as
they were added. An id past the end has no row: `get` reads it as empty, and `row` refuses it. What follows
the entries of rows asks first, by `checkRows` or `checkClosed`, whether it will meet such an id, and then
reads with `get`.
-/

set_option autoImplicit false

namespace CliqueTree

/-- Two ids; which of them comes first is the direction, or the order in which they were named. -/
abbrev Edge := Nat × Nat

/-- The text by which an id is named in an error. -/
def describeId (id : Nat) : String := "VertexId(" ++ id.repr ++ ")"

/-- The short text by which an id is shown. -/
def displayId (id : Nat) : String := "#" ++ id.repr

/-- A list of ids for every id below `size`. -/
structure Rows where
  lists : Array (List Nat)
  deriving DecidableEq, Repr

namespace Rows

def size (r : Rows) : Nat := r.lists.size

/-- Rows for `n` ids, all empty. -/
def blank (n : Nat) : Rows := ⟨Array.replicate n []⟩

def ofLists (ls : List (List Nat)) : Rows := ⟨ls.toArray⟩

def toLists (r : Rows) : List (List Nat) := r.lists.toList

/-- The row of `v`, empty past the end. -/
def get (r : Rows) (v : Nat) : List Nat := (r.lists[v]?).getD []

/-- Appends `x` to the row of `v`; past the end nothing changes. -/
def add (r : Rows) (v x : Nat) : Rows := ⟨r.lists.modify v (· ++ [x])⟩

/-- Every entry of every row. -/
def entries (r : Rows) : List Nat := r.toLists.flatten

/-- The rows with only the entries that pass the test. -/
def restrict (r : Rows) (keep : Nat → Bool) : Rows := ⟨r.lists.map (List.filter keep)⟩

/-- The id itself when it is below `n`, an error otherwise. -/
def checkId (n id : Nat) : Except GraphError Nat :=
  if id < n then .ok id else .error (.noSuchId id)

/-- The row of `v`, which must have one. -/
def row (r : Rows) (v : Nat) : Except GraphError (List Nat) :=
  match r.lists[v]? with
  | some l => .ok l
  | none => .error (.noSuchId v)

/-- Refuses the first id of a list that has no row. -/
def checkRows (r : Rows) : List Nat → Except GraphError Unit
  | [] => .ok ()
  | v :: rest => do
    let _ ← checkId r.size v
    r.checkRows rest

/-- Refuses the first id that has no row, among those of a list and the entries of their rows. -/
def checkClosed (r : Rows) (ids : List Nat) : Except GraphError Unit :=
  r.checkRows (ids.flatMap fun v => v :: r.get v)

@[simp] theorem size_blank (n : Nat) : (blank n).size = n := by simp [blank, size]

@[simp] theorem size_add (r : Rows) (v x : Nat) : (r.add v x).size = r.size := by simp [add, size]

@[simp] theorem get_blank (n v : Nat) : (blank n).get v = [] := by
  simp only [blank, get, Array.getElem?_replicate]
  split <;> rfl

theorem get_add (r : Rows) (v x w : Nat) :
    (r.add v x).get w = if v = w ∧ w < r.size then r.get w ++ [x] else r.get w := by
  simp only [add, get, size, Array.getElem?_modify]
  by_cases hw : w < r.lists.size <;> by_cases hv : v = w <;> simp [hv, hw]

theorem get_eq_nil_of_le {r : Rows} {v : Nat} (h : r.size ≤ v) : r.get v = [] := by
  simp only [size] at h
  simp [get, h]

/-- What stands in a row is among the entries. -/
theorem mem_entries_of_mem_get {r : Rows} {v x : Nat} (h : x ∈ r.get v) : x ∈ r.entries := by
  simp only [get] at h
  cases hv : r.lists[v]? with
  | none => simp [hv] at h
  | some l =>
    rw [hv] at h
    refine List.mem_flatten.2 ⟨l, ?_, h⟩
    simpa [toLists] using Array.mem_of_getElem? hv

theorem row_eq (r : Rows) (v : Nat) :
    r.row v = if v < r.size then .ok (r.get v) else .error (.noSuchId v) := by
  simp only [row, get, size]
  by_cases hv : v < r.lists.size <;> simp [hv]

theorem row_of_lt {r : Rows} {v : Nat} (h : v < r.size) : r.row v = .ok (r.get v) := by rw [row_eq, if_pos h]

theorem checkRows_eq_ok_iff {r : Rows} {ids : List Nat} :
    r.checkRows ids = .ok () ↔ ∀ v ∈ ids, v < r.size := by
  induction ids with
  | nil => simp [checkRows]
  | cons v rest ih =>
    by_cases hv : v < r.size
    · simp only [checkRows, checkId, hv, if_true, List.forall_mem_cons, true_and]
      exact ih
    · simp [checkRows, checkId, hv, bind, Except.bind]

theorem checkClosed_eq_ok_iff {r : Rows} {ids : List Nat} :
    r.checkClosed ids = .ok () ↔ ∀ v ∈ ids, v < r.size ∧ ∀ x ∈ r.get v, x < r.size := by
  simp only [checkClosed, checkRows_eq_ok_iff, List.forall_mem_flatMap, List.forall_mem_cons]

end Rows
end CliqueTree
