import CliqueTree.Proofs.Table.Cover

/-!
# Covers of any list

A cover takes a list of ids for covered when the search from its first id has met as many ids as the list has entries.
On all ids of symmetric rows the number tells whether any are left out. A list in general may name an id twice, or leave
out some that the search meets. Then the search can meet enough ids and still not one of the list, which the order then
misses; or it can meet all of the list and not enough ids, and the list is refused. The forest of walks does visit all
that the list reaches, whatever the rows are (`mem_forest_iff`). So a cover does what is asked of it exactly when number
and reach agree (`coversByReach_iff`), as they do for a list without repeats that the search does not leave.
-/

set_option autoImplicit false

namespace CliqueTree
open Relation (ReflTransGen)

namespace Rows
variable {r : Rows} {visits : List Visit} {roots vertices : List Nat} {first u v : Nat}

/-! ### What a forest visits -/

/-- No row of what is visited names anything else. -/
def Closed (r : Rows) (visits : List Visit) : Prop :=
  ∀ v ∈ visits.map (·.vertex), ∀ x, r.Linked v x → x ∈ visits.map (·.vertex)

namespace Closed

theorem mem_of_reach (closed : r.Closed visits) (hu : u ∈ visits.map (·.vertex)) (reach : ReflTransGen r.Linked u v) :
    v ∈ visits.map (·.vertex) := by
  induction reach with
  | refl => exact hu
  | tail _ link ih => exact closed _ ih _ link

theorem plant (closed : r.Closed visits) (root : Nat) : r.Closed (r.plant visits root) := by
  rw [Rows.plant]
  split
  · exact closed
  · intro v hv x link
    rw [List.map_append, List.mem_append] at hv ⊢
    rcases hv with old | new
    · exact .inl (closed v old x link)
    · obtain ⟨visit, member, rfl⟩ := List.mem_map.1 new
      rcases r.walkFrom_closed .queue _ _ visit member x link with before | found
      · rcases List.mem_append.1 before with old | start
        · exact .inl old
        · rw [List.mem_singleton.1 start]
          exact .inr (r.mem_walk .queue _ root)
      · exact .inr found

/-- One root more adds what it reaches. -/
theorem mem_plant_iff (closed : r.Closed visits) (root : Nat) :
    v ∈ (r.plant visits root).map (·.vertex) ↔ v ∈ visits.map (·.vertex) ∨ ReflTransGen r.Linked root v := by
  obtain ⟨kept, added⟩ := r.mem_plant visits root
  constructor
  · rw [Rows.plant]
    split
    · exact .inl
    · rw [List.map_append, List.mem_append]
      refine Or.imp_right fun new => ?_
      obtain ⟨visit, member, rfl⟩ := List.mem_map.1 new
      refine walkFrom_stays (P := ReflTransGen r.Linked root) (fun u reach x => reach.tail) .queue _ _ ?_ visit member
      exact List.forall_mem_singleton.2 .refl
  · rintro (old | reach)
    · exact List.map_subset _ kept old
    · exact (closed.plant root).mem_of_reach added reach

theorem mem_foldl_plant_iff (closed : r.Closed visits) : v ∈ (roots.foldl r.plant visits).map (·.vertex) ↔
    v ∈ visits.map (·.vertex) ∨ ∃ root ∈ roots, ReflTransGen r.Linked root v := by
  induction roots generalizing visits with
  | nil => simp
  | cons root roots ih =>
    rw [List.foldl_cons, ih (closed.plant root), closed.mem_plant_iff, List.exists_mem_cons_iff, or_assoc]

end Closed

/-- A forest visits what its roots reach. -/
theorem mem_forest_iff :
    v ∈ (r.forest roots).map (·.vertex) ↔ ∃ root ∈ roots, ReflTransGen r.Linked root v := by
  have none : r.Closed [] := fun v hv => absurd hv List.not_mem_nil
  rw [forest, none.mem_foldl_plant_iff, List.map_nil, or_iff_right List.not_mem_nil]

theorem nodup_forest (r : Rows) (roots : List Nat) : ((r.forest roots).map (·.vertex)).Nodup := by
  induction roots using List.reverseRecOn with
  | nil => exact List.nodup_nil
  | append_singleton roots root ih =>
    have grown : r.forest (roots ++ [root]) = r.plant (r.forest roots) root := List.foldl_concat _ _ _ _
    rw [grown, plant]
    split
    · exact ih
    next fresh =>
      obtain ⟨nodup, apart⟩ := r.walk_nodup fresh .queue
      rw [List.map_append, List.nodup_append]
      exact ⟨ih, nodup, fun v old w new same => (apart w new).1 (same ▸ old)⟩

/-! ### Number and reach -/

/-- What is asked of covers of a list: part by part, every id of the list is in the order, and when one part is wanted
the list is refused exactly if its first id does not reach all of it. -/
structure CoversByReach (r : Rows) (vertices : List Nat) : Prop where
  perComponent : ∃ order, r.cover vertices .perComponent = .ok order ∧ ∀ v ∈ vertices, v ∈ order
  reject : (∃ e, r.cover vertices .reject = .error e) ↔
    ∃ first, vertices.head? = some first ∧ ∃ v ∈ vertices, ¬ ReflTransGen r.Linked first v

/-- How many ids the first one reaches. -/
noncomputable def reached (r : Rows) (first : Nat) : Nat := {v | ReflTransGen r.Linked first v}.ncard

section Count
variable {rest order : List Nat} {e : GraphError}

theorem reached_eq (r : Rows) (first : Nat) : r.reached first = (r.breadthFirst first).length :=
  (r.length_breadthFirst first).symm

/-- When the number is reached, a cover is the search from the first id. -/
theorem cover_of_le (enough : (first :: rest).length ≤ r.reached first) (disconnected : Disconnected) :
    r.cover (first :: rest) disconnected = .ok (r.breadthFirst first) := by
  rw [reached_eq] at enough
  exact if_neg (Nat.not_lt.2 enough)

theorem cover_of_lt (fewer : r.reached first < (first :: rest).length) :
    r.cover (first :: rest) .perComponent = .ok ((r.forest (first :: rest)).map (·.vertex)) ∧
      r.cover (first :: rest) .reject = .error (.disconnected (r.reached first) (first :: rest).length) := by
  rw [reached_eq] at fewer ⊢
  exact ⟨if_pos fewer, if_pos fewer⟩

/-- A list is refused by number, and the error tells the numbers. -/
theorem cover_reject_eq_error_iff : r.cover (first :: rest) .reject = .error e ↔
    r.reached first < (first :: rest).length ∧ e = .disconnected (r.reached first) (first :: rest).length := by
  by_cases fewer : r.reached first < (first :: rest).length
  · rw [(cover_of_lt fewer).2, Except.error.injEq, and_iff_right fewer, eq_comm]
  · rw [cover_of_le (Nat.le_of_not_lt fewer)]
    exact ⟨(nomatch ·), fun h => absurd h.1 fewer⟩

/-- What an order lists that covers a list part by part: what the list reaches when the search from its first id had to
start again, and otherwise what the first id reaches. -/
structure CoversByNumber (r : Rows) (first : Nat) (rest order : List Nat) : Prop where
  nodup : order.Nodup
  again : r.reached first < (first :: rest).length → ∀ v, v ∈ order ↔ ∃ u ∈ first :: rest, ReflTransGen r.Linked u v
  once : (first :: rest).length ≤ r.reached first → ∀ v, v ∈ order ↔ ReflTransGen r.Linked first v

/-- Part by part no list is refused. -/
theorem exists_cover_perComponent (r : Rows) (first : Nat) (rest : List Nat) :
    ∃ order, r.cover (first :: rest) .perComponent = .ok order ∧ r.CoversByNumber first rest order := by
  by_cases fewer : r.reached first < (first :: rest).length
  · refine ⟨_, (cover_of_lt fewer).1, r.nodup_forest _, fun _ v => mem_forest_iff, fun enough => ?_⟩
    exact absurd fewer (Nat.not_lt.2 enough)
  · have enough := Nat.le_of_not_lt fewer
    exact ⟨_, cover_of_le enough _, r.nodup_breadthFirst first, fun less => absurd less fewer,
      fun _ v => mem_breadthFirst_iff⟩

/-- The order holds the whole list when the search started again or had met all. -/
theorem CoversByNumber.covers_iff (h : r.CoversByNumber first rest order) : (∀ v ∈ first :: rest, v ∈ order) ↔
    ((∃ v ∈ first :: rest, ¬ ReflTransGen r.Linked first v) → r.reached first < (first :: rest).length) := by
  by_cases fewer : r.reached first < (first :: rest).length
  · refine iff_of_true (fun v hv => ?_) fun _ => fewer
    exact (h.again fewer v).2 ⟨v, hv, .refl⟩
  · have once := h.once (Nat.le_of_not_lt fewer)
    constructor
    · rintro all ⟨v, hv, apart⟩
      exact absurd ((once v).1 (all v hv)) apart
    · intro agree v hv
      by_contra missed
      exact fewer (agree ⟨v, hv, fun reach => missed ((once v).2 reach)⟩)

/-- A cover does what is asked of it when number and reach agree. -/
theorem coversByReach_iff_agree : r.CoversByReach (first :: rest) ↔
    (r.reached first < (first :: rest).length ↔ ∃ v ∈ first :: rest, ¬ ReflTransGen r.Linked first v) := by
  obtain ⟨order, covered, listed⟩ := r.exists_cover_perComponent first rest
  have refused : (∃ e, r.cover (first :: rest) .reject = .error e) ↔ r.reached first < (first :: rest).length := by
    simp only [cover_reject_eq_error_iff, exists_and_left, exists_eq, and_true]
  have byReach : (∃ head, (first :: rest).head? = some head ∧ ∃ v ∈ first :: rest, ¬ ReflTransGen r.Linked head v) ↔
      ∃ v ∈ first :: rest, ¬ ReflTransGen r.Linked first v := by
    simp only [List.head?_cons, Option.some.injEq, exists_eq_left']
  constructor
  · intro covers
    rw [← refused, ← byReach]
    exact covers.reject
  · intro agree
    refine ⟨⟨order, covered, listed.covers_iff.2 agree.2⟩, ?_⟩
    rw [refused, byReach]
    exact agree

/-- Number and reach agree for a list without repeats that the search from its first id does not leave. -/
theorem reached_lt_iff (nodup : vertices.Nodup) (inside : ∀ v, ReflTransGen r.Linked first v → v ∈ vertices) :
    r.reached first < vertices.length ↔ ∃ v ∈ vertices, ¬ ReflTransGen r.Linked first v := by
  have part : r.breadthFirst first ⊆ vertices := fun v hv => inside v (mem_breadthFirst_iff.1 hv)
  rw [reached_eq, length_lt_iff (r.nodup_breadthFirst first) nodup part]
  simp only [mem_breadthFirst_iff]

/-- **Covers by number.** Part by part a cover of a nonempty list goes through and lists each id once: what the list
reaches, when its first id reaches fewer ids than the list has entries, and otherwise what the first id reaches. When one
part is wanted, the list is refused exactly if the first id reaches fewer. So every id of the list is in the order, and a
list is refused exactly if its first id does not reach all of it, if and only if these two ways to tell agree. They do
for a list without repeats that the search does not leave. -/
theorem coversByReach_iff (r : Rows) (first : Nat) (rest : List Nat) :
    let vertices := first :: rest
    (∃ order, r.cover vertices .perComponent = .ok order ∧ r.CoversByNumber first rest order) ∧
    (∀ e, r.cover vertices .reject = .error e ↔
      r.reached first < vertices.length ∧ e = .disconnected (r.reached first) vertices.length) ∧
    (r.CoversByReach vertices ↔
      (r.reached first < vertices.length ↔ ∃ v ∈ vertices, ¬ ReflTransGen r.Linked first v)) ∧
    (vertices.Nodup → (∀ v, ReflTransGen r.Linked first v → v ∈ vertices) → r.CoversByReach vertices) := by
  refine ⟨r.exists_cover_perComponent first rest, fun _ => cover_reject_eq_error_iff, coversByReach_iff_agree, ?_⟩
  intro nodup inside
  exact coversByReach_iff_agree.2 (reached_lt_iff nodup inside)

/-- Two linked ids and one that is alone. -/
def pairAndStranger : Rows := ⟨#[[1], [0], []]⟩

/-- From 0 and the stranger as many ids are named as 0 reaches, and the stranger is left out; from a list that names an
id twice nothing is left out, and it is refused. The whole is covered as asked. -/
theorem coversByReach_pairAndStranger :
    pairAndStranger.cover [0, 2] .perComponent = .ok [0, 1] ∧ pairAndStranger.cover [0, 2] .reject = .ok [0, 1] ∧
      ¬ pairAndStranger.CoversByReach [0, 2] ∧
      pairAndStranger.cover [1, 0, 0] .reject = .error (.disconnected 2 3) ∧
      ¬ pairAndStranger.CoversByReach [1, 0, 0] ∧ pairAndStranger.CoversByReach [0, 1, 2] := by
  have fromZero : ∀ v, ReflTransGen pairAndStranger.Linked 0 v ↔ v ∈ [0, 1] := fun v => by
    rw [← mem_breadthFirst_iff, show pairAndStranger.breadthFirst 0 = [0, 1] by decide +kernel]
  have fromOne : ∀ v, ReflTransGen pairAndStranger.Linked 1 v ↔ v ∈ [1, 0] := fun v => by
    rw [← mem_breadthFirst_iff, show pairAndStranger.breadthFirst 1 = [1, 0] by decide +kernel]
  have pair : pairAndStranger.reached 0 = 2 := by
    rw [reached_eq]
    decide +kernel
  have pair' : pairAndStranger.reached 1 = 2 := by
    rw [reached_eq]
    decide +kernel
  obtain ⟨_, _, missing, _⟩ := coversByReach_iff pairAndStranger 0 [2]
  obtain ⟨_, refused, repeated, _⟩ := coversByReach_iff pairAndStranger 1 [0, 0]
  obtain ⟨_, _, _, whole⟩ := coversByReach_iff pairAndStranger 0 [1, 2]
  refine ⟨by decide +kernel, by decide +kernel, fun covers => ?_, (refused _).2 ⟨?_, ?_⟩, fun covers => ?_, whole ?_ ?_⟩
  · have fewer := (missing.1 covers).2 ⟨2, by decide, by rw [fromZero]; decide⟩
    rw [pair] at fewer
    exact absurd fewer (by decide)
  · rw [pair']
    decide
  · rw [pair']
    rfl
  · obtain ⟨v, hv, apart⟩ := (repeated.1 covers).1 (by rw [pair']; decide)
    rw [fromOne] at apart
    revert v
    decide
  · decide
  · intro v reach
    rw [fromZero] at reach
    revert v
    decide

end Count
end Rows
end CliqueTree
