import CliqueTree.Policy
import CliqueTree.Proofs.Table.SearchLoop
import Mathlib.Data.Set.Card

/-!
# Covering orders

A breadth-first search meets each id once, and just those that its source reaches (`mem_breadthFirst_iff`). So the
number it reports is how many these are, and on symmetric rows it leaves ids out exactly when the rows are not
connected. An order that is to be of one part is then refused, and in no other case (`cover_eq_error_iff`); among
policies, one that orders anew and wants one part has no order (`resolve_eq_error_iff`).

Whatever is not refused is the forest of walks (`cover_eq_forest`). The forest starts a walk at the first member of each
part (`Starts.eq_firstMembers`), so a cover lists the parts one after the other (`cover_parts`).
-/

set_option autoImplicit false

namespace CliqueTree
open Relation (ReflTransGen)

/-- A list without repeats is as long as the set of its elements is large. -/
theorem ncard_eq_length {α : Type} {S : Set α} {l : List α} (nodup : l.Nodup) (same : ∀ a, a ∈ S ↔ a ∈ l) :
    S.ncard = l.length := by
  classical
  have listed : S = (l.toFinset : Set α) := by
    ext a
    simpa using same a
  rw [listed, Set.ncard_coe_finset, List.toFinset_card_of_nodup nodup]

/-- Among lists without repeats, a part is shorter than the whole when it leaves an element out. -/
theorem length_lt_iff {α : Type} {l m : List α} (nodup : l.Nodup) (nodup' : m.Nodup) (part : l ⊆ m) :
    l.length < m.length ↔ ∃ a ∈ m, a ∉ l := by
  constructor
  · intro fewer
    by_contra all
    push Not at all
    exact Nat.not_le_of_lt fewer (nodup'.length_le_of_subset all)
  · rintro ⟨a, ha, missed⟩
    exact (List.nodup_cons.2 ⟨missed, nodup⟩).length_le_of_subset (List.cons_subset.2 ⟨ha, part⟩)

namespace Rows
variable {r : Rows} {source v : Nat}

theorem length_breadthFirst (r : Rows) (source : Nat) :
    (r.breadthFirst source).length = {v | ReflTransGen r.Linked source v}.ncard :=
  (ncard_eq_length (r.nodup_breadthFirst source) fun _ => mem_breadthFirst_iff.symm).symm

/-- The search leaves an id out when it meets fewer than there are. -/
theorem breadthFirst_lt_iff (symm : r.Symmetric) (small : source < r.size) :
    (r.breadthFirst source).length < r.size ↔ ∃ v < r.size, ¬ ReflTransGen r.Linked source v := by
  have inside : r.breadthFirst source ⊆ List.range r.size := by
    intro v hv
    rcases ReflTransGen.cases_tail (mem_breadthFirst_iff.1 hv) with rfl | ⟨u, _, step⟩
    · exact List.mem_range.2 small
    · exact List.mem_range.2 (symm.lt_size step)
  have fewer := length_lt_iff (r.nodup_breadthFirst source) List.nodup_range inside
  simpa only [List.length_range, List.mem_range, mem_breadthFirst_iff] using fewer

/-! ### Covering orders -/

section Orders
variable {vertices order : List Nat} {disconnected : Disconnected} {e : GraphError}

/-- Every id reaches every other. Rows without ids are connected. -/
def Connected (r : Rows) : Prop := ∀ u < r.size, ∀ v < r.size, ReflTransGen r.Linked u v

/-- One id reaches all others exactly when each does. -/
theorem connected_iff (symm : r.Symmetric) (small : source < r.size) :
    r.Connected ↔ ∀ v < r.size, ReflTransGen r.Linked source v := by
  have := symm.toSymm
  refine ⟨fun connected => connected source small, fun reached u hu v hv => ?_⟩
  exact (Std.Symm.symm _ _ (reached u hu)).trans (reached v hv)

theorem foldl_plant_idle (roots : List Nat) {visits : List Visit} (met : ∀ v ∈ roots, v ∈ visits.map (·.vertex)) :
    roots.foldl r.plant visits = visits := by
  induction roots with
  | nil => rfl
  | cons v roots ih =>
    have idle : r.plant visits v = visits := if_pos (met v List.mem_cons_self)
    rw [List.foldl_cons, idle]
    exact ih fun w hw => met w (List.mem_cons_of_mem v hw)

/-- An order that covers all ids is that of the forest, whether one walk was enough or not. -/
theorem cover_eq_forest (symm : r.Symmetric) (all : vertices.Perm (List.range r.size))
    (h : r.cover vertices disconnected = .ok order) : order = (r.forest vertices).map (·.vertex) := by
  have perm := (cover_perm symm all h).trans all.symm
  cases vertices with
  | nil =>
    obtain rfl := Except.ok.inj h
    rfl
  | cons first rest =>
    simp only [cover] at h
    split at h
    · cases disconnected with
      | reject => cases h
      | perComponent => exact (Except.ok.inj h).symm
    · obtain rfl := Except.ok.inj h
      rw [forest, List.foldl_cons]
      show _ = (rest.foldl r.plant (r.walk .queue [] first)).map (·.vertex)
      rw [foldl_plant_idle rest fun v hv => perm.mem_iff.2 (List.mem_cons_of_mem first hv)]
      rfl

/-- A cover is refused when one part is wanted and the first id leaves others out, and only then. -/
theorem cover_eq_error_iff (symm : r.Symmetric) (all : vertices.Perm (List.range r.size)) :
    r.cover vertices disconnected = .error e ↔ disconnected = .reject ∧ ∃ first, vertices.head? = some first ∧
      (∃ v < r.size, ¬ ReflTransGen r.Linked first v) ∧
        e = .disconnected {v | ReflTransGen r.Linked first v}.ncard r.size := by
  cases vertices with
  | nil => simp [cover]
  | cons first rest =>
    have total : (first :: rest).length = r.size := by rw [all.length_eq, List.length_range]
    have small : first < r.size := List.mem_range.1 (all.mem_iff.1 List.mem_cons_self)
    have fewer := breadthFirst_lt_iff symm small
    simp only [cover, total, List.head?_cons, Option.some.injEq, exists_eq_left', ← fewer, ← length_breadthFirst]
    cases disconnected with
    | perComponent => split <;> simp
    | reject =>
      split
      next left => simp [left, eq_comm]
      next covered => simp [covered]

theorem cover_perComponent (symm : r.Symmetric) (all : vertices.Perm (List.range r.size)) :
    r.cover vertices .perComponent = .ok ((r.forest vertices).map (·.vertex)) := by
  cases covered : r.cover vertices .perComponent with
  | error e => exact nomatch ((cover_eq_error_iff symm all).1 covered).1
  | ok order => rw [cover_eq_forest symm all covered]

/-- Connected rows are covered whatever is said about others. -/
theorem cover_of_connected (symm : r.Symmetric) (all : vertices.Perm (List.range r.size)) (connected : r.Connected) :
    r.cover vertices disconnected = .ok ((r.forest vertices).map (·.vertex)) := by
  cases covered : r.cover vertices disconnected with
  | error e =>
    obtain ⟨_, first, head, ⟨v, hv, apart⟩, _⟩ := (cover_eq_error_iff symm all).1 covered
    have small : first < r.size := List.mem_range.1 (all.mem_iff.1 (List.mem_of_mem_head? head))
    exact absurd (connected first small v hv) apart
  | ok order => rw [cover_eq_forest symm all covered]

/-- Only a policy that orders anew and wants one part refuses rows, and only rows of more than one. -/
theorem resolve_eq_error_iff (symm : r.Symmetric) {p : OrderPolicy} {e : GraphError} :
    p.resolve r (List.range r.size) = .error e ↔ p.reorder = true ∧ p.disconnected = .reject ∧
      (∃ v < r.size, ¬ ReflTransGen r.Linked 0 v) ∧
        e = .disconnected {v | ReflTransGen r.Linked 0 v}.ncard r.size := by
  unfold OrderPolicy.resolve
  cases p.reorder with
  | false => simp
  | true =>
    rw [if_pos rfl, cover_eq_error_iff symm (.refl _)]
    cases count : r.size with
    | zero => simp
    | succ n => simp [List.range_succ_eq_map]

end Orders

/-! ### Part by part -/

section Parts
variable {vertices starts : List Nat}

open Classical in
/-- Of every part the member that stands first in the list. -/
noncomputable def firstMembers (r : Rows) (vertices : List Nat) : List Nat :=
  vertices.filter fun v => ∀ u ∈ vertices, ReflTransGen r.Linked v u → vertices.idxOf v ≤ vertices.idxOf u

theorem mem_firstMembers : v ∈ r.firstMembers vertices ↔
    v ∈ vertices ∧ ∀ u ∈ vertices, ReflTransGen r.Linked v u → vertices.idxOf v ≤ vertices.idxOf u := by
  simp only [firstMembers, List.mem_filter, decide_eq_true_eq]

/-- A forest starts a walk at the first member of each part. -/
theorem Starts.mem_iff (symm : r.Symmetric) (nodup : vertices.Nodup) (h : Starts r vertices starts) :
    v ∈ starts ↔ v ∈ r.firstMembers vertices := by
  have := symm.toSymm
  have places := pairwise_idxOf nodup
  rw [mem_firstMembers]
  constructor
  · intro hv
    refine ⟨h.sublist.subset hv, fun u hu reach => ?_⟩
    rcases h.of_reach symm places hv reach hu with rfl | less
    · exact Nat.le_refl _
    · exact Nat.le_of_lt less
  · rintro ⟨hv, least⟩
    obtain ⟨before, after, split⟩ := List.append_of_mem hv
    obtain ⟨s, hs, reach, rfl | earlier⟩ := h.first before v after split
    · exact hs
    · have le := least s (h.sublist.subset hs) (Std.Symm.symm _ _ reach)
      rw [split, List.pairwise_append] at places
      have less := places.2.2 s earlier v List.mem_cons_self
      rw [← split] at less
      omega

/-- Both lists have the order of the places in the list of all ids. -/
theorem Starts.eq_firstMembers (symm : r.Symmetric) (nodup : vertices.Nodup) (h : Starts r vertices starts) :
    starts = r.firstMembers vertices := by
  have places := pairwise_idxOf nodup
  have part : (r.firstMembers vertices).Sublist vertices := List.filter_sublist
  have perm : starts.Perm (r.firstMembers vertices) :=
    (List.perm_ext_iff_of_nodup (nodup.sublist h.sublist) (nodup.sublist part)).2 fun _ => h.mem_iff symm nodup
  exact perm.eq_of_pairwise (fun u v _ _ less more => absurd less (Nat.lt_asymm more)) (places.sublist h.sublist)
    (places.sublist part)

/-- The forest over a list is the breadth-first orders of the parts, one after the other. -/
theorem map_vertex_forest (symm : r.Symmetric) (nodup : vertices.Nodup) :
    (r.forest vertices).map (·.vertex) = (r.firstMembers vertices).flatMap r.breadthFirst := by
  obtain ⟨starts, h, visits⟩ := exists_starts symm vertices
  rw [visits, List.map_flatMap, h.eq_firstMembers symm nodup]
  rfl

/-- **Covering orders.** Over all ids of symmetric rows, listed in any order, searches that carry their marks on from one
part to the next list the breadth-first order of each part from its first member, each id once. A cover is this order,
unless one part is wanted and there are more; the error then counts the part of the first id. -/
theorem cover_parts (symm : r.Symmetric) (all : vertices.Perm (List.range r.size)) :
    let order := (r.firstMembers vertices).flatMap r.breadthFirst
    order.Perm (List.range r.size) ∧ Search.Sweep r vertices (.listed []) (.listed order) ∧
      r.cover vertices .perComponent = .ok order ∧ (r.Connected → r.cover vertices .reject = .ok order) ∧
        (¬ r.Connected → ∃ first, vertices.head? = some first ∧ r.cover vertices .reject =
          .error (.disconnected {v | ReflTransGen r.Linked first v}.ncard r.size)) := by
  have forest := map_vertex_forest symm (all.nodup_iff.2 List.nodup_range)
  dsimp only
  rw [← forest]
  refine ⟨(r.forest_spec symm all).2, Search.sweep_foldl_plant r vertices [], cover_perComponent symm all,
    cover_of_connected symm all, fun apart => ?_⟩
  cases vertices with
  | nil =>
    have none : r.size = 0 := by simpa using all.length_eq.symm
    exact absurd (fun u hu => absurd hu (none ▸ Nat.not_lt_zero u)) apart
  | cons first rest =>
    have small : first < r.size := List.mem_range.1 (all.mem_iff.1 List.mem_cons_self)
    rw [connected_iff symm small] at apart
    push Not at apart
    exact ⟨first, rfl, (cover_eq_error_iff symm all).2 ⟨rfl, first, rfl, apart, rfl⟩⟩

/-- Rows of three parts, with a repeated edge and a loop. -/
def threeParts : Rows :=
  [(0, 3), (3, 5), (1, 4), (4, 4), (5, 3)].foldl (fun r e => NeighbourLinks.link r e.1 e.2) (.blank 6)

/-- The three parts are covered from a list that goes back and forth between them. -/
theorem threeParts_cover_parts :
    let vertices := [4, 5, 2, 0, 1, 3]
    let order := (threeParts.firstMembers vertices).flatMap threeParts.breadthFirst
    threeParts.Symmetric ∧ vertices.Perm (List.range threeParts.size) ∧
      threeParts.cover vertices .perComponent = .ok [4, 1, 5, 3, 0, 2] ∧
      threeParts.cover vertices .reject = .error (.disconnected 2 6) ∧
      order.Perm (List.range threeParts.size) ∧ Search.Sweep threeParts vertices (.listed []) (.listed order) ∧
        threeParts.cover vertices .perComponent = .ok order ∧
          (threeParts.Connected → threeParts.cover vertices .reject = .ok order) ∧
            (¬ threeParts.Connected → ∃ first, vertices.head? = some first ∧ threeParts.cover vertices .reject =
              .error (.disconnected {v | ReflTransGen threeParts.Linked first v}.ncard threeParts.size)) := by
  have symm : threeParts.Symmetric := (linked_foldl_link_blank (by decide)).2.1
  have all : [4, 5, 2, 0, 1, 3].Perm (List.range threeParts.size) := by decide
  exact ⟨symm, all, by decide +kernel, by decide +kernel, cover_parts symm all⟩

end Parts
end Rows
end CliqueTree
