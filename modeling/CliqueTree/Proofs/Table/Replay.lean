import CliqueTree.Proofs.FirstOccurrence
import CliqueTree.Proofs.Table.FillLinks
import CliqueTree.Proofs.Table.Walk

/-!
# Walks over rows that were filled in

When the elimination game goes by the order in which walks have met the ids, the walks over the rows that it leaves
meet the same ids in the same order (`FilledIn.cover_eq`). They read longer rows, but a link that was filled in leads
from a visited id only to an id that the walk over the old rows has met by then: both its ends are linked to an id
that was visited before, and what a visited id leads to has been met, be the link an old one or again one that was
filled in.
-/

set_option autoImplicit false

namespace CliqueTree

namespace Rows
variable {r t : Rows} {order : List Nat}

/-- Visits to whole parts of the rows are visits to whole parts of what is filled in. -/
theorem Planted.closed_filled (symm : r.Symmetric) {visits : List Visit} (h : Planted r visits) :
    ∀ w ∈ visits.map (·.vertex), ∀ x, r.Filled order w x → x ∈ visits.map (·.vertex) := by
  intro w hw x link
  have way := link.connected symm
  clear link
  induction way with
  | refl => exact hw
  | tail _ step ih => exact h.closed _ ih _ step

theorem prefix_plant (r : Rows) (visits : List Visit) (root : Nat) : visits <+: r.plant visits root := by
  simp only [plant]
  split
  · exact List.prefix_refl _
  · exact List.prefix_append _ _

theorem prefix_foldl_plant (r : Rows) (roots : List Nat) (visits : List Visit) :
    visits <+: roots.foldl r.plant visits := by
  induction roots generalizing visits with
  | nil => exact List.prefix_refl _
  | cons root roots ih => exact (r.prefix_plant visits root).trans (ih _)

namespace FilledIn

/-- A visited id names the same ids first in both rows, if what else is filled in at it has been met. -/
theorem unmet_eq (h : FilledIn r t order) {met : List Nat} {v : Nat}
    (seen : ∀ x, r.Filled order v x → r.Linked v x ∨ x ∈ met) : t.unmet met v = r.unmet met v := by
  obtain ⟨more, appended⟩ := h.kept v
  have none : ((distinct more).filter (· ∉ r.get v)).filter (· ∉ met) = [] := by
    rw [List.filter_filter, List.filter_eq_nil_iff]
    intro x hx
    have entry : x ∈ t.get v := appended ▸ List.mem_append_right _ (mem_distinct.1 hx)
    have := seen x (h.only v x entry)
    simp only [Bool.and_eq_true, decide_eq_true_eq, not_and_or, not_not]
    exact this.symm
  rw [unmet, unmet, ← appended, distinct_append, List.filter_append, none, List.append_nil]

/-- A walk takes the same way over the new rows, when the order lists what was visited before, then what the walk
over the old rows visits. -/
theorem walkFrom_eq (h : FilledIn r t order) (f : Frontier) (met : List Nat) (waiting : List Visit) :
    ∀ done rest : List Nat, order = done ++ (r.walkFrom f met waiting).map (·.vertex) ++ rest →
      (∀ w ∈ done, ∀ x, r.Filled order w x → x ∈ met) → t.walkFrom f met waiting = r.walkFrom f met waiting := by
  -- along the walk, what is filled in at a visited id stays among what was met
  induction met, waiting using walkFrom.induct r f with
  | case1 met =>
    intro _ _ _ _
    rw [walkFrom_nil, walkFrom_nil]
  | case2 met visit waiting new ih =>
    intro done rest split seen
    rw [walkFrom_cons, List.map_cons, List.append_assoc, List.cons_append] at split
    have seen_here : ∀ x, r.Filled order visit.vertex x → r.Linked visit.vertex x ∨ x ∈ met := by
      intro x link
      cases link with
      | old link => exact .inl link
      | new before _ _ toX =>
        rw [split] at before
        exact .inr (seen _ before.mem x toX)
    have same := h.unmet_eq seen_here
    rw [walkFrom_cons, walkFrom_cons, namedBy, same]
    refine congrArg (visit :: ·) (ih (done ++ [visit.vertex]) rest ?_ fun w hw x link => ?_)
    · rw [List.append_assoc, List.append_assoc]
      exact split
    · rcases List.mem_append.1 hw with old | here
      · exact List.mem_append_left _ (seen w old x link)
      · obtain rfl := List.mem_singleton.1 here
        by_cases old : x ∈ met
        · exact List.mem_append_left _ old
        · exact List.mem_append_right met (mem_unmet.2 ⟨(seen_here x link).resolve_right old, old⟩)

theorem walk_eq (h : FilledIn r t order) (f : Frontier) {met rest : List Nat} {source : Nat}
    (split : order = met ++ (r.walk f met source).map (·.vertex) ++ rest)
    (closed : ∀ w ∈ met, ∀ x, r.Filled order w x → x ∈ met) : t.walk f met source = r.walk f met source :=
  h.walkFrom_eq f _ _ met rest split fun w hw x link => List.mem_append_left _ (closed w hw x link)

/-- So does a forest of walks. -/
theorem foldl_plant_eq (h : FilledIn r t order) (symm : r.Symmetric) (roots : List Nat) {visits : List Visit}
    (planted : Planted r visits) (inside : ∀ v ∈ roots, v < r.size)
    (split : order = (roots.foldl r.plant visits).map (·.vertex)) :
    roots.foldl t.plant visits = roots.foldl r.plant visits := by
  induction roots generalizing visits with
  | nil => rfl
  | cons root roots ih =>
    have same : t.plant visits root = r.plant visits root := by
      obtain ⟨more, longer⟩ := r.prefix_foldl_plant roots (r.plant visits root)
      rw [List.foldl_cons, ← longer, List.map_append] at split
      simp only [plant] at split ⊢
      split
      · rfl
      next fresh =>
        rw [if_neg fresh, List.map_append] at split
        rw [h.walk_eq .queue split (planted.closed_filled symm)]
    rw [List.foldl_cons, List.foldl_cons, same]
    exact ih (planted.plant symm (inside root List.mem_cons_self)) (fun v hv => inside v (List.mem_cons_of_mem root hv))
      split

/-- **Covering again.** The order that covers the ids of symmetric rows covers them again when the game has gone
by it. -/
theorem cover_eq (h : FilledIn r t order) (symm : r.Symmetric) {disconnected : Disconnected}
    (covered : r.cover (List.range r.size) disconnected = .ok order) :
    t.cover (List.range t.size) disconnected = .ok order := by
  rw [h.size]
  have inside : ∀ v ∈ List.range r.size, v < r.size := fun v => List.mem_range.1
  cases ids : List.range r.size with
  | nil =>
    rw [ids] at covered
    exact covered
  | cons first rest =>
    rw [ids] at covered inside
    -- the first walk takes the same way, whether it is all or others follow
    have first_eq : ∀ more, order = [] ++ r.breadthFirst first ++ more →
        t.breadthFirst first = r.breadthFirst first := by
      intro more split
      have same := h.walk_eq .queue split fun w hw => absurd hw List.not_mem_nil
      exact congrArg (List.map (·.vertex)) same
    simp only [cover] at covered ⊢
    split at covered
    next fewer =>
      cases disconnected with
      | reject => cases covered
      | perComponent =>
        have listed : order = ((first :: rest).foldl r.plant []).map (·.vertex) := (Except.ok.inj covered).symm
        obtain ⟨more, longer⟩ := r.prefix_foldl_plant rest (r.plant [] first)
        have split : order = [] ++ r.breadthFirst first ++ more.map (·.vertex) := by
          rw [listed, List.foldl_cons, ← longer, List.map_append]
          rfl
        rw [first_eq _ split, if_pos fewer]
        show Except.ok (((first :: rest).foldl t.plant []).map (·.vertex)) = Except.ok order
        rw [h.foldl_plant_eq symm (first :: rest) (.nil r) inside listed, ← listed]
    next enough =>
      have listed := Except.ok.inj covered
      rw [first_eq [] (by rw [← listed]; simp), if_neg enough, listed]

end FilledIn
end Rows
end CliqueTree
