import CliqueTree.Proofs.Table.Walk
import Mathlib.Data.List.Induction

/-!
# The trees that walks grow

The vertex from whose row an id was met is visited before that id (`parentsEarlier_forest`). So the step that leads
to a visit joins it to what was visited before, and nothing joined it to that until then. Step by step the steps of a
forest of walks therefore form a forest in the sense of edge lists (`isForest_stepsOf`).
-/

set_option autoImplicit false

namespace CliqueTree

/-- Each visit comes after the one whose row named it, when those to the ids of `done` came before. -/
def ParentsEarlier : List Nat → List Visit → Prop
  | _, [] => True
  | done, visit :: rest => (∀ p ∈ visit.parent, p ∈ done) ∧ ParentsEarlier (done ++ [visit.vertex]) rest

namespace ParentsEarlier
variable {done : List Nat} {visits visits' : List Visit}

theorem append_iff : ParentsEarlier done (visits ++ visits') ↔
    ParentsEarlier done visits ∧ ParentsEarlier (done ++ visits.map (·.vertex)) visits' := by
  induction visits generalizing done with
  | nil => simp [ParentsEarlier]
  | cons visit rest ih => simp [ParentsEarlier, ih, and_assoc]

/-- A step leads from one visited id to another. -/
theorem ends_of_mem_stepsOf (h : ParentsEarlier [] visits) {e : Edge} (he : e ∈ stepsOf visits) :
    e.1 ∈ visits.map (·.vertex) ∧ e.2 ∈ visits.map (·.vertex) := by
  have member := mem_stepsOf.1 he
  refine ⟨?_, List.mem_map.2 ⟨_, member, rfl⟩⟩
  obtain ⟨before, after, rfl⟩ := List.append_of_mem member
  have named := (append_iff.1 h).2.1 e.1 rfl
  rw [List.map_append]
  exact List.mem_append_left _ (by simpa using named)

/-- The id that a step comes from stands before the one that it leads to. -/
theorem idxOf_lt (h : ParentsEarlier [] visits) (nodup : (visits.map (·.vertex)).Nodup) {e : Edge}
    (he : e ∈ stepsOf visits) : (visits.map (·.vertex)).idxOf e.1 < (visits.map (·.vertex)).idxOf e.2 := by
  obtain ⟨before, after, rfl⟩ := List.append_of_mem (mem_stepsOf.1 he)
  have named : e.1 ∈ before.map (·.vertex) := by simpa using (append_iff.1 h).2.1 e.1 rfl
  rw [List.map_append, List.map_cons] at nodup ⊢
  have fresh : e.2 ∉ before.map (·.vertex) := fun old =>
    (List.nodup_append.1 nodup).2.2 _ old _ List.mem_cons_self rfl
  rw [List.idxOf_append_of_mem named, List.idxOf_append_of_notMem fresh]
  have place := List.idxOf_lt_length_iff.2 named
  omega

/-- The steps of visits to different ids form a forest. -/
theorem isForest_stepsOf (h : ParentsEarlier [] visits) (nodup : (visits.map (·.vertex)).Nodup) :
    IsForest (stepsOf visits) := by
  induction visits using List.reverseRecOn with
  | nil => exact .nil
  | append_singleton visits visit ih =>
    obtain ⟨earlier, last⟩ := append_iff.1 h
    rw [List.map_append, List.map_singleton] at nodup
    obtain ⟨nodup, _, apart⟩ := List.nodup_append.1 nodup
    have forest := ih earlier nodup
    rw [stepsOf_append]
    obtain ⟨v, parent⟩ := visit
    cases parent with
    | none => simpa [stepsOf] using forest
    | some p =>
      have named : p ∈ visits.map (·.vertex) := by simpa using last.1 p rfl
      -- no way along the steps so far leaves what was visited so far
      refine forest.concat (e := (p, v)) fun joined => ?_
      have old := Joined.closed (P := (· ∈ visits.map (·.vertex))) (fun _ => earlier.ends_of_mem_stepsOf) joined
        named
      exact apart v old v List.mem_cons_self rfl

end ParentsEarlier

namespace Rows

theorem parentsEarlier_walkFrom (r : Rows) (f : Frontier) (met : List Nat) (waiting : List Visit) :
    ∀ done : List Nat, (∀ visit ∈ waiting, ∀ p ∈ visit.parent, p ∈ done) →
      ParentsEarlier done (r.walkFrom f met waiting) := by
  induction met, waiting using walkFrom.induct r f with
  | case1 met =>
    intro _ _
    rw [walkFrom_nil]
    trivial
  | case2 met visit waiting new ih =>
    intro done named
    rw [walkFrom_cons]
    refine ⟨named visit List.mem_cons_self, ih _ fun later member p hp => ?_⟩
    rw [(f.extend_perm _ _).mem_iff, List.mem_append] at member
    rcases member with old | joins
    · exact List.mem_append_left _ (named later (List.mem_cons_of_mem visit old) p hp)
    · rw [(mem_namedBy.1 joins).2] at hp
      obtain rfl := Option.some.inj hp
      exact List.mem_append_right done List.mem_cons_self

theorem parentsEarlier_forest (r : Rows) (roots : List Nat) : ParentsEarlier [] (r.forest roots) := by
  have fold : ∀ visits, ParentsEarlier [] visits → ParentsEarlier [] (roots.foldl r.plant visits) := by
    induction roots with
    | nil => exact fun _ h => h
    | cons root roots ih =>
      intro visits h
      apply ih
      simp only [plant]
      split
      · exact h
      · refine ParentsEarlier.append_iff.2 ⟨h, r.parentsEarlier_walkFrom .queue _ _ _ fun start member p hp => ?_⟩
        obtain rfl := List.mem_singleton.1 member
        cases hp
  exact fold [] trivial

end Rows
end CliqueTree
