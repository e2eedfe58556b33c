import CliqueTree.Proofs.Forest
import CliqueTree.Proofs.Table.Neighbours
import CliqueTree.Table.Cover
import Mathlib.Data.List.Perm.Subperm

/-!
# What walks meet

A walk visits every id once (`walkFrom_perm`), and what it visits is closed: a row that it has read names only
ids that it has met (`walkFrom_closed`). The step by which an id was met leads to it from an id that was met
before, so the steps of a walk join all that it meets to where it started (`walkFrom_joined`). On symmetric
rows a forest of walks keeps apart what is not linked, and its steps join every two linked ids (`Planted`). An
order that covers the ids of symmetric rows therefore holds each of them once, whether one walk was enough or
not (`cover_perm`).
-/

set_option autoImplicit false

namespace CliqueTree

/-- The steps by which ids were met, from the vertex whose row named them. -/
def stepsOf (visits : List Visit) : List Edge :=
  visits.filterMap fun visit => visit.parent.map (·, visit.vertex)

theorem mem_stepsOf {visits : List Visit} {e : Edge} : e ∈ stepsOf visits ↔ ⟨e.2, some e.1⟩ ∈ visits := by
  rw [stepsOf, List.mem_filterMap]
  constructor
  · rintro ⟨⟨v, parent⟩, member, named⟩
    obtain ⟨p, rfl, rfl⟩ := Option.map_eq_some_iff.1 named
    exact member
  · intro member
    exact ⟨_, member, rfl⟩

theorem stepsOf_append (visits visits' : List Visit) :
    stepsOf (visits ++ visits') = stepsOf visits ++ stepsOf visits' := List.filterMap_append

theorem stepsOf_subset {visits visits' : List Visit} (sub : visits ⊆ visits') :
    stepsOf visits ⊆ stepsOf visits' :=
  fun _ he => mem_stepsOf.2 (sub (mem_stepsOf.1 he))

theorem Frontier.extend_perm {α : Type} (f : Frontier) (waiting new : List α) :
    (f.extend waiting new).Perm (waiting ++ new) := by
  cases f with
  | queue => exact .refl _
  | stack => exact ((List.reverse_perm new).append_right waiting).trans List.perm_append_comm

namespace Rows

section Walk
variable {r : Rows} {f : Frontier} {met : List Nat} {waiting : List Visit}

/-- The visits to the ids that the row of a visited vertex names first. -/
def namedBy (r : Rows) (met : List Nat) (v : Nat) : List Visit := (r.unmet met v).map (⟨·, some v⟩)

theorem mem_namedBy {v : Nat} {visit : Visit} :
    visit ∈ r.namedBy met v ↔ (visit.vertex ∈ r.get v ∧ visit.vertex ∉ met) ∧ visit.parent = some v := by
  obtain ⟨x, parent⟩ := visit
  simp only [namedBy, List.mem_map, Visit.mk.injEq, ← mem_unmet]
  constructor
  · rintro ⟨x', hx, rfl, rfl⟩
    exact ⟨hx, rfl⟩
  · rintro ⟨hx, rfl⟩
    exact ⟨x, hx, rfl, rfl⟩

theorem map_vertex_namedBy (r : Rows) (met : List Nat) (v : Nat) :
    (r.namedBy met v).map (·.vertex) = r.unmet met v := by
  rw [namedBy, List.map_map]
  exact List.map_id _

theorem walkFrom_nil (r : Rows) (f : Frontier) (met : List Nat) : r.walkFrom f met [] = [] := by
  rw [walkFrom]

theorem walkFrom_cons (r : Rows) (f : Frontier) (met : List Nat) (visit : Visit) (waiting : List Visit) :
    r.walkFrom f met (visit :: waiting) = visit :: r.walkFrom f (met ++ r.unmet met visit.vertex)
      (f.extend waiting (r.namedBy met visit.vertex)) := by
  rw [walkFrom]
  rfl

/-- A walk visits what waits at first, and each id that it meets on the way once. -/
theorem walkFrom_perm (r : Rows) (f : Frontier) (met : List Nat) (waiting : List Visit) :
    ∃ fresh : List Visit, (r.walkFrom f met waiting).Perm (waiting ++ fresh) ∧ (fresh.map (·.vertex)).Nodup ∧
      ∀ visit ∈ fresh, visit.vertex ∉ met ∧ ∃ v, visit.vertex ∈ r.get v := by
  induction met, waiting using walkFrom.induct r f with
  | case1 met => exact ⟨[], by simp [walkFrom_nil]⟩
  | case2 met visit waiting new ih =>
    obtain ⟨fresh, perm, nodup, apart⟩ := ih
    rw [walkFrom_cons]
    refine ⟨r.namedBy met visit.vertex ++ fresh, ?_, ?_, ?_⟩
    · rw [List.cons_append, ← List.append_assoc]
      exact (perm.trans ((f.extend_perm _ _).append_right fresh)).cons visit
    · rw [List.map_append, map_vertex_namedBy]
      refine List.nodup_append.2 ⟨r.nodup_unmet met _, nodup, ?_⟩
      rintro x hx _ hy rfl
      obtain ⟨later, member, rfl⟩ := List.mem_map.1 hy
      exact (apart later member).1 (List.mem_append_right met hx)
    · intro later member
      rcases List.mem_append.1 member with named | member
      · obtain ⟨⟨named, fresh⟩, _⟩ := mem_namedBy.1 named
        exact ⟨fresh, _, named⟩
      · obtain ⟨fresh, named⟩ := apart later member
        exact ⟨fun old => fresh (List.mem_append_left _ old), named⟩

theorem waiting_subset_walkFrom (r : Rows) (f : Frontier) (met : List Nat) (waiting : List Visit) :
    waiting ⊆ r.walkFrom f met waiting := by
  obtain ⟨fresh, perm, _⟩ := r.walkFrom_perm f met waiting
  exact fun visit hv => perm.mem_iff.2 (List.mem_append_left fresh hv)

/-- What joins the frontier is visited. -/
theorem extend_subset_walkFrom {new : List Visit} {visit : Visit} (h : visit ∈ waiting ∨ visit ∈ new) :
    visit ∈ r.walkFrom f met (f.extend waiting new) := by
  apply waiting_subset_walkFrom
  rwa [(f.extend_perm waiting new).mem_iff, List.mem_append]

/-- What a row names has been met when the row has been read. -/
theorem walkFrom_closed (r : Rows) (f : Frontier) (met : List Nat) (waiting : List Visit) :
    ∀ visit ∈ r.walkFrom f met waiting, ∀ x ∈ r.get visit.vertex,
      x ∈ met ∨ x ∈ (r.walkFrom f met waiting).map (·.vertex) := by
  induction met, waiting using walkFrom.induct r f with
  | case1 met => simp [walkFrom_nil]
  | case2 met visit waiting new ih =>
    rw [walkFrom_cons]
    have named : ∀ x ∈ r.get visit.vertex, x ∉ met → x ∈ (r.walkFrom f (met ++ r.unmet met visit.vertex)
        (f.extend waiting (r.namedBy met visit.vertex))).map (·.vertex) := by
      intro x hx fresh
      have joins : ⟨x, some visit.vertex⟩ ∈ r.namedBy met visit.vertex := mem_namedBy.2 ⟨⟨hx, fresh⟩, rfl⟩
      exact List.mem_map.2 ⟨_, extend_subset_walkFrom (.inr joins), rfl⟩
    intro w hw x hx
    rw [List.map_cons]
    by_cases old : x ∈ met
    · exact .inl old
    · refine .inr (List.mem_cons_of_mem _ ?_)
      rcases List.mem_cons.1 hw with rfl | hw
      · exact named x hx old
      · rcases ih w hw x hx with old' | found
        · have new := (List.mem_append.1 old').resolve_left old
          exact named x (mem_unmet.1 new).1 old
        · exact found

/-- A step leads from a visited vertex to an entry of its row. -/
theorem walkFrom_steps (r : Rows) (f : Frontier) (met : List Nat) (waiting : List Visit) :
    ∀ e ∈ stepsOf (r.walkFrom f met waiting), e ∈ stepsOf waiting ∨
      e.1 ∈ (r.walkFrom f met waiting).map (·.vertex) ∧ e.2 ∈ r.get e.1 := by
  induction met, waiting using walkFrom.induct r f with
  | case1 met => simp [walkFrom_nil, stepsOf]
  | case2 met visit waiting new ih =>
    rw [walkFrom_cons]
    intro e he
    simp only [mem_stepsOf] at he ih ⊢
    rcases List.mem_cons.1 he with same | he
    · exact .inl (by rw [same]; exact List.mem_cons_self)
    · rcases ih e he with joins | ⟨first, second⟩
      · rw [(f.extend_perm _ _).mem_iff, List.mem_append] at joins
        rcases joins with old | joins
        · exact .inl (List.mem_cons_of_mem visit old)
        · obtain ⟨⟨named, _⟩, parent⟩ := mem_namedBy.1 joins
          have here : e.1 = visit.vertex := Option.some.inj parent
          rw [here]
          exact .inr ⟨List.mem_cons_self, named⟩
      · exact .inr ⟨List.mem_cons_of_mem _ first, second⟩

/-- A walk does not leave a set of ids that its rows do not leave. -/
theorem walkFrom_stays {P : Nat → Prop} (stays : ∀ v, P v → ∀ x ∈ r.get v, P x) (f : Frontier) (met : List Nat)
    (waiting : List Visit) (start : ∀ visit ∈ waiting, P visit.vertex) :
    ∀ visit ∈ r.walkFrom f met waiting, P visit.vertex := by
  induction met, waiting using walkFrom.induct r f with
  | case1 met => simp [walkFrom_nil]
  | case2 met visit waiting new ih =>
    have here := start visit List.mem_cons_self
    rw [walkFrom_cons]
    refine List.forall_mem_cons.2 ⟨here, ih fun later hl => ?_⟩
    rcases List.mem_append.1 ((f.extend_perm _ _).mem_iff.1 hl) with old | named
    · exact start later (List.mem_cons_of_mem visit old)
    · exact stays _ here _ (mem_namedBy.1 named).1.1

/-- The steps of a walk join each visit to one that waited at first. -/
theorem walkFrom_joined (r : Rows) (f : Frontier) (met : List Nat) (waiting : List Visit) :
    ∀ visit ∈ r.walkFrom f met waiting, ∃ start ∈ waiting,
      Joined (stepsOf (r.walkFrom f met waiting)) start.vertex visit.vertex := by
  induction met, waiting using walkFrom.induct r f with
  | case1 met => simp [walkFrom_nil]
  | case2 met visit waiting new ih =>
    rw [walkFrom_cons]
    intro w hw
    rcases List.mem_cons.1 hw with rfl | hw
    · exact ⟨w, List.mem_cons_self, .refl _ _⟩
    · obtain ⟨start, joins, way⟩ := ih w hw
      have way := way.mono (stepsOf_subset (List.subset_cons_self visit _))
      rw [(f.extend_perm _ _).mem_iff, List.mem_append] at joins
      rcases joins with old | joins
      · exact ⟨start, List.mem_cons_of_mem visit old, way⟩
      · -- the way starts at an id that the visited row has named
        have step : (visit.vertex, start.vertex) ∈ stepsOf (visit :: r.walkFrom f
            (met ++ r.unmet met visit.vertex) (f.extend waiting (r.namedBy met visit.vertex))) := by
          refine mem_stepsOf.2 (List.mem_cons_of_mem visit (extend_subset_walkFrom (.inr ?_)))
          rw [← (mem_namedBy.1 joins).2]
          exact joins
        exact ⟨visit, List.mem_cons_self, Joined.trans (.of_mem step) way⟩

end Walk

section Planted
variable {r : Rows}

/-- Visits to whole parts of symmetric rows, each id once, with steps that join what is linked. -/
structure Planted (r : Rows) (visits : List Visit) : Prop where
  nodup : (visits.map (·.vertex)).Nodup
  inside : ∀ v ∈ visits.map (·.vertex), v < r.size
  closed : ∀ v ∈ visits.map (·.vertex), ∀ x, r.Linked v x → x ∈ visits.map (·.vertex)
  steps : ∀ e ∈ stepsOf visits, e.1 ∈ visits.map (·.vertex) ∧ r.Linked e.1 e.2
  joined : ∀ v ∈ visits.map (·.vertex), ∀ x, r.Linked v x → Joined (stepsOf visits) v x

theorem Planted.nil (r : Rows) : Planted r [] := by
  constructor <;> simp [stepsOf]

theorem mem_walk (r : Rows) (f : Frontier) (met : List Nat) (source : Nat) :
    source ∈ (r.walk f met source).map (·.vertex) :=
  List.mem_map.2 ⟨_, r.waiting_subset_walkFrom f _ _ List.mem_cons_self, rfl⟩

/-- A walk meets each id once, none that counts as met, and only ids of the rows beside its source. -/
theorem walk_nodup {met : List Nat} {source : Nat} (fresh : source ∉ met) (f : Frontier) :
    ((r.walk f met source).map (·.vertex)).Nodup ∧
      ∀ v ∈ (r.walk f met source).map (·.vertex), v ∉ met ∧ (v = source ∨ ∃ u, r.Linked u v) := by
  obtain ⟨others, perm, nodup, apart⟩ := r.walkFrom_perm f (met ++ [source]) [⟨source, none⟩]
  have perm := perm.map (·.vertex)
  rw [List.map_append, List.map_singleton, List.singleton_append] at perm
  have other : ∀ v ∈ others.map (·.vertex), v ∉ met ++ [source] ∧ ∃ u, r.Linked u v := by
    intro v hv
    obtain ⟨visit, member, rfl⟩ := List.mem_map.1 hv
    exact apart visit member
  refine ⟨perm.nodup_iff.2 (List.nodup_cons.2 ⟨fun again => ?_, nodup⟩), fun v hv => ?_⟩
  · exact (other source again).1 (List.mem_append_right met List.mem_cons_self)
  · rcases List.mem_cons.1 (perm.mem_iff.1 hv) with rfl | hv
    · exact ⟨fresh, .inl rfl⟩
    · obtain ⟨new, linked⟩ := other v hv
      exact ⟨fun old => new (List.mem_append_left _ old), .inr linked⟩

theorem nodup_breadthFirst (r : Rows) (source : Nat) : (r.breadthFirst source).Nodup :=
  (r.walk_nodup List.not_mem_nil .queue).1

/-- The steps of a walk join its source to all that it meets. -/
theorem walk_joined (r : Rows) (f : Frontier) (met : List Nat) (source : Nat) :
    ∀ v ∈ (r.walk f met source).map (·.vertex), Joined (stepsOf (r.walk f met source)) source v := by
  intro v hv
  obtain ⟨visit, member, rfl⟩ := List.mem_map.1 hv
  obtain ⟨start, only, way⟩ := r.walkFrom_joined f (met ++ [source]) [⟨source, none⟩] visit member
  obtain rfl := List.mem_singleton.1 only
  exact way

theorem walk_steps (r : Rows) (f : Frontier) (met : List Nat) (source : Nat) :
    ∀ e ∈ stepsOf (r.walk f met source), e.1 ∈ (r.walk f met source).map (·.vertex) ∧ r.Linked e.1 e.2 := by
  intro e he
  rcases r.walkFrom_steps f (met ++ [source]) [⟨source, none⟩] e he with none | step
  · simp [stepsOf] at none
  · exact step

/-- No link leads from a walk back to what counts as met, if no link leads from there to anything else. -/
theorem walk_closed (symm : r.Symmetric) {met : List Nat} (closed : ∀ v ∈ met, ∀ x, r.Linked v x → x ∈ met)
    {source : Nat} (fresh : source ∉ met) (f : Frontier) :
    ∀ v ∈ (r.walk f met source).map (·.vertex), ∀ x, r.Linked v x → x ∈ (r.walk f met source).map (·.vertex) := by
  intro v hv x link
  have apart := (r.walk_nodup fresh f).2
  have new : x ∉ met := fun old => (apart v hv).1 (closed x old v (symm _ _ link))
  obtain ⟨visit, member, rfl⟩ := List.mem_map.1 hv
  rcases r.walkFrom_closed f (met ++ [source]) [⟨source, none⟩] visit member x link with before | found
  · obtain rfl := List.mem_singleton.1 ((List.mem_append.1 before).resolve_left new)
    exact r.mem_walk f met x
  · exact found

/-- A walk from an id that was not met adds a tree. -/
theorem Planted.walk (symm : r.Symmetric) {visits : List Visit} (h : Planted r visits) {root : Nat}
    (hroot : root < r.size) (fresh : root ∉ visits.map (·.vertex)) :
    Planted r (visits ++ r.walk .queue (visits.map (·.vertex)) root) := by
  obtain ⟨nodup, apart⟩ := r.walk_nodup fresh .queue
  have stays := r.walk_closed symm h.closed fresh .queue
  have joins := r.walk_joined .queue (visits.map (·.vertex)) root
  have steps := r.walk_steps .queue (visits.map (·.vertex)) root
  generalize r.walk .queue (visits.map (·.vertex)) root = tree at *
  have mem : ∀ v, v ∈ (visits ++ tree).map (·.vertex) ↔
      v ∈ visits.map (·.vertex) ∨ v ∈ tree.map (·.vertex) := by
    intro v
    rw [List.map_append, List.mem_append]
  constructor
  · rw [List.map_append, List.nodup_append]
    exact ⟨h.nodup, nodup, fun v old w new same => (apart w new).1 (same ▸ old)⟩
  · intro v hv
    rcases (mem v).1 hv with old | new
    · exact h.inside v old
    · rcases (apart v new).2 with rfl | ⟨u, link⟩
      · exact hroot
      · exact symm.lt_size link
  · intro v hv x link
    rcases (mem v).1 hv with old | new
    · exact (mem x).2 (.inl (h.closed v old x link))
    · exact (mem x).2 (.inr (stays v new x link))
  · intro e he
    rw [stepsOf_append] at he
    rcases List.mem_append.1 he with old | new
    · obtain ⟨first, link⟩ := h.steps e old
      exact ⟨(mem e.1).2 (.inl first), link⟩
    · obtain ⟨first, link⟩ := steps e new
      exact ⟨(mem e.1).2 (.inr first), link⟩
  · intro v hv x link
    rcases (mem v).1 hv with old | new
    · exact (h.joined v old x link).mono (stepsOf_subset (List.subset_append_left visits tree))
    · have way := (joins v new).symm.trans (joins x (stays v new x link))
      exact way.mono (stepsOf_subset (List.subset_append_right visits tree))

theorem Planted.plant (symm : r.Symmetric) {visits : List Visit} (h : Planted r visits) {root : Nat}
    (hroot : root < r.size) : Planted r (r.plant visits root) := by
  simp only [Rows.plant]
  split
  · exact h
  next fresh => exact h.walk symm hroot fresh

theorem mem_plant (visits : List Visit) (root : Nat) :
    visits ⊆ r.plant visits root ∧ root ∈ (r.plant visits root).map (·.vertex) := by
  simp only [Rows.plant]
  split
  next old => exact ⟨fun _ h => h, old⟩
  next =>
    refine ⟨List.subset_append_left _ _, ?_⟩
    rw [List.map_append]
    exact List.mem_append_right _ (r.mem_walk .queue _ root)

theorem foldl_plant (symm : r.Symmetric) (roots : List Nat) {visits : List Visit} (h : Planted r visits)
    (inside : ∀ v ∈ roots, v < r.size) : Planted r (roots.foldl r.plant visits) ∧
      ∀ v, v ∈ visits.map (·.vertex) ∨ v ∈ roots → v ∈ (roots.foldl r.plant visits).map (·.vertex) := by
  induction roots generalizing visits with
  | nil => exact ⟨h, fun v hv => hv.resolve_right List.not_mem_nil⟩
  | cons root roots ih =>
    obtain ⟨kept, added⟩ := r.mem_plant visits root
    obtain ⟨planted, all⟩ := ih (h.plant symm (inside root List.mem_cons_self)) fun v hv =>
      inside v (List.mem_cons_of_mem root hv)
    refine ⟨planted, fun v hv => all v ?_⟩
    rcases hv with old | hv
    · exact .inl (List.map_subset _ kept old)
    · rcases List.mem_cons.1 hv with rfl | later
      · exact .inl added
      · exact .inr later

/-- A forest planted at every id of symmetric rows visits each id once. -/
theorem forest_spec (symm : r.Symmetric) {roots : List Nat} (all : roots.Perm (List.range r.size)) :
    Planted r (r.forest roots) ∧ ((r.forest roots).map (·.vertex)).Perm (List.range r.size) := by
  obtain ⟨planted, covers⟩ := r.foldl_plant symm roots (.nil r) fun v hv => List.mem_range.1 (all.mem_iff.1 hv)
  refine ⟨planted, (List.perm_ext_iff_of_nodup planted.nodup List.nodup_range).2 fun v => ?_⟩
  constructor
  · exact fun hv => List.mem_range.2 (planted.inside v hv)
  · exact fun hv => covers v (.inr (all.mem_iff.2 hv))

end Planted

/-- An order that covers all ids of symmetric rows lists each of them once. -/
theorem cover_perm {r : Rows} (symm : r.Symmetric) {vertices : List Nat} (all : vertices.Perm (List.range r.size))
    {disconnected : Disconnected} {order : List Nat} (h : r.cover vertices disconnected = .ok order) :
    order.Perm (List.range r.size) := by
  cases vertices with
  | nil =>
    obtain rfl := Except.ok.inj h
    exact all
  | cons first rest =>
    have small : first < r.size := List.mem_range.1 (all.mem_iff.1 List.mem_cons_self)
    have planted := (Planted.nil r).walk symm small List.not_mem_nil
    simp only [cover] at h
    split at h
    · cases disconnected with
      | reject => cases h
      | perComponent =>
        obtain rfl := Except.ok.inj h
        exact (r.forest_spec symm all).2
    next enough =>
      obtain rfl := Except.ok.inj h
      have inside : r.breadthFirst first ⊆ List.range r.size := fun v hv =>
        List.mem_range.2 (planted.inside v hv)
      rw [all.length_eq] at enough
      exact (List.subperm_of_subset planted.nodup inside).perm_of_length_le (Nat.le_of_not_lt enough)

end Rows
end CliqueTree
