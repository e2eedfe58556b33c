import CliqueTree.Proofs.Distance
import CliqueTree.Proofs.FirstOccurrence
import CliqueTree.Proofs.Table.Walk

/-!
# The order of a breadth-first walk

New ids join at the back of a queue. So a breadth-first walk visits, behind what waits at first, what the visited rows
name in turn (`walkFrom_queue`): visits stand in the order of their parents (`pairwise_parents`), and the parent of a
visit is the earliest visited id that names it (`parent_earliest`). A shortest way to an id comes from an id that names
it, so the parent is no further away than that one, and the distance from the source never decreases along the walk
(`distance_ascends`).

A forest of breadth-first walks starts at the first root of each part (`Starts`). A walk does not notice the parts that
were visited before, so the forest is the walks one after the other.
-/

set_option autoImplicit false

namespace CliqueTree
open Relation (ReflTransGen)

/-! ### Places -/

/-- In an ascending list, what is less comes first. -/
theorem of_pairwise_of_lt {α : Type} {R : α → α → Prop} {g : α → Nat} {l : List α}
    (ordered : l.Pairwise fun a b => g a < g b ∧ R a b) {a b : α} (ha : a ∈ l) (hb : b ∈ l) (less : g a < g b) :
    R a b := by
  induction ordered with
  | nil => simp at ha
  | cons first _ ih =>
    rcases List.mem_cons.1 ha with rfl | later <;> rcases List.mem_cons.1 hb with rfl | later'
    · exact absurd less (Nat.lt_irrefl _)
    · exact (first b later').2
    · exact absurd less (Nat.lt_asymm (first a later).1)
    · exact ih later later'

namespace Rows
variable {r : Rows} {f : Frontier} {met vs : List Nat} {source v : Nat}

/-! ### What a walk meets -/

/-- A walk meets what its source reaches and nothing else. -/
theorem mem_walk_iff (r : Rows) (f : Frontier) (source : Nat) :
    v ∈ (r.walk f [] source).map (·.vertex) ↔ ReflTransGen r.Linked source v := by
  have closed : ∀ v ∈ (r.walk f [] source).map (·.vertex), ∀ x, r.Linked v x →
      x ∈ (r.walk f [] source).map (·.vertex) := by
    intro v hv x link
    obtain ⟨visit, member, rfl⟩ := List.mem_map.1 hv
    rcases r.walkFrom_closed f _ _ visit member x link with start | found
    · rw [List.mem_singleton.1 start]
      exact r.mem_walk f [] source
    · exact found
  constructor
  · intro hv
    obtain ⟨visit, member, rfl⟩ := List.mem_map.1 hv
    refine walkFrom_stays (P := ReflTransGen r.Linked source) (fun v reach x => reach.tail) f _ _ ?_ visit member
    exact List.forall_mem_singleton.2 .refl
  · intro reach
    induction reach with
    | refl => exact r.mem_walk f [] source
    | tail _ link ih => exact closed _ ih _ link

theorem mem_breadthFirst_iff : v ∈ r.breadthFirst source ↔ ReflTransGen r.Linked source v :=
  r.mem_walk_iff .queue source

/-- A walk in a part that its rows do not leave depends on what counts as met there only. -/
theorem walkFrom_congr {P : Nat → Prop} (stays : ∀ v, P v → ∀ x ∈ r.get v, P x) {waiting : List Visit}
    (start : ∀ visit ∈ waiting, P visit.vertex) :
    ∀ met', (∀ x, P x → (x ∈ met ↔ x ∈ met')) → r.walkFrom f met waiting = r.walkFrom f met' waiting := by
  induction met, waiting using walkFrom.induct r f with
  | case1 met =>
    intro met' _
    rw [walkFrom_nil, walkFrom_nil]
  | case2 met visit waiting new ih =>
    intro met' same
    have here := start visit List.mem_cons_self
    have unmet : r.unmet met visit.vertex = r.unmet met' visit.vertex := by
      refine List.filter_congr fun x hx => ?_
      rw [decide_eq_decide, same x (stays _ here x (mem_distinct.1 hx))]
    have named : r.namedBy met visit.vertex = r.namedBy met' visit.vertex := by rw [namedBy, namedBy, unmet]
    rw [walkFrom_cons, walkFrom_cons, ← unmet, ← named]
    refine congrArg (visit :: ·) (ih (fun later hl => ?_) _ fun x hx => ?_)
    · rcases List.mem_append.1 ((f.extend_perm _ _).mem_iff.1 hl) with old | joins
      · exact start later (List.mem_cons_of_mem visit old)
      · exact stays _ here _ (mem_namedBy.1 joins).1.1
    · rw [List.mem_append, List.mem_append, same x hx]

/-! ### Visits in turn -/

/-- The visits to what the rows of a list of ids name that was not met before, row by row. -/
def namedInTurn (r : Rows) (met : List Nat) : List Nat → List Visit
  | [] => []
  | v :: vs => r.namedBy met v ++ r.namedInTurn (met ++ r.unmet met v) vs

/-- Behind what waits at first, a breadth-first walk visits what the rows of its visits name in turn. -/
theorem walkFrom_queue (r : Rows) (met : List Nat) (waiting : List Visit) : r.walkFrom .queue met waiting =
    waiting ++ r.namedInTurn met ((r.walkFrom .queue met waiting).map (·.vertex)) := by
  induction met, waiting using walkFrom.induct r .queue with
  | case1 met => rw [walkFrom_nil, List.map_nil, namedInTurn, List.nil_append]
  | case2 met visit waiting new ih =>
    rw [walkFrom_cons, List.map_cons, namedInTurn, List.cons_append, ← List.append_assoc]
    exact congrArg (visit :: ·) ih

theorem walk_queue (r : Rows) (met : List Nat) (source : Nat) : r.walk .queue met source =
    ⟨source, none⟩ :: r.namedInTurn (met ++ [source]) ((r.walk .queue met source).map (·.vertex)) :=
  r.walkFrom_queue (met ++ [source]) [⟨source, none⟩]

theorem of_mem_namedInTurn {visit : Visit} (h : visit ∈ r.namedInTurn met vs) :
    visit.vertex ∉ met ∧ ∃ p ∈ vs, visit.parent = some p ∧ visit.vertex ∈ r.get p := by
  induction vs generalizing met with
  | nil => simp [namedInTurn] at h
  | cons v vs ih =>
    rcases List.mem_append.1 h with named | later
    · obtain ⟨⟨entry, fresh⟩, parent⟩ := mem_namedBy.1 named
      exact ⟨fresh, v, List.mem_cons_self, parent, entry⟩
    · obtain ⟨fresh, p, hp, spec⟩ := ih later
      exact ⟨fun old => fresh (List.mem_append_left _ old), p, List.mem_cons_of_mem v hp, spec⟩

/-- Visits by one row stand in the order of the first entries that name them. -/
theorem pairwise_namedBy (r : Rows) (met : List Nat) (v : Nat) :
    (r.namedBy met v).Pairwise fun a b => (r.get v).idxOf a.vertex < (r.get v).idxOf b.vertex :=
  List.pairwise_map.2 ((pairwise_idxOf_distinct (r.get v)).filter _)

/-- Visits in turn stand in the order of their parents, and those with one parent in the order of its row. -/
theorem pairwise_places {R : Nat → Nat → Prop} (ordered : vs.Pairwise R) :
    (r.namedInTurn met vs).Pairwise fun a b => ∀ p ∈ a.parent, ∀ q ∈ b.parent,
      p = q ∧ (r.get p).idxOf a.vertex < (r.get p).idxOf b.vertex ∨ R p q := by
  induction vs generalizing met with
  | nil => exact .nil
  | cons v vs ih =>
    obtain ⟨first, ordered⟩ := List.pairwise_cons.1 ordered
    have parent : ∀ a ∈ r.namedBy met v, ∀ p ∈ a.parent, v = p := by
      intro a ha p hp
      rw [(mem_namedBy.1 ha).2] at hp
      exact Option.some.inj hp
    refine List.pairwise_append.2 ⟨(pairwise_namedBy r met v).imp_of_mem fun ha hb less p hp q hq => ?_, ih ordered, ?_⟩
    · obtain rfl := parent _ ha p hp
      exact .inl ⟨parent _ hb q hq, less⟩
    · intro a ha b hb p hp q hq
      obtain ⟨_, q', member, named, _⟩ := of_mem_namedInTurn hb
      rw [named] at hq
      obtain rfl := Option.some.inj hq
      exact .inr (parent a ha p hp ▸ first q' member)

theorem pairwise_parents {R : Nat → Nat → Prop} (ordered : vs.Pairwise R) :
    (r.namedInTurn met vs).Pairwise fun a b => ∀ p ∈ a.parent, ∀ q ∈ b.parent, p = q ∨ R p q :=
  (pairwise_places ordered).imp fun places p hp q hq => (places p hp q hq).imp_left And.left

/-- No row before that of the parent names the visited id. -/
theorem parent_earliest {p : Nat} (h : ⟨v, some p⟩ ∈ r.namedInTurn met vs) :
    ∃ before after, vs = before ++ p :: after ∧ ∀ q ∈ before, v ∉ r.get q := by
  induction vs generalizing met with
  | nil => simp [namedInTurn] at h
  | cons w vs ih =>
    by_cases here : ⟨v, some p⟩ ∈ r.namedBy met w
    · obtain rfl := Option.some.inj (mem_namedBy.1 here).2
      exact ⟨[], vs, rfl, by simp⟩
    · have later := (List.mem_append.1 h).resolve_left here
      obtain ⟨fresh, _⟩ := of_mem_namedInTurn later
      obtain ⟨before, after, rfl, none⟩ := ih later
      refine ⟨w :: before, after, rfl, List.forall_mem_cons.2 ⟨fun entry => ?_, none⟩⟩
      have old : v ∉ met := fun old => fresh (List.mem_append_left _ old)
      exact fresh (List.mem_append_right met (mem_unmet.2 ⟨entry, old⟩))

/-! ### Distances -/

section Search
variable {u p q : Nat}

/-- The visits behind the source. -/
def visitsBehind (r : Rows) (source : Nat) : List Visit := r.namedInTurn [source] (r.breadthFirst source)

theorem breadthFirst_eq (r : Rows) (source : Nat) :
    r.breadthFirst source = source :: (r.visitsBehind source).map (·.vertex) := by
  rw [breadthFirst, walk_queue, List.map_cons]
  rfl

theorem idxOf_source (r : Rows) (source : Nat) : (r.breadthFirst source).idxOf source = 0 := by
  rw [breadthFirst_eq, List.idxOf_cons_self]

/-- Whatever is met behind the source has a parent, whose row names it. -/
theorem exists_parent (hv : v ∈ r.breadthFirst source) (ne : v ≠ source) :
    ∃ p ∈ r.breadthFirst source, ⟨v, some p⟩ ∈ r.visitsBehind source ∧ r.Linked p v := by
  rw [breadthFirst_eq] at hv
  obtain ⟨⟨v', parent⟩, member, rfl⟩ := List.mem_map.1 ((List.mem_cons.1 hv).resolve_left ne)
  obtain ⟨_, p, hp, named, link⟩ := of_mem_namedInTurn member
  exact ⟨p, hp, named ▸ member, link⟩

/-- Of two visits the later one does not have the earlier parent. -/
theorem parents_ascend (hu : ⟨u, some p⟩ ∈ r.visitsBehind source) (hv : ⟨v, some q⟩ ∈ r.visitsBehind source)
    (less : (r.breadthFirst source).idxOf u < (r.breadthFirst source).idxOf v) :
    (r.breadthFirst source).idxOf p ≤ (r.breadthFirst source).idxOf q := by
  have places := pairwise_idxOf (r.nodup_breadthFirst source)
  have parents : (r.visitsBehind source).Pairwise fun a b => ∀ p ∈ a.parent, ∀ q ∈ b.parent,
      p = q ∨ (r.breadthFirst source).idxOf p < (r.breadthFirst source).idxOf q := pairwise_parents places
  have behind : (r.visitsBehind source).Pairwise fun a b =>
      (r.breadthFirst source).idxOf a.vertex < (r.breadthFirst source).idxOf b.vertex := by
    have part : ((r.visitsBehind source).map (·.vertex)).Sublist (r.breadthFirst source) := by
      conv => rhs; rw [breadthFirst_eq]
      exact List.sublist_cons_self _ _
    have kept := places.sublist part
    rwa [List.pairwise_map] at kept
  have ordered := behind.and parents
  rcases of_pairwise_of_lt ordered hu hv less p rfl q rfl with rfl | less
  · exact Nat.le_refl _
  · exact Nat.le_of_lt less

/-- No visited row that names an id stands before that of its parent. -/
theorem parent_le (hv : ⟨v, some p⟩ ∈ r.visitsBehind source) (link : r.Linked q v) :
    (r.breadthFirst source).idxOf p ≤ (r.breadthFirst source).idxOf q := by
  obtain ⟨before, after, split, none⟩ := parent_earliest hv
  obtain ⟨_, p', _, named, entry⟩ := of_mem_namedInTurn hv
  obtain rfl := Option.some.inj named
  have first : p ∉ before := fun hp => none p hp entry
  have later : q ∉ before := fun hq => none q hq link
  rw [show r.breadthFirst source = _ from split, List.idxOf_append_of_notMem first,
    List.idxOf_append_of_notMem later, List.idxOf_cons_self]
  omega

/-- What is met earlier is no further away. -/
theorem distance_le_of_idxOf_le (hu : u ∈ r.breadthFirst source) (hv : v ∈ r.breadthFirst source)
    (le : (r.breadthFirst source).idxOf u ≤ (r.breadthFirst source).idxOf v) :
    distance r.Linked source u ≤ distance r.Linked source v := by
  generalize far : distance r.Linked source v = d
  -- the induction is on the distance of the later one
  induction d using Nat.strongRecOn generalizing u v with
  | ind d ih =>
    by_cases start : u = source
    · rw [start, distance_self]
      exact Nat.zero_le d
    by_cases same : u = v
    · exact (same ▸ far).le
    have less : (r.breadthFirst source).idxOf u < (r.breadthFirst source).idxOf v :=
      Nat.lt_of_le_of_ne le fun equal => same ((List.idxOf_inj hu).1 equal)
    have behind : v ≠ source := by
      rintro rfl
      rw [idxOf_source] at less
      exact Nat.not_lt_zero _ less
    obtain ⟨q, reach, link, nearer⟩ := exists_nearer (mem_breadthFirst_iff.1 hv) behind
    have hq : q ∈ r.breadthFirst source := mem_breadthFirst_iff.2 reach
    obtain ⟨p, hp, visit, link'⟩ := exists_parent hu start
    obtain ⟨p', _, visit', _⟩ := exists_parent hv behind
    have between := (parents_ascend visit visit' less).trans (parent_le visit' link)
    have near := ih (distance r.Linked source q) (by omega) hp hq between rfl
    have step := distance_le_succ (mem_breadthFirst_iff.1 hp) link'
    omega

/-- The distance from the source never decreases along a breadth-first walk. -/
theorem distance_ascends (r : Rows) (source : Nat) : (r.breadthFirst source).Pairwise fun u v =>
    distance r.Linked source u ≤ distance r.Linked source v :=
  (pairwise_idxOf (r.nodup_breadthFirst source)).imp_of_mem fun hu hv less =>
    distance_le_of_idxOf_le hu hv (Nat.le_of_lt less)

end Search

/-! ### Forests -/

/-- The roots at which a forest starts a walk: of each part the first one. -/
structure Starts (r : Rows) (roots starts : List Nat) : Prop where
  sublist : starts.Sublist roots
  apart : starts.Pairwise fun s s' => ¬ ReflTransGen r.Linked s s'
  first : ∀ before root after, roots = before ++ root :: after →
    ∃ s ∈ starts, ReflTransGen r.Linked s root ∧ (s = root ∨ s ∈ before)

section Forest
variable {roots starts : List Nat} {root : Nat}

theorem Starts.nil (r : Rows) : Starts r [] [] := ⟨.refl _, .nil, fun before root after split => by simp at split⟩

/-- A root more is in one of the parts, or it is the first one of its own. -/
theorem Starts.concat (h : Starts r roots starts) {starts' : List Nat} (sub : starts'.Sublist (roots ++ [root]))
    (more : starts ⊆ starts') (apart : starts'.Pairwise fun s s' => ¬ ReflTransGen r.Linked s s')
    (covered : ∃ s ∈ starts', ReflTransGen r.Linked s root ∧ (s = root ∨ s ∈ roots)) :
    Starts r (roots ++ [root]) starts' where
  sublist := sub
  apart := apart
  first before root' after split := by
    rcases List.eq_nil_or_concat after with rfl | ⟨between, last, rfl⟩
    · obtain ⟨rfl, same⟩ := List.append_inj' split rfl
      cases same
      exact covered
    · rw [List.concat_eq_append, ← List.cons_append, ← List.append_assoc] at split
      obtain ⟨rfl, _⟩ := List.append_inj' split rfl
      obtain ⟨s, hs, spec⟩ := h.first before root' between rfl
      exact ⟨s, more hs, spec⟩

/-- A walk does not notice what was visited of other parts. -/
theorem walk_eq_of_apart (f : Frontier) (apart : ∀ x ∈ met, ¬ ReflTransGen r.Linked root x) :
    r.walk f met root = r.walk f [] root := by
  refine walkFrom_congr (P := ReflTransGen r.Linked root) (fun v reach x => reach.tail) ?_ _ fun x reach => ?_
  · exact List.forall_mem_singleton.2 .refl
  · rw [List.mem_append, List.nil_append]
    exact or_iff_right fun old => apart x old reach

/-- A forest on symmetric rows is walks from the first root of each part, one after the other. -/
theorem exists_starts (symm : r.Symmetric) (roots : List Nat) :
    ∃ starts, Starts r roots starts ∧ r.forest roots = starts.flatMap fun s => r.walk .queue [] s := by
  induction roots using List.reverseRecOn with
  | nil => exact ⟨[], .nil r, rfl⟩
  | append_singleton roots root ih =>
    obtain ⟨starts, h, visits⟩ := ih
    have visited : ∀ x, x ∈ (r.forest roots).map (·.vertex) ↔ ∃ s ∈ starts, ReflTransGen r.Linked s x := by
      intro x
      rw [visits, List.map_flatMap, List.mem_flatMap]
      simp only [mem_walk_iff]
    have grown : r.forest (roots ++ [root]) = r.plant (r.forest roots) root := List.foldl_concat _ _ _ _
    rw [grown, plant]
    by_cases old : root ∈ (r.forest roots).map (·.vertex)
    · rw [if_pos old]
      obtain ⟨s, hs, reach⟩ := (visited root).1 old
      refine ⟨starts, h.concat (h.sublist.trans (List.sublist_append_left _ _)) (fun _ => id) h.apart ?_, visits⟩
      exact ⟨s, hs, reach, .inr (h.sublist.subset hs)⟩
    · rw [if_neg old]
      have := symm.toSymm
      have away : ∀ x ∈ (r.forest roots).map (·.vertex), ¬ ReflTransGen r.Linked root x := by
        intro x hx reach
        obtain ⟨s, hs, way⟩ := (visited x).1 hx
        exact old ((visited root).2 ⟨s, hs, way.trans (Std.Symm.symm _ _ reach)⟩)
      refine ⟨starts ++ [root], h.concat (h.sublist.append_right _) (List.subset_append_left _ _) ?_ ?_, ?_⟩
      · refine List.pairwise_append.2 ⟨h.apart, List.pairwise_singleton _ _, fun s hs s' hs' reach => ?_⟩
        rw [List.mem_singleton.1 hs'] at reach
        exact old ((visited root).2 ⟨s, hs, reach⟩)
      · exact ⟨root, by simp, .refl, .inl rfl⟩
      · rw [walk_eq_of_apart .queue away, List.flatMap_append, ← visits, List.flatMap_singleton]

/-- A walk meets its start and what comes behind its start among the roots. -/
theorem Starts.of_reach (symm : r.Symmetric) (h : Starts r roots starts) {R : Nat → Nat → Prop}
    (ordered : roots.Pairwise R) {s : Nat} (hs : s ∈ starts) (reach : ReflTransGen r.Linked s v) (hv : v ∈ roots) :
    s = v ∨ R s v := by
  have := symm.toSymm
  obtain ⟨before, after, rfl⟩ := List.append_of_mem hv
  obtain ⟨s', hs', reach', place⟩ := h.first before v after rfl
  have both : Std.Symm fun s s' => ¬ ReflTransGen r.Linked s s' := ⟨fun s s' away way => away (Std.Symm.symm _ _ way)⟩
  have same : s' = s := by
    by_contra ne
    exact h.apart.forall hs' hs ne (reach'.trans (Std.Symm.symm _ _ reach))
  subst same
  exact place.imp_right fun earlier => (List.pairwise_append.1 ordered).2.2 s' earlier v List.mem_cons_self

/-- The steps of a walk lead to what it meets behind its source. -/
theorem map_snd_stepsOf_walk (r : Rows) (s : Nat) :
    (stepsOf (r.walk .queue [] s)).map (·.2) = (r.visitsBehind s).map (·.vertex) := by
  have behind : stepsOf (r.walk .queue [] s) = stepsOf (r.visitsBehind s) := by
    rw [walk_queue, stepsOf, List.filterMap_cons_none rfl]
    rfl
  rw [behind, stepsOf, List.map_filterMap, ← List.filterMap_eq_map]
  refine List.filterMap_congr fun visit member => ?_
  obtain ⟨_, p, _, named, _⟩ := of_mem_namedInTurn member
  rw [named]
  rfl

/-- Visits of a forest, too, stand in the order of their parents. -/
theorem parents_ascend_forest (symm : r.Symmetric) {R : Nat → Nat → Prop}
    (ordered : ((r.forest roots).map (·.vertex)).Pairwise R) :
    (r.forest roots).Pairwise fun a b => ∀ p ∈ a.parent, ∀ q ∈ b.parent, p = q ∨ R p q := by
  obtain ⟨starts, _, visits⟩ := exists_starts symm roots
  rw [visits, List.map_flatMap, List.pairwise_flatMap] at ordered
  rw [visits, List.pairwise_flatMap]
  have inside : ∀ s, ∀ visit ∈ r.walk .queue [] s, ∀ p ∈ visit.parent, p ∈ (r.walk .queue [] s).map (·.vertex) := by
    intro s visit member p parent
    have step : (p, visit.vertex) ∈ stepsOf (r.walk .queue [] s) := by
      rw [mem_stepsOf, ← Option.mem_def.1 parent]
      exact member
    exact (r.walk_steps .queue [] s _ step).1
  refine ⟨fun s hs => ?_, ordered.2.imp fun apart a ha b hb p hp q hq => ?_⟩
  · rw [walk_queue, List.pairwise_cons]
    exact ⟨fun _ _ p none => (Option.not_mem_none p none).elim, pairwise_parents (ordered.1 s hs)⟩
  · exact .inr (apart p (inside _ a ha p hp) q (inside _ b hb q hq))

end Forest
end Rows
end CliqueTree
