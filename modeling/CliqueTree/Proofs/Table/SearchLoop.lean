import CliqueTree.Proofs.Table.BreadthFirst
import Mathlib.Data.Finset.Basic
import Mathlib.Data.Prod.Lex

/-!
# Breadth-first search as a loop

A search keeps a queue of ids that wait, a set of ids that are marked and a list of those that have left the queue. An
id is marked when it joins the queue, so it joins once, whatever the row is that names it again. The loop takes the
front id, lists it and reads its row; nothing in it says that the queue runs empty. Reading a row comes to what a visit
of the walk meets (`foldl_meet`), so the loop ends after a turn for each visit, with the walk as its list
(`ends_walkFrom`). Searches from several ids in turn carry the marks and the list on, and list the forest of walks
(`sweep_foldl_plant`).

The place where an id is named first is the earliest listed row that names it and the first entry there
(`firstNamed`). Along the list these places ascend.
-/

set_option autoImplicit false

namespace CliqueTree
open Relation (ReflTransGen)
open Rows

/-- The state of a breadth-first search. -/
structure Search where
  queue : List Nat
  marked : Finset Nat
  order : List Nat

namespace Search
variable {r : Rows} {s t : Search} {k : Nat}

/-- An id that is not marked is marked and joins the queue. -/
def meet (s : Search) (x : Nat) : Search :=
  if x ∈ s.marked then s else { s with queue := s.queue ++ [x], marked := insert x s.marked }

/-- The front of the queue is listed, and its row is read entry by entry. -/
def turn (r : Rows) (s : Search) : Search :=
  match s.queue with
  | [] => s
  | v :: queue => (r.get v).foldl meet { s with queue, order := s.order ++ [v] }

/-- The loop takes so many turns from one state to the other, and then nothing waits. -/
inductive Ends (r : Rows) : Search → Nat → Search → Prop
  | stop {s : Search} (empty : s.queue = []) : Ends r s 0 s
  | next {s t : Search} {k : Nat} (waits : s.queue ≠ []) (rest : Ends r (s.turn r) k t) : Ends r s (k + 1) t

/-- Nothing waits, and what is listed is marked. -/
def listed (ids : List Nat) : Search := ⟨[], ids.toFinset, ids⟩

theorem Ends.unique {k' : Nat} {t' : Search} (h : Ends r s k t) (h' : Ends r s k' t') : k = k' ∧ t = t' := by
  induction h generalizing k' with
  | stop empty =>
    cases h' with
    | stop => exact ⟨rfl, rfl⟩
    | next waits => exact absurd empty waits
  | next waits rest ih =>
    cases h' with
    | stop empty => exact absurd empty waits
    | next _ rest' =>
      obtain ⟨rfl, rfl⟩ := ih rest'
      exact ⟨rfl, rfl⟩

/-- A row puts on the queue what it names and what is not marked, each id once. -/
theorem foldl_meet (row : List Nat) (s : Search) : row.foldl meet s =
    { s with
      queue := s.queue ++ (distinct row).filter (· ∉ s.marked)
      marked := s.marked ∪ row.toFinset } := by
  induction row generalizing s with
  | nil => simp [distinct]
  | cons x row ih =>
    have marked : s.marked ∪ (x :: row).toFinset = insert x s.marked ∪ row.toFinset := by
      rw [List.toFinset_cons, Finset.union_insert, Finset.insert_union]
    have later : ((distinct row).filter (· ≠ x)).filter (· ∉ s.marked) =
        (distinct row).filter (· ∉ insert x s.marked) := by
      rw [List.filter_filter]
      refine List.filter_congr fun y _ => ?_
      simp [Bool.and_comm]
    rw [List.foldl_cons, ih, distinct, marked]
    by_cases old : x ∈ s.marked
    · rw [meet, if_pos old, List.filter_cons_of_neg (by simpa using old), later, Finset.insert_eq_of_mem old]
    · rw [meet, if_neg old, List.filter_cons_of_pos (by simpa using old), later, List.append_assoc]
      rfl

variable {met : List Nat}

/-- A turn lists the front id, and what its row names and is not met joins behind those that wait. -/
theorem turn_eq (v : Nat) (queue order : List Nat) : turn r ⟨v :: queue, met.toFinset, order⟩ =
    ⟨queue ++ r.unmet met v, (met ++ r.unmet met v).toFinset, order ++ [v]⟩ := by
  have joined : (distinct (r.get v)).filter (· ∉ met.toFinset) = r.unmet met v := by
    simp only [List.mem_toFinset]
    rfl
  have marked : met.toFinset ∪ (r.get v).toFinset = (met ++ r.unmet met v).toFinset := by
    ext x
    simp only [Finset.mem_union, List.mem_toFinset, List.mem_append, Rows.mem_unmet]
    tauto
  show (r.get v).foldl meet ⟨queue, met.toFinset, order ++ [v]⟩ = _
  rw [foldl_meet, joined, marked]

theorem toFinset_append_of_subset {again ids : List Nat} (listed : again ⊆ ids) :
    (met ++ again ++ ids).toFinset = (met ++ ids).toFinset := by
  have inside : again.toFinset ⊆ ids.toFinset := fun x hx => List.mem_toFinset.2 (listed (List.mem_toFinset.1 hx))
  rw [List.append_assoc, List.toFinset_append, List.toFinset_append, Finset.union_eq_right.2 inside,
    List.toFinset_append]

/-- From what waits in a walk the loop ends after a turn for each visit. -/
theorem ends_walkFrom (r : Rows) (met : List Nat) (waiting : List Visit)
    (marked : ∀ visit ∈ waiting, visit.vertex ∈ met) (order : List Nat) :
    Ends r ⟨waiting.map (·.vertex), met.toFinset, order⟩ (r.walkFrom .queue met waiting).length
      ⟨[], (met ++ (r.walkFrom .queue met waiting).map (·.vertex)).toFinset,
        order ++ (r.walkFrom .queue met waiting).map (·.vertex)⟩ := by
  induction met, waiting using Rows.walkFrom.induct r .queue generalizing order with
  | case1 met =>
    rw [walkFrom_nil, List.map_nil, List.append_nil, List.append_nil]
    exact .stop rfl
  | case2 met visit waiting new ih =>
    obtain ⟨here, later⟩ := List.forall_mem_cons.1 marked
    have joined : ∀ next ∈ waiting ++ r.namedBy met visit.vertex, next.vertex ∈ met ++ r.unmet met visit.vertex := by
      intro next hn
      rcases List.mem_append.1 hn with old | named
      · exact List.mem_append_left _ (later next old)
      · exact List.mem_append_right met (mem_unmet.2 (mem_namedBy.1 named).1)
    have vertices : (waiting ++ r.namedBy met visit.vertex).map (·.vertex) =
        waiting.map (·.vertex) ++ r.unmet met visit.vertex := by
      rw [List.map_append, map_vertex_namedBy]
    obtain ⟨visits, walk⟩ : ∃ visits, visits = r.walkFrom .queue (met ++ r.unmet met visit.vertex)
      (Frontier.queue.extend waiting (r.namedBy met visit.vertex)) := ⟨_, rfl⟩
    have visited : r.unmet met visit.vertex ⊆ visits.map (·.vertex) := by
      rw [walk, ← map_vertex_namedBy]
      exact List.map_subset _ fun next named => extend_subset_walkFrom (.inr named)
    have rest : Ends r ⟨(waiting ++ r.namedBy met visit.vertex).map (·.vertex), (met ++ r.unmet met visit.vertex).toFinset,
        order ++ [visit.vertex]⟩ visits.length ⟨[], (met ++ r.unmet met visit.vertex ++ visits.map (·.vertex)).toFinset,
          order ++ [visit.vertex] ++ visits.map (·.vertex)⟩ := by
      rw [walk]
      exact ih joined _
    -- what the row names is marked at once and listed later
    have marks : (met ++ r.unmet met visit.vertex ++ visits.map (·.vertex)).toFinset =
        (met ++ (visit :: visits).map (·.vertex)).toFinset := by
      have marked : visit.vertex ∈ met.toFinset ∪ (visits.map (·.vertex)).toFinset :=
        Finset.mem_union_left _ (List.mem_toFinset.2 here)
      rw [toFinset_append_of_subset visited, List.toFinset_append, List.map_cons, List.toFinset_append, List.toFinset_cons,
        Finset.union_insert, Finset.insert_eq_of_mem marked]
    rw [vertices, ← turn_eq, marks, List.append_assoc] at rest
    rw [walkFrom_cons, ← walk]
    exact .next (List.cons_ne_nil _ _) rest

/-- A search from an id that is not marked lists the walk from it behind what is listed. -/
theorem ends_walk (r : Rows) {source : Nat} (fresh : source ∉ met) : Ends r ((listed met).meet source)
    (r.walk .queue met source).length (listed (met ++ (r.walk .queue met source).map (·.vertex))) := by
  have rest := ends_walkFrom r (met ++ [source]) [⟨source, none⟩] (by simp) met
  have marked : insert source met.toFinset = (met ++ [source]).toFinset := by
    ext x
    simp
  have joined : (listed met).meet source = ⟨[source], (met ++ [source]).toFinset, met⟩ := by
    rw [← marked]
    exact if_neg fun old => fresh (List.mem_toFinset.1 old)
  have marks : (met ++ [source] ++ (r.walk .queue met source).map (·.vertex)).toFinset =
      (met ++ (r.walk .queue met source).map (·.vertex)).toFinset :=
    toFinset_append_of_subset (List.cons_subset.2 ⟨r.mem_walk .queue met source, List.nil_subset _⟩)
  rw [joined, listed, ← marks]
  exact rest

/-- A search from each root in turn goes on with the marks and the list of those before. -/
inductive Sweep (r : Rows) : List Nat → Search → Search → Prop
  | done (s : Search) : Sweep r [] s s
  | next {root : Nat} {roots : List Nat} {s t u : Search} {k : Nat} (first : Ends r (s.meet root) k t)
    (rest : Sweep r roots t u) : Sweep r (root :: roots) s u

/-- The searches from all roots list the forest of walks. -/
theorem sweep_foldl_plant (r : Rows) (roots : List Nat) (visits : List Visit) :
    Sweep r roots (listed (visits.map (·.vertex))) (listed ((roots.foldl r.plant visits).map (·.vertex))) := by
  induction roots generalizing visits with
  | nil => exact .done _
  | cons root roots ih =>
    rw [List.foldl_cons]
    by_cases old : root ∈ visits.map (·.vertex)
    · have idle : (listed (visits.map (·.vertex))).meet root = listed (visits.map (·.vertex)) :=
        if_pos (List.mem_toFinset.2 old)
      have ended : Ends r ((listed (visits.map (·.vertex))).meet root) 0 (listed (visits.map (·.vertex))) := by
        rw [idle]
        exact .stop rfl
      rw [plant, if_pos old]
      exact .next ended (ih visits)
    · have ended := ends_walk r old
      rw [← List.map_append] at ended
      rw [plant, if_neg old]
      exact .next ended (ih _)

end Search

namespace Rows
variable {r : Rows} {source v p : Nat}

/-- The first place where the rows of a list of ids name `v`: that of the id in the list, and that in its row. -/
def firstNamed (r : Rows) (order : List Nat) (v : Nat) : Option (Nat × Nat) :=
  (order.find? (v ∈ r.get ·)).map fun p => (order.idxOf p, (r.get p).idxOf v)

/-- A visited id is first named in the row of its parent. -/
theorem firstNamed_eq (hv : ⟨v, some p⟩ ∈ r.visitsBehind source) : r.firstNamed (r.breadthFirst source) v =
    some ((r.breadthFirst source).idxOf p, (r.get p).idxOf v) := by
  obtain ⟨_, p', _, named, entry⟩ := of_mem_namedInTurn hv
  obtain rfl := Option.some.inj named
  obtain ⟨before, after, split, none⟩ := parent_earliest hv
  have found : (r.breadthFirst source).find? (v ∈ r.get ·) = some p := by
    rw [split, List.find?_append, List.find?_eq_none.2 fun q hq => by simpa using none q hq, Option.none_or,
      List.find?_cons_of_pos (by simpa using entry)]
  rw [firstNamed, found]
  rfl

/-- Every visit behind the source has a parent. -/
theorem exists_steps (r : Rows) (source : Nat) :
    ∃ es : List Edge, es.map (fun e => (⟨e.2, some e.1⟩ : Visit)) = r.visitsBehind source := by
  refine Set.mem_range.1 ?_
  rw [Set.range_list_map]
  rintro ⟨v, parent⟩ member
  obtain ⟨_, p, _, rfl, _⟩ := of_mem_namedInTurn member
  exact ⟨(p, v), rfl⟩

/-- The places where ids are first named ascend along a breadth-first walk. -/
theorem places_ascend (r : Rows) (source : Nat) : ∃ places : List (Nat × Nat),
    (r.breadthFirst source).tail.map (r.firstNamed (r.breadthFirst source)) = places.map some ∧
      places.Pairwise (Prod.Lex (· < ·) (· < ·)) := by
  obtain ⟨es, visits⟩ := r.exists_steps source
  have tail : (r.breadthFirst source).tail = es.map (·.2) := by
    rw [breadthFirst_eq, List.tail_cons, ← visits, List.map_map]
    rfl
  refine ⟨es.map fun e => ((r.breadthFirst source).idxOf e.1, (r.get e.1).idxOf e.2), ?_, ?_⟩
  · rw [tail, List.map_map, List.map_map]
    refine List.map_congr_left fun e he => firstNamed_eq ?_
    rw [← visits]
    exact List.mem_map.2 ⟨e, he, rfl⟩
  · have ordered : (r.visitsBehind source).Pairwise _ :=
      pairwise_places (pairwise_idxOf (r.nodup_breadthFirst source))
    rw [← visits, List.pairwise_map] at ordered
    refine List.pairwise_map.2 (ordered.imp fun {e e'} places => Prod.lex_def.2 ?_)
    rcases places e.1 rfl e'.1 rfl with ⟨same, less⟩ | less
    · exact .inr ⟨congrArg (r.breadthFirst source).idxOf same, same ▸ less⟩
    · exact .inl less

/-- What is asked of a breadth-first order: it starts at the source and lists what the source reaches, each id once,
the nearer before the further, and behind the source in the order of the places where ids are first named. -/
structure BreadthFirstOrder (r : Rows) (source : Nat) (order : List Nat) : Prop where
  starts : order.head? = some source
  nodup : order.Nodup
  reached : ∀ v, v ∈ order ↔ ReflTransGen r.Linked source v
  ascends : order.Pairwise fun u v => distance r.Linked source u ≤ distance r.Linked source v
  named : ∃ places : List (Nat × Nat), order.tail.map (r.firstNamed order) = places.map some ∧
    places.Pairwise (Prod.Lex (· < ·) (· < ·))

theorem breadthFirstOrder (r : Rows) (source : Nat) : r.BreadthFirstOrder source (r.breadthFirst source) where
  starts := by rw [breadthFirst_eq, List.head?_cons]
  nodup := r.nodup_breadthFirst source
  reached _ := mem_breadthFirst_iff
  ascends := r.distance_ascends source
  named := r.places_ascend source

/-- **Breadth-first search.** On any rows and from any source the loop ends, after a turn for each id that it lists, and
its list is the breadth-first order. -/
theorem search_breadthFirstOrder (r : Rows) (source : Nat) :
    (∀ k t, Search.Ends r ((Search.listed []).meet source) k t ↔
      k = (r.breadthFirst source).length ∧ t = Search.listed (r.breadthFirst source)) ∧
        r.BreadthFirstOrder source (r.breadthFirst source) := by
  have ended : Search.Ends r ((Search.listed []).meet source) (r.breadthFirst source).length
      (Search.listed (r.breadthFirst source)) := by
    rw [breadthFirst, List.length_map]
    exact Search.ends_walk r List.not_mem_nil
  refine ⟨fun k t => ⟨fun other => other.unique ended, ?_⟩, r.breadthFirstOrder source⟩
  rintro ⟨rfl, rfl⟩
  exact ended

/-- With a one-way entry, repeats, an entry for the id itself, one back to the source and one for an id without a row. -/
example : breadthFirst ⟨#[[2, 0, 2, 1], [3, 3], [2, 5, 1, 0], [0], [0]]⟩ 0 = [0, 2, 1, 5, 3] := by decide +kernel

end Rows
end CliqueTree
