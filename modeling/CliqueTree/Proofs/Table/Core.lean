import CliqueTree.JunctionTree.Layout
import CliqueTree.Proofs.Simple
import CliqueTree.Proofs.Table.Runs

/-!
# Rows with the same core

The core of a row is what it names beside its own id, each id where it is first named. An edge that repeats another and
a loop add entries to rows and nothing to their cores (`sameCore_adjacencyOf`, `sameCore_parentsOf`), and whatever is
done with rows is told by the cores. Walks pass over what is met already, so they take the same way
(`SameCore.cover_eq`). A fold over a row or over its pairs skips what is settled, and a repeated entry is
(`fillAmong_distinct`, `joinParents_core`, `greedyClique_core`); so the game and the marriages add the same links, and
the same cliques are listed in the same order.
-/

set_option autoImplicit false

namespace CliqueTree

theorem distinct_filter {α : Type} [DecidableEq α] (keep : α → Bool) (l : List α) :
    distinct (l.filter keep) = (distinct l).filter keep := by
  induction l using List.reverseRecOn with
  | nil => rfl
  | append_singleton l a ih =>
    rw [List.filter_append, distinct_concat]
    by_cases kept : keep a = true
    · rw [List.filter_cons_of_pos kept, List.filter_nil, distinct_concat, ih]
      by_cases old : a ∈ l <;> simp [old, kept]
    · rw [List.filter_cons_of_neg kept, List.filter_nil, List.append_nil, ih]
      by_cases old : a ∈ l <;> simp [old, kept]

namespace Rows

/-- What the row of `v` names beside `v`, each id where it is first named. -/
def core (r : Rows) (v : Nat) : List Nat := (distinct (r.get v)).filter (· ≠ v)

/-- The rows differ by entries that name their own id or repeat an entry. -/
structure SameCore (r t : Rows) : Prop where
  size : t.size = r.size
  core : ∀ v, t.core v = r.core v

variable {r t : Rows} {u v w x n : Nat} {es : List Edge}

theorem mem_core : x ∈ r.core v ↔ x ∈ r.get v ∧ x ≠ v := by simp [core, mem_distinct]

theorem core_add (r : Rows) (v x w : Nat) : (r.add v x).core w =
    if (v = w ∧ w < r.size) ∧ x ≠ w ∧ x ∉ r.get w then r.core w ++ [x] else r.core w := by
  rw [core, core, get_add]
  by_cases here : v = w ∧ w < r.size
  · rw [if_pos here, distinct_concat]
    by_cases old : x ∈ r.get w
    · simp [old]
    · by_cases own : x = w
      · subst own
        simp [old]
      · simp [here, old, own]
  · rw [if_neg here, if_neg fun h => here h.1]

namespace SameCore

theorem refl (r : Rows) : SameCore r r := ⟨rfl, fun _ => rfl⟩

theorem symm (h : SameCore r t) : SameCore t r := ⟨h.size.symm, fun v => (h.core v).symm⟩

theorem trans {s : Rows} (h : SameCore r s) (h' : SameCore s t) : SameCore r t :=
  ⟨h'.size.trans h.size, fun v => (h'.core v).trans (h.core v)⟩

theorem mem_iff (h : SameCore r t) (ne : x ≠ v) : x ∈ t.get v ↔ x ∈ r.get v := by
  have same : x ∈ t.core v ↔ x ∈ r.core v := by rw [h.core]
  simpa [mem_core, ne] using same

theorem add (h : SameCore r t) (v x : Nat) : SameCore (r.add v x) (t.add v x) := by
  refine ⟨by rw [size_add, size_add, h.size], fun w => ?_⟩
  rw [core_add, core_add, h.size, h.core]
  by_cases own : x = w
  · simp [own]
  · simp [own, h.mem_iff own]

/-- An entry that is there already, or that names the id of the row, adds nothing to its core. -/
theorem add_left (h : SameCore r t) (old : x = v ∨ x ∈ r.get v) : SameCore (r.add v x) t := by
  refine ⟨by rw [size_add, h.size], fun w => ?_⟩
  rw [core_add, h.core, if_neg]
  rintro ⟨⟨rfl, _⟩, ne, new⟩
  exact old.elim ne new

theorem link (h : SameCore r t) (u v : Nat) : SameCore (NeighbourLinks.link r u v) (NeighbourLinks.link t u v) :=
  (h.add u v).add v u

theorem link_left (h : SameCore r t) (forth : v = u ∨ v ∈ r.get u) (back : u = v ∨ u ∈ r.get v) :
    SameCore (NeighbourLinks.link r u v) t := by
  refine (h.add_left forth).add_left (back.imp_right fun old => ?_)
  rw [get_add]
  split
  · exact List.mem_append_left _ old
  · exact old

theorem foldl_link (h : SameCore r t) (es : List Edge) :
    SameCore (es.foldl (fun r e => NeighbourLinks.link r e.1 e.2) r)
      (es.foldl (fun r e => NeighbourLinks.link r e.1 e.2) t) := by
  induction es generalizing r t with
  | nil => exact h
  | cons e es ih => exact ih (h.link e.1 e.2)

end SameCore

/-- The neighbours that a list of edges gives have the core that the simple edges give. -/
theorem sameCore_adjacencyOf (inside : ∀ e ∈ es, e.1 < n ∧ e.2 < n) :
    SameCore (adjacencyOf n es) (adjacencyOf n (simpleEdges es)) := by
  induction es using List.reverseRecOn with
  | nil => exact .refl _
  | append_singleton es e ih =>
    have before : ∀ e ∈ es, e.1 < n ∧ e.2 < n := fun d hd => inside d (List.mem_append_left [e] hd)
    have concat : ∀ (es : List Edge) (e : Edge),
        adjacencyOf n (es ++ [e]) = NeighbourLinks.link (adjacencyOf n es) e.1 e.2 :=
      fun es e => List.foldl_concat _ _ e es
    have linked := (linked_foldl_link_blank before).2.2
    rw [simpleEdges_concat, concat]
    split
    next old =>
      refine (ih before).link_left ?_ ?_
      · exact old.imp Eq.symm fun old => (linked e.1 e.2).2 old
      · exact old.imp id fun old => (linked e.2 e.1).2 old.symm
    next =>
      rw [concat]
      exact (ih before).link e.1 e.2

theorem size_parentsOf (n : Nat) (es : List Edge) : (parentsOf n es).size = n := by
  induction es using List.reverseRecOn with
  | nil => exact size_blank n
  | append_singleton es e ih => rw [parentsOf_concat, size_add, ih]

/-- The parents of a vertex are the sources of the edges into it. -/
theorem mem_parentsOf (inside : ∀ e ∈ es, e.2 < n) : u ∈ (parentsOf n es).get v ↔ (u, v) ∈ es := by
  induction es using List.reverseRecOn with
  | nil => simp [parentsOf]
  | append_singleton es e ih =>
    have before : ∀ e ∈ es, e.2 < n := fun d hd => inside d (List.mem_append_left [e] hd)
    have last : e.2 < (parentsOf n es).size := (size_parentsOf n es).symm ▸ inside e (by simp)
    rw [parentsOf_concat, mem_get_add last, ih before, List.mem_append, List.mem_singleton, Prod.ext_iff]
    simp only [and_comm]

/-- The parents that a list of edges gives have the core that the simple arcs give. -/
theorem sameCore_parentsOf (inside : ∀ e ∈ es, e.2 < n) :
    SameCore (parentsOf n es) (parentsOf n (simpleArcs es)) := by
  induction es using List.reverseRecOn with
  | nil => exact .refl _
  | append_singleton es e ih =>
    have before : ∀ e ∈ es, e.2 < n := fun d hd => inside d (List.mem_append_left [e] hd)
    rw [simpleArcs_concat, parentsOf_concat]
    split
    next old =>
      exact (ih before).add_left (old.imp_right (mem_parentsOf before).2)
    next =>
      rw [parentsOf_concat]
      exact (ih before).add e.2 e.1

/-! ### Walks -/

section Walks
variable {met : List Nat} {f : Frontier}

/-- A vertex that is met itself names the same new ids. -/
theorem unmet_eq_core (r : Rows) (hv : v ∈ met) : r.unmet met v = (r.core v).filter (· ∉ met) := by
  rw [unmet, core, List.filter_filter]
  refine List.filter_congr fun x _ => ?_
  by_cases own : x = v
  · subst own
    simp [hv]
  · simp [own]

namespace SameCore

theorem unmet_eq (h : SameCore r t) (hv : v ∈ met) : t.unmet met v = r.unmet met v := by
  rw [unmet_eq_core t hv, unmet_eq_core r hv, h.core]

theorem walkFrom_eq (h : SameCore r t) (f : Frontier) (met : List Nat) (waiting : List Visit)
    (seen : ∀ visit ∈ waiting, visit.vertex ∈ met) : t.walkFrom f met waiting = r.walkFrom f met waiting := by
  induction met, waiting using walkFrom.induct r f with
  | case1 met => rw [walkFrom_nil, walkFrom_nil]
  | case2 met visit waiting new ih =>
    have same := h.unmet_eq (seen visit List.mem_cons_self)
    rw [walkFrom_cons, walkFrom_cons, namedBy, same]
    refine congrArg (visit :: ·) (ih fun later hl => ?_)
    rcases List.mem_append.1 ((f.extend_perm _ _).mem_iff.1 hl) with old | named
    · exact List.mem_append_left _ (seen later (List.mem_cons_of_mem visit old))
    · obtain ⟨x, hx, rfl⟩ := List.mem_map.1 named
      exact List.mem_append_right met hx

theorem walk_eq (h : SameCore r t) (f : Frontier) (met : List Nat) (source : Nat) :
    t.walk f met source = r.walk f met source := by
  refine h.walkFrom_eq f _ _ fun visit hv => ?_
  rw [List.mem_singleton.1 hv]
  exact List.mem_append_right met List.mem_cons_self

theorem cover_eq (h : SameCore r t) (vertices : List Nat) (disconnected : Disconnected) :
    t.cover vertices disconnected = r.cover vertices disconnected := by
  have breadthFirst : t.breadthFirst = r.breadthFirst := by
    funext source
    rw [Rows.breadthFirst, Rows.breadthFirst, h.walk_eq]
  have plant : t.plant = r.plant := by
    funext visits root
    simp only [Rows.plant, h.walk_eq]
  have forest : t.forest = r.forest := by
    funext roots
    rw [Rows.forest, Rows.forest, plant]
  unfold cover
  rw [breadthFirst, forest]

theorem resolve_eq (h : SameCore r t) (p : OrderPolicy) (vertices : List Nat) :
    p.resolve t vertices = p.resolve r vertices := by
  rw [OrderPolicy.resolve, OrderPolicy.resolve, h.cover_eq]

end SameCore
end Walks

/-! ### Cliques -/

section Cliques

/-- Whether an id was collected, or a member is missing in its row, is settled when it has been looked at. -/
theorem settles_collect (r : Rows) : Settles r.collect (fun clique n => n ∈ clique ∨ ∃ c ∈ clique, c ∉ r.get n)
    (fun _ => True) (fun _ => True) where
  idle := by
    intro clique n settled
    apply if_neg
    rintro ⟨new, fits⟩
    rcases settled with old | ⟨c, hc, apart⟩
    · exact new old
    · exact apart (fits c hc)
  keeps _ _ := trivial
  settles := by
    intro clique n _ _
    by_cases fits : n ∉ clique ∧ ∀ c ∈ clique, c ∈ r.get n
    · rw [collect, if_pos fits]
      exact .inl (by simp)
    · rw [collect, if_neg fits]
      simpa only [not_and_or, not_not, not_forall, exists_prop] using fits
  stays := by
    intro clique n m _ _ settled
    have grows : clique ⊆ r.collect clique n := by
      rw [collect]
      split
      · exact List.subset_append_left _ _
      · exact fun _ h => h
    rcases settled with old | ⟨c, hc, apart⟩
    · exact .inl (grows old)
    · exact .inr ⟨c, grows hc, apart⟩

theorem greedyClique_core (r : Rows) (seed : Nat) :
    r.greedyClique seed = ascending ((r.core seed).foldl r.collect [seed]) := by
  have settles := r.settles_collect
  rw [greedyClique, core, settles.foldl_filter trivial, settles.foldl_distinct trivial]
  · exact fun _ _ => trivial
  · intro a _ out
    have own : a = seed := by simpa using out
    exact .inl (by simp [own])
  · exact fun _ _ => trivial

namespace SameCore

theorem collect_eq (h : SameCore r t) : t.collect = r.collect := by
  funext clique n
  unfold collect
  congr 1
  rw [eq_iff_iff]
  refine and_congr_right fun new => forall₂_congr fun c hc => h.mem_iff ?_
  rintro rfl
  exact new hc

theorem greedyClique_eq (h : SameCore r t) : t.greedyClique = r.greedyClique := by
  funext seed
  rw [greedyClique_core, greedyClique_core, h.core, h.collect_eq]

theorem laterClique_eq (h : SameCore r t) (order : List Nat) : t.laterClique order = r.laterClique order := by
  funext v
  refine ascending_eq_iff.2 fun x => ?_
  by_cases own : x = v
  · simp [own]
  · simp [own, h.mem_iff own]

theorem cliqueIds_eq (h : SameCore r t) (elimination seeds : List Nat) :
    t.cliqueIds elimination seeds = r.cliqueIds elimination seeds := by
  rw [Rows.cliqueIds, Rows.cliqueIds, h.greedyClique_eq, h.laterClique_eq]

end SameCore
end Cliques
end Rows

namespace Growth
open Rows (SameCore Symmetric Inside)

/-! ### The game -/

section Filling
variable {G : Type} [NeighbourLinks G] {s t : Growth G} {n : Nat}

/-- Both have been given the same links, and their rows have the same core. -/
def SameFill (s t : Growth G) : Prop := SameCore s.rows t.rows ∧ t.added = s.added

theorem settles_fillPair (n : Nat) : Settles (fillPair (G := G)) Settled (fun s => s.rows.Symmetric ∧ s.rows.size = n)
    (fun p => p.1 < n ∧ p.2 < n) where
  idle := fillPair_of_settled
  keeps := by
    rintro s p ⟨symm, rfl⟩ ⟨h1, h2⟩
    obtain ⟨grown, _⟩ := fillPair_spec symm h1 h2
    exact ⟨grown.symm, grown.size⟩
  settles := by
    rintro s p ⟨symm, rfl⟩ ⟨h1, h2⟩
    by_cases same : p.1 = p.2
    · exact .inl same
    · exact .inr ((fillPair_spec symm h1 h2).2 same)
  stays := by
    rintro s p q ⟨symm, rfl⟩ ⟨h1, h2⟩ settled
    exact settled.imp_right (fillPair_spec symm h1 h2).1.mono

/-- Repeats in a list of ids add no links. -/
theorem fillAmong_distinct (symm : s.rows.Symmetric) {l : List Nat} (inside : ∀ v ∈ l, v < s.rows.size) :
    s.fillAmong (distinct l) = s.fillAmong l := by
  rw [fillAmong, fillAmong, ← simpleEdges_pairs]
  refine (settles_fillPair s.rows.size).foldl_simpleEdges (fun _ _ => .inl rfl) ?_ ⟨symm, rfl⟩ fun p hp => ?_
  · intro s e ⟨symm, _⟩ settled
    exact settled.imp Eq.symm (symm _ _)
  · obtain ⟨h1, h2⟩ := mem_of_mem_pairs hp
    exact ⟨inside _ h1, inside _ h2⟩

namespace SameFill

theorem fillPair (h : SameFill s t) (p : Edge) : SameFill (s.fillPair p) (t.fillPair p) := by
  have same : t.Settled p ↔ s.Settled p := by
    by_cases equal : p.1 = p.2
    · simp [Settled, equal]
    · exact or_congr Iff.rfl (h.1.mem_iff (Ne.symm equal))
  by_cases settled : s.Settled p
  · rwa [fillPair_of_settled settled, fillPair_of_settled (same.2 settled)]
  · rw [fillPair_of_not_settled settled, fillPair_of_not_settled fun old => settled (same.1 old)]
    refine ⟨?_, congrArg (·.push p) h.2⟩
    rw [rows, rows, NeighbourLinks.neighbours_link, NeighbourLinks.neighbours_link]
    exact h.1.link p.1 p.2

theorem fillAmong (h : SameFill s t) (l : List Nat) : SameFill (s.fillAmong l) (t.fillAmong l) := by
  unfold Growth.fillAmong
  generalize pairs l = ps
  induction ps generalizing s t with
  | nil => exact h
  | cons p ps ih => exact ih (h.fillPair p)

/-- The game adds the same links. -/
theorem eliminate (h : SameFill s t) (symm : s.rows.Symmetric) (symm' : t.rows.Symmetric) (order : List Nat)
    {gone : List Nat} : SameFill (s.eliminate gone order) (t.eliminate gone order) := by
  induction order generalizing gone s t with
  | nil => exact h
  | cons v order ih =>
    have staying : ∀ r : Rows, distinct ((r.get v).filter (· ∉ v :: gone)) = (r.core v).filter (· ∉ gone) := by
      intro r
      rw [distinct_filter, Rows.core, List.filter_filter]
      refine List.filter_congr fun x _ => ?_
      simp [Bool.and_comm]
    have inside : ∀ s : Growth G, s.rows.Symmetric →
        ∀ x ∈ (s.rows.get v).filter (· ∉ v :: gone), x < s.rows.size := fun s symm x hx =>
      symm.lt_size (List.mem_filter.1 hx).1
    show SameFill ((s.fillAmong ((s.rows.get v).filter (· ∉ v :: gone))).eliminate (v :: gone) order)
      ((t.fillAmong ((t.rows.get v).filter (· ∉ v :: gone))).eliminate (v :: gone) order)
    refine ih ?_ (fillAmong_spec symm (inside s symm)).1.symm (fillAmong_spec symm' (inside t symm')).1.symm
    rw [← fillAmong_distinct symm (inside s symm), ← fillAmong_distinct symm' (inside t symm'), staying, staying,
      h.1.core]
    exact h.fillAmong _

end SameFill
end Filling

/-! ### Marriages -/

section Joining
variable {G : Type} [ParentLinks G] {s t : Growth G} {n : Nat}

/-- Both have been given the same links, and their rows have the same core. -/
def SameMarriages (s t : Growth G) : Prop := SameCore s.parents t.parents ∧ t.added = s.added

theorem settles_joinPair (n : Nat) : Settles (joinPair (G := G)) Married (Sound n) (fun p => p.1 < n ∧ p.2 < n) where
  idle := joinPair_of_married
  keeps := fun sound ⟨h1, h2⟩ => (marryPair_eq sound h1 h2).2
  settles := by
    intro s p sound ⟨h1, h2⟩
    by_cases same : p.1 = p.2
    · exact .inl same
    · exact .inr ((joinPair_spec sound h1 h2).2 same)
  stays := by
    intro s p q sound ⟨h1, h2⟩ married
    exact married.imp_right (joinPair_spec sound h1 h2).1.beside

/-- The turn of a vertex looks at its core: who is a parent of the vertex is beside it. -/
theorem joinParents_core (sound : s.Sound n) (v : Nat) :
    s.joinParents v = (pairs (s.parents.core v)).foldl joinPair s := by
  have settles := settles_joinPair (G := G) n
  have items : ∀ p ∈ pairs (s.parents.get v), p.1 < n ∧ p.2 < n := by
    intro p hp
    obtain ⟨h1, h2⟩ := mem_of_mem_pairs hp
    exact ⟨sound.1 ▸ sound.2 v _ h1, sound.1 ▸ sound.2 v _ h2⟩
  have simple := settles.foldl_simpleEdges (fun _ _ => .inl rfl) (fun s e _ => .imp Eq.symm Or.symm) sound items
  have items : ∀ p ∈ pairs (distinct (s.parents.get v)), p.1 < n ∧ p.2 < n := by
    intro p hp
    obtain ⟨h1, h2⟩ := mem_of_mem_pairs hp
    exact ⟨sound.1 ▸ sound.2 v _ (mem_distinct.1 h1), sound.1 ▸ sound.2 v _ (mem_distinct.1 h2)⟩
  rw [joinParents, ← simple, simpleEdges_pairs, Rows.core, pairs_filter]
  refine (settles.foldl_filter sound _ (fun p hp out => ?_) items).symm
  obtain ⟨h1, h2⟩ := mem_of_mem_pairs hp
  rw [mem_distinct] at h1 h2
  obtain ⟨a, b⟩ := p
  by_cases own : a = v
  · subst own
    exact .inr (.inr h2)
  · obtain rfl : b = v := by simpa [own] using out
    exact .inr (.inl h1)

namespace SameMarriages

theorem joinPair (h : SameMarriages s t) (p : Edge) : SameMarriages (s.joinPair p) (t.joinPair p) := by
  have same : t.Married p ↔ s.Married p := by
    by_cases equal : p.1 = p.2
    · simp [Married, equal]
    · exact or_congr Iff.rfl (or_congr (h.1.mem_iff equal) (h.1.mem_iff (Ne.symm equal)))
  by_cases married : s.Married p
  · rwa [joinPair_of_married married, joinPair_of_married (same.2 married)]
  · rw [joinPair_of_not_married married, joinPair_of_not_married fun old => married (same.1 old)]
    refine ⟨?_, congrArg (·.push p) h.2⟩
    rw [parents, parents, ParentLinks.parents_link, ParentLinks.parents_link]
    exact h.1.add p.2 p.1

/-- Every turn adds the same links. -/
theorem foldl_joinParents (h : SameMarriages s t) (sound : s.Sound n) (sound' : t.Sound n) (order : List Nat)
    (small : ∀ v ∈ order, v < n) : SameMarriages (order.foldl joinParents s) (order.foldl joinParents t) := by
  induction order generalizing s t with
  | nil => exact h
  | cons v order ih =>
    have hv := small v List.mem_cons_self
    refine ih ?_ (marryParents_eq sound hv).2 (marryParents_eq sound' hv).2
      fun w hw => small w (List.mem_cons_of_mem v hw)
    rw [joinParents_core sound, joinParents_core sound', h.1.core]
    generalize pairs (s.parents.core v) = ps
    clear sound sound' hv
    induction ps generalizing s t with
    | nil => exact h
    | cons p ps ih => exact ih (h.joinPair p)

end SameMarriages
end Joining
end Growth

/-! ### The whole way -/

namespace Rows
variable {r t : Rows} {n : Nat} {es : List Edge}

/-- With the cores of symmetric rows the policy lists the same cliques. -/
theorem SameCore.chordalIds_eq (h : SameCore r t) (symm : r.Symmetric) (symm' : t.Symmetric) (order : List Nat) :
    t.chordalIds order = r.chordalIds order := by
  have start : Growth.SameFill (⟨r, #[]⟩ : Growth Rows) ⟨t, #[]⟩ := ⟨h, rfl⟩
  exact (start.eliminate symm symm' order).1.cliqueIds_eq order order

theorem inside_parentsOf (inside : ∀ e ∈ es, e.1 < n ∧ e.2 < n) : (parentsOf n es).Inside := by
  intro v x hx
  rw [size_parentsOf]
  exact (inside _ ((mem_parentsOf fun e he => (inside e he).2).1 hx)).1

/-- Simple arcs lead to the same marriages. -/
theorem marriages_simpleArcs (inside : ∀ e ∈ es, e.1 < n ∧ e.2 < n) :
    (marriages n (simpleArcs es)).added = (marriages n es).added := by
  have part : ∀ e ∈ simpleArcs es, e.1 < n ∧ e.2 < n := fun e he => inside e (mem_simpleArcs.1 he).1
  have start : Growth.SameMarriages (⟨parentsOf n es, #[]⟩ : Growth Rows) ⟨parentsOf n (simpleArcs es), #[]⟩ :=
    ⟨sameCore_parentsOf fun e he => (inside e he).2, rfl⟩
  exact (start.foldl_joinParents ⟨size_parentsOf n es, inside_parentsOf inside⟩
    ⟨size_parentsOf n _, inside_parentsOf part⟩ (List.range n) fun v hv => List.mem_range.1 hv).2

/-- The moral graphs have the same core. -/
theorem sameCore_moralEdges (inside : ∀ e ∈ es, e.1 < n ∧ e.2 < n) :
    SameCore (adjacencyOf n (moralEdges n es)) (adjacencyOf n (moralEdges n (simpleArcs es))) := by
  have part : ∀ e ∈ simpleArcs es, e.1 < n ∧ e.2 < n := fun e he => inside e (mem_simpleArcs.1 he).1
  have before : SameCore (adjacencyOf n es) (adjacencyOf n (simpleArcs es)) := by
    have through := sameCore_adjacencyOf part
    rw [simpleEdges_simpleArcs] at through
    exact (sameCore_adjacencyOf inside).trans through.symm
  rw [moralEdges, moralEdges, marriages_simpleArcs inside, adjacencyOf, adjacencyOf, List.foldl_append,
    List.foldl_append]
  exact before.foldl_link _

end Rows
end CliqueTree
