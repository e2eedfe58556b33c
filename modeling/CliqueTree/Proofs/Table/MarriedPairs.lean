import CliqueTree.Proofs.Table.BreadthFirst
import CliqueTree.Proofs.Table.EdgeLists
import CliqueTree.Proofs.Table.Runs

/-!
# Which pairs are married

A run of marriages notes each pair that it links. A pair is noted when its ends are no parents of each other, and it makes
one of them a parent of the other. So no pair is noted twice, and none whose ends were beside each other at first; and a
list of parents is what it was with the noted pairs behind it (`Growth.Notes`). The turn of a vertex puts its parents
beside each other, whatever the order (`marry_coparents`).

In an order in which each vertex comes after its parents, a turn links two vertices that have had their turns. So a list of
parents has not changed when its turn comes, and the pairs that are married are pairs of parents that the rows had at first
(`foldl_joinParents_extended`).
-/

set_option autoImplicit false

namespace CliqueTree
namespace Growth
open Rows (Extended)
variable {G : Type} [ParentLinks G] {r : Rows} {s : Growth G}

/-- The lists of parents are those of the rows `r`, with the pairs behind them that were noted, each of which joined two
that were no parents of each other. -/
structure Notes (r : Rows) (s : Growth G) : Prop where
  sound : s.Sound r.size
  appended : ∀ v, s.parents.get v = r.get v ++ sources s.added.toList v
  fresh : ∀ e ∈ s.added.toList, e.1 ≠ e.2 ∧ ¬ r.Beside e.1 e.2
  once : (s.added.toList.map fun e => s(e.1, e.2)).Nodup

namespace Notes

theorem start {g : G} (inside : (ParentLinks.parents g).Inside) :
    Notes (ParentLinks.parents g) (⟨g, #[]⟩ : Growth G) where
  sound := ⟨rfl, inside⟩
  appended v := by simp [parents, sources]
  fresh e he := by simp at he
  once := by simp

/-- Who is beside each other was at first or was noted. -/
theorem beside_iff (h : Notes r s) {a b : Nat} :
    s.parents.Beside a b ↔ r.Beside a b ∨ Touching s.added.toList a b := by
  simp only [Rows.Beside, Touching, h.appended, List.mem_append, mem_sources]
  exact or_or_or_comm

theorem joinPair (h : Notes r s) {p : Edge} (h1 : p.1 < r.size) (h2 : p.2 < r.size) : Notes r (s.joinPair p) := by
  have sound := (marryPair_eq h.sound h1 h2).2
  by_cases married : s.Married p
  · rwa [joinPair_of_married married]
  rw [joinPair_of_not_married married] at sound ⊢
  have ne : p.1 ≠ p.2 := fun same => married (.inl same)
  have apart : ¬ s.parents.Beside p.1 p.2 := fun beside => married (.inr beside)
  have linked : parents ⟨ParentLinks.link s.graph p.1 p.2, s.added.push p⟩ = s.parents.add p.2 p.1 :=
    ParentLinks.parents_link s.graph p.1 p.2
  have noted : (s.added.push p).toList = s.added.toList ++ [p] := Array.toList_push
  refine ⟨sound, fun v => ?_, fun e he => ?_, ?_⟩
  · rw [linked, Rows.get_add_eq_sources (lt_of_lt_of_eq h2 h.sound.1.symm), h.appended, noted, sources_append,
      List.append_assoc]
  · rw [noted, List.mem_append, List.mem_singleton] at he
    rcases he with old | rfl
    · exact h.fresh e old
    · exact ⟨ne, fun beside => apart (h.beside_iff.2 (.inl beside))⟩
  · rw [noted]
    exact nodup_sym2_concat h.once fun again => apart (h.beside_iff.2 (.inr again))

theorem joinParents (h : Notes r s) (v : Nat) : Notes r (s.joinParents v) := by
  have inside : ∀ p ∈ pairs (s.parents.get v), p.1 < r.size ∧ p.2 < r.size := by
    intro p hp
    obtain ⟨first, second⟩ := mem_of_mem_pairs hp
    exact ⟨h.sound.1 ▸ h.sound.2 v _ first, h.sound.1 ▸ h.sound.2 v _ second⟩
  unfold Growth.joinParents
  generalize pairs (s.parents.get v) = ps at inside
  induction ps generalizing s with
  | nil => exact h
  | cons p ps ih =>
    obtain ⟨h1, h2⟩ := inside p List.mem_cons_self
    exact ih (h.joinPair h1 h2) fun q hq => inside q (List.mem_cons_of_mem p hq)

theorem foldl_joinParents (order : List Nat) (h : Notes r s) : Notes r (order.foldl Growth.joinParents s) := by
  induction order generalizing s with
  | nil => exact h
  | cons v order ih => exact ih (h.joinParents v)

/-- The pairs that were noted are those that are beside each other and were not. -/
theorem mem_pairs_iff (h : Notes r s) {a b : Nat} :
    s(a, b) ∈ s.added.toList.map (fun e => s(e.1, e.2)) ↔ a ≠ b ∧ s.parents.Beside a b ∧ ¬ r.Beside a b :=
  mem_map_sym2_iff_of_fresh (fun _ _ => Or.symm) h.fresh h.beside_iff

end Notes

/-- A turn puts the parents of its vertex beside each other, and adds nothing else. -/
theorem joinParents_spec {n v : Nat} (sound : s.Sound n) (hv : v < n) :
    Extended s.parents (s.joinParents v).parents (DifferIn (s.parents.get v)) ∧
      ∀ a b, DifferIn (s.parents.get v) a b → (s.joinParents v).parents.Beside a b := by
  obtain ⟨t, ran, extended, married⟩ := marryParents_spec sound.2 (sound.1.symm ▸ hv)
  obtain rfl := Except.ok.inj ((marryParents_eq sound hv).1.symm.trans ran)
  exact ⟨extended, married⟩

/-- After the turns of an order all that a row lists before them is beside each other, for each vertex of the order. -/
theorem foldl_joinParents_spec {n : Nat} (order : List Nat) (sound : s.Sound n) (small : ∀ v ∈ order, v < n) :
    Extended s.parents (order.foldl joinParents s).parents (fun _ _ => True) ∧
      ∀ v ∈ order, ∀ a b, DifferIn (s.parents.get v) a b → (order.foldl joinParents s).parents.Beside a b := by
  induction order generalizing s with
  | nil => exact ⟨.refl sound.2, fun v hv => absurd hv List.not_mem_nil⟩
  | cons v order ih =>
    obtain ⟨hv, small⟩ := List.forall_mem_cons.1 small
    obtain ⟨turn, married⟩ := joinParents_spec sound hv
    obtain ⟨rest, all⟩ := ih (marryParents_eq sound hv).2 small
    refine ⟨(turn.weaken fun _ => trivial).trans rest, fun w hw a b both => ?_⟩
    rcases List.mem_cons.1 hw with rfl | later
    · exact rest.beside (married a b both)
    · obtain ⟨ne, ha, hb⟩ := both
      exact all w later a b ⟨ne, turn.mono ha, turn.mono hb⟩

/-- When no vertex is a parent of one before it, only pairs of parents that the rows `r` list are put beside each other. -/
theorem foldl_joinParents_extended {n : Nat} (order : List Nat) (sound : s.Sound n) (small : ∀ v ∈ order, v < n)
    (ordered : order.Pairwise fun v w => w ∉ r.get v) (same : ∀ v ∈ order, ∀ x, x ∈ s.parents.get v ↔ x ∈ r.get v)
    (extended : Extended r s.parents fun a b => ∃ v, DifferIn (r.get v) a b) :
    Extended r (order.foldl joinParents s).parents fun a b => ∃ v, DifferIn (r.get v) a b := by
  induction order generalizing s with
  | nil => exact extended
  | cons v order ih =>
    obtain ⟨hv, small⟩ := List.forall_mem_cons.1 small
    obtain ⟨here, same⟩ := List.forall_mem_cons.1 same
    obtain ⟨later, ordered⟩ := List.pairwise_cons.1 ordered
    obtain ⟨turn, _⟩ := joinParents_spec sound hv
    refine ih (marryParents_eq sound hv).2 small ordered (fun w hw x => ?_) (extended.trans (turn.weaken ?_))
    · -- the turn adds parents to parents of `v` only, and these have had their turns
      rw [← same w hw]
      refine ⟨fun entry => (turn.only entry).resolve_right ?_, turn.mono⟩
      rintro ⟨_, _, parent⟩
      exact later w hw ((here w).1 parent)
    · rintro a b ⟨ne, ha, hb⟩
      exact ⟨v, ne, (here a).1 ha, (here b).1 hb⟩

end Growth

open ParentLinks (parents)

/-- **Marriages.** Marrying the parents of ids that have rows never fails, in whatever order and however often they come.
Each list of parents stays as it was, with the pairs that were added behind it; each unordered pair is added once, and
none whose ends are one or were beside each other; and every two parents that a vertex of the order had at first are
beside each other at the end. When the order lists every vertex once, each after its parents, the pairs that are added
are those of different parents of a common vertex that were not beside each other. -/
theorem marry_coparents {G : Type} [ParentLinks G] {g : G} (inside : (parents g).Inside) {order : List Nat}
    (small : ∀ v ∈ order, v < (parents g).size) :
    ∃ s : Growth G, marry g order = .ok s ∧
      (∀ v, (parents s.graph).get v = (parents g).get v ++ sources s.added.toList v) ∧
      (s.added.toList.map fun e => s(e.1, e.2)).Nodup ∧
      (∀ e ∈ s.added.toList, e.1 ≠ e.2 ∧ ¬ (parents g).Beside e.1 e.2) ∧
      (∀ v ∈ order, ∀ a ∈ (parents g).get v, ∀ b ∈ (parents g).get v, a ≠ b → (parents s.graph).Beside a b) ∧
      (order.Perm (List.range (parents g).size) → (∀ v, ∀ p ∈ (parents g).get v, order.idxOf p < order.idxOf v) →
        ∀ a b, s(a, b) ∈ s.added.toList.map (fun e => s(e.1, e.2)) ↔
          a ≠ b ∧ (∃ v, a ∈ (parents g).get v ∧ b ∈ (parents g).get v) ∧ ¬ (parents g).Beside a b) := by
  let start : Growth G := ⟨g, #[]⟩
  have sound : start.Sound (parents g).size := ⟨rfl, inside⟩
  have notes : Growth.Notes (parents g) (order.foldl Growth.joinParents start) :=
    (Growth.Notes.start inside).foldl_joinParents order
  obtain ⟨_, married⟩ := Growth.foldl_joinParents_spec order sound small
  refine ⟨_, marry_eq inside small, notes.appended, notes.once, notes.fresh,
    fun v hv a ha b hb ne => married v hv a b ⟨ne, ha, hb⟩, fun all first a b => ?_⟩
  have ordered : order.Pairwise fun v w => w ∉ (parents g).get v := by
    refine (pairwise_idxOf (all.nodup_iff.2 List.nodup_range)).imp fun less parent => ?_
    exact Nat.lt_asymm less (first _ _ parent)
  have only := Growth.foldl_joinParents_extended order sound small ordered (fun _ _ _ => Iff.rfl) (.refl inside)
  rw [notes.mem_pairs_iff]
  refine and_congr_right fun ne => and_congr_left fun apart => ⟨fun beside => ?_, ?_⟩
  · rcases beside with forth | back
    · obtain ⟨v, _, ha, hb⟩ := (only.only forth).resolve_left fun old => apart (.inl old)
      exact ⟨v, ha, hb⟩
    · obtain ⟨v, _, hb, ha⟩ := (only.only back).resolve_left fun old => apart (.inr old)
      exact ⟨v, ha, hb⟩
  · rintro ⟨v, ha, hb⟩
    have hv : v ∈ order := all.mem_iff.2 (List.mem_range.2 (Rows.Linked.lt_size ha))
    exact married v hv a b ⟨ne, ha, hb⟩

/-- The edges of four vertices, two of which are parents of each other, with a doubled edge and a loop. -/
def knotEdges : List Edge := [(1, 0), (2, 0), (2, 0), (0, 1), (1, 1), (3, 1)]

/-- The edges of a fork, whose end is a parent of the last vertex together with one that has no other child. -/
def forkEdges : List Edge := [(0, 3), (1, 3), (2, 4), (3, 4)]

/-- The knot gets two pairs, however often a vertex has its turn. In the fork every vertex comes after its parents, and
the pairs are those of the parents of 3 and of 4; in an order that starts with 4, the parents of 3 are three. -/
theorem knotEdges_coparents :
    ((Rows.parentsOf 4 knotEdges).Inside ∧ (∀ v ∈ [0, 1, 0], v < (Rows.parentsOf 4 knotEdges).size) ∧
      ∃ s : Growth Rows, marry (Rows.parentsOf 4 knotEdges) [0, 1, 0] = .ok s ∧ s.added.toList = [(1, 2), (0, 3)] ∧
        ∀ v, (parents s.graph).get v = (Rows.parentsOf 4 knotEdges).get v ++ sources [(1, 2), (0, 3)] v) ∧
    (Rows.parentsOf 5 forkEdges).Inside ∧ [2, 1, 0, 3, 4].Perm (List.range (Rows.parentsOf 5 forkEdges).size) ∧
      (∀ v, ∀ p ∈ (Rows.parentsOf 5 forkEdges).get v, [2, 1, 0, 3, 4].idxOf p < [2, 1, 0, 3, 4].idxOf v) ∧
      ∃ s : Growth Rows, marry (Rows.parentsOf 5 forkEdges) [2, 1, 0, 3, 4] = .ok s ∧
        s.added.toList = [(0, 1), (2, 3)] ∧
        (∀ a b, s(a, b) ∈ [(0, 1), (2, 3)].map (fun e : Edge => s(e.1, e.2)) ↔
          a ≠ b ∧ (∃ v, a ∈ (Rows.parentsOf 5 forkEdges).get v ∧ b ∈ (Rows.parentsOf 5 forkEdges).get v) ∧
            ¬ (Rows.parentsOf 5 forkEdges).Beside a b) ∧
        ∃ t : Growth Rows, marry (Rows.parentsOf 5 forkEdges) [4, 3] = .ok t ∧
          t.added.toList = [(2, 3), (0, 1), (0, 2), (1, 2)] := by
  have knot : (Rows.parentsOf 4 knotEdges).Inside := Rows.inside_parentsOf (by decide)
  have fork : (Rows.parentsOf 5 forkEdges).Inside := Rows.inside_parentsOf (by decide)
  have small : ∀ v ∈ [0, 1, 0], v < (Rows.parentsOf 4 knotEdges).size := by decide
  have small' : ∀ v ∈ [2, 1, 0, 3, 4], v < (Rows.parentsOf 5 forkEdges).size := by decide
  have all : [2, 1, 0, 3, 4].Perm (List.range (Rows.parentsOf 5 forkEdges).size) := by decide
  have first : ∀ v, ∀ p ∈ (Rows.parentsOf 5 forkEdges).get v, [2, 1, 0, 3, 4].idxOf p < [2, 1, 0, 3, 4].idxOf v := by
    have edges : ∀ e ∈ forkEdges, [2, 1, 0, 3, 4].idxOf e.1 < [2, 1, 0, 3, 4].idxOf e.2 := by decide
    exact fun v p parent => edges (p, v) ((Rows.mem_parentsOf (by decide)).1 parent)
  obtain ⟨s, ran, appended, _⟩ := marry_coparents (g := Rows.parentsOf 4 knotEdges) knot small
  obtain ⟨s', ran', _, _, _, _, pairs_iff⟩ := marry_coparents (g := Rows.parentsOf 5 forkEdges) fork small'
  have run : marry (Rows.parentsOf 4 knotEdges) [0, 1, 0] =
      .ok ⟨⟨#[[1, 2, 2], [0, 1, 3], [1], [0]]⟩, #[(1, 2), (0, 3)]⟩ := by rfl
  have run' : marry (Rows.parentsOf 5 forkEdges) [2, 1, 0, 3, 4] =
      .ok ⟨⟨#[[], [0], [], [0, 1, 2], [2, 3]]⟩, #[(0, 1), (2, 3)]⟩ := by rfl
  obtain rfl := Except.ok.inj (ran.symm.trans run)
  obtain rfl := Except.ok.inj (ran'.symm.trans run')
  exact ⟨⟨knot, small, _, ran, rfl, appended⟩, fork, all, first, _, ran', rfl, pairs_iff all first, _, by rfl, rfl⟩

end CliqueTree
