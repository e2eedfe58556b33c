import CliqueTree.Proofs.Graph.States
import CliqueTree.Proofs.JunctionTree.Layout
import CliqueTree.Proofs.JunctionTree.RunningIntersection
import CliqueTree.Proofs.Table.BreadthFirst

/-!
# What the check of running intersection tells

For each key the check walks from the first clique that holds it, through cliques that hold it, and compares how many it
meets with how many there are. The walk meets each of these once and nothing else, so the numbers are equal exactly when
it meets them all (`Rows.length_restrict_breadthFirst_eq_iff`). Links have two ends, so the cliques that hold the key are
then connected to each other through such cliques, and not only to the first (`holdsTogether_iff`).

The rows of a layout are those of its edges (`consistent_layout`), and halving finds a key in a clique just when it is a
member, because the members ascend. So the check tells of the cliques and edges themselves (`runningIntersection_iff`),
however the edges were selected.
-/

set_option autoImplicit false

namespace CliqueTree
open Relation (ReflTransGen)

namespace Rows
variable {r : Rows} {among : List Nat} {source u v : Nat}

theorem linked_restrict {keep : Nat → Bool} : (r.restrict keep).Linked u v ↔ r.Linked u v ∧ keep v = true := by
  have row : (r.restrict keep).get u = (r.get u).filter keep := by
    rw [get, restrict, Array.getElem?_map, get]
    cases r.lists[u]? <;> rfl
  rw [Linked, row, List.mem_filter]
  rfl

/-- A link between two ids of a list. -/
def LinkedAmong (r : Rows) (among : List Nat) (u v : Nat) : Prop := u ∈ among ∧ v ∈ among ∧ r.Linked u v

theorem Symmetric.linkedAmong (symm : r.Symmetric) : Std.Symm (r.LinkedAmong among) :=
  ⟨fun _ _ ⟨hu, hv, link⟩ => ⟨hv, hu, symm _ _ link⟩⟩

/-- From an id of the list, the restricted rows lead where links between ids of the list lead. -/
theorem reach_restrict_iff (hs : source ∈ among) :
    ReflTransGen (r.restrict (· ∈ among)).Linked source v ↔ ReflTransGen (r.LinkedAmong among) source v := by
  constructor
  · intro reach
    have both : v ∈ among ∧ ReflTransGen (r.LinkedAmong among) source v := by
      induction reach with
      | refl => exact ⟨hs, .refl⟩
      | tail _ step ih =>
        obtain ⟨link, kept⟩ := linked_restrict.1 step
        exact ⟨of_decide_eq_true kept, ih.2.tail ⟨ih.1, of_decide_eq_true kept, link⟩⟩
    exact both.2
  · exact ReflTransGen.mono (fun _ _ ⟨_, kept, link⟩ => linked_restrict.2 ⟨link, decide_eq_true kept⟩) _ _

/-- The walk in the restricted rows meets as many ids as the list has when links within the list lead to all of it. -/
theorem length_restrict_breadthFirst_eq_iff (nodup : among.Nodup) (hs : source ∈ among) :
    ((r.restrict (· ∈ among)).breadthFirst source).length = among.length ↔
      ∀ v ∈ among, ReflTransGen (r.LinkedAmong among) source v := by
  have met : ∀ v, v ∈ (r.restrict (· ∈ among)).breadthFirst source ↔ ReflTransGen (r.LinkedAmong among) source v :=
    fun v => mem_breadthFirst_iff.trans (reach_restrict_iff hs)
  have inside : (r.restrict (· ∈ among)).breadthFirst source ⊆ among := by
    intro v hv
    rcases ((met v).1 hv).cases_tail with same | ⟨_, _, _, kept, _⟩
    · exact same ▸ hs
    · exact kept
  have part : List.Subperm _ among := List.subperm_of_subset (nodup_breadthFirst _ source) inside
  constructor
  · intro equal v hv
    exact (met v).1 ((part.perm_of_length_le (Nat.le_of_eq equal.symm)).mem_iff.2 hv)
  · intro all
    exact Nat.le_antisymm part.length_le (nodup.length_le_of_subset fun v hv => (met v).2 (all v hv))

end Rows

/-- The graph of a layout is what the list of its edges gives. -/
theorem consistent_layout {K : Type} [VertexKey K] {a : Arena (Clique K)} {selected : List Edge}
    (inside : ∀ e ∈ selected, e.1 < a.size ∧ e.2 < a.size) : (layout a.keys selected).Consistent where
  rows := by
    rw [layout, Graph.ofEdgeIds_eq]
    rfl
  inside := edgeIds_layout_inside inside
  order order state := by
    rw [layout, Graph.ofEdgeIds_eq] at state
    cases state

namespace JunctionTree
variable {K : Type} [VertexKey K] {t : JunctionTree K} {x : K} {c d : Clique K} {i j : Nat}

/-- The rows of the tree are those of its edges, and the members of each of its cliques ascend. -/
structure Legible (t : JunctionTree K) : Prop where
  consistent : t.graph.Consistent
  canonical : ∀ c ∈ t.cliques, c.IsCanonical

namespace Legible

theorem mem_holders_iff (h : t.Legible) : i ∈ t.holders x ↔ ∃ c, t.graph.arena.key? i = some c ∧ x ∈ c.members := by
  rw [holders, List.mem_filter, Option.any_eq_true]
  constructor
  · rintro ⟨_, c, hc, found⟩
    exact ⟨c, hc, (Clique.contains_iff (h.canonical c (Arena.mem_keys_iff.2 ⟨i, hc⟩))).1 found⟩
  · rintro ⟨c, hc, member⟩
    refine ⟨List.mem_range.2 (Arena.lt_size hc), c, hc, ?_⟩
    exact (Clique.contains_iff (h.canonical c (Arena.mem_keys_iff.2 ⟨i, hc⟩))).2 member

/-- Ways through the ids of the cliques that hold a key are ways through these cliques. -/
theorem reach_iff (h : t.Legible) (hi : t.graph.arena.key? i = some c) (hj : t.graph.arena.key? j = some d) :
    ReflTransGen (t.graph.neighbourRows.LinkedAmong (t.holders x)) i j ↔ ReflTransGen (t.StepWith x) c d := by
  constructor
  · intro reach
    induction reach generalizing d with
    | refl => rw [Option.some.inj (hi.symm.trans hj)]
    | tail _ step ih =>
      obtain ⟨hu, hv, link⟩ := step
      obtain ⟨e, he, xe⟩ := h.mem_holders_iff.1 hu
      obtain ⟨d', hd', xd⟩ := h.mem_holders_iff.1 hv
      obtain rfl := Option.some.inj (hj.symm.trans hd')
      refine (ih he).tail ⟨Arena.mem_keys_iff.2 ⟨_, he⟩, Arena.mem_keys_iff.2 ⟨_, hj⟩, ?_, xe, xd⟩
      exact (h.consistent.linked_iff he hj).1 link
  · intro way
    induction way generalizing j with
    | refl => rw [Arena.key?_inj hi hj]
    | tail _ step ih =>
      obtain ⟨he, _, touching, xe, xd⟩ := step
      obtain ⟨u, hu⟩ := Arena.mem_keys_iff.1 he
      refine (ih hu).tail ⟨h.mem_holders_iff.2 ⟨_, hu, xe⟩, h.mem_holders_iff.2 ⟨_, hj, xd⟩, ?_⟩
      exact (h.consistent.linked_iff hu hj).2 touching

/-- The walk for a key meets all cliques that hold it exactly when every two of them are connected through such. -/
theorem holdsTogether_iff (h : t.Legible) : t.holdsTogether x = true ↔
    ∀ c ∈ t.cliques, ∀ d ∈ t.cliques, x ∈ c.members → x ∈ d.members → ReflTransGen (t.StepWith x) c d := by
  have nodup : (t.holders x).Nodup := List.nodup_range.filter _
  have held : ∀ {c}, c ∈ t.cliques → x ∈ c.members → ∃ i ∈ t.holders x, t.graph.arena.key? i = some c := by
    intro c hc xc
    obtain ⟨i, hi⟩ := Arena.mem_keys_iff.1 hc
    exact ⟨i, h.mem_holders_iff.2 ⟨c, hi, xc⟩, hi⟩
  rw [holdsTogether]
  cases listed : t.holders x with
  | nil =>
    refine iff_of_true rfl fun c hc _ _ xc _ => ?_
    obtain ⟨i, member, _⟩ := held hc xc
    simp [listed] at member
  | cons first rest =>
    have start : first ∈ t.holders x := listed ▸ List.mem_cons_self
    have : Std.Symm (t.graph.neighbourRows.LinkedAmong (t.holders x)) := h.consistent.wellFormed.symm.linkedAmong
    simp only [← listed, decide_eq_true_eq]
    rw [Rows.length_restrict_breadthFirst_eq_iff nodup start]
    constructor
    · intro all c hc d hd xc xd
      obtain ⟨i, hi, named⟩ := held hc xc
      obtain ⟨j, hj, named'⟩ := held hd xd
      have back := Std.Symm.symm (r := ReflTransGen (t.graph.neighbourRows.LinkedAmong (t.holders x))) _ _ (all i hi)
      exact (h.reach_iff named named').1 (back.trans (all j hj))
    · intro all j hj
      obtain ⟨c, hc, xc⟩ := h.mem_holders_iff.1 start
      obtain ⟨d, hd, xd⟩ := h.mem_holders_iff.1 hj
      exact (h.reach_iff hc hd).2 (all c (Arena.mem_keys_iff.2 ⟨_, hc⟩) d (Arena.mem_keys_iff.2 ⟨_, hd⟩) xc xd)

end Legible

/-- **The check of running intersection.** Let different cliques, each made from keys, be laid out along selected edges,
whether these share much or nothing. The check holds exactly when every two of the cliques that have a key in common are
connected along edges of the tree between cliques that hold the key. So it fails when two of them are not even joined. -/
theorem runningIntersection_iff {cliques : List (Clique K)} (nodup : cliques.Nodup)
    (made : ∀ c ∈ cliques, ∃ keys, c = Clique.ofList keys) {selected : List Edge}
    (inside : ∀ e ∈ selected, e.1 < cliques.length ∧ e.2 < cliques.length) (hash : String) {t : JunctionTree K}
    (laidOut : t = ⟨layout cliques.toArray selected, hash⟩) :
    (t.runningIntersection = true ↔
      ∀ x, ∀ c ∈ cliques, ∀ d ∈ cliques, x ∈ c.members → x ∈ d.members → ReflTransGen (t.StepWith x) c d) ∧
    ∀ x, ∀ c ∈ cliques, ∀ d ∈ cliques, x ∈ c.members → x ∈ d.members → ¬ Joined t.edges c d →
      t.runningIntersection = false := by
  obtain ⟨a, keys⟩ : ∃ a : Arena (Clique K), a.keys = cliques.toArray := ⟨⟨cliques.toArray, nodup⟩, rfl⟩
  have size : a.size = cliques.length := congrArg Array.size keys
  rw [← size] at inside
  rw [← keys] at laidOut
  have listed : ∀ c, c ∈ t.cliques ↔ c ∈ cliques := by
    intro c
    rw [laidOut, JunctionTree.cliques, (vertices_layout_perm inside).mem_iff, keys]
  have legible : t.Legible := by
    refine ⟨laidOut ▸ consistent_layout inside, fun c hc => ?_⟩
    obtain ⟨keys, rfl⟩ := made c ((listed c).1 hc)
    exact Clique.isCanonical_ofList keys
  have check_iff : t.runningIntersection = true ↔
      ∀ x, ∀ c ∈ cliques, ∀ d ∈ cliques, x ∈ c.members → x ∈ d.members → ReflTransGen (t.StepWith x) c d := by
    rw [runningIntersection, List.all_eq_true]
    simp only [mem_distinct, List.mem_flatMap, legible.holdsTogether_iff, listed]
    constructor
    · exact fun all x c hc d hd xc xd => all x ⟨c, hc, xc⟩ c hc d hd xc xd
    · exact fun all x _ => all x
  refine ⟨check_iff, fun x c hc d hd xc xd apart => Bool.eq_false_iff.2 fun holds => apart ?_⟩
  exact ReflTransGen.mono (fun _ _ step => step.2.2.1) _ _ (check_iff.1 holds x c hc d hd xc xd)

/-- Three cliques, of which each shares a key with the next. -/
def threeCliques (last : Char) : List (Clique Char) := [['b', 'a'], ['b', 'c'], [last, 'c']].map Clique.ofList

/-- Along a way through the three the check holds, unless the last shares with the first what the middle one lacks. When
the last one is left apart, its share with the middle one is found missing. -/
theorem threeCliques_runningIntersection : (threeCliques 'a').Nodup ∧ (threeCliques 'd').Nodup ∧
    (∀ last, (∀ c ∈ threeCliques last, ∃ keys, c = Clique.ofList keys) ∧
      ∀ e ∈ [(0, 1), (1, 2)], e.1 < (threeCliques last).length ∧ e.2 < (threeCliques last).length) ∧
    (¬ ∀ x, ∀ c ∈ threeCliques 'a', ∀ d ∈ threeCliques 'a', x ∈ c.members → x ∈ d.members → ReflTransGen
      (StepWith ⟨layout (threeCliques 'a').toArray [(0, 1), (1, 2)], "way"⟩ x) c d) ∧
    (∀ x, ∀ c ∈ threeCliques 'd', ∀ d ∈ threeCliques 'd', x ∈ c.members → x ∈ d.members → ReflTransGen
      (StepWith ⟨layout (threeCliques 'd').toArray [(0, 1), (1, 2)], "way"⟩ x) c d) ∧
    (⟨layout (threeCliques 'd').toArray [(0, 1)], "apart"⟩ : JunctionTree Char).runningIntersection = false := by
  have nodup : (threeCliques 'a').Nodup := by decide +kernel
  have nodup' : (threeCliques 'd').Nodup := by decide +kernel
  have made : ∀ last, ∀ c ∈ threeCliques last, ∃ keys, c = Clique.ofList keys := by
    intro last c hc
    obtain ⟨keys, _, rfl⟩ := List.mem_map.1 hc
    exact ⟨keys, rfl⟩
  have inside : ∀ last, ∀ e ∈ [(0, 1), (1, 2)], e.1 < (threeCliques last).length ∧ e.2 < (threeCliques last).length := by
    intro last
    have three : (threeCliques last).length = 3 := rfl
    rw [three]
    decide
  have part : ∀ e ∈ [(0, 1)], e.1 < (threeCliques 'd').length ∧ e.2 < (threeCliques 'd').length := by decide
  have broken := runningIntersection_iff nodup (made 'a') (inside 'a') "way" rfl
  have whole := runningIntersection_iff nodup' (made 'd') (inside 'd') "way" rfl
  have parted := runningIntersection_iff nodup' (made 'd') part "apart" rfl
  refine ⟨nodup, nodup', fun last => ⟨made last, inside last⟩, fun all => ?_, whole.1.1 (by cbv), ?_⟩
  · have fails : (⟨layout (threeCliques 'a').toArray [(0, 1), (1, 2)], "way"⟩ : JunctionTree Char).runningIntersection =
        false := by cbv
    exact Bool.false_ne_true (fails.symm.trans (broken.1.2 all))
  · have edges : (⟨layout (threeCliques 'd').toArray [(0, 1)], "apart"⟩ : JunctionTree Char).edges =
        [(⟨['a', 'b']⟩, ⟨['b', 'c']⟩)] := by cbv
    refine parted.2 'c' ⟨['b', 'c']⟩ (by decide +kernel) ⟨['c', 'd']⟩ (by decide +kernel) (by decide) (by decide) ?_
    rw [edges]
    exact fun way => way.closed (P := (· ≠ ⟨['c', 'd']⟩)) (by decide) (by decide) rfl

end JunctionTree
end CliqueTree
