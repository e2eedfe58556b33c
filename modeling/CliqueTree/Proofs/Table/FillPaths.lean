import CliqueTree.Proofs.Table.FillLinks
import Mathlib.Data.Finset.Max

/-!
# Which pairs the elimination game links

Two vertices are linked after the game when they were before, or when a path through vertices that leave before both of
them leads from one to the other (`fill_exact`). Each link of the game stands for such a path: it joins two neighbours of
a vertex that has left, and the paths of the two links to that vertex make one path (`Rows.Filled.exists_walk`). Each
such path leaves a link: of its inner vertices take the one that leaves last; the two parts of the path before and behind
it are shorter paths of the same kind, so both ends are linked to it, and then to each other (`linked_of_early`). Neither
needs every vertex to leave, nor to leave once.

The game notes what it links. A pair is noted when it is linked, and it is linked when it was not, so no pair is noted
twice (`Records`).
-/

set_option autoImplicit false

namespace CliqueTree

section Chains
variable {α : Type} {R : α → α → Prop}

/-- A walk between two different ends can do without repeats, and passes nothing new then. -/
theorem exists_nodup_chain {inner : List α} {a b : α} (ne : a ≠ b) (chain : (a :: inner ++ [b]).IsChain R) :
    ∃ short, short ⊆ inner ∧ (a :: short ++ [b]).Nodup ∧ (a :: short ++ [b]).IsChain R := by
  induction inner generalizing a with
  | nil => exact ⟨[], List.Subset.refl _, by simpa using ne, chain⟩
  | cons c inner ih =>
    obtain ⟨step, rest⟩ := List.isChain_cons_cons.1 chain
    by_cases last : c = b
    · subst last
      exact ⟨[], List.nil_subset _, by simpa using ne, by simpa using step⟩
    · obtain ⟨short, inside, nodup, path⟩ := ih last rest
      have inside : c :: short ⊆ c :: inner := List.cons_subset_cons c inside
      by_cases again : a ∈ c :: short
      · -- the walk comes back to where it started: the part from there on is enough
        obtain ⟨before, after, split⟩ := List.append_of_mem again
        have suffix : a :: after ++ [b] <:+ c :: short ++ [b] := ⟨before, by rw [split]; simp⟩
        have kept : after ⊆ c :: short := by
          rw [split]
          intro x hx
          exact List.mem_append_right before (List.mem_cons_of_mem a hx)
        exact ⟨after, List.Subset.trans kept inside, nodup.sublist suffix.sublist, path.suffix suffix⟩
      · refine ⟨c :: short, inside, ?_, List.isChain_cons_cons.2 ⟨step, path⟩⟩
        rw [List.cons_append, List.nodup_cons]
        refine ⟨fun there => ?_, nodup⟩
        rcases List.mem_append.1 there with there | there
        · exact again there
        · exact ne (List.mem_singleton.1 there)

end Chains

/-- The list up to the first turn of a vertex lists just those whose first turn is no later. -/
theorem exists_first_turn {order : List Nat} {w : Nat} (h : w ∈ order) :
    ∃ before after, order = before ++ w :: after ∧ ∀ v, v ∉ before ++ [w] ↔ order.idxOf w < order.idxOf v := by
  have inside := List.idxOf_lt_length_of_mem h
  have upTo : order.take (order.idxOf w) ++ [w] = order.take (order.idxOf w + 1) := by
    rw [List.take_add_one, List.getElem?_eq_getElem inside, List.getElem_idxOf inside, Option.toList_some]
  refine ⟨order.take (order.idxOf w), order.drop (order.idxOf w + 1), ?_, fun v => ?_⟩
  · rw [List.append_cons, upTo, List.take_append_drop]
  · rw [upTo, (List.take_prefix _ order).mem_iff_idxOf_lt_length, List.length_take]
    omega

/-- A vertex comes before another when its first turn does, where the turn of one that never leaves comes last. -/
theorem precedes_iff {order : List Nat} {w v : Nat} : Precedes order w v ↔ order.idxOf w < order.idxOf v := by
  constructor
  · rintro ⟨before, after, rfl, fresh⟩
    have start : before ++ [w] <+: before ++ w :: after := ⟨after, by simp⟩
    have first := (start.mem_iff_idxOf_lt_length w).1 (by simp)
    have second := (start.mem_iff_idxOf_lt_length v).not.1 fresh
    omega
  · intro less
    have listed : w ∈ order := List.idxOf_lt_length_iff.1 (Nat.lt_of_lt_of_le less List.idxOf_le_length)
    obtain ⟨before, after, split, fresh⟩ := exists_first_turn listed
    exact ⟨before, after, split, (fresh v).2 less⟩

namespace Rows
variable {r t : Rows} {order : List Nat} {a b u w : Nat} {inner : List Nat}

/-- A path without repeats between two vertices, along which every inner vertex leaves before both ends. A vertex
leaves at its first place in the order, and after all others when it has none. -/
structure EarlyPath (r : Rows) (order : List Nat) (u w : Nat) (inner : List Nat) : Prop where
  nodup : (u :: inner ++ [w]).Nodup
  linked : (u :: inner ++ [w]).IsChain r.Linked
  early : ∀ x ∈ inner, order.idxOf x < order.idxOf u ∧ order.idxOf x < order.idxOf w

/-- A link that is filled in stands for a walk through vertices that leave before its ends. -/
theorem Filled.exists_walk (symm : r.Symmetric) (h : r.Filled order a b) :
    ∃ inner, (a :: inner ++ [b]).IsChain r.Linked ∧
      ∀ x ∈ inner, order.idxOf x < order.idxOf a ∧ order.idxOf x < order.idxOf b := by
  induction h with
  | old link => exact ⟨[], by simpa using link, by simp⟩
  | @new w a b beforeA beforeB _ _ toA toB =>
    obtain ⟨first, chainA, earlyA⟩ := toA
    obtain ⟨second, chainB, earlyB⟩ := toB
    rw [precedes_iff] at beforeA beforeB
    have back : (a :: first.reverse ++ [w]).IsChain r.Linked := by
      have turned : (w :: first ++ [a]).reverse.IsChain r.Linked :=
        List.isChain_reverse.2 (chainA.imp fun x y link => symm x y link)
      simpa using turned
    refine ⟨first.reverse ++ w :: second, ?_, fun x hx => ?_⟩
    · have whole := @List.IsChain.append_overlap _ _ (a :: first.reverse) [w] (second ++ [b]) back chainB (by simp)
      simpa using whole
    · rcases List.mem_append.1 hx with hx | hx
      · have := earlyA x (List.mem_reverse.1 hx)
        omega
      · rcases List.mem_cons.1 hx with rfl | hx
        · exact ⟨beforeA, beforeB⟩
        · have := earlyB x hx
          omega

theorem Filled.exists_earlyPath (symm : r.Symmetric) (ne : a ≠ b) (h : r.Filled order a b) :
    ∃ inner, r.EarlyPath order a b inner := by
  obtain ⟨walk, chain, early⟩ := h.exists_walk symm
  obtain ⟨inner, inside, nodup, path⟩ := exists_nodup_chain ne chain
  exact ⟨inner, nodup, path, fun x hx => early x (inside hx)⟩

namespace EarlyPath

/-- At the inner vertex that leaves last a path falls into two of the same kind. -/
theorem exists_split (path : r.EarlyPath order u w inner) (some : inner ≠ []) :
    ∃ before x after, inner = before ++ x :: after ∧ r.EarlyPath order u x before ∧ r.EarlyPath order x w after := by
  obtain ⟨x, hx, last⟩ := Finset.exists_max_image inner.toFinset (order.idxOf ·) (by simpa using some)
  rw [List.mem_toFinset] at hx
  obtain ⟨before, after, rfl⟩ := List.append_of_mem hx
  obtain ⟨nodup, linked, early⟩ := path
  have before_last : ∀ y ∈ before ++ x :: after, y ≠ x → order.idxOf y < order.idxOf x := by
    intro y hy ne
    have le : order.idxOf y ≤ order.idxOf x := last y (List.mem_toFinset.2 hy)
    have listed : y ∈ order := List.idxOf_lt_length_iff.1 (Nat.lt_of_lt_of_le (early y hy).1 List.idxOf_le_length)
    refine Nat.lt_of_le_of_ne le fun same => ne ((List.idxOf_inj listed).1 same)
  have first : u :: before ++ [x] <+: u :: (before ++ x :: after) ++ [w] := ⟨after ++ [w], by simp⟩
  have second : x :: after ++ [w] <:+ u :: (before ++ x :: after) ++ [w] := ⟨u :: before, by simp⟩
  have nodup₁ := nodup.sublist first.sublist
  have nodup₂ := nodup.sublist second.sublist
  refine ⟨before, x, after, rfl, ⟨nodup₁, linked.prefix first, fun y hy => ?_⟩,
    ⟨nodup₂, linked.suffix second, fun y hy => ?_⟩⟩
  · have member : y ∈ before ++ x :: after := List.mem_append_left _ hy
    refine ⟨(early y member).1, before_last y member ?_⟩
    rintro rfl
    exact (List.nodup_append.1 nodup₁).2.2 y (List.mem_cons_of_mem u hy) y List.mem_cons_self rfl
  · have member : y ∈ before ++ x :: after := List.mem_append_right _ (List.mem_cons_of_mem x hy)
    refine ⟨before_last y member ?_, (early y member).2⟩
    rintro rfl
    exact (List.nodup_cons.1 nodup₂).1 (List.mem_append_left _ hy)

/-- Where every two later neighbours of a vertex are linked, so are the ends of the path. -/
theorem linked_ends (path : r.EarlyPath order u w inner) (symm : t.Symmetric)
    (mono : ∀ {a b}, r.Linked a b → t.Linked a b)
    (closed : ∀ {v a b}, Precedes order v a → Precedes order v b → a ≠ b → t.Linked v a → t.Linked v b → t.Linked a b) :
    t.Linked u w := by
  generalize long : inner.length = n
  induction n using Nat.strong_induction_on generalizing u w inner with
  | _ n ih =>
    by_cases none : inner = []
    · subst none
      exact mono (by simpa using path.linked)
    · obtain ⟨before, x, after, rfl, first, second⟩ := path.exists_split none
      rw [List.length_append, List.length_cons] at long
      have toU : t.Linked x u := symm u x (ih before.length (by omega) first rfl)
      have toW : t.Linked x w := ih after.length (by omega) second rfl
      have early := path.early x (by simp)
      have ne : u ≠ w := by
        rintro rfl
        exact (List.nodup_cons.1 path.nodup).1 (by simp)
      exact closed (precedes_iff.2 early.1) (precedes_iff.2 early.2) ne toU toW

end EarlyPath
end Rows

namespace Growth
open Rows (Linked Symmetric)
variable {G : Type} [NeighbourLinks G]

/-- The rows of the structure are the rows `r` with the links that were noted, each of which joined what was not
linked. -/
structure Records (r : Rows) (s : Growth G) : Prop where
  symm : s.rows.Symmetric
  size : s.rows.size = r.size
  links : ∀ u v, s.rows.Linked u v ↔ r.Linked u v ∨ Touching s.added.toList u v
  fresh : ∀ e ∈ s.added.toList, e.1 ≠ e.2 ∧ ¬ r.Linked e.1 e.2
  once : (s.added.toList.map fun e => s(e.1, e.2)).Nodup

namespace Records
variable {r : Rows} {s : Growth G}

theorem start {g : G} (symm : (NeighbourLinks.neighbours g).Symmetric) :
    Records (NeighbourLinks.neighbours g) (⟨g, #[]⟩ : Growth G) where
  symm := symm
  size := rfl
  links u v := by
    show (NeighbourLinks.neighbours g).Linked u v ↔ _
    simp [Touching]
  fresh e he := by simp at he
  once := by simp

theorem fillPair (h : Records r s) {p : Edge} (h1 : p.1 < r.size) (h2 : p.2 < r.size) : Records r (s.fillPair p) := by
  unfold Growth.fillPair
  split
  · exact h
  next new =>
    have ne : p.1 ≠ p.2 := fun same => new (.inl same)
    have apart : ¬ s.rows.Linked p.1 p.2 := fun link => new (.inr link)
    have linked : rows ⟨NeighbourLinks.link s.graph p.1 p.2, s.added.push p⟩ =
        NeighbourLinks.link s.rows p.1 p.2 := NeighbourLinks.neighbours_link s.graph p.1 p.2
    have noted : (s.added.push p).toList = s.added.toList ++ [p] := Array.toList_push
    rw [← h.size] at h1 h2
    have unlinked : ¬ r.Linked p.1 p.2 := fun link => apart ((h.links _ _).2 (.inl link))
    have grown : Rows.Grown s.rows (NeighbourLinks.link s.rows p.1 p.2) (fun _ _ => True) :=
      .link h.symm h1 h2 trivial trivial
    constructor
    · rw [linked]
      exact grown.symm
    · rw [linked, Rows.size_link, h.size]
    · intro u v
      rw [linked, Rows.linked_link h1 h2, noted, Touching.concat_iff, h.links, or_assoc]
    · intro e he
      rw [noted, List.mem_append, List.mem_singleton] at he
      rcases he with old | rfl
      · exact h.fresh e old
      · exact ⟨ne, unlinked⟩
    · rw [noted]
      exact nodup_sym2_concat h.once fun again => apart ((h.links _ _).2 (.inr again))

theorem foldl_fillPair {ps : List Edge} (h : Records r s) (inside : ∀ p ∈ ps, p.1 < r.size ∧ p.2 < r.size) :
    Records r (ps.foldl Growth.fillPair s) := by
  induction ps generalizing s with
  | nil => exact h
  | cons p ps ih =>
    obtain ⟨h1, h2⟩ := inside p List.mem_cons_self
    exact ih (h.fillPair h1 h2) fun q hq => inside q (List.mem_cons_of_mem p hq)

theorem eliminate (order : List Nat) {gone : List Nat} (h : Records r s) : Records r (s.eliminate gone order) := by
  induction order generalizing gone s with
  | nil => exact h
  | cons v order ih =>
    have small : ∀ a ∈ (s.rows.get v).filter (· ∉ v :: gone), a < r.size := by
      intro a ha
      rw [← h.size]
      exact h.symm.lt_size (List.mem_of_mem_filter ha : s.rows.Linked v a)
    refine ih (h.foldl_fillPair fun p hp => ?_)
    obtain ⟨first, second⟩ := mem_of_mem_pairs hp
    exact ⟨small _ first, small _ second⟩

/-- The pairs that were noted are those that are linked and were not. -/
theorem mem_pairs_iff (h : Records r s) (symm : r.Symmetric) {u v : Nat} :
    s(u, v) ∈ s.added.toList.map (fun e => s(e.1, e.2)) ↔ u ≠ v ∧ s.rows.Linked u v ∧ ¬ r.Linked u v :=
  mem_map_sym2_iff_of_fresh symm h.fresh (h.links u v)

end Records

/-- Every two neighbours of a vertex that come after it in the order are linked after the game. -/
theorem linked_of_precedes {order : List Nat} {s : Growth G} (symm : s.rows.Symmetric) {v a b : Nat}
    (beforeA : Precedes order v a) (beforeB : Precedes order v b) (ne : a ≠ b)
    (toA : (s.eliminate [] order).rows.Linked v a) (toB : (s.eliminate [] order).rows.Linked v b) :
    (s.eliminate [] order).rows.Linked a b := by
  rw [precedes_iff] at beforeA beforeB
  have listed : v ∈ order := List.idxOf_lt_length_iff.1 (Nat.lt_of_lt_of_le beforeA List.idxOf_le_length)
  obtain ⟨before, after, split, fresh⟩ := exists_first_turn listed
  exact (eliminate_closed order symm).2 before v after split a b ⟨ne, (fresh a).2 beforeA, (fresh b).2 beforeB⟩ toA toB

/-- After the game two vertices are linked that were linked, or that a path through earlier vertices joins. -/
theorem linked_eliminate_iff {s : Growth G} (symm : s.rows.Symmetric) (order : List Nat) {u w : Nat} (ne : u ≠ w) :
    (s.eliminate [] order).rows.Linked u w ↔ s.rows.Linked u w ∨ ∃ inner, s.rows.EarlyPath order u w inner := by
  have game : Rows.Grown s.rows (s.eliminate [] order).rows (Staying []) := (eliminate_closed order symm).1
  constructor
  · intro link
    exact .inr (((eliminate_filledIn symm order).only u w link).exists_earlyPath symm ne)
  · rintro (link | ⟨inner, path⟩)
    · exact game.mono link
    · exact path.linked_ends game.symm game.mono (linked_of_precedes symm)

end Growth

open Rows (EarlyPath)
open NeighbourLinks (neighbours)

/-- **Exact fill.** On rows in which every neighbour names back, with repeats and loops or without, the game is played
to its end in any order of ids that have rows. Two different vertices are linked afterwards if and only if they were
linked before, or a path of the rows before the game leads from one to the other through vertices that leave before both
of them. The links that were added are, each once, the pairs of different vertices that are linked afterwards and were
not before. -/
theorem fill_exact {G : Type} [NeighbourLinks G] {g : G} (symm : (neighbours g).Symmetric)
    {order : List Nat} (inside : ∀ v ∈ order, v < (neighbours g).size) :
    ∃ s : Growth G, fill g order = .ok s ∧
      (∀ u w, u ≠ w → ((neighbours s.graph).Linked u w ↔ (neighbours g).Linked u w ∨
        ∃ inner, EarlyPath (neighbours g) order u w inner)) ∧
      (s.added.toList.map fun e => s(e.1, e.2)).Nodup ∧
      ∀ u w, s(u, w) ∈ s.added.toList.map (fun e => s(e.1, e.2)) ↔
        u ≠ w ∧ (neighbours s.graph).Linked u w ∧ ¬ (neighbours g).Linked u w := by
  have records : Growth.Records (neighbours g) (Growth.eliminate [] ⟨g, #[]⟩ order) :=
    (Growth.Records.start symm).eliminate order
  refine ⟨_, fill_eq symm inside, fun u w ne => ?_, records.once, fun u w => records.mem_pairs_iff symm⟩
  exact Growth.linked_eliminate_iff (s := ⟨g, #[]⟩) symm order ne

/-- The rows of a graph of five vertices with a double edge, a loop and a vertex alone. -/
def chainRows : Rows :=
  ([(0, 3), (0, 1), (1, 0), (1, 4), (4, 4)] : List Edge).foldl (fun r e => NeighbourLinks.link r e.1 e.2) (.blank 5)

/-- In an order that lists a vertex twice and leaves three out, the second link comes from the first: the path from 3 to 4
runs through both vertices that leave. The path from 0 to 4 runs through one that leaves after 0, and gives no link. -/
theorem chainRows_fill : chainRows.Symmetric ∧ (∀ v ∈ [0, 1, 0], v < chainRows.size) ∧
    ∃ s : Growth Rows, fill chainRows [0, 1, 0] = .ok s ∧ s.added.toList = [(3, 1), (4, 3)] ∧
      (∃ inner, EarlyPath chainRows [0, 1, 0] 3 4 inner) ∧ ¬ ∃ inner, EarlyPath chainRows [0, 1, 0] 0 4 inner := by
  have symm : chainRows.Symmetric := (Rows.linked_foldl_link_blank (by decide)).2.1
  have inside : ∀ v ∈ [0, 1, 0], v < chainRows.size := by decide
  obtain ⟨s, played, linked, once, added⟩ := fill_exact (g := chainRows) symm inside
  have run : fill chainRows [0, 1, 0] =
      .ok ⟨⟨#[[3, 1, 1], [0, 0, 4, 3], [], [0, 1, 4], [1, 4, 4, 3]]⟩, #[(3, 1), (4, 3)]⟩ := by rfl
  obtain rfl := Except.ok.inj (played.symm.trans run)
  have apart : ¬ chainRows.Linked 3 4 := by
    rw [Rows.Linked]
    decide
  have alone : ¬ Rows.Linked ⟨#[[3, 1, 1], [0, 0, 4, 3], [], [0, 1, 4], [1, 4, 4, 3]]⟩ 0 4 := by
    rw [Rows.Linked]
    decide
  refine ⟨symm, inside, _, played, rfl, ?_, fun path => ?_⟩
  · refine ((linked 3 4 (by decide)).1 ?_).resolve_left apart
    show 4 ∈ [0, 1, 4]
    decide
  · exact alone ((linked 0 4 (by decide)).2 (.inr path))

end CliqueTree
