import CliqueTree.Proofs.Chordal
import CliqueTree.Proofs.Table.Neighbours
import CliqueTree.Table.Fill

/-!
# What the elimination game leaves

When a vertex leaves, links are added between its neighbours that are still there. No later link touches a
vertex that has left, so its row is final, and its neighbours after it stay linked to each other: the order
of the game is perfect for the rows that it leaves (`eliminate_spec`). The invariant is stated on the rows
alone, so it holds for any structure that takes up links.
-/

set_option autoImplicit false

namespace CliqueTree
namespace Growth
open Rows (Linked Symmetric Grown)

section Laws
variable {G : Type} [NeighbourLinks G]

/-- The rows of the structure. -/
def rows (s : Growth G) : Rows := NeighbourLinks.neighbours s.graph

/-- Looking at a pair links its ends, unless they are one. -/
theorem fillPair_spec {s : Growth G} (symm : s.rows.Symmetric) {p : Edge} (h1 : p.1 < s.rows.size)
    (h2 : p.2 < s.rows.size) :
    Grown s.rows (s.fillPair p).rows (DifferIn [p.1, p.2]) ∧
      (p.1 ≠ p.2 → (s.fillPair p).rows.Linked p.1 p.2) := by
  unfold fillPair
  split
  next idle =>
    refine ⟨.refl symm, fun ne => ?_⟩
    exact idle.resolve_left ne
  next new =>
    have ne : p.1 ≠ p.2 := fun same => new (.inl same)
    have linked : rows ⟨NeighbourLinks.link s.graph p.1 p.2, s.added.push p⟩ =
        NeighbourLinks.link s.rows p.1 p.2 := NeighbourLinks.neighbours_link s.graph p.1 p.2
    rw [linked]
    refine ⟨.link symm h1 h2 ⟨ne, by simp, by simp⟩ ⟨ne.symm, by simp, by simp⟩, fun _ => ?_⟩
    exact (Rows.linked_link h1 h2).2 (.inr (.inl ⟨rfl, rfl⟩))

/-- Looking at every pair of a list links the ends of each. -/
theorem foldl_fillPair_spec (ps : List Edge) {s : Growth G} (symm : s.rows.Symmetric) {l : List Nat}
    (inside : ∀ v ∈ l, v < s.rows.size) (ends : ∀ p ∈ ps, p.1 ∈ l ∧ p.2 ∈ l) :
    Grown s.rows (ps.foldl fillPair s).rows (DifferIn l) ∧
      ∀ p ∈ ps, p.1 ≠ p.2 → (ps.foldl fillPair s).rows.Linked p.1 p.2 := by
  induction ps generalizing s with
  | nil => exact ⟨.refl symm, fun p hp => absurd hp List.not_mem_nil⟩
  | cons p ps ih =>
    obtain ⟨h1, h2⟩ := ends p List.mem_cons_self
    obtain ⟨first, linked⟩ := fillPair_spec symm (inside _ h1) (inside _ h2)
    have first : Grown s.rows (s.fillPair p).rows (DifferIn l) := by
      refine first.weaken fun ⟨ne, hu, hv⟩ => ⟨ne, ?_, ?_⟩
      · rcases List.mem_pair.1 hu with rfl | rfl <;> assumption
      · rcases List.mem_pair.1 hv with rfl | rfl <;> assumption
    obtain ⟨rest, all⟩ := ih first.symm (fun v hv => first.size ▸ inside v hv)
      fun q hq => ends q (List.mem_cons_of_mem p hq)
    refine ⟨first.trans rest, fun q hq ne => ?_⟩
    rcases List.mem_cons.1 hq with rfl | later
    · exact rest.mono (linked ne)
    · exact all q later ne

/-- A list of ids becomes complete, and nothing else is linked. -/
theorem fillAmong_spec {s : Growth G} (symm : s.rows.Symmetric) {l : List Nat}
    (inside : ∀ v ∈ l, v < s.rows.size) :
    Grown s.rows (s.fillAmong l).rows (DifferIn l) ∧
      ∀ a ∈ l, ∀ b ∈ l, a ≠ b → (s.fillAmong l).rows.Linked a b := by
  obtain ⟨grown, linked⟩ := foldl_fillPair_spec (pairs l) symm inside fun _ => mem_of_mem_pairs
  refine ⟨grown, fun a ha b hb ne => ?_⟩
  rcases mem_pairs ha hb ne with forth | back
  · exact linked _ forth ne
  · exact grown.symm _ _ (linked _ back ne.symm)

/-- Two ids that differ and have not left. -/
def Staying (gone : List Nat) (u v : Nat) : Prop := u ≠ v ∧ u ∉ gone ∧ v ∉ gone

/-- The game links ids that have not left. Afterwards every two neighbours of a vertex that have not left when its turn
is over are linked, also when the order lists the vertex again or leaves vertices out. -/
theorem eliminate_closed (order : List Nat) {gone : List Nat} {s : Growth G} (symm : s.rows.Symmetric) :
    Grown s.rows (s.eliminate gone order).rows (Staying gone) ∧
      ∀ before v after, order = before ++ v :: after → ∀ a b, Staying (gone ++ before ++ [v]) a b →
        (s.eliminate gone order).rows.Linked v a → (s.eliminate gone order).rows.Linked v b →
          (s.eliminate gone order).rows.Linked a b := by
  induction order generalizing gone s with
  | nil => exact ⟨.refl symm, fun before v after split => by simp at split⟩
  | cons v order ih =>
    let row := (s.rows.get v).filter (· ∉ v :: gone)
    have mem_row : ∀ a, a ∈ row ↔ s.rows.Linked v a ∧ a ≠ v ∧ a ∉ gone := by
      intro a
      simp [row, Linked]
    obtain ⟨first, complete⟩ := fillAmong_spec (l := row) symm fun a ha => symm.lt_size ((mem_row a).1 ha).1
    obtain ⟨rest, closed⟩ := @ih (v :: gone) (s.fillAmong row) first.symm
    have turn : s.eliminate gone (v :: order) = (s.fillAmong row).eliminate (v :: gone) order := rfl
    rw [turn]
    generalize ((s.fillAmong row).eliminate (v :: gone) order).rows = final at *
    have grown : Grown s.rows final (Staying gone) := by
      refine (first.weaken ?_).trans (rest.weaken ?_)
      · rintro a b ⟨ne, ha, hb⟩
        exact ⟨ne, ((mem_row a).1 ha).2.2, ((mem_row b).1 hb).2.2⟩
      · rintro a b ⟨ne, ha, hb⟩
        exact ⟨ne, fun left => ha (List.mem_cons_of_mem v left), fun left => hb (List.mem_cons_of_mem v left)⟩
    -- the row of `v` is final: neither the links of this step nor any later one touch it
    have settled : ∀ a, final.Linked v a → s.rows.Linked v a := by
      intro a link
      have link := (rest.only link).resolve_right fun stay => stay.2.1 List.mem_cons_self
      exact (first.only link).resolve_right fun new => ((mem_row v).1 new.2.1).2.1 rfl
    refine ⟨grown, fun before u after split a b stay => ?_⟩
    obtain ⟨ne, ha, hb⟩ := stay
    cases before with
    | nil =>
      obtain ⟨rfl, rfl⟩ := List.cons.inj split
      have staying : ∀ x, x ∉ gone ++ [] ++ [v] → final.Linked v x → x ∈ row := by
        intro x hx link
        refine (mem_row x).2 ⟨settled x link, fun same => ?_, fun left => ?_⟩
        · exact hx (by simp [same])
        · exact hx (by simp [left])
      intro va vb
      exact rest.mono (complete a (staying a ha va) b (staying b hb vb) ne)
    | cons w before =>
      obtain ⟨rfl, rfl⟩ := List.cons.inj split
      refine closed before u after rfl a b ⟨ne, fun left => ha ?_, fun left => hb ?_⟩
      · simpa [or_assoc, or_left_comm] using left
      · simpa [or_assoc, or_left_comm] using left

/-- The game links ids that have not left, and the order in which they leave becomes perfect. -/
theorem eliminate_spec (order : List Nat) {gone : List Nat} {s : Growth G} (symm : s.rows.Symmetric)
    (nodup : order.Nodup) (fresh : ∀ v ∈ order, v ∉ gone) :
    Grown s.rows (s.eliminate gone order).rows (Staying gone) ∧
      PerfectOrder (s.eliminate gone order).rows.Linked order := by
  obtain ⟨grown, closed⟩ := @eliminate_closed G _ order gone s symm
  refine ⟨grown, perfectOrder_iff.2 fun before v after split a ha b hb ne => ?_⟩
  have staying : ∀ x ∈ after, x ∉ gone ++ before ++ [v] := by
    intro x hx left
    rw [split] at nodup fresh
    rw [List.append_assoc] at left
    rcases List.mem_append.1 left with left | early
    · exact fresh x (List.mem_append_right before (List.mem_cons_of_mem v hx)) left
    · rw [List.append_cons] at nodup
      exact (List.nodup_append.1 nodup).2.2 x early x hx rfl
  exact closed before v after split a b ⟨ne, staying a ha, staying b hb⟩

/-- What looking at a pair keeps, the game keeps. -/
theorem eliminate_pairs_induction {P : Growth G → Prop} (pair : ∀ s p, P s → P (s.fillPair p)) (order : List Nat)
    {gone : List Nat} {s : Growth G} (h : P s) : P (s.eliminate gone order) := by
  have turn : ∀ (ps : List Edge) (s : Growth G), P s → P (ps.foldl fillPair s) := by
    intro ps
    induction ps with
    | nil => exact fun s hs => hs
    | cons p ps ih => exact fun s hs => ih _ (pair s p hs)
  induction order generalizing gone s with
  | nil => exact h
  | cons v order ih => exact ih (turn _ s h)

/-- What every link keeps, the game keeps. -/
theorem eliminate_induction {P : G → Prop} (link : ∀ g u v, P g → P (NeighbourLinks.link g u v))
    (order : List Nat) {gone : List Nat} {s : Growth G} (h : P s.graph) : P (s.eliminate gone order).graph := by
  refine eliminate_pairs_induction (P := fun s => P s.graph) (fun s p hs => ?_) order h
  unfold fillPair
  split
  · exact hs
  · exact link _ _ _ hs

end Laws
end Growth

/-- On symmetric rows the game is played to its end in every order of ids that have rows. -/
theorem fill_eq {G : Type} [NeighbourLinks G] {g : G} (symm : (NeighbourLinks.neighbours g).Symmetric)
    {order : List Nat} (inside : ∀ v ∈ order, v < (NeighbourLinks.neighbours g).size) :
    fill g order = .ok (Growth.eliminate [] ⟨g, #[]⟩ order) := by
  have closed : (NeighbourLinks.neighbours g).checkClosed order = .ok () :=
    Rows.checkClosed_eq_ok_iff.2 fun v hv => ⟨inside v hv, fun _ link => symm.lt_size link⟩
  rw [fill, closed]
  rfl

end CliqueTree
