import CliqueTree.Proofs.Table.Elimination

/-!
# Where the links of the elimination game come from

A link that the game adds joins two neighbours of a vertex that has left before both of them, and each of the two
links to that vertex was in the rows at first or came about in the same way (`Growth.eliminate_filled`). So the game
connects only what was connected (`Rows.Filled.connected`). It appends to the rows and moves no entry
(`Growth.get_prefix_eliminate`), and where the order is perfect from the start it adds nothing
(`Growth.eliminate_idle`).
-/

set_option autoImplicit false

namespace CliqueTree
open Relation (ReflTransGen)

/-- The order lists `w`, and up to there it does not list `v`. -/
def Precedes (order : List Nat) (w v : Nat) : Prop := ∃ before after, order = before ++ w :: after ∧ v ∉ before ++ [w]

/-- What comes before the next vertex has been listed. -/
theorem Precedes.mem {done rest : List Nat} {w v : Nat} (h : Precedes (done ++ v :: rest) w v) : w ∈ done := by
  obtain ⟨before, after, split, fresh⟩ := h
  rw [List.append_cons before] at split
  rcases List.append_eq_append_iff.1 split with ⟨more, longer, next⟩ | ⟨more, shorter, _⟩
  · cases more with
    | nil =>
      rw [List.append_nil] at longer
      rw [← longer]
      exact List.mem_append_right before List.mem_cons_self
    | cons x more =>
      -- the list up to `w` would reach beyond `done`, and so list `v`
      obtain ⟨rfl, _⟩ := List.cons.inj next
      rw [longer] at fresh
      exact absurd (List.mem_append_right done List.mem_cons_self) fresh
  · rw [shorter]
    simp

namespace Rows

/-- A link of the rows, or one between two that are linked in this sense to a vertex that comes before both. -/
inductive Filled (r : Rows) (order : List Nat) : Nat → Nat → Prop where
  | old {a b : Nat} (link : r.Linked a b) : Filled r order a b
  | new {w a b : Nat} (beforeA : Precedes order w a) (beforeB : Precedes order w b) (toA : Filled r order w a)
    (toB : Filled r order w b) : Filled r order a b

/-- Links that are filled in connect nothing that was not connected. -/
theorem Filled.connected {r : Rows} (symm : r.Symmetric) {order : List Nat} {a b : Nat} (h : r.Filled order a b) :
    ReflTransGen r.Linked a b := by
  have := symm.toSymm
  induction h with
  | old link => exact .single link
  | new _ _ _ _ toA toB => exact ReflTransGen.trans (Std.Symm.symm (r := ReflTransGen r.Linked) _ _ toA) toB

/-- The rows `t` are the rows `r` with entries appended for links that are filled in along an order. -/
structure FilledIn (r t : Rows) (order : List Nat) : Prop where
  size : t.size = r.size
  kept : ∀ v, r.get v <+: t.get v
  only : ∀ v x, t.Linked v x → r.Filled order v x

theorem get_prefix_add (r : Rows) (u v w : Nat) : r.get w <+: (r.add u v).get w := by
  rw [get_add]
  split
  · exact List.prefix_append _ _
  · exact List.prefix_refl _

end Rows

namespace Growth
open Rows (Linked Symmetric Filled)
variable {G : Type} [NeighbourLinks G]

/-- Each link that the game leaves was there at first, or joins neighbours of a vertex that left before them. -/
theorem eliminate_filled {r : Rows} {total : List Nat} (order : List Nat) {gone : List Nat} {s : Growth G}
    (listed : total = gone.reverse ++ order) (symm : s.rows.Symmetric)
    (start : ∀ a b, s.rows.Linked a b → r.Filled total a b) :
    ∀ a b, (s.eliminate gone order).rows.Linked a b → r.Filled total a b := by
  induction order generalizing gone s with
  | nil => exact start
  | cons v order ih =>
    let row := (s.rows.get v).filter (· ∉ v :: gone)
    have mem_row : ∀ a ∈ row, s.rows.Linked v a ∧ Precedes total v a := by
      intro a ha
      obtain ⟨link, fresh⟩ := List.mem_filter.1 ha
      refine ⟨link, gone.reverse, order, listed, ?_⟩
      simpa [and_comm] using fresh
    obtain ⟨grown, _⟩ := fillAmong_spec (l := row) symm fun a ha => symm.lt_size (mem_row a ha).1
    show ∀ a b, ((s.fillAmong row).eliminate (v :: gone) order).rows.Linked a b → r.Filled total a b
    refine ih (by simp [listed]) grown.symm fun a b link => ?_
    rcases grown.only link with old | ⟨_, ha, hb⟩
    · exact start a b old
    · obtain ⟨toA, beforeA⟩ := mem_row a ha
      obtain ⟨toB, beforeB⟩ := mem_row b hb
      exact .new beforeA beforeB (start v a toA) (start v b toB)

/-- The game only appends to the rows. -/
theorem get_prefix_eliminate (order : List Nat) {gone : List Nat} (s : Growth G) (v : Nat) :
    s.rows.get v <+: (s.eliminate gone order).rows.get v := by
  refine eliminate_induction (P := fun g => s.rows.get v <+: (NeighbourLinks.neighbours g).get v) (fun g u w h => ?_)
    order (List.prefix_refl _)
  rw [NeighbourLinks.neighbours_link]
  exact (h.trans (Rows.get_prefix_add _ u w v)).trans (Rows.get_prefix_add _ w u v)

/-- The game fills in along its order and moves no entry. -/
theorem eliminate_filledIn {s : Growth G} (symm : s.rows.Symmetric) (order : List Nat) :
    Rows.FilledIn s.rows (s.eliminate [] order).rows order where
  size := by
    refine eliminate_induction (P := fun g => (NeighbourLinks.neighbours g).size = s.rows.size) (fun g u v h => ?_)
      order rfl
    rw [NeighbourLinks.neighbours_link, Rows.size_add, Rows.size_add, h]
  kept := get_prefix_eliminate order s
  only := eliminate_filled order rfl symm fun _ _ => .old

theorem foldl_fillPair_idle {s : Growth G} {ps : List Edge} (linked : ∀ p ∈ ps, p.1 ≠ p.2 → s.rows.Linked p.1 p.2) :
    ps.foldl fillPair s = s := by
  induction ps with
  | nil => rfl
  | cons p ps ih =>
    have idle : s.fillPair p = s := by
      refine if_pos ?_
      by_cases same : p.1 = p.2
      · exact .inl same
      · exact .inr (linked p List.mem_cons_self same)
    rw [List.foldl_cons, idle]
    exact ih fun q hq => linked q (List.mem_cons_of_mem p hq)

/-- In a perfect order the game has nothing to add. -/
theorem eliminate_idle (order : List Nat) {gone : List Nat} {s : Growth G} (perfect : PerfectOrder s.rows.Linked order)
    (all : ∀ v a, s.rows.Linked v a → a ∈ gone ∨ a ∈ order) : s.eliminate gone order = s := by
  induction order generalizing gone with
  | nil => rfl
  | cons v order ih =>
    let row := (s.rows.get v).filter (· ∉ v :: gone)
    have mem_row : ∀ a ∈ row, s.rows.Linked v a ∧ a ∈ order := by
      intro a ha
      obtain ⟨link, fresh⟩ := List.mem_filter.1 ha
      rw [decide_eq_true_eq, List.mem_cons, not_or] at fresh
      exact ⟨link, List.mem_of_ne_of_mem fresh.1 ((all v a link).resolve_left fresh.2)⟩
    have idle : s.fillAmong row = s := by
      apply foldl_fillPair_idle
      intro p hp ne
      obtain ⟨first, second⟩ := mem_of_mem_pairs hp
      obtain ⟨toA, hA⟩ := mem_row p.1 first
      obtain ⟨toB, hB⟩ := mem_row p.2 second
      exact perfect.1 p.1 hA p.2 hB ne toA toB
    show (s.fillAmong row).eliminate (v :: gone) order = s
    rw [idle]
    refine ih perfect.2 fun u a link => ?_
    rcases all u a link with left | there
    · exact .inl (List.mem_cons_of_mem v left)
    · rcases List.mem_cons.1 there with rfl | later
      · exact .inl List.mem_cons_self
      · exact .inr later

end Growth
end CliqueTree
