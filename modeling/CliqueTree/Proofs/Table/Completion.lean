import CliqueTree.Proofs.Table.Extraction
import CliqueTree.Proofs.Table.InPlace
import Mathlib.Data.List.Dedup
import Mathlib.Data.List.TakeWhile

/-!
# Completion from an elimination order

The second pass takes its candidates from an elimination order. An id may stand there more than once; its last place
counts, so the candidates are those of the order with each id at its last place only, which Mathlib calls `List.dedup`
(`laterClique_dedup`). A candidate may then come more than once, and what was found before may be any maximal cliques, in
any order and with repeats. In each case all maximal cliques that were not found are added, each once
(`missing_completes`).

The pass writes what it finds behind what was found before, and returns how many it has written. `InPlace.complete` is the
pass with its writes; it leaves and returns what `missing` tells (`InPlace.complete_eq`).
-/

set_option autoImplicit false

namespace CliqueTree
namespace Rows
variable {r : Rows} {elimination : List Nat}

section LastPlaces

theorem after_of_notMem {order : List Nat} {v : Nat} (h : v ∉ order) : after order v = order := by
  rw [after, List.takeWhile_eq_self_iff.2 (ne_of_mem_reverse h), List.reverse_reverse]

theorem exists_last {α : Type} {l : List α} {v : α} (h : v ∈ l) :
    ∃ before later, l = before ++ v :: later ∧ v ∉ later := by
  obtain ⟨before, later, split, first⟩ := List.eq_append_cons_of_mem (List.mem_reverse.2 h)
  refine ⟨later.reverse, before.reverse, ?_, fun again => first (List.mem_reverse.1 again)⟩
  rw [← l.reverse_reverse, split]
  simp

/-- What follows the last place of an id is the same when only last places are kept. -/
theorem mem_after_dedup {v x : Nat} : x ∈ after elimination.dedup v ↔ x ∈ after elimination v := by
  by_cases h : v ∈ elimination
  · obtain ⟨before, later, rfl, fresh⟩ := exists_last h
    obtain ⟨early, whole⟩ := List.suffix_union_right before (v :: later).dedup
    rw [List.dedup_append, ← whole, List.dedup_cons_of_notMem fresh, after_eq fresh,
      after_eq (fun again => fresh (List.mem_dedup.1 again)), List.mem_dedup]
  · rw [after_of_notMem h, after_of_notMem fun again => h (List.mem_dedup.1 again), List.mem_dedup]

theorem laterClique_dedup (r : Rows) (elimination : List Nat) (v : Nat) :
    r.laterClique elimination.dedup v = r.laterClique elimination v := by
  refine (isAscending_laterClique r _ v).ext (isAscending_laterClique r _ v) fun x => ?_
  simp only [laterClique, mem_ascending, List.mem_append, List.mem_filter, decide_eq_true_eq, mem_after_dedup]

end LastPlaces

end Rows

namespace InPlace
open Rows (keepMaximal)

/-- Writes the candidate behind what was found, unless it lies in that or in a longer candidate. -/
def keep (candidates : List (List Nat)) (c : List Nat) : InPlace (List (List Nat)) Unit := do
  let found ← get
  if found.any (isSubset c) || candidates.any (fun d => c.length < d.length && isSubset c d) then return
  set (found ++ [c])

/-- Completes what was found with the cliques of an elimination order, and returns how many are new. -/
def complete (r : Rows) (elimination : List Nat) : InPlace (List (List Nat)) Nat := do
  ask fun _ => r.checkRows elimination
  let before := (← get).length
  let candidates := elimination.map (r.laterClique elimination)
  candidates.forM (keep candidates)
  return (← get).length - before

theorem keep_eq (candidates found : List (List Nat)) (c : List Nat) : keep candidates c found = .ok () (
    if found.any (isSubset c) || candidates.any (fun d => c.length < d.length && isSubset c d) then found
    else found ++ [c]) := by
  show (if _ then pure () else set (found ++ [c]) : InPlace (List (List Nat)) Unit) found = _
  split <;> rfl

theorem forM_keep (candidates rest found : List (List Nat)) :
    rest.forM (keep candidates) found = .ok () (found ++ keepMaximal candidates found rest) := by
  induction rest generalizing found with
  | nil =>
    rw [keepMaximal, List.append_nil]
    rfl
  | cons c rest ih =>
    refine (bind_ok (keep_eq candidates found c)).trans ?_
    rw [keepMaximal]
    split
    · exact ih found
    · have later := ih (found ++ [c])
      rwa [← List.append_cons] at later

/-- The pass with its writes leaves the cliques that `missing` lists behind those that were found, and returns their
number; when it fails, nothing is written. -/
theorem complete_eq (r : Rows) (elimination : List Nat) (found : List (List Nat)) :
    complete r elimination found = match r.missing elimination found with
      | .ok rest => .ok rest.length (found ++ rest)
      | .error e => .error e found := by
  rw [complete, ask_bind, Rows.missing]
  cases checked : r.checkRows elimination with
  | error e => rfl
  | ok =>
    let candidates := elimination.map (r.laterClique elimination)
    let rest := keepMaximal candidates found candidates
    have wrote : candidates.forM (keep candidates) found = .ok () (found ++ rest) := forM_keep candidates candidates found
    refine (bind_ok (t := found) rfl).trans ((bind_ok wrote).trans ?_)
    show EStateM.Result.ok ((found ++ rest).length - found.length) (found ++ rest) = .ok rest.length (found ++ rest)
    rw [List.length_append, Nat.add_sub_cancel_left]

end InPlace

namespace Rows
variable {r : Rows} {elimination : List Nat}

/-- **Completion.** Let an elimination order hold all ids and no others, perhaps more than once, and be perfect when the
last place of each id counts. Whatever maximal cliques were found before, in any order and with repeats, the second pass
leaves them where they stand, writes different cliques behind them that were not found, and returns their number; what
is found after it is the maximal cliques. -/
theorem missing_completes (symm : r.Symmetric) (all : ∀ v, v ∈ elimination ↔ v < r.size)
    (perfect : PerfectOrder r.Linked elimination.dedup) {found : List (List Nat)}
    (maximal : ∀ c ∈ found, r.MaximalIds c) :
    ∃ rest, r.missing elimination found = .ok rest ∧
      InPlace.complete r elimination found = .ok rest.length (found ++ rest) ∧ rest.Nodup ∧ (∀ c ∈ rest, c ∉ found) ∧
      ∀ c, c ∈ found ++ rest ↔ r.MaximalIds c := by
  have perm : elimination.dedup.Perm (List.range r.size) :=
    (List.perm_ext_iff_of_nodup (List.nodup_dedup _) List.nodup_range).2 fun v => by
      rw [List.mem_dedup, all, List.mem_range]
  have listed : ∀ c, c ∈ elimination.map (r.laterClique elimination) ↔
      c ∈ elimination.dedup.map (r.laterClique elimination.dedup) := by
    intro c
    simp only [List.mem_map, List.mem_dedup, laterClique_dedup]
  have ran := missing_eq (fun v => (all v).1) found
  refine ⟨_, ran, ?_, keepMaximal_spec symm perm perfect listed maximal⟩
  rw [InPlace.complete_eq, ran]

/-- The rows of a triangle with another triangle on each side. -/
def earsRows : Rows :=
  ([(0, 3), (1, 3), (1, 4), (2, 4), (2, 5), (0, 5), (0, 1), (1, 2), (0, 2)] : List Edge).foldl
    (fun r e => NeighbourLinks.link r e.1 e.2) (blank 6)

/-- Ids stand twice in the order, and a clique was found twice. At its first place 0 would not make the order perfect, as
its neighbours 3 and 5 are not linked. -/
theorem earsRows_completes : earsRows.Symmetric ∧ (∀ v, v ∈ [0, 3, 4, 3, 5, 0, 1, 2] ↔ v < earsRows.size) ∧
    PerfectOrder earsRows.Linked [0, 3, 4, 3, 5, 0, 1, 2].dedup ∧ ¬ PerfectOrder earsRows.Linked [0, 3, 4, 5, 1, 2] ∧
      (∀ c ∈ [[1, 2, 4], [0, 1, 3], [1, 2, 4]], earsRows.MaximalIds c) ∧
      InPlace.complete earsRows [0, 3, 4, 3, 5, 0, 1, 2] [[1, 2, 4], [0, 1, 3], [1, 2, 4]] =
        .ok 2 [[1, 2, 4], [0, 1, 3], [1, 2, 4], [0, 1, 2], [0, 2, 5]] ∧
      ∀ c, c ∈ [[1, 2, 4], [0, 1, 3], [1, 2, 4], [0, 1, 2], [0, 2, 5]] ↔ earsRows.MaximalIds c := by
  have symm : earsRows.Symmetric := (linked_foldl_link_blank (by decide)).2.1
  have all : ∀ v, v ∈ [0, 3, 4, 3, 5, 0, 1, 2] ↔ v < earsRows.size := by
    intro v
    have size : earsRows.size = 6 := by rfl
    rw [size]
    simp only [List.mem_cons, List.not_mem_nil, or_false]
    omega
  have perfect : PerfectOrder earsRows.Linked [0, 3, 4, 3, 5, 0, 1, 2].dedup := by decide
  have maximal : ∀ c ∈ [[1, 2, 4], [0, 1, 3], [1, 2, 4]], earsRows.MaximalIds c := by
    have first : earsRows.MaximalIds [1, 2, 4] := maximalIds_greedyClique symm (by decide : 4 < earsRows.size)
    have second : earsRows.MaximalIds [0, 1, 3] := maximalIds_greedyClique symm (by decide : 3 < earsRows.size)
    simp [first, second]
  obtain ⟨rest, ran, wrote, _, _, mem_iff⟩ := missing_completes symm all perfect maximal
  have run : earsRows.missing [0, 3, 4, 3, 5, 0, 1, 2] [[1, 2, 4], [0, 1, 3], [1, 2, 4]] =
      .ok [[0, 1, 2], [0, 2, 5]] := by decide +kernel
  obtain rfl := Except.ok.inj (ran.symm.trans run)
  exact ⟨symm, all, perfect, by decide, maximal, wrote, mem_iff⟩

end Rows
end CliqueTree
