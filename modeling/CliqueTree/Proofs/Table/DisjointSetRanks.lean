import CliqueTree.Proofs.Table.DisjointSetRuns
import Mathlib.Data.Nat.Log
import Mathlib.Data.Set.Card

/-!
# Ranks of a disjoint set

Lookups shorten ways and leave ranks as they are, so a rank is no height. What remains of it is a weight: a
representative of rank `k` is the end of at least `2 ^ k` ways (`Weighed`), since a rank grows only where two classes of
the same rank become one (`Weighed.link`). As ranks grow along the pointers, a way, and with it the recursion of a
lookup (`Finds`), is no longer than the rank of its end, which is at most the logarithm of the number of ids
(`Weighed.rankOf_le`). So ranks fit into bytes: the set whose ranks are bytes (`Packed`) goes the same runs
(`Weighed.runCalls?_eq`).
-/

set_option autoImplicit false

namespace CliqueTree
namespace DisjointSet

section Weights
variable {s t : DisjointSet} {n a b l r w x : Nat}

/-- The ids whose ways end at `r`. -/
def endingAt (s : DisjointSet) (r : Nat) : Set Nat := {x | x < s.size ∧ Ends s x r}

theorem finite_endingAt (s : DisjointSet) (r : Nat) : (s.endingAt r).Finite :=
  (Set.finite_lt_nat s.size).subset fun _ hx => hx.1

theorem mem_endingAt_iff (ranked : Ranked s) : x ∈ s.endingAt r ↔ x < s.size ∧ s.root x = r :=
  and_congr_right fun _ => ends_iff ranked

theorem ncard_endingAt_le (s : DisjointSet) (r : Nat) : (s.endingAt r).ncard ≤ s.size := by
  have few : (s.endingAt r).ncard ≤ (Finset.range s.size : Set Nat).ncard := by
    apply Set.ncard_le_ncard _ (Finset.finite_toSet _)
    exact fun x hx => Finset.mem_coe.2 (Finset.mem_range.2 hx.1)
  rwa [Set.ncard_coe_finset, Finset.card_range] at few

/-- A representative of rank `k` is the end of at least `2 ^ k` ways. -/
structure Weighed (s : DisjointSet) : Prop where
  ranked : Ranked s
  heavy : ∀ r, r < s.size → s.parentOf r = r → 2 ^ s.rankOf r ≤ (s.endingAt r).ncard

theorem weighed_singletons (n : Nat) : Weighed (singletons n) := by
  obtain ⟨ranked, size, self⟩ := ranked_singletons n
  refine ⟨ranked, fun r hr _ => ?_⟩
  have flat : (singletons n).rankOf r = 0 := by
    rw [size] at hr
    simp [singletons, rankOf, hr]
  have itself : r ∈ (singletons n).endingAt r := (mem_endingAt_iff ranked).2 ⟨hr, self r⟩
  rw [flat, pow_zero]
  exact (Set.ncard_pos (finite_endingAt _ r)).2 ⟨r, itself⟩

/-- Lookups take no weight from a representative. -/
theorem Weighed.sameEnds (weighed : Weighed s) (same : SameEnds s t) : Weighed t where
  ranked := same.ranked
  heavy r hr top := by
    have root : s.root r = r := by
      rw [← same.root_eq weighed.ranked]
      exact (root_eq_self_iff same.ranked).2 top
    have kept : t.endingAt r = s.endingAt r := by
      ext x
      rw [mem_endingAt_iff same.ranked, mem_endingAt_iff weighed.ranked, same.size, same.root_eq weighed.ranked]
    have rank : t.rankOf r = s.rankOf r := by rw [rankOf, rankOf, same.rank]
    rw [kept, rank]
    exact weighed.heavy r (same.size ▸ hr) ((root_eq_self_iff weighed.ranked).1 root)

/-- The ways that ended at either end of a link end at the one that is kept. -/
theorem Linked.endingAt_winner (ranked : Ranked s) (topW : s.parentOf w = w) (ne : l ≠ w) (linked : Linked s t l w) :
    t.endingAt w = s.endingAt l ∪ s.endingAt w := by
  have rootW := (root_eq_self_iff ranked).2 topW
  ext x
  rw [Set.mem_union, mem_endingAt_iff linked.ranked, mem_endingAt_iff ranked, mem_endingAt_iff ranked, linked.size,
    linked.root]
  grind

theorem Linked.endingAt_of_ne (ranked : Ranked s) (linked : Linked s t l w) (hl : r ≠ l) (hw : r ≠ w) :
    t.endingAt r = s.endingAt r := by
  ext x
  rw [mem_endingAt_iff linked.ranked, mem_endingAt_iff ranked, linked.size, linked.root]
  grind

/-- A representative after a link is the one that is kept, or was one before and is not the other. -/
theorem Linked.root_before (ranked : Ranked s) (linked : Linked s t l w) (top : t.parentOf r = r) (ne : r ≠ w) :
    s.parentOf r = r ∧ r ≠ l := by
  have stays := (root_eq_self_iff linked.ranked).2 top
  rw [linked.root] at stays
  split at stays
  · exact absurd stays.symm ne
  next other => exact ⟨(root_eq_self_iff ranked).1 stays, fun loser => other (stays.trans loser)⟩

/-- Linking two classes gives the representative of both the weight of both, and no other one loses any. -/
theorem Weighed.link (weighed : Weighed s) (hl : l < s.size) (hw : w < s.size) (topL : s.parentOf l = l)
    (topW : s.parentOf w = w) (ne : l ≠ w) (linked : Linked s t l w) : Weighed t where
  ranked := linked.ranked
  heavy r hr top := by
    by_cases winner : r = w
    · subst winner
      have apart : Disjoint (s.endingAt l) (s.endingAt r) :=
        Set.disjoint_left.2 fun x first second => ne (first.2.unique second.2)
      have heavyL := weighed.heavy l hl topL
      have heavyW := weighed.heavy r hw topW
      rw [linked.endingAt_winner weighed.ranked topW ne,
        Set.ncard_union_eq apart (finite_endingAt s l) (finite_endingAt s r)]
      rcases linked.grown with same | ⟨tie, grown⟩
      · rw [same]
        omega
      · rw [tie] at heavyL
        rw [grown, pow_succ]
        omega
    · obtain ⟨before, other⟩ := linked.root_before weighed.ranked top winner
      rw [linked.endingAt_of_ne weighed.ranked other winner, linked.rank r winner]
      exact weighed.heavy r (linked.size ▸ hr) before

theorem Weighed.find (weighed : Weighed s) (x : Nat) : Weighed (s.find x).2 :=
  weighed.sameEnds (find_spec weighed.ranked x).2

theorem Weighed.union (weighed : Weighed s) (ha : a < s.size) (hb : b < s.size) : Weighed (s.union a b).2 := by
  obtain ⟨t, both, topA, topB, ⟨-, result⟩ | ⟨apart, -, l, w, pair, linked⟩⟩ := union_cases weighed.ranked ha hb
  · rw [result]
    exact weighed.sameEnds both
  · have insideA : s.root a < t.size := both.size ▸ root_lt_size weighed.ranked ha
    have insideB : s.root b < t.size := both.size ▸ root_lt_size weighed.ranked hb
    rcases pair with ⟨rfl, rfl⟩ | ⟨rfl, rfl⟩
    · exact (weighed.sameEnds both).link insideA insideB topA topB apart linked
    · exact (weighed.sameEnds both).link insideB insideA topB topA apart.symm linked

/-- A rank is at most the logarithm of the number of ids. -/
theorem Weighed.rankOf_le (weighed : Weighed s) (x : Nat) : s.rankOf x ≤ Nat.log 2 s.size := by
  by_cases hx : x < s.size
  · have inside := root_lt_size weighed.ranked hx
    have top := parentOf_root weighed.ranked x
    have most : 2 ^ s.rankOf (s.root x) ≤ s.size := (weighed.heavy _ inside top).trans (ncard_endingAt_le s _)
    have climbs : s.rankOf x ≤ s.rankOf (s.root x) := by
      by_cases self : s.root x = x
      · rw [self]
      · exact ((find_spec weighed.ranked x).1.rank_lt weighed.ranked self).le
    exact climbs.trans (Nat.le_log_of_pow_le Nat.one_lt_two most)
  · have none : s.rankOf x = 0 := by
      have sizes := weighed.ranked.sizes
      rw [rankOf, Array.getElem?_eq_none (by omega)]
      rfl
    omega

end Weights

/-! ### The recursion of a lookup -/

section Recursion
variable {s t : DisjointSet} {x r depth : Nat}

/-- The depth is the number of pointers on the way. -/
theorem Finds.iterate (finds : Finds s x r t depth) : s.parentOf^[depth] x = r := by
  induction finds with
  | here _ => rfl
  | up _ _ ih => rw [Function.iterate_succ_apply, ih]

/-- Each level of the recursion is at a greater rank. -/
theorem Finds.depth_le (ranked : Ranked s) (finds : Finds s x r t depth) : s.rankOf x + depth ≤ s.rankOf r := by
  induction finds with
  | here _ => exact Nat.le_refl _
  | @up x _ _ _ step _ ih =>
    have climb := ranked.climbs x step
    omega

end Recursion

/-! ### Ranks as bytes -/

/-- A disjoint set whose ranks are bytes. -/
structure Packed where
  parent : Array Nat
  rank : Array UInt8
  deriving DecidableEq, Repr

namespace Packed

/-- The set with its ranks as numbers. -/
def unpack (p : Packed) : DisjointSet := ⟨p.parent, p.rank.map UInt8.toNat⟩

def singletons (n : Nat) : Packed := ⟨Array.range n, Array.replicate n 0⟩

def rankOf (p : Packed) (x : Nat) : UInt8 := (p.rank[x]?).getD 0

/-- A lookup reads and moves pointers only. -/
def find (p : Packed) (x : Nat) : Nat × Packed :=
  let (root, t) := p.unpack.find x
  (root, { p with parent := t.parent })

/-- The byte after `r`; the last one has none. -/
def next? (r : UInt8) : Option UInt8 := if r = 255 then none else some (r + 1)

/-- Merges the classes of two different representatives, unless a rank overflows. -/
def merge? (p : Packed) (a b : Nat) : Option Packed :=
  if p.rankOf a < p.rankOf b then some { p with parent := p.parent.setIfInBounds a b }
  else
    let parent := p.parent.setIfInBounds b a
    if p.rankOf a = p.rankOf b then (next? (p.rankOf a)).map fun r => ⟨parent, p.rank.setIfInBounds a r⟩
    else some { p with parent }

/-- Merges the classes of `a` and `b`, unless a rank overflows; the first part tells whether they were different. -/
def union? (p : Packed) (a b : Nat) : Option (Bool × Packed) :=
  let (rootA, p) := p.find a
  let (rootB, p) := p.find b
  if rootA = rootB then some (false, p) else (p.merge? rootA rootB).map (true, ·)

/-- The answer to a call and the set that it leaves, unless a rank overflows. -/
def call? (p : Packed) : Call → Option (Answer × Packed)
  | .find x =>
    let (root, q) := p.find x
    some (.root root, q)
  | .union a b => (p.union? a b).map fun (different, q) => (.merged different, q)

/-- The answers to calls one after the other and the set that the last one leaves, unless a rank overflows. -/
def runCalls? (p : Packed) : List Call → Option (List Answer × Packed)
  | [] => some ([], p)
  | c :: calls => do
    let (answer, q) ← p.call? c
    let (answers, last) ← q.runCalls? calls
    return (answer :: answers, last)

variable {p q : Packed} {a b x : Nat} {c : Call} {calls : List Call}

theorem unpack_singletons (n : Nat) : (singletons n).unpack = DisjointSet.singletons n := by
  simp [unpack, singletons, DisjointSet.singletons]

theorem rankOf_unpack (p : Packed) (x : Nat) : p.unpack.rankOf x = (p.rankOf x).toNat := by
  rw [DisjointSet.rankOf, rankOf, unpack, Array.getElem?_map]
  cases p.rank[x]? <;> rfl

theorem find_eq (ranked : Ranked p.unpack) (x : Nat) :
    (p.find x).1 = p.unpack.root x ∧ (p.find x).2.unpack = (p.unpack.find x).2 := by
  have rank := (find_spec ranked x).2.rank
  refine ⟨rfl, ?_⟩
  show (⟨_, p.unpack.rank⟩ : DisjointSet) = _
  rw [← rank]
  rfl

theorem toNat_next {r : UInt8} (room : r.toNat < 255) : (r + 1).toNat = r.toNat + 1 := by
  rw [UInt8.toNat_add, Nat.mod_eq_of_lt]
  · rfl
  · exact Nat.succ_lt_succ room

/-- Below the last byte a rank grows as a number does. -/
theorem map_toNat_raised (small : (p.rankOf a).toNat < 255) :
    (p.rank.setIfInBounds a (p.rankOf a + 1)).map UInt8.toNat = (p.rank.map UInt8.toNat).modify a (· + 1) := by
  apply Array.ext_getElem?
  intro i
  rw [Array.getElem?_map, Array.getElem?_modify, Array.getElem?_map, Array.getElem?_setIfInBounds]
  by_cases here : a = i
  · subst here
    rw [rankOf] at small ⊢
    by_cases inside : a < p.rank.size
    · rw [Array.getElem?_eq_getElem inside, Option.getD_some] at small ⊢
      simp only [if_true, inside, Option.map_some, toNat_next small]
    · simp [inside]
  · rw [if_neg here, if_neg here]

/-- A merge of bytes is the merge of their numbers. -/
theorem merge?_eq (small : p.unpack.rankOf a < 255) (b : Nat) :
    ∃ q, p.merge? a b = some q ∧ q.unpack = p.unpack.merge a b := by
  have less : p.rankOf a < p.rankOf b ↔ p.unpack.rankOf a < p.unpack.rankOf b := by
    rw [rankOf_unpack, rankOf_unpack, UInt8.lt_iff_toNat_lt]
  have equal : p.rankOf a = p.rankOf b ↔ p.unpack.rankOf a = p.unpack.rankOf b := by
    rw [rankOf_unpack, rankOf_unpack, UInt8.toNat_inj]
  rw [merge?, DisjointSet.merge]
  simp only [less, equal]
  split
  · exact ⟨_, rfl, rfl⟩
  · split
    · rw [rankOf_unpack] at small
      have room : p.rankOf a ≠ 255 := by
        intro last
        rw [last] at small
        exact Nat.lt_irrefl _ small
      rw [next?, if_neg room]
      exact ⟨_, rfl, congrArg (DisjointSet.mk _) (map_toNat_raised small)⟩
    · exact ⟨_, rfl, rfl⟩

/-- Sets that memory can address have ranks below 64. -/
theorem rankOf_lt (weighed : Weighed p.unpack) (small : p.unpack.size < 2 ^ 64) (x : Nat) : p.unpack.rankOf x < 64 := by
  have most := weighed.rankOf_le x
  rcases Nat.eq_zero_or_pos p.unpack.size with none | some
  · rw [none, Nat.log_zero_right] at most
    omega
  · exact most.trans_lt (Nat.log_lt_of_lt_pow some.ne' small)

theorem union?_eq (weighed : Weighed p.unpack) (small : p.unpack.size < 2 ^ 64) (a b : Nat) :
    ∃ q, p.union? a b = some ((p.unpack.union a b).1, q) ∧ q.unpack = (p.unpack.union a b).2 := by
  obtain ⟨rootA, first⟩ := find_eq weighed.ranked a
  have once : Weighed (p.find a).2.unpack := first ▸ weighed.find a
  obtain ⟨rootB, second⟩ := find_eq once.ranked b
  have twice : Weighed ((p.find a).2.find b).2.unpack := second ▸ once.find b
  have size : ((p.find a).2.find b).2.unpack.size = p.unpack.size := by
    rw [second, first, (find_spec (first ▸ once.ranked) b).2.size, (find_spec weighed.ranked a).2.size]
  have room := (rankOf_lt twice (size ▸ small) (p.find a).1).trans (show 64 < 255 by decide)
  obtain ⟨q, merged, unpacked⟩ := merge?_eq room ((p.find a).2.find b).1
  rw [first] at rootB second
  have asNumbers : p.unpack.union a b =
      if (p.find a).1 = ((p.find a).2.find b).1 then (false, ((p.find a).2.find b).2.unpack)
      else (true, q.unpack) := by
    rw [unpacked, second, rootA, rootB]
    rfl
  have asBytes : p.union? a b =
      if (p.find a).1 = ((p.find a).2.find b).1 then some (false, ((p.find a).2.find b).2)
      else (((p.find a).2.find b).2.merge? (p.find a).1 ((p.find a).2.find b).1).map (true, ·) := rfl
  rw [asNumbers, asBytes, merged]
  split <;> exact ⟨_, rfl, rfl⟩

end Packed

/-! ### Runs -/

section Runs
variable {s : DisjointSet} {p : Packed} {n : Nat} {c : Call} {calls : List Call}

/-- A call inside is answered and leaves representatives their weights. -/
theorem Weighed.run (weighed : Weighed s) (inside : c.Inside s.size) :
    ∃ answer t, c.run s = .ok (answer, t) ∧ Weighed t ∧ t.size = s.size := by
  cases c with
  | find x => exact ⟨_, _, run_find inside, weighed.find x, (find_spec weighed.ranked x).2.size⟩
  | union a b =>
    obtain ⟨ha, hb⟩ := inside
    exact ⟨_, _, run_union ha hb, weighed.union ha hb, (union_spec weighed.ranked ha hb).2.1⟩

theorem Weighed.runCalls (weighed : Weighed s) (inside : ∀ c ∈ calls, c.Inside s.size) :
    ∃ answers t, s.runCalls calls = .ok (answers, t) ∧ Weighed t ∧ t.size = s.size := by
  induction calls generalizing s with
  | nil => exact ⟨[], s, rfl, weighed, rfl⟩
  | cons c calls ih =>
    obtain ⟨first, later⟩ := List.forall_mem_cons.1 inside
    obtain ⟨answer, t, ran, weighed', size⟩ := weighed.run first
    obtain ⟨answers, u, ranOn, weighed'', size'⟩ := ih weighed' (size ▸ later)
    exact ⟨answer :: answers, u, runCalls_cons ran ranOn, weighed'', size'.trans size⟩

/-- On bytes a call is answered as on numbers, and no rank overflows. -/
theorem Packed.call?_eq (weighed : Weighed p.unpack) (small : p.unpack.size < 2 ^ 64) (inside : c.Inside p.unpack.size) :
    ∃ answer q, p.call? c = some (answer, q) ∧ c.run p.unpack = .ok (answer, q.unpack) := by
  cases c with
  | find x =>
    obtain ⟨root, rest⟩ := find_eq weighed.ranked x
    refine ⟨.root (p.find x).1, (p.find x).2, rfl, ?_⟩
    rw [run_find inside, root, rest]
  | union a b =>
    obtain ⟨q, merged, rest⟩ := union?_eq weighed small a b
    refine ⟨.merged (p.unpack.union a b).1, q, ?_, ?_⟩
    · rw [call?, merged]
      rfl
    · rw [run_union inside.1 inside.2, rest]

theorem Packed.runCalls?_eq (weighed : Weighed p.unpack) (small : p.unpack.size < 2 ^ 64)
    (inside : ∀ c ∈ calls, c.Inside p.unpack.size) :
    ∃ answers q, p.runCalls? calls = some (answers, q) ∧ p.unpack.runCalls calls = .ok (answers, q.unpack) := by
  induction calls generalizing p with
  | nil => exact ⟨[], p, rfl, rfl⟩
  | cons c calls ih =>
    obtain ⟨first, later⟩ := List.forall_mem_cons.1 inside
    obtain ⟨answer, q, called, ran⟩ := call?_eq weighed small first
    obtain ⟨_, _, ran', weighed', size⟩ := weighed.run first
    obtain ⟨rfl, rfl⟩ := Prod.mk.inj (Except.ok.inj (ran.symm.trans ran'))
    obtain ⟨answers, last, calledOn, ranOn⟩ := ih weighed' (size ▸ small) (size ▸ later)
    refine ⟨answer :: answers, last, ?_, runCalls_cons ran ranOn⟩
    rw [Packed.runCalls?, called]
    show (q.runCalls? calls >>= fun r => some (answer :: r.1, r.2)) = _
    rw [calledOn]
    rfl

/-- What the ranks of a set of `n` ids are good for. -/
structure Balanced (n : Nat) (s : DisjointSet) : Prop where
  sizes : s.parent.size = n ∧ s.rank.size = n
  inside : ∀ x, x < n → s.parentOf x < n
  climbs : ∀ x, x < n → s.parentOf x ≠ x → s.rankOf x < s.rankOf (s.parentOf x)
  heavy : ∀ r, r < n → s.parentOf r = r → 2 ^ s.rankOf r ≤ {x | x < n ∧ Ends s x r}.ncard
  /-- The way from an id ends after few pointers. -/
  short : ∀ x, x < n → ∃ steps r, steps ≤ Nat.log 2 n ∧ s.parentOf^[steps] x = r ∧ s.parentOf r = r
  /-- The recursion of a lookup ends, and what it leaves is the set after the lookup. -/
  ends : ∀ x, x < n → ∃ depth, depth ≤ Nat.log 2 n ∧ Finds s x (s.find x).1 (s.find x).2 depth
  low : ∀ x, x < n → s.rankOf x ≤ Nat.log 2 n

theorem Weighed.balanced (weighed : Weighed s) : Balanced s.size s := by
  have ranked := weighed.ranked
  have shallow : ∀ x, ∃ depth, depth ≤ Nat.log 2 s.size ∧ Finds s x (s.root x) (s.find x).2 depth := by
    intro x
    obtain ⟨depth, finds⟩ := finds_find ranked x
    have levels := finds.depth_le ranked
    have most := weighed.rankOf_le (s.root x)
    exact ⟨depth, by omega, finds⟩
  refine ⟨⟨rfl, ranked.sizes⟩, ranked.inside, fun x _ => ranked.climbs x, weighed.heavy, fun x _ => ?_,
    fun x _ => shallow x, fun x _ => weighed.rankOf_le x⟩
  obtain ⟨depth, few, finds⟩ := shallow x
  exact ⟨depth, s.root x, few, finds.iterate, parentOf_root ranked x⟩

/-- **Ranks over whole runs.** Any run of lookups and unions of ids below `n` goes through and leaves a set in which
pointers stay inside, ranks grow along them and a representative of rank `k` is the end of at least `2 ^ k` ways, so that
ways and the recursion of a lookup are at most the logarithm of `n` long. If `n` is below `2 ^ 64`, ranks are below 64,
and the same run with ranks that are bytes goes through without an overflow and leaves the same set. -/
theorem runCalls_balanced (n : Nat) (calls : List Call) (inside : ∀ c ∈ calls, c.Inside n) :
    ∃ answers s, (singletons n).runCalls calls = .ok (answers, s) ∧ Balanced n s ∧
      (n < 2 ^ 64 → (∀ x, s.rankOf x < 64) ∧
        ∃ p : Packed, (Packed.singletons n).runCalls? calls = some (answers, p) ∧ p.unpack = s) := by
  have start := weighed_singletons n
  have size : (singletons n).size = n := (ranked_singletons n).2.1
  have inside' : ∀ c ∈ calls, c.Inside (singletons n).size := size.symm ▸ inside
  obtain ⟨answers, s, ran, weighed, size'⟩ := start.runCalls inside'
  have same : s.size = n := size'.trans size
  refine ⟨answers, s, ran, same ▸ weighed.balanced, fun small => ?_⟩
  rw [← Packed.unpack_singletons] at start inside' size ran
  obtain ⟨_, p, called, ran'⟩ := Packed.runCalls?_eq start (size.symm ▸ small) inside'
  obtain ⟨rfl, rfl⟩ := Prod.mk.inj (Except.ok.inj (ran.symm.trans ran'))
  exact ⟨Packed.rankOf_lt weighed (same.symm ▸ small), p, called, rfl⟩

/-- The second union is of a lesser rank with a greater one. The lookup of 3 goes two pointers far, and afterwards 2 has
rank 1 with nothing pointing at it. -/
def unevenCalls : List Call := [.union 0 1, .union 4 0, .union 2 3, .union 1 3, .find 3]

theorem unevenCalls_balanced : (∀ c ∈ unevenCalls, c.Inside 5) ∧
    ∃ answers s, (singletons 5).runCalls unevenCalls = .ok (answers, s) ∧
      s.parent = #[0, 0, 0, 0, 0] ∧ s.rank = #[2, 0, 1, 0, 0] ∧ Balanced 5 s ∧ 5 < 2 ^ 64 ∧ (∀ x, s.rankOf x < 64) ∧
      ∃ p : Packed, (Packed.singletons 5).runCalls? unevenCalls = some (answers, p) ∧ p.unpack = s := by
  have inside : ∀ c ∈ unevenCalls, c.Inside 5 := by decide
  have run : (singletons 5).runCalls unevenCalls =
      .ok ([.merged true, .merged true, .merged true, .merged true, .root 0],
        ⟨#[0, 0, 0, 0, 0], #[2, 0, 1, 0, 0]⟩) := by cbv
  obtain ⟨answers, s, ran, balanced, bytes⟩ := runCalls_balanced 5 unevenCalls inside
  obtain ⟨rfl, rfl⟩ := Prod.mk.inj (Except.ok.inj (ran.symm.trans run))
  exact ⟨inside, _, _, run, rfl, rfl, balanced, by decide, bytes (by decide)⟩

end Runs

end DisjointSet
end CliqueTree
