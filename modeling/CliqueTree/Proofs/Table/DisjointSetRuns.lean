import CliqueTree.Proofs.Parts
import CliqueTree.Proofs.Table.SpanningForest

/-!
# Runs of lookups and unions

A disjoint set is used through lookups and unions between its ids. After any run of them two ids have one
representative exactly when the pairs that were passed to unions join them: lookups move pointers but no
representative, and a union joins the classes of its pair. The pairs that were in different classes at their turn
are a forest that joins what all pairs join (`Follows`), so their number and that of the classes are together the
number of ids (`runCalls_spec`).
-/

set_option autoImplicit false

namespace CliqueTree
namespace DisjointSet

/-- What a disjoint set is asked. -/
inductive Call where
  | find (x : Nat)
  | union (a b : Nat)
  deriving DecidableEq, Repr

/-- What a call is answered: the representative, or whether the classes were different. -/
inductive Answer where
  | root (x : Nat)
  | merged (different : Bool)
  deriving DecidableEq, Repr

/-- The ids that a call names are below `n`. -/
def Call.Inside (n : Nat) : Call → Prop
  | .find x => x < n
  | .union a b => a < n ∧ b < n

instance (n : Nat) : (c : Call) → Decidable (c.Inside n)
  | .find x => inferInstanceAs (Decidable (x < n))
  | .union a b => inferInstanceAs (Decidable (a < n ∧ b < n))

/-- The pair that a call unites. -/
def Call.pair? : Call → Option Edge
  | .find _ => none
  | .union a b => some (a, b)

/-- The pairs that calls unite, in their order. -/
def united (calls : List Call) : List Edge := calls.filterMap Call.pair?

/-- The answer to a call, and the set that it leaves. -/
def Call.run (s : DisjointSet) : Call → Except GraphError (Answer × DisjointSet)
  | .find x => do
    let (root, t) ← s.checkedFind x
    return (.root root, t)
  | .union a b => do
    let (different, t) ← s.checkedUnion a b
    return (.merged different, t)

/-- The answers to calls one after the other, and the set that the last one leaves. -/
def runCalls (s : DisjointSet) : List Call → Except GraphError (List Answer × DisjointSet)
  | [] => .ok ([], s)
  | c :: calls => do
    let (answer, t) ← c.run s
    let (answers, last) ← t.runCalls calls
    return (answer :: answers, last)

/-- The ids of one class with `x`. -/
def classOf (s : DisjointSet) (x : Nat) : Set Nat := {y | s.root x = s.root y}

/-- The classes of the ids of the set. -/
def classes (s : DisjointSet) : Set (Set Nat) := parts (fun x y => s.root x = s.root y) (List.range s.size)

section Single
variable {s : DisjointSet} {a b x y : Nat}

theorem checkedFind_eq (hx : x < s.size) : s.checkedFind x = .ok (s.find x) := by
  rw [checkedFind, Rows.checkId, if_pos hx]
  rfl

theorem checkedUnion_eq (ha : a < s.size) (hb : b < s.size) : s.checkedUnion a b = .ok (s.union a b) := by
  rw [checkedUnion, Rows.checkId, Rows.checkId, if_pos ha, if_pos hb]
  rfl

theorem run_find (hx : x < s.size) : Call.run s (.find x) = .ok (.root (s.root x), (s.find x).2) := by
  rw [Call.run, checkedFind_eq hx]
  rfl

theorem run_union (ha : a < s.size) (hb : b < s.size) :
    Call.run s (.union a b) = .ok (.merged (s.union a b).1, (s.union a b).2) := by
  rw [Call.run, checkedUnion_eq ha hb]
  rfl

theorem runCalls_cons {t u : DisjointSet} {c : Call} {calls : List Call} {answer : Answer} {answers : List Answer}
    (ran : c.run s = .ok (answer, t)) (ranOn : t.runCalls calls = .ok (answers, u)) :
    s.runCalls (c :: calls) = .ok (answer :: answers, u) := by
  rw [DisjointSet.runCalls, ran]
  show (t.runCalls calls >>= fun r => .ok (answer :: r.1, r.2)) = _
  rw [ranOn]
  rfl

/-- A representative is the representative of itself. -/
theorem root_root (ranked : Ranked s) (x : Nat) : s.root (s.root x) = s.root x :=
  (root_eq_self_iff ranked).2 (parentOf_root ranked x)

theorem classOf_eq_iff : s.classOf x = s.classOf y ↔ s.root x = s.root y := by
  constructor
  · intro same
    have self : y ∈ s.classOf y := rfl
    rwa [← same] at self
  · intro same
    rw [classOf, classOf, same]

/-- The set after a lookup has the classes of the set before. -/
theorem SameEnds.classOf_eq {t : DisjointSet} (ranked : Ranked s) (same : SameEnds s t) (x : Nat) :
    t.classOf x = s.classOf x := by
  ext y
  show t.root x = t.root y ↔ s.root x = s.root y
  rw [same.root_eq ranked, same.root_eq ranked]

/-- A union makes one class of the classes of its pair. -/
theorem classOf_union (ranked : Ranked s) (ha : a < s.size) (hb : b < s.size) :
    (s.union a b).2.classOf a = s.classOf a ∪ s.classOf b ∧
      (s.union a b).2.classOf b = s.classOf a ∪ s.classOf b := by
  obtain ⟨_, _, _, joins⟩ := union_spec ranked ha hb
  have merged : (s.union a b).2.classOf a = s.classOf a ∪ s.classOf b := by
    ext y
    show (s.union a b).2.root a = (s.union a b).2.root y ↔ s.root a = s.root y ∨ s.root b = s.root y
    rw [joins]
    grind
  have together : (s.union a b).2.root a = (s.union a b).2.root b := (joins a b).2 (.inr (.inl ⟨rfl, rfl⟩))
  exact ⟨merged, (classOf_eq_iff.2 together.symm).trans merged⟩

/-- A union leaves every other class as it is. -/
theorem classOf_union_of_not_mem (ranked : Ranked s) (ha : a < s.size) (hb : b < s.size) (hx : x ∉ s.classOf a)
    (hx' : x ∉ s.classOf b) : (s.union a b).2.classOf x = s.classOf x := by
  obtain ⟨_, _, _, joins⟩ := union_spec ranked ha hb
  have apart : s.root x ≠ s.root a := fun same => hx same.symm
  have apart' : s.root x ≠ s.root b := fun same => hx' same.symm
  ext y
  show (s.union a b).2.root x = (s.union a b).2.root y ↔ s.root x = s.root y
  rw [joins]
  grind

end Single

/-! ### Runs -/

section Runs
variable {s t : DisjointSet} {n : Nat} {done taken : List Edge} {calls : List Call}

/-- The pairs of all unions so far, and those of them whose classes were different at their turn. -/
structure Follows (n : Nat) (done taken : List Edge) (s : DisjointSet) : Prop where
  tracks : s.Tracks done
  size : s.size = n
  forest : IsForest taken
  joined : ∀ a b, Joined taken a b ↔ Joined done a b
  ends : ∀ e ∈ taken, e.1 < n ∧ e.2 < n

theorem follows_singletons (n : Nat) : Follows n [] [] (singletons n) :=
  ⟨tracks_singletons n, (ranked_singletons n).2.1, .nil, fun _ _ => Iff.rfl, by simp⟩

/-- The pairs that are answered with different classes. -/
def taking (pair : Edge) : Bool → List Edge
  | true => [pair]
  | false => []

theorem Follows.find (follows : Follows n done taken s) (x : Nat) : Follows n done taken (s.find x).2 := by
  have ranked := follows.tracks.ranked
  have same := (find_spec ranked x).2
  refine { follows with tracks := ⟨same.ranked, fun a b => ?_⟩, size := same.size.trans follows.size }
  rw [same.root_eq ranked, same.root_eq ranked, follows.tracks.classes]

theorem Follows.union (follows : Follows n done taken s) {a b : Nat} (ha : a < n) (hb : b < n) :
    Follows n (done ++ [(a, b)]) (taken ++ taking (a, b) (s.union a b).1) (s.union a b).2 := by
  have ha' : a < s.size := follows.size ▸ ha
  have hb' : b < s.size := follows.size ▸ hb
  obtain ⟨tracks, answer⟩ := follows.tracks.union ha' hb'
  have size := (union_spec follows.tracks.ranked ha' hb').2.1.trans follows.size
  cases different : (s.union a b).1 with
  | true =>
    have apart : ¬ Joined taken a b := fun way => answer.1 different ((follows.joined a b).1 way)
    refine ⟨tracks, size, follows.forest.concat apart, fun x y => ?_, fun e he => ?_⟩
    · rw [taking, Joined.concat_iff, Joined.concat_iff]
      simp only [follows.joined]
    · rcases List.mem_append.1 he with old | new
      · exact follows.ends e old
      · obtain rfl := List.mem_singleton.1 new
        exact ⟨ha, hb⟩
  | false =>
    have around : Joined done a b := by
      apply Classical.byContradiction
      intro apart
      rw [answer.2 apart] at different
      cases different
    rw [taking, List.append_nil]
    refine ⟨tracks, size, follows.forest, fun x y => ?_, follows.ends⟩
    rw [follows.joined]
    refine ⟨.mono (List.subset_append_left _ _), .lift fun e he => ?_⟩
    rcases List.mem_append.1 he with old | new
    · exact .of_mem old
    · obtain rfl := List.mem_singleton.1 new
      exact around

/-- A call inside is answered, and what it unites is noted. -/
theorem Follows.run (follows : Follows n done taken s) {c : Call} (inside : c.Inside n) :
    ∃ answer t more, c.run s = .ok (answer, t) ∧ Follows n (done ++ united [c]) (taken ++ more) t ∧
      more.length = [answer].count (.merged true) := by
  cases c with
  | find x =>
    refine ⟨_, _, [], run_find (follows.size ▸ inside), ?_, rfl⟩
    rw [show united [.find x] = [] from rfl, List.append_nil, List.append_nil]
    exact follows.find x
  | union a b =>
    have merged := run_union (follows.size ▸ inside.1) (follows.size ▸ inside.2)
    refine ⟨_, _, _, merged, follows.union inside.1 inside.2, ?_⟩
    cases (s.union a b).1 <;> rfl

/-- A run inside goes through, and as many pairs are taken as unions are answered that the classes were
different. -/
theorem Follows.runCalls (follows : Follows n done taken s) (inside : ∀ c ∈ calls, c.Inside n) :
    ∃ answers t more, s.runCalls calls = .ok (answers, t) ∧ Follows n (done ++ united calls) (taken ++ more) t ∧
      more.length = answers.count (.merged true) := by
  induction calls generalizing s done taken with
  | nil => exact ⟨[], s, [], rfl, by simpa [united] using follows, rfl⟩
  | cons c calls ih =>
    obtain ⟨first, later⟩ := List.forall_mem_cons.1 inside
    obtain ⟨answer, t, more, ran, follows', count⟩ := follows.run first
    obtain ⟨answers, u, rest, ranOn, follows'', count'⟩ := ih follows' later
    refine ⟨answer :: answers, u, more ++ rest, runCalls_cons ran ranOn, ?_, ?_⟩
    · have split : united (c :: calls) = united [c] ++ united calls := by
        rw [united, united, united, ← List.filterMap_append]
        rfl
      rwa [split, ← List.append_assoc, ← List.append_assoc]
    · rw [List.length_append, count, count', ← List.count_append]
      rfl

/-- Classes and unions that found different classes are together as many as the ids. -/
theorem Follows.count (follows : Follows n done taken s) : taken.length + s.classes.ncard = n := by
  have same : (fun x y => s.root x = s.root y) = Joined taken := by
    funext x y
    rw [follows.joined, follows.tracks.classes]
  rw [classes, same, follows.size, follows.forest.ncard_parts List.nodup_range fun e he => ?_, List.length_range]
  simpa using follows.ends e he

/-- What a lookup and a union do to a set of `n` ids. -/
structure Meaning (n : Nat) (s : DisjointSet) : Prop where
  /-- A lookup returns a member of the class that is its own representative, and moves no representative and no
  class. -/
  find : ∀ x, x < n → ∃ t, s.checkedFind x = .ok (s.root x, t) ∧ s.root x < n ∧ s.root x ∈ s.classOf x ∧
    s.root (s.root x) = s.root x ∧ ∀ y, t.root y = s.root y ∧ t.classOf y = s.classOf y
  /-- A union returns whether the classes are different; it makes one class of them and moves no other. -/
  union : ∀ a b, a < n → b < n → ∃ different t, s.checkedUnion a b = .ok (different, t) ∧
    (different = true ↔ s.classOf a ≠ s.classOf b) ∧ t.classOf a = s.classOf a ∪ s.classOf b ∧
    t.classOf b = s.classOf a ∪ s.classOf b ∧
    ∀ x, x ∉ s.classOf a → x ∉ s.classOf b → t.classOf x = s.classOf x

theorem Ranked.meaning (ranked : Ranked s) : Meaning s.size s where
  find x hx := by
    have same := (find_spec ranked x).2
    refine ⟨_, checkedFind_eq hx, root_lt_size ranked hx, (root_root ranked x).symm, root_root ranked x, fun y => ?_⟩
    exact ⟨same.root_eq ranked y, same.classOf_eq ranked y⟩
  union a b ha hb := by
    obtain ⟨_, _, answer, _⟩ := union_spec ranked ha hb
    obtain ⟨first, second⟩ := classOf_union ranked ha hb
    refine ⟨(s.union a b).1, (s.union a b).2, checkedUnion_eq ha hb, ?_, first, second, fun x => ?_⟩
    · rw [answer, ne_eq, ne_eq, classOf_eq_iff]
    · exact classOf_union_of_not_mem ranked ha hb

/-- **Union-find over whole runs.** Any run of lookups and unions of ids below `n` goes through. In the set that it
leaves two ids have one representative exactly when a chain of the pairs that were united leads from one to the
other, lookups and unions mean what they should, and the unions that found different classes are together with the
classes as many as the ids. -/
theorem runCalls_spec (n : Nat) (calls : List Call) (inside : ∀ c ∈ calls, c.Inside n) :
    ∃ answers s, (singletons n).runCalls calls = .ok (answers, s) ∧ s.size = n ∧
      (∀ a b, s.root a = s.root b ↔ Joined (united calls) a b) ∧ Meaning n s ∧
      answers.count (.merged true) + s.classes.ncard = n := by
  obtain ⟨answers, s, taken, ran, follows, count⟩ := (follows_singletons n).runCalls inside
  rw [List.nil_append, List.nil_append] at follows
  refine ⟨answers, s, ran, follows.size, follows.tracks.classes, follows.size ▸ follows.tracks.ranked.meaning, ?_⟩
  rw [← count]
  exact follows.count

/-- Two pairs are united and then their classes. The lookup of 3 goes two pointers far and shortens the way; the
fifth id stays alone. -/
def pairedCalls : List Call := [.union 0 1, .union 2 3, .union 1 0, .union 1 3, .find 3]

theorem pairedCalls_spec : (∀ c ∈ pairedCalls, c.Inside 5) ∧
    ∃ answers s, (singletons 5).runCalls pairedCalls = .ok (answers, s) ∧
      answers = [.merged true, .merged true, .merged false, .merged true, .root 0] ∧
      s.parent = #[0, 0, 0, 0, 4] ∧ s.rank = #[2, 0, 1, 0, 0] ∧ s.size = 5 ∧
      (∀ a b, s.root a = s.root b ↔ Joined [(0, 1), (2, 3), (1, 0), (1, 3)] a b) ∧ Meaning 5 s ∧
      3 + s.classes.ncard = 5 := by
  have inside : ∀ c ∈ pairedCalls, c.Inside 5 := by decide
  have run : (singletons 5).runCalls pairedCalls =
      .ok ([.merged true, .merged true, .merged false, .merged true, .root 0],
        ⟨#[0, 0, 0, 0, 4], #[2, 0, 1, 0, 0]⟩) := by cbv
  obtain ⟨answers, s, ran, size, classes, meaning, count⟩ := runCalls_spec 5 pairedCalls inside
  obtain ⟨rfl, rfl⟩ := Prod.mk.inj (Except.ok.inj (ran.symm.trans run))
  exact ⟨inside, _, _, run, rfl, rfl, rfl, size, classes, meaning, count⟩

end Runs

end DisjointSet
end CliqueTree
