import CliqueTree.Proofs.Table.Elimination
import CliqueTree.Proofs.Table.Extraction
import CliqueTree.Proofs.Table.Marriage
import CliqueTree.Proofs.Table.Walk
import CliqueTree.Policy

/-!
# Runs on ids

Whatever structure takes up links, a run of marriages or of the elimination game looks at its rows only. So the same
links are added to the bare rows (`Growth.onParents_joinParents`, `Growth.onRows_eliminate`), and the structure becomes
what it was with these links (`Growth.Recorded`). Where all ids have rows no check fails, and what a run comes to is
told by plain folds over rows (`marry_eq`, `Rows.cliqueIds_eq`).
-/

set_option autoImplicit false

namespace CliqueTree
namespace Growth

section Filling
variable {G : Type} [NeighbourLinks G]

/-- The rows of the structure, with the links that it has been given. -/
def onRows (s : Growth G) : Growth Rows := ⟨s.rows, s.added⟩

/-- There is nothing to do for a pair: its ends are one, or the first lists the second. -/
def Settled (s : Growth G) (p : Edge) : Prop := p.1 = p.2 ∨ p.2 ∈ s.rows.get p.1

theorem fillPair_of_settled {s : Growth G} {p : Edge} (h : s.Settled p) : s.fillPair p = s := if_pos h

theorem fillPair_of_not_settled {s : Growth G} {p : Edge} (h : ¬ s.Settled p) :
    s.fillPair p = ⟨NeighbourLinks.link s.graph p.1 p.2, s.added.push p⟩ := if_neg h

theorem onRows_fillPair (s : Growth G) (p : Edge) : s.onRows.fillPair p = (s.fillPair p).onRows := by
  by_cases settled : s.Settled p
  · have same : s.onRows.Settled p := settled
    rw [fillPair_of_settled settled, fillPair_of_settled same]
  · have same : ¬ s.onRows.Settled p := settled
    rw [fillPair_of_not_settled settled, fillPair_of_not_settled same, onRows, onRows, rows, rows,
      NeighbourLinks.neighbours_link]
    rfl

theorem onRows_fillAmong (s : Growth G) (row : List Nat) : s.onRows.fillAmong row = (s.fillAmong row).onRows :=
  List.foldl_hom onRows onRows_fillPair

/-- The game on a structure is the game on its rows. -/
theorem onRows_eliminate (order : List Nat) {gone : List Nat} (s : Growth G) :
    s.onRows.eliminate gone order = (s.eliminate gone order).onRows := by
  induction order generalizing gone s with
  | nil => rfl
  | cons v order ih =>
    rw [eliminate, eliminate, ← ih, ← onRows_fillAmong]
    rfl

end Filling

section Joining
variable {G : Type} [ParentLinks G]

/-- The rows of the structure, with the links that it has been given. -/
def onParents (s : Growth G) : Growth Rows := ⟨s.parents, s.added⟩

/-- There is nothing to do for a pair of parents: they are one, or beside each other. -/
def Married (s : Growth G) (p : Edge) : Prop := p.1 = p.2 ∨ p.1 ∈ s.parents.get p.2 ∨ p.2 ∈ s.parents.get p.1

instance (s : Growth G) (p : Edge) : Decidable (s.Married p) :=
  inferInstanceAs (Decidable (p.1 = p.2 ∨ p.1 ∈ s.parents.get p.2 ∨ p.2 ∈ s.parents.get p.1))

/-- `marryPair` between ids that have rows. -/
def joinPair (s : Growth G) (p : Edge) : Growth G :=
  if s.Married p then s else ⟨ParentLinks.link s.graph p.1 p.2, s.added.push p⟩

/-- `marryParents` for an id that has a row. -/
def joinParents (s : Growth G) (v : Nat) : Growth G := (pairs (s.parents.get v)).foldl joinPair s

theorem joinPair_of_married {s : Growth G} {p : Edge} (h : s.Married p) : s.joinPair p = s := if_pos h

theorem joinPair_of_not_married {s : Growth G} {p : Edge} (h : ¬ s.Married p) :
    s.joinPair p = ⟨ParentLinks.link s.graph p.1 p.2, s.added.push p⟩ := if_neg h

theorem onParents_joinPair (s : Growth G) (p : Edge) : s.onParents.joinPair p = (s.joinPair p).onParents := by
  by_cases married : s.Married p
  · have same : s.onParents.Married p := married
    rw [joinPair_of_married married, joinPair_of_married same]
  · have same : ¬ s.onParents.Married p := married
    rw [joinPair_of_not_married married, joinPair_of_not_married same, onParents, onParents, parents, parents,
      ParentLinks.parents_link]
    rfl

/-- Marriages in a structure are marriages in its rows. -/
theorem onParents_joinParents (s : Growth G) (v : Nat) : s.onParents.joinParents v = (s.joinParents v).onParents :=
  List.foldl_hom onParents onParents_joinPair

theorem onParents_foldl_joinParents (order : List Nat) (s : Growth G) :
    order.foldl joinParents s.onParents = (order.foldl joinParents s).onParents :=
  List.foldl_hom onParents onParents_joinParents

/-- A structure has become what it was with the links that it has been given. -/
def Recorded (g : G) (s : Growth G) : Prop :=
  s.graph = s.added.toList.foldl (fun g e => ParentLinks.link g e.1 e.2) g

theorem Recorded.joinPair {g : G} {s : Growth G} (h : Recorded g s) (p : Edge) : Recorded g (s.joinPair p) := by
  unfold Growth.joinPair
  split
  · exact h
  · rw [Recorded, Array.toList_push, List.foldl_append, ← h]
    rfl

theorem Recorded.foldl_joinPair {g : G} (ps : List Edge) {s : Growth G} (h : Recorded g s) :
    Recorded g (ps.foldl Growth.joinPair s) := by
  induction ps generalizing s with
  | nil => exact h
  | cons p ps ih => exact ih (h.joinPair p)

theorem Recorded.foldl_joinParents {g : G} (order : List Nat) {s : Growth G} (h : Recorded g s) :
    Recorded g (order.foldl joinParents s) := by
  induction order generalizing s with
  | nil => exact h
  | cons v order ih => exact ih (h.foldl_joinPair _)

/-- The rows of `n` ids in which each entry has a row. -/
def Sound (n : Nat) (s : Growth G) : Prop := s.parents.size = n ∧ s.parents.Inside

theorem marryPair_eq {n : Nat} {s : Growth G} (sound : s.Sound n) {p : Edge} (h1 : p.1 < n) (h2 : p.2 < n) :
    s.marryPair p.1 p.2 = .ok (s.joinPair p) ∧ (s.joinPair p).Sound n := by
  obtain ⟨rfl, inside⟩ := sound
  obtain ⟨t, ran, extended, _⟩ := marryPair_spec inside h1 h2
  have same : s.marryPair p.1 p.2 = .ok (s.joinPair p) := by
    have rowA : (ParentLinks.parents s.graph).row p.1 = .ok (s.parents.get p.1) := Rows.row_of_lt h1
    have rowB : (ParentLinks.parents s.graph).row p.2 = .ok (s.parents.get p.2) := Rows.row_of_lt h2
    rw [marryPair, rowA, rowB, joinPair]
    by_cases equal : p.1 = p.2 <;> by_cases forth : p.1 ∈ s.parents.get p.2 <;>
      by_cases back : p.2 ∈ s.parents.get p.1 <;>
        simp [Married, equal, forth, back, bind, Except.bind, pure, Except.pure]
  obtain rfl := Except.ok.inj (same.symm.trans ran)
  exact ⟨same, extended.size, extended.inside⟩

/-- What is linked stays linked, and the ends of the pair are beside each other afterwards, unless they are one. -/
theorem joinPair_spec {n : Nat} {s : Growth G} (sound : s.Sound n) {p : Edge} (h1 : p.1 < n) (h2 : p.2 < n) :
    Rows.Extended s.parents (s.joinPair p).parents (DifferIn [p.1, p.2]) ∧
      (p.1 ≠ p.2 → (s.joinPair p).parents.Beside p.1 p.2) := by
  obtain ⟨t, ran, extended, beside⟩ := marryPair_spec sound.2 (sound.1.symm ▸ h1) (sound.1.symm ▸ h2)
  obtain rfl := Except.ok.inj ((marryPair_eq sound h1 h2).1.symm.trans ran)
  exact ⟨extended, beside⟩

/-- A run of steps of which none fails is a plain fold. -/
theorem foldlM_eq_foldl {σ α ε : Type} {f : σ → α → Except ε σ} {step : σ → α → σ} {P : σ → Prop} (l : List α)
    (each : ∀ s, ∀ a ∈ l, P s → f s a = .ok (step s a) ∧ P (step s a)) {s : σ} (h : P s) :
    l.foldlM f s = .ok (l.foldl step s) ∧ P (l.foldl step s) := by
  induction l generalizing s with
  | nil => exact ⟨rfl, h⟩
  | cons a l ih =>
    obtain ⟨first, next⟩ := each s a List.mem_cons_self h
    rw [List.foldlM_cons, first]
    exact ih (fun t b hb => each t b (List.mem_cons_of_mem a hb)) next

theorem marryParents_eq {n : Nat} {s : Growth G} (sound : s.Sound n) {v : Nat} (hv : v < n) :
    s.marryParents v = .ok (s.joinParents v) ∧ (s.joinParents v).Sound n := by
  have row : (ParentLinks.parents s.graph).row v = .ok (s.parents.get v) := Rows.row_of_lt (sound.1 ▸ hv)
  rw [marryParents, row]
  refine foldlM_eq_foldl (P := Sound n) (pairs (s.parents.get v)) (fun t p hp ht => ?_) sound
  obtain ⟨first, second⟩ := mem_of_mem_pairs hp
  exact marryPair_eq ht (sound.1 ▸ sound.2 v _ first) (sound.1 ▸ sound.2 v _ second)

end Joining
end Growth

/-- Where all ids have rows, marrying never fails. -/
theorem marry_eq {G : Type} [ParentLinks G] {g : G} (inside : (ParentLinks.parents g).Inside) {order : List Nat}
    (small : ∀ v ∈ order, v < (ParentLinks.parents g).size) :
    marry g order = .ok (order.foldl Growth.joinParents ⟨g, #[]⟩) := by
  let n := (ParentLinks.parents g).size
  have start : Growth.Sound n (⟨g, #[]⟩ : Growth G) := ⟨rfl, inside⟩
  refine (Growth.foldlM_eq_foldl (P := Growth.Sound n) order (fun s v hv sound => ?_) start).1
  exact Growth.marryParents_eq sound (small v hv)

namespace Rows

/-- The parents that a list of edges gives each of `n` ids. -/
def parentsOf (n : Nat) (edges : List Edge) : Rows :=
  edges.foldl (fun r e => ParentLinks.link r e.1 e.2) (blank n)

theorem parentsOf_concat (n : Nat) (edges : List Edge) (e : Edge) :
    parentsOf n (edges ++ [e]) = (parentsOf n edges).add e.2 e.1 := by
  rw [parentsOf, List.foldl_append]
  rfl

/-- The marriages of `n` ids with the given edges, each in its turn. -/
def marriages (n : Nat) (edges : List Edge) : Growth Rows :=
  (List.range n).foldl Growth.joinParents ⟨parentsOf n edges, #[]⟩

/-- The edges of the moral graph on `n` ids, the marriages last. -/
def moralEdges (n : Nat) (edges : List Edge) : List Edge := edges ++ (marriages n edges).added.toList

/-- What both passes of the extraction list for an order of elimination and an order of the seeds. -/
def cliqueIds (r : Rows) (elimination seeds : List Nat) : List (List Nat) :=
  let found := distinct (seeds.map r.greedyClique)
  let candidates := elimination.map (r.laterClique elimination)
  found ++ keepMaximal candidates found candidates

/-- On symmetric rows no check of the extraction fails. -/
theorem cliqueIds_eq {r : Rows} (symm : r.Symmetric) {elimination seeds : List Nat}
    (small : ∀ v ∈ elimination, v < r.size) (inside : ∀ v ∈ seeds, v < r.size) : (do
      let found ← r.greedy seeds
      return found ++ (← r.missing elimination found)) = .ok (r.cliqueIds elimination seeds) := by
  have closed : r.checkClosed seeds = .ok () :=
    checkClosed_eq_ok_iff.2 fun v hv => ⟨inside v hv, fun _ link => symm.lt_size link⟩
  have rows : r.checkRows elimination = .ok () := checkRows_eq_ok_iff.2 small
  rw [greedy, closed]
  simp only [missing, rows]
  rfl

/-- The rows after the game, and the maximal cliques that the same order then lists. -/
def chordalIds (r : Rows) (order : List Nat) : List (List Nat) :=
  (Growth.eliminate [] ⟨r, #[]⟩ order).graph.cliqueIds order order

end Rows
end CliqueTree
