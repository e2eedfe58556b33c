import CliqueTree.Proofs.Table.Runs

/-!
# Calls that write as they go

Linking, filling in and marrying change a structure in place: what they have written before they fail stays written. A
call is here a step of state that leaves a structure in either case (`InPlace.left`); it is atomic when it leaves the
structure as it was whenever it fails (`InPlace.Atomic`). The elimination game and the marriages are played this way,
with every row looked up where it is read. Between ids that have rows they run to their end, and leave what
`Growth.eliminate` and `marry` come to (`InPlace.eliminate_eq`, `InPlace.marry_eq`). Calls on two structures of which one
is told by the other can be compared step by step (`InPlace.Mirrors`).
-/

set_option autoImplicit false

namespace CliqueTree

/-- A call that changes a structure in place. -/
abbrev InPlace (G : Type) := EStateM GraphError G

namespace InPlace
variable {G α β : Type} {g t : G}

/-- Reads the structure, and fails over what it reads. -/
def ask (f : G → Except GraphError α) : InPlace G α := fun g =>
  match f g with
  | .ok a => .ok a g
  | .error e => .error e g

/-- The structure that a call leaves, also when it fails. -/
def left (x : InPlace G α) (g : G) : G :=
  match x g with
  | .ok _ t => t
  | .error _ t => t

theorem ask_bind (f : G → Except GraphError α) (k : α → InPlace G β) : (ask f >>= k) g =
    match f g with
    | .ok a => k a g
    | .error e => .error e g := by
  show EStateM.bind (ask f) k g = _
  rw [EStateM.bind, ask]
  cases f g <;> rfl

theorem bind_ok {x : InPlace G α} {k : α → InPlace G β} {a : α} (ran : x g = .ok a t) : (x >>= k) g = k a t := by
  show EStateM.bind x k g = k a t
  rw [EStateM.bind, ran]

/-- The call leaves what `r` tells, or fails as it tells and leaves the structure as it was. -/
def Atomic (x : InPlace G Unit) (g : G) (r : Except GraphError G) : Prop :=
  x g = match r with
    | .ok t => .ok () t
    | .error e => .error e g

namespace Atomic
variable {x : InPlace G Unit} {r : Except GraphError G}

theorem eq_ok_iff (h : x.Atomic g r) : x g = .ok () t ↔ r = .ok t := by
  rw [h]
  cases r <;> simp

theorem eq_error_iff (h : x.Atomic g r) {e : GraphError} : x g = .error e t ↔ r = .error e ∧ t = g := by
  rw [h]
  cases r <;> simp [eq_comm]

/-- What holds of the structure before the call and of what `r` tells holds of what the call leaves. -/
theorem left_induction {P : G → Prop} (h : x.Atomic g r) (before : P g) (done : ∀ t, r = .ok t → P t) :
    P (x.left g) := by
  rw [left, h]
  cases r with
  | ok t => exact done t rfl
  | error e => exact before

end Atomic

/-- A loop of which no turn fails leaves what a plain fold comes to. -/
theorem forM_eq {S : Type} {P : S → Prop} (read : S → G) {x : α → InPlace G Unit} (step : S → α → S) (l : List α)
    (each : ∀ s, ∀ a ∈ l, P s → x a (read s) = .ok () (read (step s a)) ∧ P (step s a)) {s : S} (h : P s) :
    l.forM x (read s) = .ok () (read (l.foldl step s)) ∧ P (l.foldl step s) := by
  induction l generalizing s with
  | nil => exact ⟨rfl, h⟩
  | cons a l ih =>
    obtain ⟨first, next⟩ := each s a List.mem_cons_self h
    obtain ⟨rest, last⟩ := ih (fun t b hb => each t b (List.mem_cons_of_mem a hb)) next
    exact ⟨(bind_ok first).trans rest, last⟩

section Mirrored
variable {H : Type} {f : G → H} {x : InPlace G α} {y : InPlace H α}

/-- On the image of a structure `y` comes to what `x` comes to on the structure: the same answer or error, and the image
of what `x` leaves. -/
def Mirrors (f : G → H) (x : InPlace G α) (y : InPlace H α) : Prop :=
  ∀ g, y (f g) = match x g with
    | .ok a t => .ok a (f t)
    | .error e t => .error e (f t)

theorem mirrors_pure (f : G → H) (a : α) : Mirrors f (pure a) (pure a) := fun _ => rfl

theorem mirrors_ask {read : G → Except GraphError α} {read' : H → Except GraphError α}
    (same : ∀ g, read' (f g) = read g) : Mirrors f (ask read) (ask read') := by
  intro g
  rw [ask, ask, same]
  cases read g <;> rfl

theorem mirrors_modify {write : G → G} {write' : H → H} (same : ∀ g, write' (f g) = f (write g)) :
    Mirrors f (modify write) (modify write') := fun g => congrArg (EStateM.Result.ok ()) (same g)

theorem Mirrors.bind {k : α → InPlace G β} {k' : α → InPlace H β} (h : Mirrors f x y)
    (next : ∀ a, Mirrors f (k a) (k' a)) : Mirrors f (x >>= k) (y >>= k') := by
  intro g
  have first := h g
  show EStateM.bind y k' (f g) = match EStateM.bind x k g with
    | .ok b t => .ok b (f t)
    | .error e t => .error e (f t)
  rw [EStateM.bind, EStateM.bind]
  cases ran : x g with
  | ok a t =>
    rw [ran] at first
    rw [first]
    exact next a t
  | error e t =>
    rw [ran] at first
    rw [first]

theorem Mirrors.ite {x' : InPlace G α} {y' : InPlace H α} {c : Prop} [Decidable c] (yes : Mirrors f x y)
    (no : Mirrors f x' y') : Mirrors f (if c then x else x') (if c then y else y') := by
  split
  · exact yes
  · exact no

theorem Mirrors.forM {x : α → InPlace G Unit} {y : α → InPlace H Unit} (each : ∀ a, Mirrors f (x a) (y a))
    (l : List α) : Mirrors f (l.forM x) (l.forM y) := by
  induction l with
  | nil => exact mirrors_pure f ()
  | cons a l ih => exact (each a).bind fun _ => ih

theorem Mirrors.left_eq (h : Mirrors f x y) (g : G) : y.left (f g) = f (x.left g) := by
  rw [left, left, h g]
  cases x g <;> rfl

end Mirrored

section Filling
variable [NeighbourLinks G] (link : Nat → Nat → InPlace G Unit)

/-- Links the ends of a pair unless they are one or linked. -/
def fillPair (p : Edge) : InPlace G Unit := do
  if p.1 = p.2 then return
  if ← ask (NeighbourLinks.isLinked · p.1 p.2) then return
  link p.1 p.2

/-- Lets the vertices leave one after the other. -/
def eliminate (gone : List Nat) : List Nat → InPlace G Unit
  | [] => return
  | v :: order => do
    let row ← ask fun g => do
      (NeighbourLinks.neighbours g).checkClosed [v]
      return (NeighbourLinks.neighbours g).get v
    (pairs (row.filter (· ∉ v :: gone))).forM (fillPair link)
    eliminate (v :: gone) order

/-- Structures whose rows name only ids with rows, and stay such when the link in place adds what `link` adds. -/
structure Fills (P : G → Prop) : Prop where
  inside : ∀ g, P g → (NeighbourLinks.neighbours g).Inside
  writes : ∀ g u v, P g → u < (NeighbourLinks.neighbours g).size → v < (NeighbourLinks.neighbours g).size →
    link u v g = .ok () (NeighbourLinks.link g u v) ∧ P (NeighbourLinks.link g u v)

variable {link} {P : G → Prop}

theorem fillPair_eq (fills : Fills link P) {n : Nat} {s : Growth G} (h : P s.graph ∧ s.rows.size = n) {p : Edge}
    (h1 : p.1 < n) (h2 : p.2 < n) : fillPair link p s.graph = .ok () (s.fillPair p).graph ∧
      P (s.fillPair p).graph ∧ (s.fillPair p).rows.size = n := by
  obtain ⟨hs, rfl⟩ := h
  have row : (NeighbourLinks.neighbours s.graph).row p.1 = .ok (s.rows.get p.1) := Rows.row_of_lt h1
  have looked : NeighbourLinks.isLinked s.graph p.1 p.2 = .ok (decide (p.2 ∈ s.rows.get p.1)) := by
    rw [NeighbourLinks.isLinked, row]
    rfl
  by_cases settled : s.Settled p
  · rw [Growth.fillPair_of_settled settled]
    refine ⟨?_, hs, rfl⟩
    rw [fillPair]
    split
    · rfl
    next differ =>
      rw [ask_bind, looked, decide_eq_true (settled.resolve_left differ)]
      rfl
  · obtain ⟨differ, apart⟩ := not_or.1 settled
    obtain ⟨linked, keeps⟩ := fills.writes s.graph p.1 p.2 hs h1 h2
    rw [Growth.fillPair_of_not_settled settled]
    refine ⟨?_, keeps, ?_⟩
    · rw [fillPair, if_neg differ, ask_bind, looked, decide_eq_false apart]
      exact linked
    · rw [Growth.rows, NeighbourLinks.neighbours_link, Rows.size_add, Rows.size_add]
      rfl

/-- The game in place runs to its end. -/
theorem eliminate_eq (fills : Fills link P) (order gone : List Nat) {s : Growth G} (h : P s.graph)
    (small : ∀ v ∈ order, v < s.rows.size) :
    eliminate link gone order s.graph = .ok () (s.eliminate gone order).graph ∧ P (s.eliminate gone order).graph := by
  induction order generalizing gone s with
  | nil => exact ⟨rfl, h⟩
  | cons v order ih =>
    obtain ⟨first, small⟩ := List.forall_mem_cons.1 small
    have inside := fills.inside s.graph h v
    have closed : (NeighbourLinks.neighbours s.graph).checkClosed [v] = .ok () :=
      Rows.checkClosed_eq_ok_iff.2 (List.forall_mem_singleton.2 ⟨first, inside⟩)
    -- the turn of `v` links ids with rows and leaves their number
    obtain ⟨turn, keeps, size⟩ := forM_eq (P := fun t : Growth G => P t.graph ∧ t.rows.size = s.rows.size)
      (x := fillPair link) Growth.graph Growth.fillPair (pairs ((s.rows.get v).filter (· ∉ v :: gone)))
      (fun t p hp ht => by
        obtain ⟨h1, h2⟩ := mem_of_mem_pairs hp
        exact fillPair_eq fills ht (inside p.1 (List.mem_filter.1 h1).1) (inside p.2 (List.mem_filter.1 h2).1))
      ⟨h, rfl⟩
    obtain ⟨rest, last⟩ := ih (v :: gone) keeps (size.symm ▸ small)
    refine ⟨?_, last⟩
    rw [eliminate, ask_bind, closed]
    exact (bind_ok turn).trans rest

/-- On an image with the same rows the game in place takes the same way, whatever order it is given. -/
theorem Mirrors.eliminate {H : Type} [NeighbourLinks H] {f : G → H} {link' : Nat → Nat → InPlace H Unit}
    (rows : ∀ g, NeighbourLinks.neighbours (f g) = NeighbourLinks.neighbours g)
    (linked : ∀ u v, Mirrors f (link u v) (link' u v)) (order gone : List Nat) :
    Mirrors f (InPlace.eliminate link gone order) (InPlace.eliminate link' gone order) := by
  have pair : ∀ p, Mirrors f (fillPair link p) (fillPair link' p) := by
    intro p
    have looked : ∀ g, NeighbourLinks.isLinked (f g) p.1 p.2 = NeighbourLinks.isLinked g p.1 p.2 := by
      intro g
      rw [NeighbourLinks.isLinked, NeighbourLinks.isLinked, rows]
    exact .ite (mirrors_pure f ()) ((mirrors_ask looked).bind fun _ => .ite (mirrors_pure f ()) (linked p.1 p.2))
  induction order generalizing gone with
  | nil => exact mirrors_pure f ()
  | cons v order ih =>
    have row : Mirrors f
        (ask fun g => do
          (NeighbourLinks.neighbours g).checkClosed [v]
          return (NeighbourLinks.neighbours g).get v)
        (ask fun h => do
          (NeighbourLinks.neighbours h).checkClosed [v]
          return (NeighbourLinks.neighbours h).get v) := mirrors_ask fun g => by simp only [rows]
    exact row.bind fun _ => (Mirrors.forM pair _).bind fun _ => ih (v :: gone)

end Filling

section Marrying
variable [ParentLinks G] (link : Nat → Nat → InPlace G Unit)

/-- Links the ends of a pair unless they are one or one of them is a parent of the other. -/
def marryPair (p : Edge) : InPlace G Unit := do
  if p.1 = p.2 then return
  if p.1 ∈ (← ask fun g => (ParentLinks.parents g).row p.2) then return
  if p.2 ∈ (← ask fun g => (ParentLinks.parents g).row p.1) then return
  link p.1 p.2

/-- Marries the parents of `v`. -/
def marryParents (v : Nat) : InPlace G Unit := do
  (pairs (← ask fun g => (ParentLinks.parents g).row v)).forM (marryPair link)

/-- Marries the parents of each vertex of `order` in turn. -/
def marry (order : List Nat) : InPlace G Unit := order.forM (marryParents link)

/-- Structures whose rows name only ids with rows, and stay such when the link in place adds what `link` adds. -/
structure Marries (P : G → Prop) : Prop where
  inside : ∀ g, P g → (ParentLinks.parents g).Inside
  writes : ∀ g u v, P g → u < (ParentLinks.parents g).size → v < (ParentLinks.parents g).size →
    link u v g = .ok () (ParentLinks.link g u v) ∧ P (ParentLinks.link g u v)

variable {link} {P : G → Prop}

theorem marryPair_eq (marries : Marries link P) {n : Nat} {s : Growth G} (h : P s.graph ∧ s.parents.size = n) {p : Edge}
    (h1 : p.1 < n) (h2 : p.2 < n) : marryPair link p s.graph = .ok () (s.joinPair p).graph ∧
      P (s.joinPair p).graph ∧ (s.joinPair p).parents.size = n := by
  obtain ⟨hs, rfl⟩ := h
  have first : (ParentLinks.parents s.graph).row p.1 = .ok (s.parents.get p.1) := Rows.row_of_lt h1
  have second : (ParentLinks.parents s.graph).row p.2 = .ok (s.parents.get p.2) := Rows.row_of_lt h2
  by_cases married : s.Married p
  · rw [Growth.joinPair_of_married married]
    refine ⟨?_, hs, rfl⟩
    rw [marryPair]
    split
    · rfl
    next differ =>
      rw [ask_bind, second]
      show (if p.1 ∈ s.parents.get p.2 then _ else _ : InPlace G Unit) s.graph = _
      split
      · rfl
      next apart =>
        rw [ask_bind, first]
        exact congrFun (if_pos ((married.resolve_left differ).resolve_left apart)) s.graph
  · obtain ⟨differ, apart⟩ := not_or.1 married
    obtain ⟨apart, apart'⟩ := not_or.1 apart
    obtain ⟨linked, keeps⟩ := marries.writes s.graph p.1 p.2 hs h1 h2
    rw [Growth.joinPair_of_not_married married]
    refine ⟨?_, keeps, ?_⟩
    · rw [marryPair, if_neg differ, ask_bind, second]
      show (if p.1 ∈ s.parents.get p.2 then _ else _ : InPlace G Unit) s.graph = _
      rw [if_neg apart, ask_bind, first]
      exact (congrFun (if_neg apart') s.graph).trans linked
    · rw [Growth.parents, ParentLinks.parents_link, Rows.size_add]
      rfl

theorem marryParents_eq (marries : Marries link P) {n : Nat} {s : Growth G} (h : P s.graph ∧ s.parents.size = n)
    {v : Nat} (hv : v < n) : marryParents link v s.graph = .ok () (s.joinParents v).graph ∧
      P (s.joinParents v).graph ∧ (s.joinParents v).parents.size = n := by
  obtain ⟨hs, rfl⟩ := h
  have inside := marries.inside s.graph hs v
  have row : (ParentLinks.parents s.graph).row v = .ok (s.parents.get v) := Rows.row_of_lt hv
  rw [marryParents, ask_bind, row]
  refine forM_eq (P := fun t : Growth G => P t.graph ∧ t.parents.size = s.parents.size) Growth.graph Growth.joinPair
    (pairs (s.parents.get v)) (fun t p hp ht => ?_) ⟨hs, rfl⟩
  obtain ⟨h1, h2⟩ := mem_of_mem_pairs hp
  exact marryPair_eq marries ht (inside p.1 h1) (inside p.2 h2)

/-- The marriages in place run to their end. -/
theorem marry_eq (marries : Marries link P) {g : G} (h : P g) {order : List Nat}
    (small : ∀ v ∈ order, v < (ParentLinks.parents g).size) :
    ∃ s, CliqueTree.marry g order = .ok s ∧ marry link order g = .ok () s.graph ∧ P s.graph := by
  have turns := forM_eq (P := fun t : Growth G => P t.graph ∧ t.parents.size = (ParentLinks.parents g).size)
    Growth.graph Growth.joinParents order (fun s v hv hs => marryParents_eq marries hs (small v hv))
    (s := ⟨g, #[]⟩) ⟨h, rfl⟩
  exact ⟨_, CliqueTree.marry_eq (marries.inside g h) small, turns.1, turns.2.1⟩

end Marrying
end InPlace
end CliqueTree
