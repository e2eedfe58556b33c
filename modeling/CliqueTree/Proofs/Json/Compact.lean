import CliqueTree.Json.Compact
import Mathlib.Tactic.SplitIfs

/-!
# A compact text has one reading

Nothing stands around a value in a compact text to show where it ends, so two questions are asked at once: which value
a text was written from, and what follows it. The first character tells the kind of value (`Plain.write_eq_cons`). A
string goes up to the first quote that is not part of an escape, and each escape is read back by itself
(`unescape_escape`); a number goes up to the first character that is no numeral; lists and objects go up to the bracket
that closes them, since each item is followed by a comma or by that bracket (`enclosed_append_inj`). So, by induction on
the value, values with the same text are the same (`Plain.text_inj`). Numbers other than integers are left out: they
keep any spelling they were given, and it may spell another value.
-/

set_option autoImplicit false

namespace CliqueTree.Json

/-- A value in which all numbers are integers. -/
inductive Plain : Json → Prop
  | null : Plain .null
  | bool (b : Bool) : Plain (.bool b)
  | int (i : Int) : Plain (.int i)
  | str (s : String) : Plain (.str s)
  | arr {items : List Json} (all : ∀ v ∈ items, Plain v) : Plain (.arr items)
  | obj {fields : List (String × Json)} (all : ∀ f ∈ fields, Plain f.2) : Plain (.obj fields)

/-! ## Strings -/

/-- The number for which a hexadecimal digit stands. -/
def hexValue (c : Char) : Nat := if c.isDigit then c.toNat - 48 else c.toNat - 87

/-- The character for which a letter stands behind a backslash. -/
def ofLetter : Char → Char
  | 'b' => '\x08'
  | 't' => '\t'
  | 'n' => '\n'
  | 'f' => '\x0c'
  | 'r' => '\r'
  | c => c

/-- The first character of the text of a string, and what follows its spelling; none at the quote that ends it. -/
def unescape : List Char → Option (Char × List Char)
  | '\\' :: 'u' :: _ :: _ :: high :: low :: rest => some (Char.ofNat (16 * hexValue high + hexValue low), rest)
  | '\\' :: letter :: rest => some (ofLetter letter, rest)
  | '"' :: _ => none
  | c :: rest => some (c, rest)
  | [] => none

theorem hexValue_digitChar : ∀ d < 16, hexValue (Nat.digitChar d) = d := by decide

/-- Reading a character takes back its spelling and nothing else. -/
theorem unescape_escape (c : Char) (rest : List Char) : unescape (escape c ++ rest) = some (c, rest) := by
  unfold escape
  split_ifs with quote slash backspace tab newline page carriage control
  · subst quote; rfl
  · subst slash; rfl
  · subst backspace; rfl
  · subst tab; rfl
  · subst newline; rfl
  · subst page; rfl
  · subst carriage; rfl
  · have high : c.toNat / 16 < 16 := by omega
    have low : c.toNat % 16 < 16 := by omega
    have whole : 16 * (c.toNat / 16) + c.toNat % 16 = c.toNat := by omega
    show some (Char.ofNat (16 * hexValue (Nat.digitChar (c.toNat / 16)) + hexValue (Nat.digitChar (c.toNat % 16))), rest) =
      some (c, rest)
    rw [hexValue_digitChar _ high, hexValue_digitChar _ low, whole, Char.ofNat_toNat]
  · simp [unescape, slash]

theorem flatMap_escape_append_inj {s t rest rest' : List Char}
    (same : s.flatMap escape ++ '"' :: rest = t.flatMap escape ++ '"' :: rest') : s = t ∧ rest = rest' := by
  induction s generalizing t with
  | nil =>
    cases t with
    | nil => exact ⟨rfl, (List.cons.inj same).2⟩
    | cons d t =>
      have read := congrArg unescape same
      rw [List.flatMap_cons, List.append_assoc, unescape_escape] at read
      cases read
  | cons c s ih =>
    cases t with
    | nil =>
      have read := congrArg unescape same
      rw [List.flatMap_cons, List.append_assoc, unescape_escape] at read
      cases read
    | cons d t =>
      have read := congrArg unescape same
      rw [List.flatMap_cons, List.flatMap_cons, List.append_assoc, List.append_assoc, unescape_escape,
        unescape_escape] at read
      obtain ⟨rfl, later⟩ := Prod.mk.inj (Option.some.inj read)
      obtain ⟨rfl, follows⟩ := ih later
      exact ⟨rfl, follows⟩

/-- A string ends at the quote that closes it. -/
theorem writeString_append_inj {s t : String} {rest rest' : List Char}
    (same : writeString s ++ rest = writeString t ++ rest') : s = t ∧ rest = rest' := by
  simp only [writeString, List.cons_append, List.append_assoc, List.nil_append] at same
  obtain ⟨letters, follows⟩ := flatMap_escape_append_inj (List.cons.inj same).2
  exact ⟨String.toList_inj.1 letters, follows⟩

/-! ## Numbers -/

/-- What the text of an integer is made of. -/
def isNumeral (c : Char) : Bool := c = '-' || c.isDigit

theorem isNumeral_of_mem_repr {i : Int} {c : Char} (h : c ∈ i.repr.toList) : isNumeral c = true := by
  have digit : ∀ n : Nat, c ∈ n.repr.toList → isNumeral c = true := by
    intro n hn
    rw [Nat.repr_eq_ofList_toDigits, String.toList_ofList] at hn
    simp [isNumeral, Nat.isDigit_of_mem_toDigits (by omega) (by omega) hn]
  rw [Int.repr_eq_if] at h
  split at h
  · exact digit _ h
  · rw [String.toList_append, List.mem_append] at h
    rcases h with sign | h
    · have minus : c = '-' := by simpa using sign
      simp [isNumeral, minus]
    · exact digit _ h

theorem repr_toList_ne_nil (i : Int) : i.repr.toList ≠ [] := by
  rw [Int.repr_eq_if]
  split <;> simp

/-- The integer that numerals spell. -/
def ofNumerals (cs : List Char) : Int :=
  if '-' ∈ cs then -(Nat.ofDigitChars 10 cs.tail 0) else Nat.ofDigitChars 10 cs 0

theorem ofNumerals_repr (i : Int) : ofNumerals i.repr.toList = i := by
  rw [Int.repr_eq_if]
  split
  next nonneg =>
    have unsigned : '-' ∉ Nat.toDigits 10 i.toNat := fun sign =>
      absurd (Nat.isDigit_of_mem_toDigits (by omega) (by omega) sign) (by decide)
    rw [Nat.toList_repr, ofNumerals, if_neg unsigned, Nat.ofDigitChars_ten_toDigits, Int.toNat_of_nonneg nonneg]
  next negative =>
    have text : ("-" ++ (-i).toNat.repr).toList = '-' :: Nat.toDigits 10 (-i).toNat := by
      rw [String.toList_append, Nat.toList_repr]
      rfl
    rw [text, ofNumerals, if_pos List.mem_cons_self, List.tail_cons, Nat.ofDigitChars_ten_toDigits]
    omega

/-- What follows a value does not go on as a number. -/
def Ends (rest : List Char) : Prop := ∀ c ∈ rest.head?, isNumeral c = false

theorem ends_nil : Ends [] := by simp [Ends]

theorem ends_cons {c : Char} {rest : List Char} (h : isNumeral c = false) : Ends (c :: rest) := by
  simpa [Ends] using h

theorem takeWhile_repr_append {i : Int} {rest : List Char} (ends : Ends rest) :
    (i.repr.toList ++ rest).takeWhile isNumeral = i.repr.toList := by
  rw [List.takeWhile_append_of_pos fun _ => isNumeral_of_mem_repr]
  cases rest with
  | nil => simp
  | cons c rest => simp [ends c (by simp)]

/-- A number ends at the first character that is no numeral. -/
theorem repr_append_inj {i j : Int} {rest rest' : List Char} (ends : Ends rest) (ends' : Ends rest')
    (same : i.repr.toList ++ rest = j.repr.toList ++ rest') : i = j ∧ rest = rest' := by
  have numerals := congrArg (List.takeWhile isNumeral) same
  rw [takeWhile_repr_append ends, takeWhile_repr_append ends'] at numerals
  rw [numerals] at same
  exact ⟨by rw [← ofNumerals_repr i, numerals, ofNumerals_repr], List.append_cancel_left same⟩

/-! ## Lists -/

/-- Texts with a comma between two, and the character that closes the list. -/
def enclosed (close : Char) : List (List Char) → List Char
  | [] => [close]
  | [t] => t ++ [close]
  | t :: u :: rest => t ++ ',' :: enclosed close (u :: rest)

/-- What follows an item: the character that closes the list, or a comma and the other items. -/
def afterItem (close : Char) : List (List Char) → List Char
  | [] => [close]
  | t :: rest => ',' :: enclosed close (t :: rest)

theorem enclosed_cons (close : Char) (t : List Char) (rest : List (List Char)) :
    enclosed close (t :: rest) = t ++ afterItem close rest := by
  cases rest <;> rfl

section Enclosed
variable {α : Type} {write : α → List Char} {close : Char} {xs ys : List α} {rest rest' : List Char}

/-- A list of items is read item by item, when no item starts as the list ends and each item is told from what follows
it. -/
theorem enclosed_append_inj (plainClose : isNumeral close = false) (noComma : close ≠ ',')
    (starts : ∀ a, a ∈ xs ∨ a ∈ ys → ∀ before after, close :: before ≠ write a ++ after)
    (told : ∀ x ∈ xs, ∀ y ∈ ys, ∀ {rest rest' : List Char}, Ends rest → Ends rest' →
      write x ++ rest = write y ++ rest' → x = y ∧ rest = rest')
    (same : enclosed close (xs.map write) ++ rest = enclosed close (ys.map write) ++ rest') :
    xs = ys ∧ rest = rest' := by
  have ends : ∀ (ts : List (List Char)) (more : List Char), Ends (afterItem close ts ++ more) := by
    intro ts more
    cases ts with
    | nil => exact ends_cons plainClose
    | cons t ts => exact ends_cons (by decide)
  induction xs generalizing ys with
  | nil =>
    cases ys with
    | nil => exact ⟨rfl, (List.cons.inj same).2⟩
    | cons y ys =>
      rw [List.map_cons, enclosed_cons, List.append_assoc] at same
      exact absurd same (starts y (.inr List.mem_cons_self) _ _)
  | cons x xs ih =>
    cases ys with
    | nil =>
      rw [List.map_cons, enclosed_cons, List.append_assoc] at same
      exact absurd same.symm (starts x (.inl List.mem_cons_self) _ _)
    | cons y ys =>
      rw [List.map_cons, List.map_cons, enclosed_cons, enclosed_cons, List.append_assoc, List.append_assoc] at same
      obtain ⟨rfl, later⟩ := told x List.mem_cons_self y List.mem_cons_self (ends _ _) (ends _ _) same
      cases xs with
      | nil =>
        cases ys with
        | nil => exact ⟨rfl, (List.cons.inj later).2⟩
        | cons z ys => exact absurd (List.cons.inj later).1 noComma
      | cons w xs =>
        cases ys with
        | nil => exact absurd (List.cons.inj later).1.symm noComma
        | cons z ys =>
          have next := @ih (z :: ys) (fun a ha => starts a (ha.imp (List.mem_cons_of_mem x) (List.mem_cons_of_mem x)))
            (fun a ha b hb => told a (List.mem_cons_of_mem x ha) b (List.mem_cons_of_mem x hb)) (List.cons.inj later).2
          exact ⟨by rw [next.1], next.2⟩

end Enclosed

/-- The text of a field. -/
def writeField (f : String × Json) : List Char := writeString f.1 ++ ':' :: write f.2

theorem writeItems_eq (items : List Json) : writeItems items = enclosed ']' (items.map write) := by
  induction items with
  | nil => rfl
  | cons v rest ih =>
    cases rest with
    | nil => rfl
    | cons w rest =>
      rw [writeItems, ih]
      rfl

theorem writeFields_eq (fields : List (String × Json)) : writeFields fields = enclosed '\x7d' (fields.map writeField) := by
  induction fields with
  | nil => rfl
  | cons f rest ih =>
    cases rest with
    | nil => simp [writeFields, enclosed, writeField]
    | cons g rest =>
      rw [writeFields, ih]
      simp [enclosed, writeField]

/-! ## Values -/

/-- The kinds of value. -/
inductive Kind where
  | null
  | bool
  | number
  | string
  | array
  | object
  deriving DecidableEq

def kind : Json → Kind
  | .null => .null
  | .bool _ => .bool
  | .int _ => .number
  | .fraction _ => .number
  | .str _ => .string
  | .arr _ => .array
  | .obj _ => .object

/-- The kind of value that starts with a character. -/
def kindOf (c : Char) : Option Kind :=
  if c = 'n' then some .null
  else if c = 't' ∨ c = 'f' then some .bool
  else if isNumeral c then some .number
  else if c = '"' then some .string
  else if c = '[' then some .array
  else if c = '\x7b' then some .object
  else none

theorem kindOf_isNumeral {c : Char} (h : isNumeral c = true) : kindOf c = some .number := by
  have other : ∀ d : Char, isNumeral d = false → c ≠ d := by
    rintro d hd rfl
    exact Bool.false_ne_true (hd.symm.trans h)
  simp [kindOf, h, other 'n' (by decide), other 't' (by decide), other 'f' (by decide)]

/-- The first character of a text tells the kind of value. -/
theorem Plain.write_eq_cons {v : Json} (h : v.Plain) : ∃ c rest, v.write = c :: rest ∧ kindOf c = some v.kind := by
  cases h with
  | null => exact ⟨_, _, by rw [write], by decide⟩
  | bool b => cases b <;> exact ⟨_, _, by rw [write], by decide⟩
  | int i =>
    obtain ⟨c, rest, split⟩ := List.exists_cons_of_ne_nil (repr_toList_ne_nil i)
    refine ⟨c, rest, by rw [write, split], kindOf_isNumeral (isNumeral_of_mem_repr (i := i) ?_)⟩
    rw [split]
    exact List.mem_cons_self
  | str s => exact ⟨'"', _, by rw [write, writeString, List.cons_append], rfl⟩
  | arr all => exact ⟨'[', _, by rw [write], rfl⟩
  | obj all => exact ⟨'\x7b', _, by rw [write], rfl⟩

/-- Values whose texts start alike are of one kind. -/
theorem Plain.kind_eq {v w : Json} (hv : v.Plain) (hw : w.Plain) {rest rest' : List Char}
    (same : v.write ++ rest = w.write ++ rest') : v.kind = w.kind := by
  obtain ⟨c, more, split, starts⟩ := hv.write_eq_cons
  obtain ⟨d, more', split', starts'⟩ := hw.write_eq_cons
  rw [split, split', List.cons_append, List.cons_append] at same
  rw [(List.cons.inj same).1, starts'] at starts
  exact (Option.some.inj starts).symm

/-- No value starts with a character that starts no kind of value. -/
theorem Plain.ne_close {v : Json} (h : v.Plain) {close : Char} (none : kindOf close = none)
    (before after : List Char) : close :: before ≠ v.write ++ after := by
  obtain ⟨c, rest, split, starts⟩ := h.write_eq_cons
  rw [split, List.cons_append]
  intro same
  rw [← (List.cons.inj same).1, none] at starts
  cases starts

/-- The text of the value tells it from every other value, and tells what follows it. -/
def Told (v : Json) : Prop :=
  ∀ {w : Json}, w.Plain → ∀ {rest rest' : List Char}, Ends rest → Ends rest' → v.write ++ rest = w.write ++ rest' →
    v = w ∧ rest = rest'

theorem Told.writeField {f g : String × Json} (told : f.2.Told) (hg : g.2.Plain) {rest rest' : List Char} (ends : Ends rest)
    (ends' : Ends rest') (same : Json.writeField f ++ rest = Json.writeField g ++ rest') : f = g ∧ rest = rest' := by
  rw [Json.writeField, Json.writeField, List.append_assoc, List.append_assoc] at same
  obtain ⟨name, later⟩ := writeString_append_inj same
  obtain ⟨value, follows⟩ := told hg ends ends' (List.cons.inj later).2
  exact ⟨Prod.ext name value, follows⟩

theorem Plain.told {v : Json} (h : v.Plain) : v.Told := by
  induction h with
  | null =>
    intro w hw rest rest' _ _ same
    have kinds := Plain.null.kind_eq hw same
    cases hw with
    | null => exact ⟨rfl, List.append_cancel_left same⟩
    | _ => cases kinds
  | bool b =>
    intro w hw rest rest' _ _ same
    have kinds := (Plain.bool b).kind_eq hw same
    cases hw with
    | bool b' => cases b <;> cases b' <;> simp_all [write]
    | _ => cases kinds
  | int i =>
    intro w hw rest rest' ends ends' same
    have kinds := (Plain.int i).kind_eq hw same
    cases hw with
    | int j =>
      rw [write, write] at same
      obtain ⟨rfl, follows⟩ := repr_append_inj ends ends' same
      exact ⟨rfl, follows⟩
    | _ => cases kinds
  | str s =>
    intro w hw rest rest' _ _ same
    have kinds := (Plain.str s).kind_eq hw same
    cases hw with
    | str t =>
      rw [write, write] at same
      obtain ⟨rfl, follows⟩ := writeString_append_inj same
      exact ⟨rfl, follows⟩
    | _ => cases kinds
  | @arr items all ih =>
    intro w hw rest rest' _ _ same
    have kinds := (Plain.arr all).kind_eq hw same
    cases hw with
    | @arr items' all' =>
      rw [write, write, writeItems_eq, writeItems_eq] at same
      obtain ⟨rfl, follows⟩ := enclosed_append_inj (by decide) (by decide)
        (fun v hv => (hv.elim (all v) (all' v)).ne_close (by decide)) (fun v hv w hw => ih v hv (all' w hw))
        (List.cons.inj same).2
      exact ⟨rfl, follows⟩
    | _ => cases kinds
  | @obj fields all ih =>
    intro w hw rest rest' _ _ same
    have kinds := (Plain.obj all).kind_eq hw same
    cases hw with
    | @obj fields' all' =>
      rw [write, write, writeFields_eq, writeFields_eq] at same
      have quoted : ∀ (f : String × Json) (before after : List Char), '\x7d' :: before ≠ writeField f ++ after := by
        intro f before after
        simp [writeField, writeString]
      obtain ⟨rfl, follows⟩ := enclosed_append_inj (by decide) (by decide)
        (fun f _ => quoted f) (fun f hf g hg => Told.writeField (ih f hf) (all' g hg)) (List.cons.inj same).2
      exact ⟨rfl, follows⟩
    | _ => cases kinds

/-- Values with the same text are the same. -/
theorem Plain.text_inj {v w : Json} (hv : v.Plain) (hw : w.Plain) : v.text = w.text ↔ v = w := by
  constructor
  · intro same
    have letters : v.write ++ [] = w.write ++ [] := by
      rw [text, text, String.ofList_inj] at same
      rw [same]
    exact (hv.told hw ends_nil ends_nil letters).1
  · rintro rfl
    rfl

end CliqueTree.Json
