/-!
# JSON values

The data format in which keys, policies, graphs and trees are read and written. Numbers are whole;
`fraction` keeps the spelling of any other number, so that a reader can refuse it.
-/

set_option autoImplicit false

namespace CliqueTree

/-- A JSON value. An object keeps its fields in the order in which they are written. -/
inductive Json where
  | null
  | bool (b : Bool)
  | int (i : Int)
  | fraction (spelling : String)
  | str (s : String)
  | arr (items : List Json)
  | obj (fields : List (String × Json))
  deriving Inhabited, Repr

namespace Json

/-- The value of the first field called `name`. -/
def field? (name : String) : List (String × Json) → Option Json
  | [] => none
  | (n, v) :: rest => if n = name then some v else field? name rest

/-- The text of a string value. -/
def str? : Json → Option String
  | .str s => some s
  | _ => none

/-- The truth value of a Boolean value. -/
def bool? : Json → Option Bool
  | .bool b => some b
  | _ => none

/-- The items of an array. -/
def arr? : Json → Option (List Json)
  | .arr items => some items
  | _ => none

/-- Puts a field behind those with a lesser name, in place of one with the same name. -/
def insertField (name : String) (value : Json) : List (String × Json) → List (String × Json)
  | [] => [(name, value)]
  | (n, v) :: rest =>
    match compare name n with
    | .lt => (name, value) :: (n, v) :: rest
    | .eq => (name, value) :: rest
    | .gt => (n, v) :: insertField name value rest

/-- An object without an order of its own: its fields are written in ascending order of their names, and
of two fields with one name the later counts. -/
def mapping (fields : List (String × Json)) : Json :=
  .obj (fields.foldl (fun sorted f => insertField f.1 f.2 sorted) [])

end Json
end CliqueTree
