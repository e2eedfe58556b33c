import CliqueTree.Json.Digest
import CliqueTree.Table.Cover

/-!
# Order policies

How the order of the vertices is chosen that triangulation and clique extraction go by: the order of
insertion as it stands, or a breadth-first order from the first vertex. A policy carries the name of its
version, and the digest of its three fields identifies it in the trees made under it.
-/

set_option autoImplicit false

namespace CliqueTree

/-- How the order of the vertices is chosen. -/
structure OrderPolicy where
  version : String
  /-- Whether a breadth-first order replaces the caller's. -/
  reorder : Bool
  disconnected : Disconnected
  deriving DecidableEq, Repr

namespace OrderPolicy

/-- The version of policies made here. -/
def currentVersion : String := "elimination_policy_v1"

def new (reorder : Bool) (disconnected : Disconnected) : OrderPolicy :=
  ⟨currentVersion, reorder, disconnected⟩

/-- Breadth-first, component by component. -/
def standard : OrderPolicy := new true .perComponent

/-- The order of insertion. -/
def inOrder : OrderPolicy := new false .perComponent

/-- Breadth-first, for connected graphs only. -/
def strict : OrderPolicy := new true .reject

/-- The order in which `vertices` are taken, where `r` lists the neighbours. -/
def resolve (p : OrderPolicy) (r : Rows) (vertices : List Nat) : Except GraphError (List Nat) :=
  if p.reorder then r.cover vertices p.disconnected else .ok vertices

end OrderPolicy

/-- The name of the choice inside a JSON value. -/
def Disconnected.tag : Disconnected → String
  | .reject => "Reject"
  | .perComponent => "PerComponent"

def Disconnected.ofTag? (s : String) : Option Disconnected :=
  if s = "Reject" then some .reject else if s = "PerComponent" then some .perComponent else none

/-- A choice is read from its name, or from an object whose one field has that name and is null. -/
def Disconnected.ofJson? : Json → Option Disconnected
  | .str s => ofTag? s
  | .obj [(s, .null)] => ofTag? s
  | _ => none

namespace OrderPolicy

def toJson (p : OrderPolicy) : Json :=
  .obj [("version", .str p.version), ("reorder", .bool p.reorder),
    ("disconnected", .str p.disconnected.tag)]

/-- A policy from the values of its fields. -/
def ofFields? (version reorder disconnected : Json) : Option OrderPolicy := do
  return ⟨← version.str?, ← reorder.bool?, ← Disconnected.ofJson? disconnected⟩

/-- A policy is read from an object with its three fields among others, or from an array of just these
three. -/
def ofJson? : Json → Option OrderPolicy
  | .obj fields => do
    ofFields? (← Json.field? "version" fields) (← Json.field? "reorder" fields)
      (← Json.field? "disconnected" fields)
  | .arr [version, reorder, disconnected] => ofFields? version reorder disconnected
  | _ => none

/-- The digest that stands for the policy. -/
def paramsHash (p : OrderPolicy) : String := p.toJson.digestHex

theorem ofJson?_toJson (p : OrderPolicy) : ofJson? p.toJson = some p := by
  obtain ⟨version, reorder, disconnected⟩ := p
  cases disconnected <;> rfl

end OrderPolicy
end CliqueTree
