import TypedConfig.Keyed
import TypedConfig.Name.Order
import TypedConfig.Name.Reading

/-!
# Aliases

A table of canonical names with the alternate names that each is also known by. Names are told apart
by meaning (`Name.same`).
-/

namespace TypedConfig

/-- Canonical names, each with its aliases in the order of registration. -/
abbrev Aliases := List (Name × List Name)

namespace Aliases

/-- The names with one more, unless it is there. -/
def addName (names : List Name) (name : Name) : List Name :=
  if names.contains name then names else names ++ [name]

/-- The aliases of a canonical name. -/
def of (table : Aliases) (name : Name) : List Name := (Keyed.find? name table).getD []

/-- The canonical name that an alias stands for. -/
def canonical? (table : Aliases) (name : Name) : Option Name :=
  (table.find? fun (_, aliases) => aliases.contains name).map (·.1)

/-- The table with more aliases of a name. -/
def add (table : Aliases) (name : Name) (aliases : List Name) : Aliases :=
  Keyed.insert name (aliases.foldl addName (table.of name)) table

/-- The table with more aliases of a name, all read strictly. -/
def register (table : Aliases) (name : String) (aliases : List String) :
    Except InvalidName Aliases := do
  let name ← Name.parse name
  return table.add name (← aliases.mapM Name.parse)

/-- The pairs of a canonical name and one of its aliases. -/
def pairs (table : Aliases) : List (Name × Name) :=
  table.flatMap fun (canonical, aliases) => aliases.map (canonical, ·)

/-- The table in the order of its canonical names. -/
def sorted (table : Aliases) : Aliases := table.mergeSort fun a b => (a.1.compare b.1).isLE

/-- A bound above the positions in the names of the table. -/
def reach (table : Aliases) : Nat :=
  Name.reachOf (table.flatMap fun (canonical, aliases) => canonical :: aliases)

end Aliases

end TypedConfig
