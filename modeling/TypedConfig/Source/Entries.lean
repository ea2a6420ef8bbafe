import TypedConfig.Keyed
import TypedConfig.Name.Reading
import TypedConfig.Property

/-!
# Entries

The content of an in-memory source: values under leniently read keys, in the order in which their
names came. Keys that mean the same share an entry, and the last value put in counts. A key without
a letter or digit is ignored.
-/

namespace TypedConfig

/-- A value with the key that it was put in under, as written. -/
structure Entry where
  key : String
  value : Value
  deriving Repr

/-- Entries by name. -/
abbrev Entries := List (Name × Entry)

namespace Entries

/-- The entries with a value under a key. -/
def insert (held : Entries) (key : String) (value : Value) : Entries :=
  let name := Name.adapt key '.'
  if name.isEmpty then held else Keyed.insert name ⟨key, value⟩ held

/-- The value under a key. -/
def value? (held : Entries) (key : String) : Option Value :=
  (Keyed.find? (Name.adapt key '.') held).map Entry.value

/-- The entries without that of a key. -/
def remove (held : Entries) (key : String) : Entries := Keyed.erase (Name.adapt key '.') held

/-- Entries put in one after the other. -/
def ofList (pairs : List (String × Value)) : Entries :=
  pairs.foldl (fun held (key, value) => held.insert key value) []

/-- The names in order. -/
def names (held : Entries) : List Name := held.map (·.1)

end Entries

end TypedConfig
