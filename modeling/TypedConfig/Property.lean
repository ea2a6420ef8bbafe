import TypedConfig.Name.Basic
import TypedConfig.Value.Json

/-!
# Properties

A property is a value found under a name, with the place that it came from where that is known.
-/

namespace TypedConfig

/-- A value under a name. -/
structure Property where
  name : Name
  value : Value
  /-- Where the value came from, in words. -/
  origin : Option String := none
  deriving Repr

namespace Property

/-- The same value under another name. -/
def renamed (p : Property) (name : Name) : Property := { p with name }

/-- The same place with another value, a part of the one that stands there. -/
def withValue (p : Property) (value : Value) : Property := { p with value }

/-- The property as a message shows it. -/
def display (p : Property) : String :=
  s!"{p.name}={p.value}" ++
    match p.origin with
    | some origin => s!" ({origin})"
    | none => ""

/-- The property as a JSON object. -/
def toJson (p : Property) : Json :=
  .ofMembers [("name", .string p.name.text), ("value", p.value.toJson),
    ("origin", match p.origin with
      | some origin => .string origin
      | none => .null)]

end Property

end TypedConfig
