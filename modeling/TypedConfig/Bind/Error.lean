import TypedConfig.Conversion
import TypedConfig.Name.Reading
import TypedConfig.Property

/-!
# Bind errors

Why binding fails. `BindError` is a failure at some name on the way; `Failure` is what a whole bind
fails with: the name of its root is no name, or something went wrong below the root.
-/

namespace TypedConfig

/-- Why a source value cannot become what a target wants. -/
inductive Obstacle where
  /-- The value is not of the scalar kind. -/
  | scalar (failure : ConversionFailure)
  /-- The target is a composite. -/
  | singleValue
  /-- The target is a collection of other things than scalars. -/
  | elements
  /-- The target is a collection and the value is a map. -/
  | mapAsCollection
  /-- The target is a map and the value is not. -/
  | notMap

/-- The obstacle in words. -/
def Obstacle.message : Obstacle → String
  | scalar failure => failure.message
  | singleValue => "a single value cannot be bound to this type"
  | elements => "elements of this type cannot be read from a single value"
  | mapAsCollection => "a map cannot be read as a collection"
  | notMap => "only a map value can be bound to a map"

/-- Why a name could not be bound. -/
inductive BindError where
  /-- A value found in a source, or declared as a default, does not fit. -/
  | conversion (property : Property) (target : String) (obstacle : Obstacle)
  /-- A required parameter is missing while others are there. -/
  | missingParameter (name : Name) (parameter typeName : String)
  /-- More than one constructor is marked. -/
  | ambiguousConstructor (typeName : String)
  /-- The marked constructor has no parameters. -/
  | invalidConstructor (typeName : String)
  /-- The target nests deeper than is allowed. -/
  | depthExceeded (name : Name) (maxDepth : Nat)
  /-- Sources hold properties that nothing used. -/
  | unboundProperties (properties : List Property)
  /-- A value for a field that cannot be set. -/
  | readOnlyProperty (name : Name) (property typeName : String)
  /-- There is no way to make an instance. -/
  | uncreatable (typeName : String)
  /-- A bound value does not fit the typed target. -/
  | typeMismatch
  /-- The identifier of a field or parameter gives no name. -/
  | invalidName (error : InvalidName)

/-- The error in words. -/
def BindError.message : BindError → String
  | conversion p target obstacle =>
    let origin := match p.origin with
      | some origin => s!" (from {origin})"
      | none => ""
    s!"cannot convert '{p.name}' = {p.value}{origin} to {target}: {obstacle.message}"
  | missingParameter name parameter typeName =>
    s!"no value bound for required parameter '{parameter}' of {typeName} at '{name}'"
  | ambiguousConstructor typeName => s!"{typeName} has more than one binding constructor"
  | invalidConstructor typeName => s!"binding constructor of {typeName} takes no parameters"
  | depthExceeded name maxDepth => s!"maximum bind depth {maxDepth} exceeded at '{name}'"
  | unboundProperties properties =>
    "properties were left unbound: " ++ String.intercalate ", " (properties.map Property.display)
  | readOnlyProperty name property typeName =>
    s!"cannot set read-only property '{property}' of {typeName} at '{name}'"
  | uncreatable typeName => s!"cannot create an instance of {typeName}"
  | typeMismatch => "bound value does not fit the target type"
  | invalidName e => e.message

/-- Why a whole bind failed. -/
inductive Failure where
  /-- The name of the root is no name. -/
  | invalidName (error : InvalidName)
  /-- Binding failed at the root or below it. -/
  | bind (root : Name) (error : BindError)

/-- The failure in words. -/
def Failure.message : Failure → String
  | invalidName e => e.message
  | bind root e => s!"Failed to bind '{root}': {e.message}"

end TypedConfig
