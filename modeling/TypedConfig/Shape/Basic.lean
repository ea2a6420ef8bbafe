import TypedConfig.Shape.ScalarKind
import TypedConfig.Value.Basic

/-!
# Shapes

A shape describes what a target looks like: a scalar, a collection, a map, or a composite with
constructors and fields. A shape can refer to another by name, which is how a type contains itself;
`Definitions` say what the names stand for, and `Definitions.resolve` follows them.
-/

namespace TypedConfig

/-- What stands for a constructor parameter that no source supplies. -/
inductive Fallback where
  /-- Nothing: its absence is an error as soon as another parameter is there. -/
  | required
  /-- The parameter is left out. -/
  | optional
  /-- A value, converted like one of a source. -/
  | value (v : Value)

/-- A parameter of a constructor. -/
structure Parameter (σ : Type) where
  name : String
  shape : σ
  fallback : Fallback

/-- A way of building a composite from parameters. -/
structure Constructor (σ : Type) where
  params : List (Parameter σ)
  /-- The constructor is the one to bind through. -/
  marked : Bool

/-- A field of a composite. -/
structure Field (σ : Type) where
  name : String
  shape : σ
  /-- The field can be set, and not only read. -/
  writable : Bool

/-- How instances of a composite come into being. -/
inductive CompositeKind where
  /-- Built in one piece by a constructor. -/
  | record
  /-- Built empty, then filled field by field. -/
  | bean
  deriving DecidableEq, Repr

/-- A composite type. -/
structure Composite (σ : Type) where
  typeName : String
  kind : CompositeKind
  /-- The type asks to be bound through its constructor. -/
  viaConstructor : Bool
  constructors : List (Constructor σ)
  fields : List (Field σ)
  /-- The state of a fresh instance. -/
  defaultInstance : Option Value

/-- A name for a shape that is written elsewhere. -/
inductive Reference where
  /-- A shape declared along with the target. -/
  | declared (name : String)
  /-- The shape of a known typed target. -/
  | standard (name : String)
  deriving DecidableEq, Repr

/-- What a target looks like. -/
inductive Shape where
  | scalar (kind : ScalarKind)
  /-- A fixed array: bound elements replace those there are. -/
  | array (element : Shape)
  /-- An ordered collection. -/
  | list (element : Shape)
  /-- A collection without duplicates. -/
  | set (element : Shape)
  | map (key : ScalarKind) (value : Shape)
  | composite (type : Composite Shape)
  | ref (target : Reference)

instance : Inhabited Shape := ⟨.scalar .string⟩

/-- What references stand for. -/
abbrev Definitions := List (Reference × Shape)

namespace Shape

def isScalar : Shape → Bool
  | scalar _ => true
  | _ => false

/-- A collection or a map. -/
def isAggregate : Shape → Bool
  | array _ | list _ | set _ | map _ _ => true
  | _ => false

/-- The shape of the elements of a collection. -/
def element? : Shape → Option Shape
  | array element | list element | set element => some element
  | _ => none

/-- The shape of the elements of a collection, or of the values of a map. -/
def inner? : Shape → Option Shape
  | array inner | list inner | set inner | map _ inner => some inner
  | scalar _ | composite _ | ref _ => none

/-- The number of collections and maps around the innermost element. -/
def nesting : Shape → Nat
  | array element | list element | set element => element.nesting + 1
  | map _ value => value.nesting + 1
  | scalar _ | composite _ | ref _ => 0

end Shape

namespace Definitions

/-- Follows at most `steps` references. -/
def follow (defs : Definitions) : Nat → Shape → Shape
  | 0, shape => shape
  | steps + 1, .ref target =>
    match Keyed.find? target defs with
    | some shape => follow defs steps shape
    | none => .ref target
  | _ + 1, shape => shape

/-- The shape that a reference stands for, and any other shape itself. A chain of references that is
longer than the definitions runs in a circle and is left as it is. -/
def resolve (defs : Definitions) (shape : Shape) : Shape := defs.follow (defs.length + 1) shape

/-- As many levels as a shape and all definitions have together. -/
def levels (defs : Definitions) (shape : Shape) : Nat :=
  shape.nesting + 1 + defs.foldr (fun (_, s) n => s.nesting + 1 + n) 0

/-- The shape as a message shows it, `steps` levels deep. -/
def displayWithin (defs : Definitions) : Nat → Shape → String
  | 0, _ => ""
  | steps + 1, shape =>
    match defs.resolve shape with
    | .scalar kind => kind.display
    | .array element => "array<" ++ displayWithin defs steps element ++ ">"
    | .list element => "list<" ++ displayWithin defs steps element ++ ">"
    | .set element => "set<" ++ displayWithin defs steps element ++ ">"
    | .map key value => "map<" ++ key.display ++ ", " ++ displayWithin defs steps value ++ ">"
    | .composite type => type.typeName
    | .ref _ => ""

/-- The text of the shape ends within `steps` levels. -/
def displayEndsWithin (defs : Definitions) : Nat → Shape → Bool
  | 0, _ => false
  | steps + 1, shape =>
    match (defs.resolve shape).inner? with
    | some inner => displayEndsWithin defs steps inner
    | none => true

/-- The shape as a message shows it. A composite is shown by its name, so no more levels are needed
than the shape and all definitions have together. -/
def display (defs : Definitions) (shape : Shape) : String :=
  displayWithin defs (defs.levels shape) shape

/-- The text of the shape ends. A collection or map of itself has a text without end. -/
def displayEnds (defs : Definitions) (shape : Shape) : Bool :=
  displayEndsWithin defs (defs.levels shape) shape

end Definitions

end TypedConfig
