import TypedConfig.Bind.Handler

/-!
# Binders

A binder has the sources, in order of priority, and all settings that a bind depends on. A `Scope`
says where in the target a bind stands; sources in sight are asked through it, and every question
goes into the journal.
-/

namespace TypedConfig

/-- Settings of a binder. -/
structure Options where
  /-- How deep aggregates and composites may nest. -/
  maxDepth : Nat := 64
  /-- What separates the elements of a collection in one text. -/
  delimiter : Char := ','
  /-- Blanks around such elements do not count. -/
  trimElements : Bool := true
  deriving DecidableEq, Repr

/-- All that a bind depends on. -/
structure Binder where
  /-- Where values come from. The first source that has a name counts. -/
  sources : List Source
  /-- What the references in shapes stand for. -/
  definitions : Definitions := []
  converter : Converter := .standard
  handler : Handler := .default
  options : Options := {}
  /-- Names with nothing at them or below them are not looked into. -/
  prunes : Bool := true

/-- Where a bind stands. -/
structure Scope where
  /-- The number of composites and aggregates around the name. -/
  depth : Nat := 0
  /-- The only source in sight, if there is but one. -/
  only : Option Nat := none
  /-- The composites around the name, by type. -/
  assembling : List String := []
  /-- A constructor around the name is being bound. -/
  inConstructor : Bool := false

namespace Scope

/-- The scope inside an aggregate. -/
def deeper (s : Scope) : Scope := { s with depth := s.depth + 1 }

/-- The scope inside a composite. -/
def within (s : Scope) (typeName : String) : Scope :=
  { s.deeper with assembling := typeName :: s.assembling }

/-- The scope with a single source in sight. -/
def restrictedTo (s : Scope) (source : Nat) : Scope := { s with only := some source }

/-- The scope of the parameters of a constructor. -/
def forConstructor (s : Scope) : Scope := { s with inConstructor := true }

end Scope

/-- Binds a name that lies one level deeper. The flag says that a composite may contain itself
there. -/
abbrev BindBelow := Scope → Name → Target → (recursive : Bool) → BindM (Option Value)

namespace Binder

/-- The sources in sight, with their positions. -/
def visible (b : Binder) (scope : Scope) : List (Nat × Source) :=
  let all := b.sources.mapIdx fun i source => (i, source)
  match scope.only with
  | some only => all.filter (·.1 == only)
  | none => all

/-- The shape with references followed. -/
def resolve (b : Binder) (shape : Shape) : Shape := b.definitions.resolve shape


/-! ## Questions to sources -/

/-- The elements up to the first that passes a test, with that one. -/
def through {α : Type} (p : α → Bool) (xs : List α) : List α :=
  xs.takeWhile (fun x => !p x) ++ (xs.find? p).toList

/-- The property of a source. -/
def getFrom (i : Nat) (source : Source) (name : Name) : BindM (Option Property) := do
  Journal.ask [(i, .get name)]
  return source.get? name

/-- The property in the first source in sight that has it. -/
def lookUp (b : Binder) (scope : Scope) (name : Name) : BindM (Option Property) := do
  let sources := b.visible scope
  Journal.ask ((through (fun (_, s) => (s.get? name).isSome) sources).map
    fun (i, _) => (i, .get name))
  return sources.findSome? fun (_, s) => s.get? name

/-- Every source in sight denies that there is anything below a name. -/
def nothingBelow (b : Binder) (scope : Scope) (name : Name) : BindM Bool := do
  let sources := b.visible scope
  Journal.ask ((through (fun (_, s) => s.presence name != .absent) sources).map
    fun (i, _) => (i, .presence name))
  return sources.all fun (_, s) => s.presence name == .absent

/-- Some source in sight says that there is something below a name. -/
def somethingBelow (b : Binder) (scope : Scope) (name : Name) : BindM Bool := do
  let sources := b.visible scope
  Journal.ask ((through (fun (_, s) => s.presence name == .present) sources).map
    fun (i, _) => (i, .presence name))
  return sources.any fun (_, s) => s.presence name == .present

/-! ## Steps -/

/-- Takes a property of a source to a scalar kind, and remembers it. -/
def convertProperty (b : Binder) (p : Property) (kind : ScalarKind) : BindM Value :=
  match b.converter.convert kind p.value with
  | .ok value => do
    Journal.setProperty (some p)
    return value
  | .error failure => throw (.conversion p kind.display (.scalar failure))

/-- The shape as a message shows it. It is noted if its text would not end. -/
def describe (b : Binder) (shape : Shape) : BindM String := do
  let text := b.definitions.display shape
  if b.definitions.displayEnds shape then return text
  else
    Journal.noteEndless .text
    return text

/-- The way one level down, unless that is too deep. -/
def enter (b : Binder) (below : Option BindBelow) (name : Name) : BindM BindBelow :=
  match below with
  | some below => return below
  | none => throw (.depthExceeded name b.options.maxDepth)

/-- A name that is being bound, as its handlers see it. -/
def visit (b : Binder) (scope : Scope) (name : Name) (target : Target) : Visit :=
  ⟨name, target, scope.depth, b.visible scope, scope.inConstructor⟩

end Binder

end TypedConfig
