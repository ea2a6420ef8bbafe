import TypedConfig.Shape.Basic

/-!
# Bind targets

What is to be bound: a shape, with the value that is there already and how to go about it.
-/

namespace TypedConfig

/-- A way of assembling a composite. -/
inductive BindMethod where
  /-- Set the fields of the instance there is, or of a fresh one. -/
  | fields
  /-- Build the instance from the parameters of its constructor. -/
  | constructor
  deriving DecidableEq, Repr

/-- What is to be bound. -/
structure Target where
  shape : Shape
  /-- The value that is there already. -/
  held : Option Value := none
  /-- A value right at the name of the target does not count, only those below it. -/
  nestedOnly : Bool := false
  /-- The only way of assembling a composite that is tried. -/
  method : Option BindMethod := none

namespace Target

/-- The target of a shape, with nothing there. -/
def of (shape : Shape) : Target := { shape }

/-- The value that is there already. Null counts as nothing. -/
def existing? (t : Target) : Option Value := t.held.filter fun v => !v.isNull

/-- The target with a value there, if one is given. -/
def withExisting (t : Target) (existing : Option Value) : Target :=
  match existing with
  | some v => { t with held := some v }
  | none => t

@[simp] theorem withExisting_shape (t : Target) (existing : Option Value) :
    (t.withExisting existing).shape = t.shape := by
  cases existing <;> rfl

@[simp] theorem withExisting_nestedOnly (t : Target) (existing : Option Value) :
    (t.withExisting existing).nestedOnly = t.nestedOnly := by
  cases existing <;> rfl

@[simp] theorem withExisting_method (t : Target) (existing : Option Value) :
    (t.withExisting existing).method = t.method := by
  cases existing <;> rfl

@[simp] theorem of_shape (shape : Shape) : (of shape).shape = shape := rfl

@[simp] theorem of_nestedOnly (shape : Shape) : (of shape).nestedOnly = false := rfl

@[simp] theorem of_method (shape : Shape) : (of shape).method = none := rfl

/-- The field of the value that is there, unless it is null. -/
def existingField? (t : Target) (field : String) : Option Value :=
  ((t.existing?.bind Value.asFields?).bind (Keyed.find? field)).filter fun v => !v.isNull

end Target

end TypedConfig
