import TypedConfig.Bind.Basic
import TypedConfig.Typed.Fit

/-!
# Typed binds

Binds that end in a typed value: the value is bound by the shape of the type and then taken to the
type, and it is an error if it does not fit.

* `Binder.bindAs`: a typed value, or nothing;
* `Binder.bindInstance`: an instance with what was bound in place of what it holds;
* `Section`: a part of the configuration that makes a typed value of its own.
-/

namespace TypedConfig

namespace Binder

/-- Takes a value bound at a root to a type. -/
def fitBound (root : Name) (type : Typed) (v : Value) : Except Failure Value :=
  match type.fitValue v with
  | some typed => .ok typed
  | none => .error (.bind root .typeMismatch)

/-- Binds a typed value at a root. -/
def bindAs (b : Binder) (root : String) (type : Typed) (history : List Name := []) :
    Report (Option Value) :=
  withRoot history root fun root =>
    (b.bindRoot history root (.of type.shape) false).bind fun
      | some v => (fitBound root type v).map some
      | none => .ok none

/-- Binds on top of a typed value. -/
def bindInstance (b : Binder) (root : String) (type : Typed) (existing : Value)
    (history : List Name := []) : Report Value :=
  withRoot history root fun root =>
    (b.bindRoot history root { shape := type.shape, held := some existing } false).bind fun v =>
      fitBound root type (v.getD existing)

end Binder

/-- A part of the configuration, and how strictly it is bound. -/
structure Section where
  /-- The name that the part stands below. -/
  root : String := ""
  /-- Values that do not fit give way to those that are there. -/
  ignoreInvalid : Bool := false
  /-- Names that nothing uses are no error. -/
  ignoreUnknown : Bool := true
  deriving DecidableEq, Repr

namespace Section

/-- The handlers that the strictness asks for. -/
def handler (s : Section) : Handler :=
  let inner := if s.ignoreInvalid then Handler.ignoreErrors .default else .default
  if s.ignoreUnknown then inner else .noUnbound inner

/-- Binds a typed value at the root of the section, on top of an existing one if there is one, and
creates a fresh one where nothing is found. -/
def bind (s : Section) (b : Binder) (type : Typed) (existing : Option Value := none) :
    Binder.Report Value :=
  let b := { b with handler := s.handler }
  Binder.withRoot [] (Text.trim s.root) fun root =>
    (b.bindOrCreateAt root ((Target.of type.shape).withExisting existing) []).bind
      (Binder.fitBound root type)

end Section

end TypedConfig
