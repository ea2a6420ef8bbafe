import TypedConfig.Bind.Error
import TypedConfig.Bind.Target
import TypedConfig.Source.Queries

/-!
# The journal of a bind

Binding computes a value or an error, and on the way it keeps a journal: what was bound, what the
sources were asked, and what a tracing handler saw. An error does not undo the entries made before
it, because a handler may recover from the error.
-/

namespace TypedConfig

/-- What a tracing handler sees at a name. -/
inductive Happening where
  /-- Binding begins, with some sources in sight and maybe a value there. -/
  | start (sources : List Nat) (inConstructor : Bool) (existing : Option Value)
  /-- A value was bound, and this property was the last to be converted. -/
  | success (value : Value) (property : Option Name)
  /-- A value was created because nothing was bound. -/
  | create (value : Value)
  | failure (error : BindError)
  /-- Binding is over without a failure. -/
  | finish (result : Option Value)

/-- Something that a tracing handler saw. -/
structure Event where
  name : Name
  depth : Nat
  happening : Happening

/-- What a bind would go on with without end. -/
inductive Endless where
  /-- The items of a collection. -/
  | items
  /-- The text of a shape in a message. -/
  | text
  deriving DecidableEq, Repr

/-- What is known of a bind so far. The lists have their latest entry first. -/
structure Journal where
  /-- The last property that was converted, until something fails or a constructor is done. -/
  property : Option Property := none
  /-- The names at which a value was bound. -/
  bound : List Name := []
  /-- The names of the collections that were bound in one piece, from a single value. -/
  whole : List Name := []
  /-- What tracing handlers saw. -/
  events : List Event := []
  /-- What the sources, counted from 0, were asked. -/
  queries : List (Nat × Query) := []
  /-- The first thing that would not end, and was cut short. -/
  endless : Option Endless := none

/-- A computation that keeps the journal and may fail. -/
abbrev BindM := ExceptT BindError (StateM Journal)

namespace Journal

/-- Notes questions to sources, in order. -/
def ask (queries : List (Nat × Query)) : BindM Unit :=
  modify fun j => { j with queries := queries.reverse ++ j.queries }

/-- Notes what a tracing handler saw. -/
def note (event : Event) : BindM Unit :=
  modify fun j => { j with events := event :: j.events }

/-- Notes that a value was bound at a name. -/
def noteBound (name : Name) : BindM Unit :=
  modify fun j => { j with bound := name :: j.bound }

/-- Notes that a collection was bound from a single value. -/
def noteWhole (name : Name) : BindM Unit :=
  modify fun j => { j with whole := name :: j.whole }

/-- Notes the property that was converted last, or that there is none. -/
def setProperty (property : Option Property) : BindM Unit :=
  modify fun j => { j with property }

/-- Notes that something would not end. -/
def noteEndless (what : Endless) : BindM Unit :=
  modify fun j => { j with endless := j.endless.or (some what) }

end Journal

namespace BindM

/-- The outcome of a computation as a value. What it noted stays noted. -/
def attempt {α : Type} (x : BindM α) : BindM (Except BindError α) :=
  ExceptT.mk do return .ok (← x.run)

/-- The computation with something done after it, whether it fails or not. -/
def andFinally {α : Type} (x : BindM α) (after : BindM Unit) : BindM α := do
  let outcome ← attempt x
  after
  match outcome with
  | .ok a => return a
  | .error e => throw e

/-- The outcome of a computation and the journal after it. -/
def runFrom {α : Type} (x : BindM α) (j : Journal) : Except BindError α × Journal :=
  Id.run (StateT.run (ExceptT.run x) j)

end BindM

end TypedConfig
