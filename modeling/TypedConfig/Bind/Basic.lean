import TypedConfig.Bind.Collection
import TypedConfig.Bind.Composite
import TypedConfig.Bind.Dictionary

/-!
# Binding

Binding walks a shape from the name of its root down. A scalar takes the property at its name, an
aggregate its items or entries, a composite its parameters or fields. A name that finds nothing
binds nothing, which is no error.

* `Binder.bindShape`: one name, without its handlers;
* `Binder.bindVisit`: one name, with its handlers;
* `Binder.bindAt`: a name with so many levels left below it. Each aggregate and composite takes one;
* `Binder.bind`, `Binder.bindOrCreate`: a whole bind, with its journal.
-/

namespace TypedConfig

namespace Binder

/-! ## One name -/

/-- The property at the name of a target, where one may count. -/
def directProperty (b : Binder) (scope : Scope) (name : Name) (target : Target) :
    BindM (Option Property) :=
  if name.isEmpty || target.nestedOnly then return none else b.lookUp scope name

/-- Binds a composite. A single value at its name is an error unless something else was bound. -/
def bindCompositeOver (b : Binder) (below : Option BindBelow) (scope : Scope) (name : Name)
    (target : Target) (type : Composite Shape) (recursive : Bool) (property : Option Property) :
    BindM (Option Value) := do
  match ← b.bindComposite below scope name target type recursive, property with
  | some v, _ => return some v
  | none, some p => throw (.conversion p type.typeName .singleValue)
  | none, none => return none

/-- Binds a name by the shape of its target. Below the root, a name without a property is passed
over if all sources deny that there is anything below it. -/
def bindShape (b : Binder) (below : Option BindBelow) (scope : Scope) (name : Name)
    (target : Target) (recursive : Bool) : BindM (Option Value) := do
  let property ← b.directProperty scope name target
  let mayPrune := b.prunes && property.isNone && scope.depth != 0
  if ← (if mayPrune then b.nothingBelow scope name else pure false) then return none
  else
    match b.resolve target.shape with
    | .scalar kind =>
      match property with
      | some p => return some (← b.convertProperty p kind)
      | none => return none
    | .array element => b.bindCollection .array (← b.enter below name) scope name target element
    | .list element => b.bindCollection .list (← b.enter below name) scope name target element
    | .set element => b.bindCollection .set (← b.enter below name) scope name target element
    | .map key value => b.bindMap (← b.enter below name) scope name target key value
    | .composite type => b.bindCompositeOver below scope name target type recursive property
    | .ref _ => return none

/-! ## Handlers around it -/

/-- Binds a name, or leaves it out, and has the handlers say what becomes of the value. -/
def bindHandled (b : Binder) (below : Option BindBelow) (scope : Scope) (name : Name)
    (target : Target) (recursive create : Bool) : BindM (Option Value) := do
  let v := b.visit scope name target
  let starts ← b.handler.onStart v
  let bound ← if starts then b.bindShape below scope name target recursive else pure none
  match bound with
  | some value =>
    Journal.noteBound name
    return some (← b.handler.onSuccess v value)
  | none =>
    if create then return some (← b.handler.onCreate v (← b.create scope target)) else return none

/-- Binds a name with its handlers, which may recover from a failure and refuse the result. -/
def bindVisit (b : Binder) (below : Option BindBelow) (scope : Scope) (name : Name)
    (target : Target) (recursive create : Bool) : BindM (Option Value) := do
  let v := b.visit scope name target
  match ← BindM.attempt (b.bindHandled below scope name target recursive create) with
  | .ok result =>
    b.handler.onFinish v result []
    return result
  | .error e =>
    Journal.setProperty none
    b.handler.onFailure v e

/-- Binds a name with so many levels left below it. -/
def bindAt (b : Binder) : (levels : Nat) → Scope → Name → Target → (recursive create : Bool) →
    BindM (Option Value)
  | 0, scope, name, target, recursive, create =>
    b.bindVisit none scope name target recursive create
  | levels + 1, scope, name, target, recursive, create =>
    b.bindVisit (some fun scope name target recursive =>
      b.bindAt levels scope name target recursive false) scope name target recursive create

/-! ## A whole bind -/

/-- What a bind comes to, with its journal. -/
structure Report (α : Type) where
  result : Except Failure α
  journal : Journal := {}

/-- The report with its result passed on, if there is one. -/
def Report.bind {α β : Type} (r : Report α) (f : α → Except Failure β) : Report β :=
  { result := r.result.bind f, journal := r.journal }

/-- What a computation at a root comes to. `history` are the names that the handler saw bound
before. -/
def Report.ofRun {α : Type} (history : List Name) (root : Name) (x : BindM α) : Report α :=
  let (result, journal) := x.runFrom { bound := history }
  { result := result.mapError (.bind root), journal }

/-- Binds a target at a root. `history` are the names that the handler saw bound before. -/
def bindRoot (b : Binder) (history : List Name) (root : Name) (target : Target) (create : Bool) :
    Report (Option Value) :=
  .ofRun history root (b.bindAt b.options.maxDepth {} root target false create)

/-- Continues with the name that a text reads as. -/
def withRoot {α : Type} (history : List Name) (root : String) (f : Name → Report α) : Report α :=
  match Name.parse root with
  | .ok root => f root
  | .error e => { result := .error (.invalidName e), journal := { bound := history } }

/-- Binds a target at a root given as text. Nothing is bound where nothing is found. -/
def bind (b : Binder) (root : String) (target : Target) (history : List Name := []) :
    Report (Option Value) :=
  withRoot history root fun root => b.bindRoot history root target false

/-- Binds a target at a root, and creates a fresh value where nothing is found. -/
def bindOrCreateAt (b : Binder) (root : Name) (target : Target) (history : List Name) :
    Report Value :=
  .ofRun history root do
    match ← b.bindAt b.options.maxDepth {} root target false true with
    | some v => return v
    | none => throw (.uncreatable (← b.describe target.shape))

/-- Binds a target at a root given as text, and creates a fresh value where nothing is found. -/
def bindOrCreate (b : Binder) (root : String) (target : Target) (history : List Name := []) :
    Report Value :=
  withRoot history root fun root => b.bindOrCreateAt root target history

/-! ## The journal -/

/-- The names that recorded sources looked up, in the order of their texts. -/
def lookups (b : Binder) (journal : Journal) : List String :=
  let noted := journal.queries.flatMap fun (i, query) =>
    ((b.sources[i]?.map (·.noted query)).getD []).map Name.text
  noted.eraseDups.mergeSort fun s t => !(t < s)

end Binder

end TypedConfig
