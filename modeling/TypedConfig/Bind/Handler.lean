import TypedConfig.Bind.Journal
import TypedConfig.Name.Order

/-!
# Handlers

A handler is told about every name that is bound, and may have its say: skip the name, change the
value, recover from a failure, or refuse the result. Handlers wrap one another; each passes on to
its parent what it does not decide.

* `Handler.ignoreErrors`: a failure leaves the value that is there, or nothing;
* `Handler.noUnbound`: at the end of the root, names below it that a source holds and that nothing
  bound are an error (`Handler.isLeftover`).
-/

namespace TypedConfig

/-- What an intercepting handler does at its name. -/
inductive Interception where
  /-- The name is not bound. -/
  | skip
  /-- A bound value gives way to another. -/
  | replace (value : Value)
  /-- A created value gives way to another. -/
  | replaceCreated (value : Value)
  /-- A bound value is refused. -/
  | refuse
  /-- The end of the name is refused. -/
  | refuseFinish
  /-- A failure gives a value. -/
  | recover (value : Value)

/-- A chain of handlers. -/
inductive Handler where
  /-- Lets everything pass. -/
  | default
  /-- Turns failures into the value that is there, or nothing. -/
  | ignoreErrors (parent : Handler)
  /-- Refuses leftovers below the root. -/
  | noUnbound (parent : Handler)
  /-- Notes everything in the journal. -/
  | trace (parent : Handler)
  /-- Has its own way at one name. -/
  | intercept (name : Name) (act : Interception) (parent : Handler)

/-- A name that is being bound, as a handler sees it. -/
structure Visit where
  name : Name
  target : Target
  /-- The number of composites and aggregates around the name. -/
  depth : Nat
  /-- The sources in sight with their positions. -/
  sources : List (Nat × Source)
  /-- A constructor around the name is being bound. -/
  inConstructor : Bool

namespace Handler

/-- A bound above the positions in the names at which a handler has its own way. -/
def reach : Handler → Nat
  | default => 0
  | ignoreErrors parent | noUnbound parent | trace parent => parent.reach
  | intercept name _ parent => max name.reach parent.reach

/-- The type that refused values are said to be of. -/
def refusedType : String := "refused"

/-- Notes what a tracing handler sees at a visit. -/
def see (v : Visit) (happening : Happening) : BindM Unit :=
  Journal.note ⟨v.name, v.depth, happening⟩

/-- Whether the name is to be bound. -/
def onStart (v : Visit) : Handler → BindM Bool
  | default => return true
  | ignoreErrors parent | noUnbound parent => parent.onStart v
  | trace parent => do
    see v (.start (v.sources.map (·.1)) v.inConstructor v.target.existing?)
    parent.onStart v
  | intercept name act parent =>
    match act with
    | .skip => if name == v.name then return false else parent.onStart v
    | _ => parent.onStart v

/-- What becomes of a bound value. -/
def onSuccess (v : Visit) (value : Value) : Handler → BindM Value
  | default => return value
  | ignoreErrors parent | noUnbound parent => parent.onSuccess v value
  | trace parent => do
    see v (.success value ((← get).property.map (·.name)))
    parent.onSuccess v value
  | intercept name act parent =>
    match act with
    | .replace other => parent.onSuccess v (if name == v.name then other else value)
    | .refuse =>
      if name == v.name then throw (.uncreatable refusedType) else parent.onSuccess v value
    | _ => parent.onSuccess v value

/-- What becomes of a created value. -/
def onCreate (v : Visit) (value : Value) : Handler → BindM Value
  | default => return value
  | ignoreErrors parent | noUnbound parent => parent.onCreate v value
  | trace parent => do
    see v (.create value)
    parent.onCreate v value
  | intercept name act parent =>
    match act with
    | .replaceCreated other => parent.onCreate v (if name == v.name then other else value)
    | _ => parent.onCreate v value

/-- What becomes of a failure. -/
def onFailure (v : Visit) (error : BindError) : Handler → BindM (Option Value)
  | default => throw error
  | ignoreErrors parent => do
    match ← BindM.attempt (parent.onFailure v error) with
    | .ok recovered => return recovered
    | .error _ => return v.target.existing?
  | noUnbound parent => parent.onFailure v error
  | trace parent => do
    see v (.failure error)
    parent.onFailure v error
  | intercept name act parent =>
    match act with
    | .recover value => if name == v.name then return some value else parent.onFailure v error
    | _ => parent.onFailure v error

/-! ## Leftovers -/

/-- The name lies at or below an item of a collection that was bound in one piece. -/
def isOverriddenItem (bound : List Name) (candidate : Name) : Bool :=
  (List.range candidate.length).any fun i =>
    candidate.isNumericAt i && bound.contains (candidate.take i)

/-- The name lies below the root and nothing accounts for it. -/
def isLeftover (root : Name) (bound : List Name) (candidate : Name) : Bool :=
  root.isAncestorOf candidate && !bound.contains candidate && !isOverriddenItem bound candidate

/-- The leftovers that sources list, with the source of each. -/
def leftoverNames (root : Name) (bound : List Name) (sources : List (Nat × Source)) :
    List (Nat × Source × Name) :=
  sources.flatMap fun (i, source) =>
    ((source.names?.getD []).filter (isLeftover root bound)).map (i, source, ·)

/-- The properties of leftovers, one for each name, after those already found; and the questions
that it takes to find them. -/
def gatherLeftovers (found : List Property) :
    List (Nat × Source × Name) → List Property × List (Nat × Query)
  | [] => (found, [])
  | (i, source, candidate) :: rest =>
    if found.any (·.name == candidate) then gatherLeftovers found rest
    else
      let (all, queries) := gatherLeftovers (found ++ (source.get? candidate).toList) rest
      (all, (i, .get candidate) :: queries)

/-- Refuses leftovers. `unseen` are the names that an outer handler refused before this one was told
of their values. -/
def refuseLeftovers (v : Visit) (unseen : List Name) : BindM Unit := do
  let bound := (← get).bound.filter fun n => !unseen.contains n
  let (found, queries) := gatherLeftovers [] (leftoverNames v.name bound v.sources)
  Journal.ask queries
  if found.isEmpty then return ()
  else throw (.unboundProperties (found.mergeSort fun a b => (a.name.compare b.name).isLE))

/-- The end of a name that did not fail. -/
def onFinish (v : Visit) (result : Option Value) (unseen : List Name) : Handler → BindM Unit
  | default => return ()
  | ignoreErrors parent => parent.onFinish v result unseen
  | noUnbound parent => do
    parent.onFinish v result unseen
    if v.depth = 0 then refuseLeftovers v unseen
  | trace parent => do
    see v (.finish result)
    parent.onFinish v result unseen
  | intercept name act parent =>
    match act with
    | .refuse => parent.onFinish v result (name :: unseen)
    | .refuseFinish =>
      if name == v.name then throw (.uncreatable refusedType) else parent.onFinish v result unseen
    | _ => parent.onFinish v result unseen

end Handler

end TypedConfig
