import TypedConfig.Bind.Binder
import TypedConfig.Name.Dashed

/-!
# Binding composites

A composite is assembled by its constructor, from parameters, or field by field on an instance.

* `Composite.bindingConstructor`: the constructor to bind through, if there is one;
* `Composite.baseInstance`: the instance whose fields are set;
* `Binder.bindComposite`: the first way that binds something.
-/

namespace TypedConfig

/-! ## Constructors and instances -/

namespace Composite

/-- The constructor to bind a target through. A marked one is taken, and there may be only one. If
none is marked, the only constructor is taken where something asks for one, unless a bean is there
already. -/
def bindingConstructor (type : Composite Shape) (target : Target) (inConstructor : Bool) :
    Except BindError (Option (Constructor Shape)) :=
  match type.constructors.filter (·.marked) with
  | [one] =>
    if one.params.isEmpty then .error (.invalidConstructor type.typeName) else .ok (some one)
  | _ :: _ :: _ => .error (.ambiguousConstructor type.typeName)
  | [] =>
    let wanted := type.kind == .record || type.viaConstructor || inConstructor
      || target.method == some .constructor
    if !wanted || (type.kind == .bean && target.existing?.isSome) then .ok none
    else match type.constructors with
      | [only] => .ok (if only.params.isEmpty then none else some only)
      | _ => .ok none

/-- The instance whose fields are set: the one that is there, else a fresh one. A record without
either has none. -/
def baseInstance (type : Composite Shape) (target : Target) : Option Fields :=
  match target.existing?, type.defaultInstance with
  | some (.map existing), _ => some existing
  | _, some (.map fresh) => some fresh
  | _, _ => if type.kind = .bean then some [] else none

end Composite

/-- A parameter with the value that was bound for it and the one that is there. -/
structure Argument where
  param : Parameter Shape
  bound : Option Value
  current : Option Value

namespace Binder

/-- The name that a field or parameter is bound at. -/
def childName (parent : Name) (identifier : String) : BindM Name :=
  match parent.extend? (Name.dashed identifier) with
  | .ok name => return name
  | .error e => throw (.invalidName e)

/-! ## Parameters -/

/-- Binds the parameters of a constructor one after the other. -/
def bindParameters (below : BindBelow) (scope : Scope) (name : Name) (target : Target) :
    List (Parameter Shape) → BindM (List Argument)
  | [] => return []
  | param :: rest => do
    let current := target.existingField? param.name
    let child ← childName name param.name
    let bound ← below scope child ((Target.of param.shape).withExisting current) false
    return ⟨param, bound, current⟩ :: (← bindParameters below scope name target rest)

/-- Takes a declared default to the shape of its parameter. Only scalars are converted. -/
def convertDefault (b : Binder) (name : Name) (value : Value) (shape : Shape) : BindM Value :=
  match b.resolve shape with
  | .scalar kind =>
    match b.converter.convert kind value with
    | .ok converted => return converted
    | .error failure => throw (.conversion ⟨name, value, none⟩ kind.display (.scalar failure))
  | _ => return value

/-- Builds an instance from arguments: what was bound, else what is there, else the fallback. -/
def buildInstance (b : Binder) (name : Name) (typeName : String) : List Argument → Fields →
    BindM Fields
  | [], built => return built
  | arg :: rest, built => do
    match arg.bound.or arg.current, arg.param.fallback with
    | some v, _ => b.buildInstance name typeName rest (Keyed.insert arg.param.name v built)
    | none, .required => throw (.missingParameter name arg.param.name typeName)
    | none, .optional => b.buildInstance name typeName rest built
    | none, .value fallback =>
      let v ← b.convertDefault (← childName name arg.param.name) fallback arg.param.shape
      b.buildInstance name typeName rest (Keyed.insert arg.param.name v built)

/-- Binds an instance through a constructor. Nothing is built where no parameter was bound. -/
def bindThrough (b : Binder) (ctor : Constructor Shape) (below : BindBelow) (scope : Scope)
    (name : Name) (target : Target) (typeName : String) : BindM (Option Value) := do
  let arguments ← bindParameters below scope.forConstructor name target ctor.params
  if arguments.any (·.bound.isSome) then
    return some (.map (← b.buildInstance name typeName arguments []))
  else return none

/-- Binds a composite through its constructor, if there is one to bind through. -/
def bindConstructed (b : Binder) (below : BindBelow) (scope : Scope) (name : Name)
    (target : Target) (type : Composite Shape) : BindM (Option Value) := do
  match ← liftExcept (type.bindingConstructor target scope.inConstructor) with
  | some ctor =>
    BindM.andFinally (b.bindThrough ctor below scope name target type.typeName)
      (Journal.setProperty none)
  | none => return none
where
  liftExcept {α : Type} (x : Except BindError α) : BindM α := ExceptT.mk (pure x)

/-! ## Fields -/

/-- Whether a field may take a bound value: a field that cannot be set may take a new state of the
aggregate or composite that it holds, and the scalar that it holds. -/
def mayTake (b : Binder) (field : Field Shape) (current : Option Value) (value : Value) : Bool :=
  field.writable ||
    match current with
    | some held => !(b.resolve field.shape).isScalar || held == value
    | none => false

/-- Binds fields one after the other. The result also says whether any was bound. -/
def bindFields (b : Binder) (below : BindBelow) (scope : Scope) (name : Name) (typeName : String) :
    List (Field Shape) → Fields → Bool → BindM (Fields × Bool)
  | [], built, any => return (built, any)
  | field :: rest, built, any => do
    let current := (Keyed.find? field.name built).filter fun v => !v.isNull
    let child ← childName name field.name
    match ← below scope child ((Target.of field.shape).withExisting current) false with
    | none => b.bindFields below scope name typeName rest built any
    | some v =>
      if b.mayTake field current v then
        let keeps := !field.writable && (b.resolve field.shape).isScalar
        let built := if keeps then built else Keyed.insert field.name v built
        b.bindFields below scope name typeName rest built true
      else throw (.readOnlyProperty name field.name typeName)

/-- Binds a composite field by field, if there is an instance to start from. -/
def bindOnInstance (b : Binder) (below : BindBelow) (scope : Scope) (name : Name)
    (target : Target) (type : Composite Shape) : BindM (Option Value) := do
  match type.baseInstance target with
  | some base =>
    let (built, any) ← b.bindFields below scope name type.typeName type.fields base false
    return if any then some (.map built) else none
  | none => return none

/-! ## Composites -/

/-- Assembles a composite in the way that the target asks for, or in the first that binds
something. -/
def assemble (b : Binder) (below : BindBelow) (scope : Scope) (name : Name) (target : Target)
    (type : Composite Shape) : BindM (Option Value) := do
  match target.method with
  | some .constructor => b.bindConstructed below scope name target type
  | some .fields => b.bindOnInstance below scope name target type
  | none =>
    match ← b.bindConstructed below scope name target type with
    | some built => return some built
    | none => b.bindOnInstance below scope name target type

/-- Binds a composite. A type inside itself is passed over where nothing is known to lie below the
name, unless it is an entry or an item. -/
def bindComposite (b : Binder) (below : Option BindBelow) (scope : Scope) (name : Name)
    (target : Target) (type : Composite Shape) (recursive : Bool) : BindM (Option Value) := do
  let again := !recursive && scope.assembling.contains type.typeName
  if ← (if again then b.somethingBelow scope name else pure true) then
    b.assemble (← b.enter below name) (scope.within type.typeName) name target type
  else return none

/-! ## Creation -/

/-- A fresh instance from the defaults of parameters. There is none where one is required. -/
def constructFresh (b : Binder) : List (Parameter Shape) → Fields → BindM (Option Fields)
  | [], built => return some built
  | param :: rest, built => do
    match param.fallback with
    | .required => return none
    | .optional => b.constructFresh rest built
    | .value fallback =>
      let v ← b.convertDefault (Name.adapt param.name '.') fallback param.shape
      b.constructFresh rest (Keyed.insert param.name v built)

/-- A fresh instance made by the constructor to bind through. -/
def createConstructed (b : Binder) (scope : Scope) (target : Target) (type : Composite Shape) :
    BindM (Option Fields) := do
  match ← bindConstructed.liftExcept (type.bindingConstructor target scope.inConstructor) with
  | some ctor => b.constructFresh ctor.params []
  | none => return none

/-- A fresh instance of a composite, made in the way that the target asks for, or in the first that
makes one. -/
def createComposite (b : Binder) (scope : Scope) (target : Target) (type : Composite Shape) :
    BindM (Option Fields) := do
  match target.method with
  | some .constructor => b.createConstructed scope target type
  | some .fields => return type.baseInstance target
  | none => return (← b.createConstructed scope target type).or (type.baseInstance target)

/-- The value of a target that nothing was bound for: what is there, else an empty aggregate or a
fresh instance. -/
def create (b : Binder) (scope : Scope) (target : Target) : BindM Value := do
  match target.existing?, b.resolve target.shape with
  | some existing, _ => return existing
  | none, .array _ | none, .list _ | none, .set _ => return .list []
  | none, .map _ _ => return .map []
  | none, .composite type =>
    match ← b.createComposite scope target type with
    | some fields => return .map fields
    | none => throw (.uncreatable type.typeName)
  | none, .scalar _ | none, .ref _ => throw (.uncreatable (← b.describe target.shape))

end Binder

end TypedConfig
