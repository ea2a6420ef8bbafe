import TypedConfig.Proofs.Bind.Steps

/-!
# What scalars come to

Without handlers, a scalar is the property at its name, converted, and nothing that was noted before
matters. So an item of a collection of scalars has one outcome (`Binder.descend_item_gives`), and so
has the single value of such a collection (`Binder.splitValue_gives`).

* `Binder.scalarOf`, `Binder.scalarAt`, `Binder.scalarsOf`: the outcome of a property, of a name and
  of a single value.
* `Binder.collected`: what a collection binds, by its items and its single value
  (`Binder.bindElements_eq_collect`, `Binder.collect_gives`).
-/

namespace TypedConfig

namespace Binder

open BindM

variable {b : Binder} {scope : Scope} {name : Name} {target : Target} {kind : ScalarKind}
  {element : Shape}

/-! ## Names -/

/-- A property as a scalar, or why it is none. -/
def scalarOf (b : Binder) (kind : ScalarKind) (p : Property) : Except BindError Value :=
  match b.converter.convert kind p.value with
  | .ok v => .ok v
  | .error failure => .error (.conversion p kind.display (.scalar failure))

/-- A name as a scalar, by the property that is found there. -/
def scalarAt (b : Binder) (kind : ScalarKind) : Option Property → Except BindError (Option Value)
  | some p => (b.scalarOf kind p).map some
  | none => .ok none

theorem scalarOf_of_convert {p : Property} {v : Value}
    (h : b.converter.convert kind p.value = .ok v) : b.scalarOf kind p = .ok v := by
  rw [scalarOf, h]

theorem scalarOf_of_failure {p : Property} {failure : ConversionFailure}
    (h : b.converter.convert kind p.value = .error failure) :
    b.scalarOf kind p = .error (.conversion p kind.display (.scalar failure)) := by
  rw [scalarOf, h]

theorem convertProperty_gives_scalarOf (b : Binder) (p : Property) (kind : ScalarKind) :
    (b.convertProperty p kind).Gives (b.scalarOf kind p) := by
  unfold convertProperty scalarOf
  cases b.converter.convert kind p.value with
  | ok v => exact Gives.bind (.note _) (.ret v)
  | error failure => exact .raise _

/-- A scalar is what the first source in sight has at its name, converted. -/
theorem bindShape_scalarAt (hs : b.resolve target.shape = .scalar kind)
    (hname : name.isEmpty = false) (ht : target.nestedOnly = false) (below : Option BindBelow)
    (recursive : Bool) :
    (b.bindShape below scope name target recursive).Gives
      (b.scalarAt kind ((b.visible scope).findSome? fun e => e.2.get? name)) := by
  have hdirect : (b.directProperty scope name target).Gives
      (.ok ((b.visible scope).findSome? fun e => e.2.get? name)) := by
    unfold directProperty
    rw [hname, ht]
    exact b.lookUp_gives scope name
  rw [bindShape_eq]
  refine hdirect.bind ?_
  unfold bindForm
  rw [hs]
  cases (b.visible scope).findSome? fun e => e.2.get? name with
  | none =>
    obtain ⟨passed, hpassed⟩ := b.passesOver_gives scope name none
    refine hpassed.bind ?_
    cases passed <;> exact .ret none
  | some p =>
    have hgo : b.passesOver scope name (some p) = pure false := by simp [passesOver]
    rw [hgo]
    exact (b.convertProperty_gives_scalarOf p kind).map some

/-- An item of a collection of scalars is what its source has at its name, converted. -/
theorem descend_item_gives (hh : b.handler = .default) (hs : b.resolve element = .scalar kind)
    {i : Nat} {source : Source} (hi : b.sources[i]? = some source) (levels : Nat) (scope : Scope)
    (name : Name) (key : String) (recursive : Bool) :
    (b.descend levels (scope.restrictedTo i) (name.item key) (.of element) recursive).Gives
      (b.scalarAt kind (source.get? (name.item key))) := by
  have hget : (b.visible (scope.restrictedTo i)).findSome? (fun e => e.2.get? (name.item key)) =
      source.get? (name.item key) := by
    rw [visible_restrictedTo hi, List.findSome?_singleton]
  rw [descend_eq_bindVisit, ← hget]
  exact bindVisit_gives hh (bindShape_scalarAt hs (by simp [Name.isEmpty]) rfl _ _)
    fun h => by cases h

/-! ## Single values -/

theorem describe_gives (b : Binder) (shape : Shape) :
    (b.describe shape).Gives (.ok (b.definitions.display shape)) := by
  unfold describe
  simp only
  split
  · exact .ret _
  · exact Gives.bind (.note _) (.ret _)

/-- The scalars that a single value stands for, or why it stands for none. -/
def scalarsOf (b : Binder) (kind : ScalarKind) (element : Shape) (p : Property) :
    Except BindError (List Value) :=
  match b.options.pieces p.value with
  | .ok pieces => pieces.mapM fun piece => b.scalarOf kind (p.withValue piece)
  | .error obstacle => .error (.conversion p (b.definitions.display element) obstacle)

theorem convertPieces_gives (b : Binder) (p : Property) (kind : ScalarKind) (pieces : List Value) :
    (b.convertPieces p kind pieces).Gives
      (pieces.mapM fun piece => b.scalarOf kind (p.withValue piece)) := by
  induction pieces with
  | nil => exact .ret []
  | cons piece rest ih =>
    rw [List.mapM_cons]
    refine (b.convertProperty_gives_scalarOf _ kind).seq fun v _ => ?_
    exact ih.seq fun vs _ => .ret (v :: vs)

/-- A single value of a collection of scalars has one outcome. -/
theorem splitValue_gives (hs : b.resolve element = .scalar kind) (p : Property) :
    (b.splitValue p element).Gives (b.scalarsOf kind element p) := by
  unfold splitValue scalarsOf
  simp only [hs]
  cases b.options.pieces p.value with
  | ok pieces => exact b.convertPieces_gives p kind pieces
  | error obstacle => exact (b.describe_gives element).bind (.raise _)

/-! ## Collections -/

/-- What a collection of scalars binds: the items, or else what the single value stands for. -/
def collected (b : Binder) (collection : CollectionKind) (kind : ScalarKind) (element : Shape)
    (values : List Value) (single : Option Property) :
    Except BindError (Option (Value × Provenance)) :=
  if values.isEmpty then
    match single with
    | some p => (b.scalarsOf kind element p).map fun values =>
      some (collection.collect values, .singleValue)
    | none => .ok none
  else .ok (some (collection.collect values, .items))

/-- Makes a collection of its items, or else of its single value. -/
def collect (b : Binder) (collection : CollectionKind) (element : Shape) (values : List Value)
    (single : Option Property) : BindM (Option (Value × Provenance)) :=
  if values.isEmpty then
    match single with
    | some p => return some (collection.collect (← b.splitValue p element), .singleValue)
    | none => return none
  else return some (collection.collect values, .items)

theorem bindElements_eq_collect (b : Binder) (collection : CollectionKind) (below : BindBelow)
    (scope : Scope) (name : Name) (target : Target) (element : Shape) :
    b.bindElements collection below scope name target element = (do
      let r ← b.bindFromAll below scope name element (!name.isEmpty && !target.nestedOnly)
        (b.visible scope) [] none
      b.collect collection element r.1 r.2) := rfl

theorem collect_gives (hs : b.resolve element = .scalar kind) (collection : CollectionKind)
    (values : List Value) (single : Option Property) :
    (b.collect collection element values single).Gives
      (b.collected collection kind element values single) := by
  unfold collect collected
  split
  · cases single with
    | none => exact .ret none
    | some p => exact (splitValue_gives hs p).map _
  · exact .ret _

end Binder

end TypedConfig
