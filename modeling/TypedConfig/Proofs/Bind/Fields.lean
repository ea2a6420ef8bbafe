import TypedConfig.Proofs.Bind.Frame
import TypedConfig.Proofs.Reordered

/-!
# Beans, field by field

A bean without constructors is filled field by field: each is bound on top of the value that the
instance holds for it, and says what is to be set.

* `Binder.bindField`: one field; `Binder.bindFields_cons`: all fields, one by one.
* `Binder.assemble_of_nil`, `Binder.createComposite_of_nil`: a composite without constructors.
-/

namespace TypedConfig

/-! ## Values that may be there -/

/-- The entries with a value under a key, if there is one to put in. -/
def Keyed.insert? {κ α : Type} [BEq κ] (key : κ) (value : Option α) (entries : List (κ × α)) :
    List (κ × α) :=
  match value with
  | some v => Keyed.insert key v entries
  | none => entries

namespace Keyed

variable {κ α : Type} [BEq κ] [LawfulBEq κ] {key other : κ} {entries entries' : List (κ × α)}

theorem find?_insert?_of_ne (h : key ≠ other) (v : Option α) (entries : List (κ × α)) :
    find? other (insert? key v entries) = find? other entries := by
  cases v with
  | some v => exact find?_insert_of_ne h v entries
  | none => rfl

theorem Reordered.insert? (h : Reordered entries entries') (key : κ) (v : Option α) :
    Reordered (insert? key v entries) (Keyed.insert? key v entries') := by
  cases v with
  | some v => exact h.insert key v
  | none => exact h

theorem Reordered.insert?_comm (h : key ≠ other) (v w : Option α) (entries : List (κ × α)) :
    Reordered (Keyed.insert? key v (Keyed.insert? other w entries))
      (Keyed.insert? other w (Keyed.insert? key v entries)) := by
  cases v with
  | none => exact .refl _
  | some v =>
    cases w with
    | none => exact .refl _
    | some w => exact .insert_comm h v w entries

end Keyed

/-- The entries that a bean starts from: those of the map that is there, else those of the default
instance, else none. -/
def Composite.base (type : Composite Shape) (target : Target) : Fields :=
  match target.existing?, type.defaultInstance with
  | some (.map existing), _ => existing
  | _, some (.map fresh) => fresh
  | _, _ => []

/-- A bean always has an instance whose fields can be set. -/
theorem Composite.baseInstance_of_bean {type : Composite Shape} (h : type.kind = .bean)
    (target : Target) : type.baseInstance target = some (type.base target) := by
  unfold baseInstance base
  split <;> simp_all

namespace Binder

open BindM Keyed

variable {b : Binder} {below : BindBelow} {scope : Scope} {name : Name} {target : Target}
  {type : Composite Shape}

/-! ## One field -/

/-- The value that an instance holds for a field. Null counts as nothing. -/
def heldFor (field : Field Shape) (built : Fields) : Option Value :=
  (find? field.name built).filter fun v => !v.isNull

/-- Binds a field on top of the value that the instance holds for it. Where something is bound, the
result says what is set, which is nothing for a scalar that cannot be. -/
def bindField (b : Binder) (below : BindBelow) (scope : Scope) (name : Name) (typeName : String)
    (field : Field Shape) (current : Option Value) : BindM (Option (Option Value)) := do
  let child ← childName name field.name
  match ← below scope child ((Target.of field.shape).withExisting current) false with
  | none => return none
  | some v =>
    if b.mayTake field current v then
      return some (if !field.writable && (b.resolve field.shape).isScalar then none else some v)
    else throw (.readOnlyProperty name field.name typeName)

/-- The fields are bound one by one. -/
theorem bindFields_cons (b : Binder) (below : BindBelow) (scope : Scope) (name : Name)
    (typeName : String) (field : Field Shape) (rest : List (Field Shape)) (built : Fields)
    (any : Bool) :
    b.bindFields below scope name typeName (field :: rest) built any = (do
      let change ← b.bindField below scope name typeName field (heldFor field built)
      b.bindFields below scope name typeName rest (insert? field.name change.join built)
        (any || change.isSome)) := by
  rw [bindFields]
  simp only [bindField, heldFor, bind_assoc]
  refine bind_congr fun child => bind_congr fun bound => ?_
  cases bound with
  | none => simp [insert?]
  | some v =>
    by_cases hmay : b.mayTake field (heldFor field built) v = true
    · unfold heldFor at hmay
      by_cases hkeeps : (!field.writable && (b.resolve field.shape).isScalar) = true <;>
        simp [hmay, hkeeps, insert?]
    · unfold heldFor at hmay
      simp only [hmay]
      rfl

/-! ## Without constructors -/

/-- A composite without constructors is filled field by field, unless the target asks for another
way. -/
theorem assemble_of_nil (h : type.constructors = []) :
    b.assemble below scope name target type =
      if target.method = some .constructor then pure none
      else b.bindOnInstance below scope name target type := by
  have hnone : b.bindConstructed below scope name target type = pure none := by
    unfold bindConstructed
    rw [Composite.bindingConstructor_of_nil h]
    rfl
  unfold assemble
  cases target.method with
  | none => rw [hnone]; rfl
  | some method => cases method <;> simp [hnone]

/-- A fresh instance of a composite without constructors has the state that there is to start from. -/
theorem createComposite_of_nil (h : type.constructors = []) :
    b.createComposite scope target type =
      pure (if target.method = some .constructor then none else type.baseInstance target) := by
  have hnone : b.createConstructed scope target type = pure none := by
    unfold createConstructed
    rw [Composite.bindingConstructor_of_nil h]
    rfl
  unfold createComposite
  cases target.method with
  | none => rw [hnone]; rfl
  | some method => cases method <;> simp [hnone]

/-- What is created of a composite without constructors: what is there, else the state that there is to
start from. -/
theorem create_of_nil (hs : b.resolve target.shape = .composite type) (h : type.constructors = []) :
    b.create scope target =
      match target.existing?, if target.method = some .constructor then none
        else type.baseInstance target with
      | some existing, _ => pure existing
      | none, some fields => pure (.map fields)
      | none, none => throw (.uncreatable type.typeName) := by
  unfold create
  rw [hs]
  cases target.existing? with
  | some existing => rfl
  | none =>
    simp only [createComposite_of_nil h, pure_bind]
    cases (if target.method = some .constructor then none else type.baseInstance target) <;> rfl

end Binder

end TypedConfig
