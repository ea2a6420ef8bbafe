import TypedConfig.Proofs.Bind.Barren
import TypedConfig.Proofs.Bind.Invariants

/-!
# Recovering where there is nothing

A handler that recovers from a failure does so with the value that is there already. Where no source
has anything, that may be a value in the default instance of a type around it, so that binding makes
something of nothing. It does not if default instances hold single values only, because a single value
does not fail where there is nothing.

* `Composite.FlatDefault`: what a default instance may hold.
* `Binder.Plain`: the targets that binding meets then. The way down keeps to them
  (`Binder.lasting_plain`).
* `Binder.bindAt_barren_of_plain`: nothing is bound at a barren name, under all handlers that come with
  binding.
-/

namespace TypedConfig

/-- A default instance of the type holds nothing but single values. -/
def Composite.FlatDefault (defs : Definitions) (type : Composite Shape) : Prop :=
  ∀ held f v, type.defaultInstance = some (.map held) → f ∈ type.fields →
    (Keyed.find? f.name held).filter (fun v => !v.isNull) = some v →
    (defs.resolve f.shape).isScalar = true

namespace Binder

open BindM

variable {b : Binder} {scope : Scope} {name : Name} {target : Target} {recursive : Bool}
  {below : Option BindBelow}

/-! ## Targets with nothing there -/

/-- Nothing is there already, unless it is a single value, and nothing else would be further down. -/
structure Plain (b : Binder) (target : Target) : Prop where
  nothing : target.existing? = none ∨ (b.resolve target.shape).isScalar = true
  flat : target.shape.AllComposites b.definitions (Composite.FlatDefault b.definitions)

/-- Where nothing is there already, fields are set on the default instance or on an empty one. -/
theorem baseInstance_of_nothing {type : Composite Shape} {base : Fields}
    (hnone : target.existing? = none) (h : type.baseInstance target = some base) :
    type.defaultInstance = some (.map base) ∨ base = [] := by
  unfold Composite.baseInstance at h
  rw [hnone] at h
  split at h
  · rename_i heq
    cases heq
  · rename_i hdefault _
    cases h
    exact .inl hdefault
  · split at h <;> cases h
    exact .inr rfl

/-- Binding goes on from plain targets to plain targets. -/
theorem lasting_plain (b : Binder) : b.Lasting b.Plain where
  item h hs := ⟨.inl rfl, h.flat.element (element?_of_collection? hs)⟩
  parameter h hs hc hp := by
    refine ⟨.inl ?_, by rw [Target.withExisting_shape]; exact h.flat.member hs (.param hc hp)⟩
    rcases h.nothing with hnone | hscalar
    · rw [Target.existingField?, hnone]
      rfl
    · rw [hs] at hscalar
      cases hscalar
  field {_ _ base f} h hs hbase hf := by
    refine ⟨?_, by rw [Target.withExisting_shape]; exact h.flat.member hs (.field hf)⟩
    rcases h.nothing with hnone | hscalar
    · cases hheld : (Keyed.find? f.name base).filter fun v => !v.isNull with
      | none => exact .inl rfl
      | some v =>
        rcases baseInstance_of_nothing hnone hbase with hdefault | rfl
        · exact .inr (h.flat.composite hs base f v hdefault hf hheld)
        · cases hheld
    · rw [hs] at hscalar
      cases hscalar

/-! ## Names and their handlers -/

/-- A name that comes to nothing binds nothing, also with its handlers. -/
theorem bindVisit_none (hh : b.handler.Builtin)
    (h : (b.bindShape below scope name target recursive).Gives (.ok none)) :
    (b.bindVisit below scope name target recursive false).Yields (· = none) := by
  have hhandled : (b.bindHandled below scope name target recursive false).Gives (.ok none) := by
    unfold bindHandled
    simp only [hh.onStart]
    exact Gives.bind (.ret true) (h.bind (.ret none))
  unfold bindVisit
  refine hhandled.attempt.yields.bind fun r hr => ?_
  subst hr
  exact .after _ fun _ => .ret rfl

/-- Where nothing is there already, a name binds nothing if its shape does: there is nothing to recover
with. -/
theorem bindVisit_empty (hh : b.handler.Builtin) (hnone : target.existing? = none)
    (h : (b.bindShape below scope name target recursive).Yields (· = none)) :
    (b.bindVisit below scope name target recursive false).Yields (· = none) := by
  have hhandled : (b.bindHandled below scope name target recursive false).Yields (· = none) := by
    unfold bindHandled
    simp only [hh.onStart]
    refine h.bind fun bound hbound => ?_
    subst hbound
    exact .ret rfl
  unfold bindVisit
  refine hhandled.attempt.bind fun r hr => ?_
  cases r with
  | ok result =>
    obtain rfl : result = none := hr result rfl
    exact .after _ fun _ => .ret rfl
  | error e =>
    exact .after _ fun _ => (hh.onFailure_yields _ e).mono fun r hr => hr.trans hnone

/-- A single value at a barren name comes to nothing. -/
theorem bindShape_scalar_barren (hs : (b.resolve target.shape).isScalar = true)
    (h : b.BarrenAt scope name) :
    (b.bindShape below scope name target recursive).Gives (.ok none) := by
  rw [bindShape_eq]
  refine (directProperty_none h.get?_eq_none).bind ?_
  obtain ⟨passed, hpassed⟩ : ∃ passed, (b.passesOver scope name none).Gives (.ok passed) := by
    unfold passesOver
    split
    · exact ⟨_, b.nothingBelow_gives scope name⟩
    · exact ⟨_, .ret false⟩
  refine hpassed.bind ?_
  cases passed with
  | true => exact .ret none
  | false =>
    unfold bindForm
    cases hr : b.resolve target.shape with
    | scalar _ => exact .ret none
    | _ => rw [hr] at hs; cases hs

/-- At a barren name nothing is bound for a plain target, also if failures are recovered from. -/
theorem bindAt_barren_of_plain (hh : b.handler.Builtin) (levels : Nat) :
    b.SparesBarrenOn b.Plain (b.descend levels) := by
  refine bindAt_barrenOn b.lasting_plain
    (fun level scope name target recursive ht h hshape => ?_) levels
  rcases ht.nothing with hnone | hscalar
  · exact bindVisit_empty hh hnone hshape
  · exact bindVisit_none hh (bindShape_scalar_barren hscalar h)

end Binder

end TypedConfig
