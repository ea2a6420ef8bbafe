/-!
# Stretches of a text

A place in a text is a byte offset. `slice?` cuts out what stands between two of them, and gives
nothing if they are out of order, beyond the end, or inside a character.
-/

namespace TypedConfig.Text

/-- The stretch of a text between two byte offsets. -/
def slice? (s : String) (start stop : Nat) : Option String :=
  if start ≤ stop && String.Pos.Raw.isValid s ⟨start⟩ && String.Pos.Raw.isValid s ⟨stop⟩ then
    some (String.Pos.Raw.extract s ⟨start⟩ ⟨stop⟩)
  else none

example : slice? "aé.b" 1 4 = some "é." ∧ slice? "aé.b" 2 4 = none := by decide

end TypedConfig.Text
