import TypedConfig.Number.Integer

/-!
# Kinds of scalars

The leaf types that a target can have. The bounds of an integer kind lie in 64 bits;
`ScalarKind.between` takes bounds of any size.
-/

namespace TypedConfig

/-- A leaf type. -/
inductive ScalarKind where
  | string
  | bool
  /-- Integers with inclusive bounds. -/
  | int (min max : Int64)
  | float
  /-- Texts of one character. -/
  | char
  /-- One of some texts. -/
  | enum (variants : List String)
  deriving DecidableEq, Repr

namespace ScalarKind

/-- The integers between two bounds. A lower bound below 64 bits and an upper bound above them are
cut off there; a bound on the other side wraps. -/
def between (min max : Int) : ScalarKind :=
  int (if min < Int64.minValue.toInt then Int64.minValue else Int64.ofInt min)
    (if Int64.maxValue.toInt < max then Int64.maxValue else Int64.ofInt max)

/-- The integers of `bits` bits, signed. -/
def signedBits (bits : Nat) : ScalarKind :=
  let half : Int := (1 <<< (bits - 1) : Nat)
  between (-half) (half - 1)

/-- The integers of `bits` bits, not negative, as far as 64 signed bits hold them. -/
def unsignedBits (bits : Nat) : ScalarKind := between 0 ((1 <<< bits) - 1 : Nat)

/-- The kind as a message shows it. -/
def display : ScalarKind → String
  | string => "string"
  | bool => "boolean"
  | int min max => s!"integer in [{min.toInt}, {max.toInt}]"
  | float => "float"
  | char => "char"
  | enum variants => "one of [" ++ String.intercalate ", " variants ++ "]"

instance : ToString ScalarKind := ⟨display⟩

end ScalarKind

end TypedConfig
