/-!
# Reading integers

`readInteger` reads an optional sign, then decimal digits, or `0x` and hexadecimal digits, which may
have a sign of their own. `narrow?` takes an integer into 64 bits where it fits.
-/

namespace TypedConfig.Number

/-- The text is digits, and at least one. -/
def isDigits (cs : List Char) : Bool := !cs.isEmpty && cs.all Char.isDigit

/-- The value of a decimal digit text. -/
def digitsValue (cs : List Char) : Nat := Nat.ofDigitChars 10 cs 0

/-- The value of a hexadecimal digit. -/
def hexDigit? (c : Char) : Option Nat :=
  if c.isDigit then some (c.toNat - '0'.toNat)
  else if 'a' ≤ c && c ≤ 'f' then some (c.toNat - 'a'.toNat + 10)
  else if 'A' ≤ c && c ≤ 'F' then some (c.toNat - 'A'.toNat + 10)
  else none

/-- The value of a hexadecimal digit text that follows digits of value `acc`. -/
def hexValue? (acc : Nat) : List Char → Option Nat
  | [] => some acc
  | c :: cs => do hexValue? (acc * 16 + (← hexDigit? c)) cs

/-- The value of the hexadecimal digits behind `0x`, at least one. -/
def readHexDigits (cs : List Char) : Option Nat :=
  if cs.isEmpty then none else hexValue? 0 cs

/-- Splits a sign off: whether it is a minus, and what follows. -/
def splitSign : List Char → Bool × List Char
  | '-' :: cs => (true, cs)
  | '+' :: cs => (false, cs)
  | cs => (false, cs)

/-- The integer with a magnitude, negative or not. -/
def signed (negative : Bool) (n : Int) : Int := if negative then -n else n

/-- The magnitude behind the sign: hexadecimal behind `0x`, where a second sign may stand, and
decimal otherwise. -/
def readMagnitude : List Char → Option Int
  | '0' :: 'x' :: cs | '0' :: 'X' :: cs =>
    let (negative, digits) := splitSign cs
    (readHexDigits digits).map fun n => signed negative n
  | cs => if isDigits cs then some (digitsValue cs) else none

/-- The integer that a text writes. -/
def readInteger (cs : List Char) : Option Int :=
  let (negative, rest) := splitSign cs
  (readMagnitude rest).map (signed negative)

/-- The integer in 64 bits, if it fits. -/
def narrow? (n : Int) : Option Int64 :=
  if Int64.minValue.toInt ≤ n ∧ n ≤ Int64.maxValue.toInt then some (Int64.ofInt n) else none

theorem toInt_of_narrow? {n : Int} {i : Int64} (h : narrow? n = some i) : i.toInt = n := by
  simp only [narrow?] at h
  split at h
  · next hn => cases h; exact Int64.toInt_ofInt_of_le hn.1 (Int.lt_add_one_of_le hn.2)
  · cases h

theorem narrow?_toInt (i : Int64) : narrow? i.toInt = some i := by
  rw [narrow?, if_pos ⟨i.le_toInt, Int.le_of_lt_add_one i.toInt_lt⟩, Int64.ofInt_toInt]

end TypedConfig.Number
