import TypedConfig.Number.Binary64

/-!
# Decimal text of floating-point numbers

* `Binary64.text`: the fewest digits that read back as the number, the nearest ones among those,
  the upper ones of two as near. No exponent, and no point behind an integer.
* `readBinary64`: the number nearest to a decimal, with an optional sign, point and exponent, or
  the words for infinity and NaN.
-/

namespace TypedConfig.Number

/-! ## Shortest digits -/

/-- The numbers that read back as a given one: all between `low` and `high` over `den`, and these
two themselves if `closed`. `mid` over `den` is the number. -/
structure Neighbourhood where
  low : Nat
  mid : Nat
  high : Nat
  den : Nat
  closed : Bool

/-- The neighbourhood of a finite number above zero: half way to its neighbours on both sides. At a
power of two the lower neighbour is half as far away. -/
def Binary64.neighbourhood (x : Binary64) : Neighbourhood :=
  let m := x.significand
  let (unit, den) := scaleDown 1 1 (2 - x.scale)
  let below := if m = Format.double.step && 1 < x.exponent then 1 else 2
  ⟨(4 * m - below) * unit, 4 * m * unit, (4 * m + 2) * unit, den, m % 2 == 0⟩

/-- A multiple of a power of ten, as a fraction. -/
def decimalRatio (digits : Nat) (exponent : Int) : Nat × Nat :=
  if 0 ≤ exponent then (digits * Nat.pow 10 exponent.toNat, 1)
  else (digits, Nat.pow 10 (-exponent).toNat)

namespace Neighbourhood

/-- The neighbourhood holds `digits * 10 ^ exponent`. -/
def contains (h : Neighbourhood) (digits : Nat) (exponent : Int) : Bool :=
  let (num, den) := decimalRatio digits exponent
  let x := num * h.den
  if h.closed then h.low * den ≤ x && x ≤ h.high * den else h.low * den < x && x < h.high * den

/-- The multiple of `10 ^ exponent` at or below the middle. -/
def floorAt (h : Neighbourhood) (exponent : Int) : Nat :=
  let (num, den) := decimalRatio 1 exponent
  h.mid * den / (h.den * num)

/-- The middle is nearer to the multiple below it than to the one above. -/
def nearerBelow (h : Neighbourhood) (exponent : Int) : Bool :=
  let (num, den) := decimalRatio 1 exponent
  2 * (h.mid * den % (h.den * num)) < h.den * num

/-- The multiple of `10 ^ exponent` in the neighbourhood that is nearest to the middle. -/
def onGrid? (h : Neighbourhood) (exponent : Int) : Option Nat :=
  let below := h.floorAt exponent
  match h.contains below exponent, h.contains (below + 1) exponent with
  | true, true => some (if h.nearerBelow exponent then below else below + 1)
  | true, false => some below
  | false, true => some (below + 1)
  | false, false => none

/-- The first power of ten from `10 ^ exponent` down that has a multiple in the neighbourhood, with
that multiple. -/
def coarsest (h : Neighbourhood) (exponent : Int) : Nat → Nat × Int
  | 0 => (h.floorAt exponent, exponent)
  | fuel + 1 =>
    match h.onGrid? exponent with
    | some digits => (digits, exponent)
    | none => h.coarsest (exponent - 1) fuel

/-- An exponent whose power of ten is not below the middle. -/
def topExponent (h : Neighbourhood) : Int :=
  if h.den ≤ h.mid then (Nat.toDigits 10 (h.mid / h.den)).length
  else 1 - ((Nat.toDigits 10 (h.den / h.mid)).length : Int)

/-- The shortest decimal in the neighbourhood: its digits and the exponent of the last one.
Seventeen digits always suffice. -/
def shortest (h : Neighbourhood) : Nat × Int := h.coarsest h.topExponent 20

end Neighbourhood

/-! ## Text -/

/-- A decimal without an exponent. -/
def positional (digits : Nat) (exponent : Int) : String :=
  let ds := Nat.toDigits 10 digits
  if 0 ≤ exponent then String.ofList (ds ++ List.replicate exponent.toNat '0')
  else
    let places := (-exponent).toNat
    let padded := List.replicate (places + 1 - ds.length) '0' ++ ds
    let (whole, fraction) := padded.splitAt (padded.length - places)
    String.ofList (whole ++ '.' :: fraction)

/-- The number in decimal. -/
def Binary64.text (x : Binary64) : String :=
  if x.isNaN then "NaN"
  else
    let sign := if x.negative then "-" else ""
    if !x.isFinite then sign ++ "inf"
    else if x.significand = 0 then sign ++ "0"
    else
      let (digits, exponent) := x.neighbourhood.shortest
      sign ++ positional digits exponent

/-! ## Reading -/

/-- A word in any case. -/
def isWord (word : String) (cs : List Char) : Bool := cs.map Char.toLower == word.toList

/-- The number nearest to `digits * 10 ^ exponent`. Past 400 places from the point a number is
infinite or zero, and the power is not worked out. -/
def ofDecimal (negative : Bool) (digits : List Char) (exponent : Int) : Binary64 :=
  let digits := digits.dropWhile (· == '0')
  let top := digits.length + exponent
  if digits.isEmpty || top < -400 then Binary64.ofCode negative 0
  else if 400 < top then Binary64.infinity negative
  else
    let (num, den) := decimalRatio (digitsValue digits) exponent
    Binary64.ofRatio negative num den

/-- What stands behind the digits of a decimal: nothing, or an exponent. -/
def readExponent : List Char → Option Int
  | [] => some 0
  | c :: cs =>
    if c == 'e' || c == 'E' then
      let (negative, digits) := splitSign cs
      if isDigits digits then some (signed negative (digitsValue digits)) else none
    else none

/-- The digits behind the point, and what follows them. -/
def splitFraction : List Char → List Char × List Char
  | '.' :: cs => cs.span Char.isDigit
  | cs => ([], cs)

/-- The number that a decimal text writes, the sign apart. -/
def readDecimal (negative : Bool) (cs : List Char) : Option Binary64 := do
  let (whole, rest) := cs.span Char.isDigit
  let (fraction, rest) := splitFraction rest
  if whole.isEmpty && fraction.isEmpty then none
  else
    let exponent ← readExponent rest
    return ofDecimal negative (whole ++ fraction) (exponent - fraction.length)

/-- The number that a text writes. -/
def readBinary64 (cs : List Char) : Option Binary64 :=
  let (negative, rest) := splitSign cs
  if isWord "inf" rest || isWord "infinity" rest then some (Binary64.infinity negative)
  else if isWord "nan" rest then some (Binary64.signedNaN negative)
  else readDecimal negative rest

end TypedConfig.Number
