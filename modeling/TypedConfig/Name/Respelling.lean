/-!
# Respellings

The ways of respelling a raw element before it is read as part of a name.
-/

namespace TypedConfig

/-- A way of respelling a text. -/
inductive Respelling where
  | identity
  /-- Letters of the English alphabet become small. -/
  | lower
  /-- Letters of the English alphabet become capital. -/
  | upper
  /-- Every occurrence of one text becomes another. -/
  | replace (pattern replacement : String)
  /-- Always the same text. -/
  | constant (text : String)
  /-- A text in front and one behind. -/
  | wrap (front back : String)
  deriving DecidableEq, Repr

namespace Respelling

/-- The characters with every occurrence of `pattern`, from the left and without overlaps, replaced.
`skip` characters belong to an occurrence that is replaced already. -/
def replaceFrom (pattern replacement : List Char) (skip : Nat) : List Char → List Char
  | [] => []
  | c :: cs =>
    match skip with
    | k + 1 => replaceFrom pattern replacement k cs
    | 0 =>
      if pattern.isPrefixOf (c :: cs) then
        replacement ++ replaceFrom pattern replacement (pattern.length - 1) cs
      else c :: replaceFrom pattern replacement 0 cs

/-- The characters with every occurrence of `pattern` replaced. The empty pattern occurs before
each character and at the end. -/
def replaceAll (pattern replacement cs : List Char) : List Char :=
  if pattern.isEmpty then replacement ++ cs.flatMap fun c => c :: replacement
  else replaceFrom pattern replacement 0 cs

/-- The new spelling of a text. -/
def apply (r : Respelling) (s : String) : String :=
  match r with
  | identity => s
  | lower => s.map Char.toLower
  | upper => s.map Char.toUpper
  | replace pattern replacement =>
    String.ofList (replaceAll pattern.toList replacement.toList s.toList)
  | constant text => text
  | wrap front back => front ++ s ++ back

end Respelling

end TypedConfig
