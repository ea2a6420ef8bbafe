import TypedConfig.Name.Reading

/-!
# Tests on names

The tests by which a view of a source picks the names that it shows.
-/

namespace TypedConfig

/-- A test on names. -/
inductive NameTest where
  | all
  | none
  /-- The text of the name does not contain a text. -/
  | lacks (text : String)
  /-- The name has at most so many elements. -/
  | maxLength (n : Nat)
  /-- The last element differs from a text in its uniform form. -/
  | lastIsNot (text : String)
  /-- The name lies below another. -/
  | below (ancestor : Name)
  /-- No element of the name is an index. -/
  | noIndex
  deriving Repr

namespace NameTest

/-- `part` occurs in the characters. -/
def occursIn (part : List Char) : List Char → Bool
  | [] => part.isEmpty
  | c :: cs => part.isPrefixOf (c :: cs) || occursIn part cs

/-- The name passes the test. -/
def accepts : NameTest → Name → Bool
  | all, _ => true
  | none, _ => false
  | lacks text, n => !occursIn text.toList n.text.toList
  | maxLength k, n => n.length ≤ k
  | lastIsNot text, n => n.last .uniform != text
  | below ancestor, n => ancestor.isAncestorOf n
  | noIndex, n => !n.hasIndex

end NameTest

end TypedConfig
