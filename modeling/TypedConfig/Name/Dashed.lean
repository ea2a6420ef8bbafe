import TypedConfig.Text.Letter

/-!
# The dashed spelling of identifiers

`dashed` turns an identifier such as `maxRetries` or `max_retries` into `max-retries`: underscores
become dashes, a dash goes in front of each upper-case letter that does not start the text or follow
a dash, and letters become small. What stands from a bracket to the next closing one is left alone.
-/

namespace TypedConfig.Name

/-- The dashed spelling of the rest of an identifier. `last` is the character written before it,
and `inIndex` says that a bracket is open. -/
def dashedFrom (inIndex : Bool) (last : Option Char) : List Char → List Char
  | [] => []
  | c :: cs =>
    if inIndex then c :: dashedFrom (c != ']') (some c) cs
    else if c = '[' then c :: dashedFrom true (some c) cs
    else
      let c := if c = '_' then '-' else c
      let gap := if Text.isUpper c && last.isSome && last != some '-' then ['-'] else []
      let written := gap ++ Text.lowered c
      written ++ dashedFrom false written.getLast? cs

/-- The dashed spelling of an identifier. -/
def dashed (s : String) : String := String.ofList (dashedFrom false none s.toList)

end TypedConfig.Name
