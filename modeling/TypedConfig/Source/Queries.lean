import TypedConfig.Source.Basic

/-!
# Queries

The questions that a reader asks of sources, and what a question to a view makes the views below
look up. `Query.noted` lists the names that a question makes the recorded sources look up.
-/

namespace TypedConfig

/-- A question to a source. -/
inductive Query where
  /-- The property under a name. -/
  | get (name : Name)
  /-- Whether there is anything below a name. -/
  | presence (name : Name)
  deriving Repr

namespace Source

/-- The names that recorded sources look up when a source is asked for a property. -/
def notedByGet : Source → Name → List Name
  | entries _ _, _ | hollow _, _ | given _, _ => []
  | filtered of test, n => if test n then of.notedByGet n else []
  | aliased of aliases, n =>
    let canonical := (aliases.canonical? n).toList
    let others := aliases.of n
    let upTo (names : List Name) : List Name :=
      names.takeWhile (fun m => (of.get? m).isNone) ++
        (names.find? fun m => (of.get? m).isSome).toList
    (upTo (n :: (canonical ++ others))).flatMap of.notedByGet
  | relocated of root, n => of.notedByGet (root ++ n)
  | lookupOnly of, n | unlisted of, n | shallow of, n => of.notedByGet n
  | recorded of, n => n :: of.notedByGet n

/-- The lookups that find out whether a name is seen only through an alias: pair by pair, until one
shows that it is. -/
def aliasLookups (get? : Name → Option Property) (n : Name) : List (Name × Name) → List Name
  | [] => []
  | (canonical, other) :: rest =>
    let first := if n.isAncestorOf other then [canonical] else []
    if first.any fun m => (get? m).isSome then first
    else
      let second := if n.isAncestorOf canonical then [other] else []
      if second.any fun m => (get? m).isSome then first ++ second
      else first ++ second ++ aliasLookups get? n rest

/-- The names that recorded sources look up when a source is asked what lies below a name. -/
def notedByPresence : Source → Name → List Name
  | aliased of aliases, n =>
    let asked := n :: aliases.of n
    let unseen := asked.takeWhile fun m => of.presence m == .absent
    let deciding := (asked.find? fun m => of.presence m != .absent).toList
    let below := (unseen ++ deciding).flatMap of.notedByPresence
    if deciding.isEmpty then
      below ++ (aliasLookups of.get? n aliases.pairs).flatMap of.notedByGet
    else below
  | filtered of _, n =>
    match of.names? with
    | some _ => []
    | none => of.notedByPresence n
  | relocated of root, n => of.notedByPresence (root ++ n)
  | unlisted of, n | recorded of, n => of.notedByPresence n
  | entries _ _, _ | lookupOnly _, _ | shallow _, _ | hollow _, _ | given _, _ => []

/-- The names that recorded sources look up to answer a question. -/
def noted (source : Source) : Query → List Name
  | .get n => source.notedByGet n
  | .presence n => source.notedByPresence n

end Source

end TypedConfig
