import TypedConfig.Source.Aliases
import TypedConfig.Source.Entries
import TypedConfig.Text.Blank

/-!
# Sources

A source holds values under names, or is a view of another source. It answers four questions:

* `Source.get?`: the property under a name;
* `Source.presence`: whether there is anything below a name, which may be unknown;
* `Source.names?`: all names, if the source can list them;
* `Source.label`: what the source is called.

Views filter, rename and relocate what they show, or withhold some of the answers. Any other source
is known by its answers (`Source.given`).
-/

namespace TypedConfig

/-- Whether a source has anything below a name. -/
inductive Presence where
  | present
  | absent
  | unknown
  deriving DecidableEq, Repr

/-- The answer of a source that can see all its names. -/
def Presence.ofBool (found : Bool) : Presence := if found then .present else .absent

/-- What a source answers. -/
structure Answers where
  label : String
  get? : Name → Option Property
  presence : Name → Presence := fun _ => .unknown
  names? : Option (List Name) := none
  isIterable : Bool := names?.isSome
  /-- A bound above the positions in the names that a lookup finds something under. -/
  reach : Nat := 0

/-- A place that values are looked up in. -/
inductive Source where
  /-- Values in memory. -/
  | entries (label : String) (held : Entries)
  /-- The names of a source that pass a test. -/
  | filtered (of : Source) (test : Name → Bool)
  /-- A source in which names are also found under their aliases, and the other way around. -/
  | aliased (of : Source) (aliases : Aliases)
  /-- What a source holds below a name, as if it stood at the root. -/
  | relocated (of : Source) (root : Name)
  /-- A source that tells nothing but values. -/
  | lookupOnly (of : Source)
  /-- A source that does not list its names. -/
  | unlisted (of : Source)
  /-- A source that does not know what lies below a name. -/
  | shallow (of : Source)
  /-- A source whose lookups are noted (`Source.noted`). -/
  | recorded (of : Source)
  /-- A source without values and names, with one answer to what lies below a name. -/
  | hollow (presence : Presence)
  /-- A source of any other make. -/
  | given (answers : Answers)

namespace Source

/-- The name of a source that has none. -/
def defaultLabel : String := "unnamed source"

/-- What the source is called. -/
def label : Source → String
  | entries label _ => label
  | filtered of _ | aliased of _ | relocated of _ => of.label
  | lookupOnly _ | unlisted _ | shallow _ | recorded _ | hollow _ => defaultLabel
  | given answers => answers.label

/-- The property under a name. -/
def get? : Source → Name → Option Property
  | entries label held, n =>
    (Keyed.find? n held).map fun entry => ⟨n, entry.value, some s!"{label} [{entry.key}]"⟩
  | filtered of test, n => if test n then of.get? n else none
  | aliased of aliases, n =>
    match of.get? n with
    | some p => some p
    | none =>
      match (aliases.canonical? n).bind of.get? with
      | some p => some (p.renamed n)
      | none => ((aliases.of n).findSome? of.get?).map (·.renamed n)
  | relocated of root, n => (of.get? (root ++ n)).map (·.renamed n)
  | lookupOnly of, n | unlisted of, n | shallow of, n | recorded of, n => of.get? n
  | hollow _, _ => none
  | given answers, n => answers.get? n

/-- All names, if the source lists them. -/
def names? : Source → Option (List Name)
  | entries _ held => some held.names
  | filtered of test => of.names?.map (·.filter test)
  | aliased of aliases =>
    of.names?.map fun names =>
      (names.flatMap fun n => aliases.of n ++ (aliases.canonical? n).toList).foldl
        Aliases.addName names
  | relocated of root =>
    of.names?.map fun names => (names.filter root.isAncestorOf).map (·.drop root.length)
  | lookupOnly _ | unlisted _ | hollow _ => none
  | shallow of | recorded of => of.names?
  | given answers => answers.names?

/-- The source lists its names. -/
def isIterable : Source → Bool
  | entries _ _ => true
  | filtered of _ | aliased of _ | relocated of _ => of.isIterable
  | lookupOnly _ | unlisted _ | hollow _ => false
  | shallow of | recorded of => of.isIterable
  | given answers => answers.isIterable

/-- The first answer that does not deny. -/
def firstSighting : List Presence → Presence
  | [] => .absent
  | .absent :: rest => firstSighting rest
  | seen :: _ => seen

/-- A name below `n` is seen only because an alias, or the name that it stands for, is held. -/
def seenThroughAlias (get? : Name → Option Property) (aliases : Aliases) (n : Name) : Bool :=
  aliases.pairs.any fun (canonical, other) =>
    (n.isAncestorOf other && (get? canonical).isSome) ||
      (n.isAncestorOf canonical && (get? other).isSome)

/-- Whether there is anything below a name. -/
def presence : Source → Name → Presence
  | entries _ held, n => .ofBool (held.names.any n.isAncestorOf)
  | filtered of test, n =>
    match of.names? with
    | some names => .ofBool (names.any fun m => n.isAncestorOf m && test m)
    | none =>
      match of.presence n with
      | .present => .unknown
      | seen => seen
  | aliased of aliases, n =>
    match firstSighting (of.presence n :: (aliases.of n).map of.presence) with
    | .absent => .ofBool (seenThroughAlias of.get? aliases n)
    | seen => seen
  | relocated of root, n => of.presence (root ++ n)
  | lookupOnly _, _ | shallow _, _ => .unknown
  | unlisted of, n | recorded of, n => of.presence n
  | hollow presence, _ => presence
  | given answers, n => answers.presence n

/-- A bound above the positions in the names that a lookup can find something under. -/
def reach : Source → Nat
  | entries _ held => Name.reachOf held.names
  | aliased of aliases => max of.reach aliases.reach
  | filtered of _ | relocated of _ | lookupOnly of | unlisted of | shallow of | recorded of =>
    of.reach
  | hollow _ => 0
  | given answers => answers.reach

/-- The source with other entries at its bottom. -/
def mapEntries (f : Entries → Entries) : Source → Source
  | entries label held => entries label (f held)
  | filtered of test => filtered (of.mapEntries f) test
  | aliased of aliases => aliased (of.mapEntries f) aliases
  | relocated of root => relocated (of.mapEntries f) root
  | lookupOnly of => lookupOnly (of.mapEntries f)
  | unlisted of => unlisted (of.mapEntries f)
  | shallow of => shallow (of.mapEntries f)
  | recorded of => recorded (of.mapEntries f)
  | hollow presence => hollow presence
  | given answers => given answers

/-- The entries at the bottom of the source. -/
def entries? : Source → Option Entries
  | entries _ held => some held
  | filtered of _ | aliased of _ | relocated of _ | lookupOnly of | unlisted of | shallow of
  | recorded of => of.entries?
  | hollow _ | given _ => none

/-- The view of a source from a name, given as text. A blank text is the root. -/
def relocate (of : Source) (root : String) : Except InvalidName Source := do
  let root := Text.trim root
  if root.isEmpty then return of
  return relocated of (← Name.parse root)

end Source

end TypedConfig
