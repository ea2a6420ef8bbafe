import TypedConfig.Name.Order
import TypedConfig.Name.Reading
import TypedConfig.Text.Slice

/-!
# Names as they are kept

A name is kept as a window over the text that it was read from: the text, the spans of the elements
that were found in it, and which of the spans belong to the name. Cutting a name moves the window
and leaves text and spans alone. Joining does not touch them either: each new element is put into a
slot, and the slot stands in front of the span at its place, if there is one.

* `Window.element`: the element at a position, from its slot or from its span.
* `Window.shortcut`: the stretch of the text that is the name already, if nothing was put into a
  slot, the elements are of simple kinds and stand one dot apart.
* `Window.same`, `Window.text`: equality and the text of a name, by the short cut where there is
  one, else element by element.
* `Window.compare`, `Window.hash`: order and hash, element by element.
* `Window.parse`, `Window.adapt`, `Window.adaptWith`: reading; `Window.join`, `Window.item`,
  `Window.take`, `Window.subName`: joining and cutting.

A step that reads an element where none is kept has no result but `Failure.unread`.
-/

namespace TypedConfig

/-- A word of the kind is in dashed form as it was written. -/
def Kind.isPlain : Kind → Bool
  | .uniform | .dashed => true
  | .nonUniform | .indexed | .numeric => false

/-- Where an element stands in the text that was read. -/
structure Span where
  /-- The byte offset of its first character. -/
  start : Nat
  /-- The byte offset behind its last character. -/
  stop : Nat
  kind : Kind
  deriving DecidableEq, Repr

/-- Where the run stands, if it is an element. -/
def Run.span? (r : Run) : Option Span :=
  r.kind.map fun kind => ⟨r.start, r.start + r.text.utf8ByteSize, kind⟩

/-- A name over the text that it was read from. -/
structure Window where
  /-- The text that was read. -/
  source : String
  /-- The elements found in the text. -/
  spans : List Span
  /-- The first span of the name. -/
  offset : Nat
  /-- The number of elements of the name. -/
  length : Nat
  /-- The elements that stand in front of the spans, one slot for each position of the name. -/
  slots : Option (List (Option Element))
  deriving DecidableEq, Repr

namespace Window

/-- Why a step on names has no result. -/
inductive Failure where
  /-- The text is no name. -/
  | invalid (e : InvalidName)
  /-- The position is beyond the end of the name. -/
  | outOfRange (e : Name.OutOfRange)
  /-- There is no slot, no span or no text where an element is read. -/
  | unread
  deriving DecidableEq, Repr

/-- The root. -/
def empty : Window := ⟨"", [], 0, 0, none⟩

instance : Inhabited Window := ⟨empty⟩

/-- The name of all spans. -/
def ofSpans (source : String) (spans : List Span) : Window := ⟨source, spans, 0, spans.length, none⟩

/-- The name of all runs of a text that are elements. -/
def ofScan (source : String) (found : Scan) : Window :=
  ofSpans source (found.runs.filterMap Run.span?)

/-! ## Elements -/

/-- What the slot at a position holds. Without slots no position holds anything. -/
def heldAt (slots : Option (List (Option Element))) (i : Nat) : Except Failure (Option Element) :=
  match slots with
  | none => .ok none
  | some slots =>
    match slots[i]? with
    | some held => .ok held
    | none => .error .unread

/-- The element that a span is. -/
def spanned (w : Window) (span : Span) : Except Failure Element :=
  match Text.slice? w.source span.start span.stop with
  | some text => .ok ⟨span.kind, text⟩
  | none => .error .unread

/-- The element at a position. -/
def element (w : Window) (i : Nat) : Except Failure Element := do
  match ← heldAt w.slots i with
  | some e => return e
  | none =>
    match w.spans[w.offset + i]? with
    | some span => w.spanned span
    | none => .error .unread

/-- All elements, in order. -/
def elements (w : Window) : Except Failure (List Element) := (List.range w.length).mapM w.element

/-- The name that is kept. -/
def name (w : Window) : Except Failure Name := return ⟨← w.elements⟩

/-- The element at a position in a form. -/
def render (w : Window) (i : Nat) (form : Form) : Except Failure String :=
  return (← w.element i).render form

/-! ## The short cut -/

/-- The spans are of accepted kinds, and what stands between neighbours is one dot. -/
def dotted (source : String) (accept : Kind → Bool) : List Span → Bool
  | [] => true
  | [span] => accept span.kind
  | a :: b :: rest =>
    accept a.kind && Text.slice? source a.stop b.start == some "." && dotted source accept (b :: rest)

/-- The stretch of the text from the first element of the name to its last. It stands for the name
if no slot is used and the elements are of accepted kinds with one dot between neighbours. -/
def shortcut (w : Window) (accept : Kind → Bool) : Except Failure (Option String) :=
  if w.slots.isSome then .ok none
  else if w.length = 0 then .ok (some "")
  else
    let spans := (w.spans.drop w.offset).take w.length
    if spans.length < w.length then .error .unread
    else if dotted w.source accept spans then
      match spans.head?, spans.getLast? with
      | some first, some last =>
        match Text.slice? w.source first.start last.stop with
        | some text => .ok (some text)
        | none => .error .unread
      | _, _ => .error .unread
    else .ok none

/-! ## Meaning, order and text -/

/-- The elements before position `k` of two names mean the same, looked at from the last one on. -/
def sameBelow (a b : Window) : Nat → Except Failure Bool
  | 0 => return true
  | k + 1 => do
    if (← a.element k).same (← b.element k) then a.sameBelow b k else return false

/-- The two names mean the same. Names of small letters and digits alone are compared as texts if
both have the short cut. -/
def same (a b : Window) : Except Failure Bool := do
  if a.length ≠ b.length then return false
  match ← a.shortcut (· == .uniform), ← b.shortcut (· == .uniform) with
  | some s, some t => return s == t
  | _, _ => a.sameBelow b a.length

/-- Equality as it is asked for. A name that is kept once and `shared` is equal to itself without a
look at it. -/
def equal (a b : Window) (shared : Bool) : Except Failure Bool :=
  if shared then return true else a.same b

/-- The first name lies strictly above the second. -/
def isAncestorOf (a b : Window) : Except Failure Bool :=
  if a.length < b.length then a.sameBelow b a.length else return false

/-- The first name lies one element above the second. -/
def isParentOf (a b : Window) : Except Failure Bool :=
  if a.length + 1 = b.length then a.isAncestorOf b else return false

/-- The order of two names from position `i` on, where both have `k` more elements. -/
def compareFrom (a b : Window) (i : Nat) : Nat → Except Failure Ordering
  | 0 => return Ord.compare a.length b.length
  | k + 1 => do
    match (← a.element i).compare (← b.element i) with
    | .eq => a.compareFrom b (i + 1) k
    | order => return order

/-- The order of two names. -/
def compare (a b : Window) : Except Failure Ordering := a.compareFrom b 0 (min a.length b.length)

/-- A positional hash of the elements. -/
def hash (w : Window) : Except Failure UInt32 :=
  (List.range w.length).foldlM (fun h i => return h * 31 + (← w.element i).hash) 0

/-- The name in one line. -/
def text (w : Window) : Except Failure String := do
  match ← w.shortcut Kind.isPlain with
  | some text => return text
  | none =>
    (List.range w.length).foldlM (fun text i => return Name.textWith text (← w.element i)) ""

/-! ## Joining and cutting -/

/-- The slots, unless all of them are empty. -/
def keepUsed (slots : List (Option Element)) : Option (List (Option Element)) :=
  if slots.any Option.isSome then some slots else none

/-- `a` with the elements of `b` put into slots behind its own. -/
def append (a b : Window) : Except Failure Window := do
  let held := match a.slots with
    | some slots => slots.take a.length
    | none => List.replicate a.length none
  return { a with length := a.length + b.length, slots := some (held ++ (← b.elements).map some) }

/-- The first `k` elements of a name that has them. -/
def front (w : Window) (k : Nat) : Window :=
  { w with length := k, slots := w.slots.bind fun slots => keepUsed (slots.take k) }

/-- The elements from position `k` on, of a name that has that many. -/
def back (w : Window) (k : Nat) : Window :=
  { w with
    offset := w.offset + k
    length := w.length - k
    slots := w.slots.bind fun slots => keepUsed (slots.drop k) }

/-- `a` followed by the elements of `b`. -/
def join (a b : Window) : Except Failure Window :=
  if b.length = 0 then .ok a else if a.length = 0 then .ok b else a.append b

/-- The name of one index alone, over its own key. -/
def index (key : String) : Window := ofSpans key [⟨0, key.utf8ByteSize, (Element.index key).kind⟩]

/-- The name of the item that the collection `w` has under a key. -/
def item (w : Window) (key : String) : Except Failure Window := w.append (index key)

/-- The first `k` elements. -/
def take (w : Window) (k : Nat) : Window :=
  if w.length ≤ k then w else if k = 0 then empty else w.front k

/-- All but the last element. -/
def parent (w : Window) : Window := if w.length ≤ 1 then empty else w.take (w.length - 1)

/-- The elements from position `k` on, for a position that the name has. -/
def subName (w : Window) (k : Nat) : Except Failure Window :=
  if w.length < k then .error (.outOfRange ⟨k, w.length⟩)
  else .ok (if k = 0 then w else if k = w.length then empty else w.back k)

/-! ## Reading -/

/-- A reading of a text as a step on names. -/
def valid {α : Type} : Except InvalidName α → Except Failure α
  | .ok a => .ok a
  | .error e => .error (.invalid e)

/-- Reads a canonical name. -/
def parse (s : String) : Except Failure Window := do
  let _ ← valid (Name.parse s)
  return ofScan s (scan '.' s)

/-- Reads any text, cut at a separator. -/
def adapt (s : String) (sep : Char) : Window :=
  let w := ofScan s (scan sep s)
  if w.length = 0 then empty else w

/-- The elements that raw ones become when they are respelled. A respelling may depend on those
before it, through a state, and all of them are done before the first new text is read. -/
def respellAll {σ : Type} (s : String) (runs : List Run) (spell : String → StateM σ String)
    (state : σ) : Except InvalidName (List Element) :=
  let texts := ((runs.mapM fun r => spell r.text).run state).1
  (runs.zip texts).mapM fun (r, text) => Name.respell s (fun _ => text) r

/-- The name of respelled elements, in slots in front of the spans of the raw ones. -/
def ofRespelled (s : String) (runs : List Run) (elements : List Element) : Window :=
  if elements.isEmpty then empty
  else
    let spans := (runs.zip elements).map fun (r, e) =>
      ⟨r.start, r.start + r.text.utf8ByteSize, e.kind⟩
    { ofSpans s spans with slots := some (elements.map some) }

/-- Reads any text, cut at a separator, with every raw element respelled. -/
def adaptWith {σ : Type} (s : String) (sep : Char) (spell : String → StateM σ String) (state : σ) :
    Except Failure Window := do
  let runs := (scan sep s).runs.filter (·.kind.isSome)
  return ofRespelled s runs (← valid (respellAll s runs spell state))

/-- The name with the elements of a canonical text after its own. -/
def extend (w : Window) (s : String) : Except Failure Window := do
  if s.isEmpty then return w
  w.join (← parse s)

end Window

end TypedConfig
