import TypedConfig.Proofs.Bind.Builtin
import TypedConfig.Proofs.Shape.Display

/-!
# Invariants of the journal

A statement about all that a bind notes is an invariant of the journal, which each step keeps.
`Journal.Invariant` names what such an invariant must satisfy: it may only look at the questions that
sources are asked, at what tracing handlers saw, and at what would not end, and it says which questions
keep it, and which things without end. `BindM.Keeps` says that a step does. Each step keeps an
invariant if the steps below it do and if it asks nothing else.

* `Binder.keeps_bindComposite`, `Binder.keeps_bindCollection`, `Binder.keeps_bindMap`: the steps for
  composites, collections and maps.
* `Binder.KeptByHandler`: the handlers of a name keep it. Those that come with binding do so if the
  check for leftovers does (`Handler.Builtin.keeps`).
* `Binder.keeps_bindForm`, `Binder.keeps_bindVisit`: a name without and with its handlers.
* `Binder.keeps_bindShape_of_below`: an invariant that all questions keep is a matter of the names
  below. That something was cut short is one (`Binder.keeps_bindAt_cut`).
-/

namespace TypedConfig

/-- What is true of a journal all along, and the questions and things without end that keep it so. -/
structure Journal.Invariant where
  holds : Journal → Prop
  allows : Query → Prop
  tolerates : Endless → Prop
  allows_presence : ∀ name, allows (.presence name)
  asked : ∀ {j : Journal} (queries : List (Nat × Query)), (∀ q ∈ queries, allows q.2) → holds j →
    holds { j with queries := queries ++ j.queries }
  converted : ∀ {j : Journal} (p : Option Property), holds j → holds { j with property := p }
  bound : ∀ {j : Journal} (n : Name), holds j → holds { j with bound := n :: j.bound }
  whole : ∀ {j : Journal} (n : Name), holds j → holds { j with whole := n :: j.whole }
  endless : ∀ {j : Journal} {what : Endless}, tolerates what → holds j →
    holds { j with endless := j.endless.or (some what) }

namespace Journal.Invariant

variable {I : Journal.Invariant} {defs : Definitions} {s t : Shape}

/-- The text of the shape ends, or the invariant does not mind that it would not. -/
def Shows (I : Journal.Invariant) (defs : Definitions) (s : Shape) : Prop :=
  I.tolerates .text ∨ defs.displayEnds s = true

theorem Shows.inner (h : I.Shows defs s) (hs : (defs.resolve s).inner? = some t) :
    I.Shows defs t :=
  h.imp_right (Definitions.displayEnds_inner hs).mp

theorem Shows.of_inner_none (hs : (defs.resolve s).inner? = none) : I.Shows defs s :=
  .inr (Definitions.displayEnds_of_inner_none hs)

/-- A map is shown with what its values stand for. -/
theorem Shows.map {key : ScalarKind} {value : Shape} (h : I.Shows defs s)
    (hs : defs.resolve s = .map key value) : I.Shows defs (.map key (defs.resolve value)) := by
  have hvalue : I.Shows defs value := h.inner (by rw [hs]; rfl)
  exact hvalue.imp_right fun h =>
    (Definitions.displayEnds_inner rfl).mpr (Definitions.displayEnds_resolve h)

end Journal.Invariant

namespace BindM

variable {α β : Type} {I : Journal.Invariant} {x : BindM α} {f : α → BindM β}

/-- Whatever `x` comes to, the invariant is kept. -/
def Keeps (I : Journal.Invariant) (x : BindM α) : Prop :=
  ∀ j, I.holds j → I.holds (x.runFrom j).2

namespace Keeps

theorem ret (a : α) : Keeps I (pure a) := fun _ h => h

theorem raise (e : BindError) : Keeps I (throw e : BindM α) := fun _ h => h

theorem journal : Keeps I (get : BindM Journal) := fun _ h => h

theorem note {f : Journal → Journal} (h : ∀ {j}, I.holds j → I.holds (f j)) :
    Keeps I (modify f : BindM Unit) := fun _ hj => h hj

/-- What the first step yields may be used. -/
theorem bind {Q : α → Prop} (hx : Keeps I x) (hy : x.Yields Q) (hf : ∀ a, Q a → Keeps I (f a)) :
    Keeps I (x >>= f) := by
  intro j hj
  have hk := hx j hj
  rcases hrun : x.runFrom j with ⟨r, k⟩
  rw [hrun] at hk
  cases r with
  | ok a =>
    rw [runFrom_bind_ok hrun]
    exact hf a (hy j a k hrun) k hk
  | error e =>
    rw [runFrom_bind_error hrun]
    exact hk

theorem seq (hx : Keeps I x) (hf : ∀ a, Keeps I (f a)) : Keeps I (x >>= f) :=
  hx.bind (.any x) fun a _ => hf a

theorem attempt (hx : Keeps I x) : Keeps I (BindM.attempt x) := by
  intro j hj
  rw [runFrom_attempt]
  exact hx j hj

theorem andFinally {after : BindM Unit} (hx : Keeps I x) (ha : Keeps I after) :
    Keeps I (x.andFinally after) := by
  unfold BindM.andFinally
  refine hx.attempt.seq fun r => ha.seq fun _ => ?_
  cases r with
  | ok a => exact .ret a
  | error e => exact .raise e

end Keeps

end BindM

namespace Binder

open BindM

variable {I : Journal.Invariant} {b : Binder} {f : BindBelow} {scope : Scope} {name : Name}
  {target : Target}

/-! ## Questions and conversions -/

theorem keeps_ask {queries : List (Nat × Query)} (h : ∀ q ∈ queries, I.allows q.2) :
    Keeps I (Journal.ask queries) :=
  .note (I.asked queries.reverse fun q hq => h q (List.mem_reverse.mp hq))

theorem keeps_setProperty (p : Option Property) : Keeps I (Journal.setProperty p) :=
  .note (I.converted p)

theorem keeps_getFrom (hget : I.allows (.get name)) (i : Nat) (source : Source) :
    Keeps I (getFrom i source name) :=
  (keeps_ask (List.forall_mem_singleton.mpr hget)).seq fun _ => .ret _

theorem keeps_lookUp (hget : I.allows (.get name)) : Keeps I (b.lookUp scope name) := by
  refine (keeps_ask fun q hq => ?_).seq fun _ => .ret _
  obtain ⟨e, -, rfl⟩ := List.mem_map.mp hq
  exact hget

theorem keeps_nothingBelow : Keeps I (b.nothingBelow scope name) := by
  refine (keeps_ask fun q hq => ?_).seq fun _ => .ret _
  obtain ⟨e, -, rfl⟩ := List.mem_map.mp hq
  exact I.allows_presence name

theorem keeps_somethingBelow : Keeps I (b.somethingBelow scope name) := by
  refine (keeps_ask fun q hq => ?_).seq fun _ => .ret _
  obtain ⟨e, -, rfl⟩ := List.mem_map.mp hq
  exact I.allows_presence name

theorem keeps_describe {s : Shape} (h : I.Shows b.definitions s) : Keeps I (b.describe s) := by
  unfold describe
  split
  · exact .ret _
  · exact Keeps.seq (.note (I.endless (h.resolve_right ‹_›))) fun _ => .ret _

theorem keeps_convertProperty (p : Property) (kind : ScalarKind) :
    Keeps I (b.convertProperty p kind) := by
  unfold convertProperty
  split
  · exact (keeps_setProperty _).seq fun _ => .ret _
  · exact .raise _

theorem keeps_convertDefault (value : Value) (shape : Shape) :
    Keeps I (b.convertDefault name value shape) := by
  unfold convertDefault
  split
  · split
    · exact .ret _
    · exact .raise _
  · exact .ret _

theorem keeps_childName (id : String) : Keeps I (childName name id) := by
  unfold childName
  split
  · exact .ret _
  · exact .raise _

/-! ## Composites -/

/-- The way down keeps the invariant on the members of a composite. -/
def KeptOnMembers (I : Journal.Invariant) (f : BindBelow) (scope : Scope) (name : Name)
    (type : Composite Shape) : Prop :=
  ∀ id shape child existing, type.Member id shape →
    name.extend? (Name.dashed id) = .ok child →
    Keeps I (f scope child ((Target.of shape).withExisting existing) false)

variable {type : Composite Shape}

theorem keeps_bindParameters {params : List (Parameter Shape)}
    (hp : ∀ p ∈ params, type.Member p.name p.shape) (hf : KeptOnMembers I f scope name type) :
    Keeps I (bindParameters f scope name target params) := by
  induction params with
  | nil => exact .ret _
  | cons p rest ih =>
    rw [List.forall_mem_cons] at hp
    unfold bindParameters
    refine (keeps_childName p.name).bind (childName_yields name p.name) fun child hchild => ?_
    refine (hf p.name p.shape child _ hp.1 hchild).seq fun _ => ?_
    exact (ih hp.2).seq fun _ => .ret _

theorem keeps_buildInstance (typeName : String) (arguments : List Argument) (built : Fields) :
    Keeps I (b.buildInstance name typeName arguments built) := by
  induction arguments generalizing built with
  | nil => exact .ret _
  | cons arg rest ih =>
    unfold buildInstance
    split
    · exact ih _
    · exact .raise _
    · exact ih _
    · exact (keeps_childName _).seq fun _ => (keeps_convertDefault _ _).seq fun _ => ih _

theorem keeps_bindThrough {ctor : Constructor Shape} (hc : ctor ∈ type.constructors)
    (hf : KeptOnMembers I f scope.forConstructor name type) (typeName : String) :
    Keeps I (b.bindThrough ctor f scope name target typeName) := by
  unfold bindThrough
  refine (keeps_bindParameters (fun p hp => .param hc hp) hf).seq fun arguments => ?_
  split
  · exact (keeps_buildInstance _ _ _).seq fun _ => .ret _
  · exact .ret _

theorem keeps_liftExcept {α : Type} (x : Except BindError α) :
    Keeps I (bindConstructed.liftExcept x) := by
  cases x with
  | ok a => exact .ret a
  | error e => exact .raise e

theorem keeps_bindConstructed (hf : KeptOnMembers I f scope.forConstructor name type) :
    Keeps I (b.bindConstructed f scope name target type) := by
  unfold bindConstructed
  refine (keeps_liftExcept _).bind (liftExcept_yields _) fun choice hchoice => ?_
  cases choice with
  | none => exact .ret _
  | some ctor =>
    have hmem := (Composite.bindingConstructor_mem hchoice).1
    exact (keeps_bindThrough hmem hf _).andFinally (keeps_setProperty none)

theorem keeps_bindFields {fields : List (Field Shape)}
    (hp : ∀ p ∈ fields, type.Member p.name p.shape) (hf : KeptOnMembers I f scope name type)
    (typeName : String) (built : Fields) (any : Bool) :
    Keeps I (b.bindFields f scope name typeName fields built any) := by
  induction fields generalizing built any with
  | nil => exact .ret _
  | cons p rest ih =>
    rw [List.forall_mem_cons] at hp
    unfold bindFields
    refine (keeps_childName p.name).bind (childName_yields name p.name) fun child hchild => ?_
    refine (hf p.name p.shape child _ hp.1 hchild).seq fun bound => ?_
    cases bound with
    | none => exact ih hp.2 _ _
    | some v =>
      simp only
      split
      · exact ih hp.2 _ _
      · exact .raise _

theorem keeps_bindOnInstance (hf : KeptOnMembers I f scope name type) :
    Keeps I (b.bindOnInstance f scope name target type) := by
  unfold bindOnInstance
  split
  · exact (keeps_bindFields (fun p hp => .field hp) hf _ _ _).seq fun _ => .ret _
  · exact .ret _

theorem keeps_assemble (hf : KeptOnMembers I f scope name type)
    (hc : KeptOnMembers I f scope.forConstructor name type) :
    Keeps I (b.assemble f scope name target type) := by
  unfold assemble
  split
  · exact keeps_bindConstructed hc
  · exact keeps_bindOnInstance hf
  · refine (keeps_bindConstructed hc).seq fun built => ?_
    cases built with
    | some v => exact .ret _
    | none => exact keeps_bindOnInstance hf

theorem keeps_enter (below : Option BindBelow) (name : Name) : Keeps I (b.enter below name) := by
  cases below with
  | none => exact .raise _
  | some below => exact .ret below

/-- A composite keeps the invariant if its members do. -/
theorem keeps_bindComposite {below : Option BindBelow} (recursive : Bool)
    (hf : ∀ f, below = some f → KeptOnMembers I f (scope.within type.typeName) name type ∧
      KeptOnMembers I f (scope.within type.typeName).forConstructor name type) :
    Keeps I (b.bindComposite below scope name target type recursive) := by
  have hguard : ∀ again : Bool, Keeps I (if again then b.somethingBelow scope name else pure true) := by
    intro again
    cases again
    · exact .ret _
    · exact keeps_somethingBelow
  unfold bindComposite
  refine (hguard _).seq fun goesOn => ?_
  split
  · exact (keeps_enter below name).bind (enter_yields name) fun f hb =>
      keeps_assemble (hf f hb).1 (hf f hb).2
  · exact .ret _

/-! ## Maps -/

/-- The entries of listed names keep the invariant if each of them does. -/
theorem keeps_bindEntries {root : Name} {key : ScalarKind} {value : Shape} {candidates : List Name}
    (hf : ∀ n ∈ candidates, Keeps I (f scope (entryName root n value) (.of value) true))
    (g : Gathered) : Keeps I (b.bindEntries f scope root key value candidates g) := by
  induction candidates generalizing g with
  | nil => exact .ret _
  | cons candidate rest ih =>
    rw [List.forall_mem_cons] at hf
    unfold bindEntries
    simp only
    split
    · exact ih hf.2 _
    · refine (keeps_convertProperty _ _).seq fun converted => ?_
      split
      · exact ih hf.2 _
      · split
        · exact ih hf.2 _
        · exact hf.1.seq fun _ => ih hf.2 _

theorem keeps_convertEntries (p : Property) (key : ScalarKind) (value : Shape)
    (entries converted : Fields) : Keeps I (b.convertEntries p key value entries converted) := by
  induction entries generalizing converted with
  | nil => exact .ret _
  | cons entry rest ih =>
    obtain ⟨k, v⟩ := entry
    unfold convertEntries
    refine (keeps_convertProperty _ _).seq fun _ => ?_
    simp only
    split
    · exact (keeps_convertProperty _ _).seq fun _ => ih _
    · exact Keeps.seq (.ret _) fun _ => ih _

theorem keeps_bindMapValue (p : Property) {key : ScalarKind} {value : Shape}
    (ht : I.Shows b.definitions (.map key value)) :
    Keeps I (b.bindMapValue p key value) := by
  unfold bindMapValue
  split
  · exact (keeps_convertEntries _ _ _ _ _).seq fun _ => (keeps_setProperty _).seq fun _ => .ret _
  · exact (keeps_describe ht).seq fun _ => .raise _

/-- The way down keeps the invariant on the entries of a map. -/
def KeptOnEntries (I : Journal.Invariant) (b : Binder) (f : BindBelow) (scope : Scope)
    (name : Name) (value : Shape) : Prop :=
  ∀ e ∈ b.visible scope, ∀ n ∈ e.2.names?.getD [], name.isAncestorOf n = true →
    Keeps I (f scope (entryName name n value) (.of value) true)

theorem keeps_bindMapFrom (hget : I.allows (.get name)) {key : ScalarKind} {value : Shape}
    (ht : I.Shows b.definitions (.map key value))
    (hf : KeptOnEntries I b f scope name value) (direct : Bool) {sources : List (Nat × Source)}
    (hs : ∀ e ∈ sources, e ∈ b.visible scope) (g : Gathered) :
    Keeps I (b.bindMapFrom f scope name key value direct sources g) := by
  induction sources generalizing g with
  | nil => exact .ret _
  | cons e rest ih =>
    rw [List.forall_mem_cons] at hs
    have hlisted : Keeps I (do
        let g ← b.bindEntries f scope name key value
          ((e.2.names?.getD []).filter name.isAncestorOf) g
        b.bindMapFrom f scope name key value direct rest g) := by
      refine (keeps_bindEntries (fun n hn => ?_) g).seq fun g => ih hs.2 g
      obtain ⟨hlisted, hanc⟩ := List.mem_filter.mp hn
      exact hf e hs.1 n hlisted hanc
    unfold bindMapFrom
    cases direct with
    | false =>
      refine Keeps.bind (Q := (· = none)) (.ret _) (.ret rfl) fun found hfound => ?_
      subst hfound
      exact hlisted
    | true =>
      refine (keeps_getFrom hget e.1 e.2).seq fun found => ?_
      cases found with
      | some p => exact (keeps_bindMapValue p ht).seq fun _ => .ret _
      | none => exact hlisted

/-- A map keeps the invariant if its entries do. -/
theorem keeps_bindMap (hget : I.allows (.get name)) {key : ScalarKind} {value : Shape}
    (ht : I.Shows b.definitions (.map key (b.resolve value)))
    (hf : KeptOnEntries I b f scope.deeper name (b.resolve value)) :
    Keeps I (b.bindMap f scope name target key value) := by
  unfold bindMap
  refine keeps_somethingBelow.seq fun nested => ?_
  refine (keeps_bindMapFrom hget ht hf _ (fun e he => he) {}).seq fun bound => ?_
  split <;> exact .ret _

/-! ## Collections -/

variable {element : Shape}

theorem keeps_bindItems {bindItem : Nat → BindM (Option Value)}
    (hendless : I.tolerates .items) (hi : ∀ position, Keeps I (bindItem position))
    (worthTrying : Nat → Bool) (steps position : Nat) :
    Keeps I (bindItems bindItem worthTrying steps position) := by
  induction steps generalizing position with
  | zero => exact Keeps.seq (.note (I.endless hendless)) fun _ => .ret _
  | succ steps ih =>
    unfold bindItems
    split
    · refine (hi position).seq fun bound => ?_
      cases bound with
      | some v => exact (ih _).seq fun _ => .ret _
      | none => exact .ret _
    · exact .ret _

/-- Items are refused with questions for listed names below the collection. -/
theorem keeps_refuseItems {i : Nat} {source : Source} {positions : List Nat}
    (hget : ∀ n ∈ source.names?.getD [], name.isAncestorOf n = true → I.allows (.get n)) :
    Keeps I (refuseItems i source name positions) := by
  unfold refuseItems
  refine (keeps_ask fun q hq => ?_).seq fun _ => .raise _
  obtain ⟨n, hn, rfl⟩ := List.mem_map.mp hq
  obtain ⟨hlisted, hposition⟩ := List.mem_filter.mp hn
  refine hget n hlisted ?_
  by_contra hout
  unfold Name.positionIn? at hposition
  rw [if_neg hout] at hposition
  cases hposition

/-- The items of one source keep the invariant if the loop through them does. -/
theorem keeps_bindFrom {i : Nat} {source : Source} {start : Nat}
    (hloop : Keeps I (bindItems
      (fun position => f (scope.restrictedTo i) (name.item (toString position)) (.of element)
        source.isIterable)
      (fun position => (source.names?.map (listedPositions name start)).all fun known =>
        known.any (position ≤ ·))
      (b.itemLimit source start (source.names?.map (listedPositions name start)) + 1) start))
    (hget : ∀ n ∈ source.names?.getD [], name.isAncestorOf n = true → I.allows (.get n)) :
    Keeps I (b.bindFrom f scope name element i source start) := by
  unfold bindFrom
  refine hloop.seq fun values => ?_
  simp only
  split
  · exact .ret _
  · exact keeps_refuseItems hget

/-- The items of each source keep the invariant. -/
def KeptOnItems (I : Journal.Invariant) (b : Binder) (f : BindBelow) (scope : Scope) (name : Name)
    (element : Shape) : Prop :=
  ∀ e ∈ b.visible scope, ∀ start, Keeps I (b.bindFrom f scope name element e.1 e.2 start)

theorem keeps_bindFromAll (hget : I.allows (.get name)) (hf : KeptOnItems I b f scope name element)
    (direct : Bool) {sources : List (Nat × Source)} (hs : ∀ e ∈ sources, e ∈ b.visible scope)
    (values : List Value) (single : Option Property) :
    Keeps I (b.bindFromAll f scope name element direct sources values single) := by
  induction sources generalizing values single with
  | nil => exact .ret _
  | cons e rest ih =>
    rw [List.forall_mem_cons] at hs
    have hrest : ∀ single, Keeps I (do
        let more ← b.bindFrom f scope name element e.1 e.2 values.length
        b.bindFromAll f scope name element direct rest (values ++ more) single) := fun single =>
      (hf e hs.1 _).seq fun _ => ih hs.2 _ _
    unfold bindFromAll
    simp only
    split
    · exact (keeps_getFrom hget _ _).seq hrest
    · exact Keeps.seq (.ret _) hrest

theorem keeps_convertPieces (p : Property) (kind : ScalarKind) (pieces : List Value) :
    Keeps I (b.convertPieces p kind pieces) := by
  induction pieces with
  | nil => exact .ret _
  | cons piece rest ih =>
    unfold convertPieces
    exact (keeps_convertProperty _ _).seq fun _ => ih.seq fun _ => .ret _

theorem keeps_splitValue (p : Property) (ht : I.Shows b.definitions element) :
    Keeps I (b.splitValue p element) := by
  unfold splitValue
  split
  · split
    · exact keeps_convertPieces _ _ _
    · exact (keeps_describe ht).seq fun _ => .raise _
  · exact (keeps_describe ht).seq fun _ => .raise _

theorem keeps_bindElements (hget : I.allows (.get name)) (kind : CollectionKind)
    (ht : I.Shows b.definitions element) (hf : KeptOnItems I b f scope name element) :
    Keeps I (b.bindElements kind f scope name target element) := by
  unfold bindElements
  refine (keeps_bindFromAll hget hf _ (fun e he => he) _ _).seq fun r => ?_
  obtain ⟨values, single⟩ := r
  simp only
  split
  · cases single with
    | some p => exact (keeps_splitValue p ht).seq fun _ => .ret _
    | none => exact .ret _
  · exact .ret _

/-- A collection keeps the invariant if its items do. -/
theorem keeps_bindCollection (hget : I.allows (.get name)) (kind : CollectionKind)
    (ht : I.Shows b.definitions element) (hf : KeptOnItems I b f scope.deeper name element) :
    Keeps I (b.bindCollection kind f scope name target element) := by
  unfold bindCollection
  refine (keeps_bindElements hget kind ht hf).seq fun bound => ?_
  split
  · exact .ret _
  · exact .ret _
  · exact Keeps.seq (.note (I.whole name)) fun _ => .ret _
  · exact .ret _

/-! ## Names -/

variable {below : Option BindBelow} {recursive : Bool}

theorem keeps_directProperty (hget : I.allows (.get name)) :
    Keeps I (b.directProperty scope name target) := by
  unfold directProperty
  split
  · exact .ret _
  · exact keeps_lookUp hget

theorem keeps_passesOver (property : Option Property) :
    Keeps I (b.passesOver scope name property) := by
  unfold passesOver
  split
  · exact keeps_nothingBelow
  · exact .ret _

/-- The way down keeps the invariant from a name on, by the shape of the target there. -/
structure KeptBelow (I : Journal.Invariant) (b : Binder) (f : BindBelow) (scope : Scope)
    (name : Name) (shape : Shape) : Prop where
  items : ∀ kind element, (b.resolve shape).collection? = some (kind, element) →
    KeptOnItems I b f scope.deeper name element
  entries : ∀ key value, b.resolve shape = .map key value →
    KeptOnEntries I b f scope.deeper name (b.resolve value)
  members : ∀ type, b.resolve shape = .composite type →
    KeptOnMembers I f (scope.within type.typeName) name type ∧
      KeptOnMembers I f (scope.within type.typeName).forConstructor name type

theorem element?_of_collection? {s element : Shape} {kind : CollectionKind}
    (h : s.collection? = some (kind, element)) : s.element? = some element := by
  cases s <;> cases h <;> rfl

/-- What is inside of a collection are its elements. -/
theorem inner?_of_collection? {s element : Shape} {kind : CollectionKind}
    (h : s.collection? = some (kind, element)) : s.inner? = some element :=
  Shape.inner?_of_element? (element?_of_collection? h)

/-- A name that is not passed over keeps the invariant if what lies below it does. -/
theorem keeps_bindForm (hget : I.allows (.get name)) (ht : I.Shows b.definitions target.shape)
    (hf : ∀ f, below = some f → KeptBelow I b f scope name target.shape)
    (property : Option Property) :
    Keeps I (b.bindForm below scope name target recursive property) := by
  have hcollection : ∀ kind element,
      (b.resolve target.shape).collection? = some (kind, element) → Keeps I (do
        b.bindCollection kind (← b.enter below name) scope name target element) :=
    fun kind element hs => (keeps_enter below name).bind (enter_yields name) fun f hb =>
      keeps_bindCollection hget kind (ht.inner (inner?_of_collection? hs))
        ((hf f hb).items kind element hs)
  unfold bindForm
  split
  · cases property with
    | some p => exact (keeps_convertProperty p _).seq fun _ => .ret _
    | none => exact .ret _
  · rename_i hs
    exact hcollection _ _ (by rw [hs]; rfl)
  · rename_i hs
    exact hcollection _ _ (by rw [hs]; rfl)
  · rename_i hs
    exact hcollection _ _ (by rw [hs]; rfl)
  · rename_i key value hs
    exact (keeps_enter below name).bind (enter_yields name) fun f hb =>
      keeps_bindMap hget (ht.map hs) ((hf f hb).entries key value hs)
  · rename_i type hs
    unfold bindCompositeOver
    refine (keeps_bindComposite recursive fun f hb => (hf f hb).members type hs).seq fun bound => ?_
    split
    · exact .ret _
    · exact .raise _
    · exact .ret _
  · exact .ret _

section Below

variable (hall : ∀ q, I.allows q) (htol : ∀ what, I.tolerates what)
  (hf : ∀ f, below = some f → ∀ inner name target recursive, inner.depth = scope.depth + 1 →
    Keeps I (f inner name target recursive))

include hall htol hf

/-- An invariant that all questions keep, and that puts up with what would not end, is kept at a name
if the names one level down keep it. -/
theorem keeps_bindForm_of_below (property : Option Property) :
    Keeps I (b.bindForm below scope name target recursive property) := by
  refine keeps_bindForm (hall _) (.inl (htol _)) (fun f hb => ?_) property
  have hf := hf f hb
  refine ⟨fun kind element _ e _ start => ?_, fun key value _ e _ n _ _ => hf _ _ _ _ rfl,
    fun type _ => ⟨fun id shape child existing _ _ => hf _ _ _ _ rfl,
      fun id shape child existing _ _ => hf _ _ _ _ rfl⟩⟩
  exact keeps_bindFrom (keeps_bindItems (htol _) (fun _ => hf _ _ _ _ rfl) _ _ _)
    fun _ _ _ => hall _

theorem keeps_bindShape_of_below : Keeps I (b.bindShape below scope name target recursive) := by
  rw [bindShape_eq]
  refine (keeps_directProperty (hall _)).seq fun property => ?_
  refine (keeps_passesOver property).seq fun passed => ?_
  split
  · exact .ret _
  · exact keeps_bindForm_of_below hall htol hf property

end Below

/-! ## Creation -/

theorem keeps_constructFresh (params : List (Parameter Shape)) (built : Fields) :
    Keeps I (b.constructFresh params built) := by
  induction params generalizing built with
  | nil => exact .ret _
  | cons p rest ih =>
    unfold constructFresh
    split
    · exact .ret _
    · exact ih _
    · exact (keeps_convertDefault _ _).seq fun _ => ih _

theorem keeps_createConstructed : Keeps I (b.createConstructed scope target type) := by
  unfold createConstructed
  refine (keeps_liftExcept _).seq fun choice => ?_
  cases choice with
  | none => exact .ret _
  | some ctor => exact keeps_constructFresh _ _

theorem keeps_create : Keeps I (b.create scope target) := by
  have hcomposite : ∀ type, Keeps I (b.createComposite scope target type) := by
    intro type
    unfold createComposite
    split
    · exact keeps_createConstructed
    · exact .ret _
    · exact keeps_createConstructed.seq fun _ => .ret _
  unfold create
  split
  · exact .ret _
  · exact .ret _
  · exact .ret _
  · exact .ret _
  · exact .ret _
  · refine (hcomposite _).seq fun fields => ?_
    cases fields with
    | some fields => exact .ret _
    | none => exact .raise _
  · rename_i hs
    exact (keeps_describe (.of_inner_none (congrArg Shape.inner? hs))).seq fun _ => .raise _
  · rename_i hs
    exact (keeps_describe (.of_inner_none (congrArg Shape.inner? hs))).seq fun _ => .raise _

/-! ## Handlers -/

/-- The handlers of a visit keep the invariant. -/
structure KeptByHandler (I : Journal.Invariant) (h : Handler) (v : Visit) : Prop where
  start : Keeps I (h.onStart v)
  success : ∀ value, Keeps I (h.onSuccess v value)
  create : ∀ value, Keeps I (h.onCreate v value)
  failure : ∀ e, Keeps I (h.onFailure v e)
  finish : ∀ result, Keeps I (h.onFinish v result [])

/-- A name with its handlers keeps the invariant if it does without them. -/
theorem keeps_bindVisit {create : Bool} (hv : KeptByHandler I b.handler (b.visit scope name target))
    (hs : Keeps I (b.bindShape below scope name target recursive)) :
    Keeps I (b.bindVisit below scope name target recursive create) := by
  have hrest : ∀ bound, Keeps I (b.settle scope name target create bound) := by
    intro bound
    unfold settle
    cases bound with
    | some value =>
      exact Keeps.seq (.note (I.bound name)) fun _ => (hv.success value).seq fun _ => .ret _
    | none =>
      cases create
      · exact .ret _
      · exact keeps_create.seq fun v => (hv.create v).seq fun _ => .ret _
  have hhandled : Keeps I (b.bindHandled below scope name target recursive create) := by
    unfold bindHandled
    refine hv.start.seq fun starts => ?_
    cases starts
    · exact Keeps.seq (.ret _) hrest
    · exact hs.seq hrest
  unfold bindVisit
  refine hhandled.attempt.seq fun r => ?_
  cases r with
  | ok result => exact (hv.finish result).seq fun _ => .ret _
  | error e => exact (keeps_setProperty none).seq fun _ => hv.failure e

end Binder

namespace Handler

open BindM

variable {I : Journal.Invariant}

/-- Leftovers are gathered with questions for their names. -/
theorem mem_queries_gatherLeftovers {found : List Property} {l : List (Nat × Source × Name)}
    {q : Nat × Query} (h : q ∈ (gatherLeftovers found l).2) :
    ∃ x ∈ l, q = (x.1, .get x.2.2) := by
  induction l generalizing found with
  | nil => cases h
  | cons x rest ih =>
    obtain ⟨i, source, candidate⟩ := x
    unfold gatherLeftovers at h
    split at h
    · obtain ⟨y, hy, hq⟩ := ih h
      exact ⟨y, .tail _ hy, hq⟩
    · rcases List.mem_cons.mp h with rfl | h
      · exact ⟨_, .head _, rfl⟩
      · obtain ⟨y, hy, hq⟩ := ih h
        exact ⟨y, .tail _ hy, hq⟩

/-- The check for leftovers asks for listed names below the name. -/
theorem keeps_refuseLeftovers {v : Visit} (unseen : List Name)
    (hget : ∀ e ∈ v.sources, ∀ n ∈ e.2.names?.getD [], v.name.isAncestorOf n = true →
      I.allows (.get n)) : Keeps I (refuseLeftovers v unseen) := by
  unfold refuseLeftovers
  refine Keeps.journal.seq fun j => (Binder.keeps_ask fun q hq => ?_).seq fun _ => ?_
  · obtain ⟨x, hx, rfl⟩ := mem_queries_gatherLeftovers hq
    obtain ⟨e, he, hx⟩ := List.mem_flatMap.mp hx
    obtain ⟨n, hn, rfl⟩ := List.mem_map.mp hx
    obtain ⟨hlisted, hleft⟩ := List.mem_filter.mp hn
    simp only [isLeftover, Bool.and_eq_true] at hleft
    exact hget e he n hlisted hleft.1.1
  · split
    · exact .ret _
    · exact .raise _

/-- The handlers that come with binding keep the invariant if the check for leftovers does. -/
theorem Builtin.keeps {handler : Handler} {v : Visit} (h : handler.Builtin)
    (hleft : v.depth = 0 → Keeps I (refuseLeftovers v [])) : Binder.KeptByHandler I handler v := by
  induction h with
  | default =>
    exact ⟨.ret _, fun _ => .ret _, fun _ => .ret _, fun e => .raise e, fun _ => .ret _⟩
  | ignoreErrors _ ih =>
    refine ⟨ih.start, ih.success, ih.create, fun e => ?_, ih.finish⟩
    refine (ih.failure e).attempt.seq fun r => ?_
    cases r with
    | ok recovered => exact .ret _
    | error _ => exact .ret _
  | noUnbound _ ih =>
    refine ⟨ih.start, ih.success, ih.create, ih.failure, fun result => ?_⟩
    refine (ih.finish result).seq fun _ => ?_
    split
    · exact hleft ‹_›
    · exact .ret _

theorem Builtin.keeps_of_allows {handler : Handler} {v : Visit} (h : handler.Builtin)
    (hall : ∀ q, I.allows q) : Binder.KeptByHandler I handler v :=
  h.keeps fun _ => keeps_refuseLeftovers [] fun _ _ _ _ _ => hall _

end Handler

/-! ## What was cut short -/

/-- Something that went on without end was cut short. -/
def Journal.Invariant.cut : Journal.Invariant where
  holds j := j.endless.isSome = true
  allows _ := True
  tolerates _ := True
  allows_presence _ := trivial
  asked _ _ h := h
  converted _ h := h
  bound _ h := h
  whole _ h := h
  endless _ h := by rw [Option.isSome_or, h, Bool.true_or]

namespace Binder

open BindM

/-- What was cut short is in the journal to the end of the bind, by induction on the levels. -/
theorem keeps_bindAt_cut {b : Binder} (hh : b.handler.Builtin) (levels : Nat) (scope : Scope)
    (name : Name) (target : Target) (recursive create : Bool) :
    Keeps .cut (b.bindAt levels scope name target recursive create) := by
  have hv : ∀ scope name target, KeptByHandler .cut b.handler (b.visit scope name target) :=
    fun _ _ _ => hh.keeps_of_allows fun _ => trivial
  induction levels generalizing scope name target recursive create with
  | zero =>
    exact keeps_bindVisit (hv _ _ _)
      (keeps_bindShape_of_below (fun _ => trivial) (fun _ => trivial) fun f hf => by cases hf)
  | succ levels ih =>
    refine keeps_bindVisit (hv _ _ _)
      (keeps_bindShape_of_below (fun _ => trivial) (fun _ => trivial) fun f hf => ?_)
    cases hf
    exact fun inner name target recursive _ => ih inner name target recursive false

end Binder

end TypedConfig
