import TypedConfig.Proofs.Bind.Steps
import TypedConfig.Proofs.Shape.Parts

/-!
# Binding one level on top of agreeing levels below

Every step of binding reaches the next level through a `BindBelow`. If two of them agree wherever a
step calls them, the step agrees with itself over both, for each comparison (`BindM.Agree`). The two
binders may differ in whatever the step does not look at, and the two steps may stand at different
names, if the comparison relates them.

* `Binder.Alike`: binders that convert alike and read references alike.
* `Binder.SeeAlike`: binders that see the same at two names. So do binders with the same sources at
  one name (`Binder.SeeAlike.of_sources`).
* `agree_bindComposite`, `agree_bindCollection`, `agree_bindMap`: the steps for composites,
  collections and maps.
* `agree_bindShape`, `agree_bindVisit`: a name without and with its handlers, from the parts.
* `agree_bindAt`: all levels, for binders that see alike. So does a binder with itself
  (`agree_bindAt_self`).
-/

namespace TypedConfig

namespace Binder

open BindM

/-- The binders convert alike, and references and single values mean the same to both. -/
structure Alike (b c : Binder) : Prop where
  definitions : b.definitions = c.definitions
  converter : b.converter = c.converter
  pieces : b.options.pieces = c.options.pieces

variable {m : Comparison} {b c : Binder} {f g : BindBelow} {scope : Scope} {name name' : Name}
  {target : Target}

theorem Alike.resolve (h : b.Alike c) (s : Shape) : b.resolve s = c.resolve s := by
  unfold Binder.resolve; rw [h.definitions]

/-! ## Conversions -/

theorem agree_describe (h : b.Alike c) (s : Shape) : Agree m Eq (b.describe s) (c.describe s) := by
  unfold describe
  rw [h.definitions]
  split
  · exact .ret rfl
  · exact (Agree.note (m.endless .text)).seq fun _ => .ret rfl

theorem agree_setProperty {p q : Option Property} (hp : Option.Rel m.properties p q) :
    Agree m Eq (Journal.setProperty p) (Journal.setProperty q) :=
  .note (m.converted hp)

theorem agree_convertProperty (h : b.Alike c) {p q : Property} (hp : m.properties p q)
    (kind : ScalarKind) :
    Agree m Eq (b.convertProperty p kind) (c.convertProperty q kind) := by
  unfold convertProperty
  rw [h.converter, m.properties_value hp]
  cases c.converter.convert kind q.value with
  | ok v => exact (agree_setProperty (.some hp)).seq fun _ => .ret rfl
  | error e => exact .raise (m.errors_like (.conversion _ _ hp))

theorem agree_convertDefault (h : b.Alike c) {v : Value}
    (hp : m.properties ⟨name, v, none⟩ ⟨name', v, none⟩) (shape : Shape) :
    Agree m Eq (b.convertDefault name v shape) (c.convertDefault name' v shape) := by
  unfold convertDefault
  rw [h.resolve]
  split
  · rw [h.converter]
    split
    · exact .ret rfl
    · exact .raise (m.errors_like (.conversion _ _ hp))
  · exact .ret rfl

/-- The members of related names have related names. -/
theorem agree_childName (hn : m.names name name') (id : String) :
    Agree m (fun n n' => m.names n n' ∧ name.extend? (Name.dashed id) = .ok n) (childName name id)
      (childName name' id) := by
  unfold childName Name.extend?
  cases hk : Name.parse (Name.dashed id) with
  | ok k => exact .ret ⟨m.names_append hn (.parse hk), rfl⟩
  | error e => exact .raise (m.errors_like (.invalidName e))

/-! ## Composites -/

/-- The two ways down agree on the members of a composite. -/
def AgreeOnMembers (m : Comparison) (f g : BindBelow) (scope : Scope) (name : Name)
    (type : Composite Shape) : Prop :=
  ∀ id shape child child' existing, type.Member id shape →
    name.extend? (Name.dashed id) = .ok child → m.names child child' →
    Agree m Eq (f scope child ((Target.of shape).withExisting existing) false)
      (g scope child' ((Target.of shape).withExisting existing) false)

variable {type : Composite Shape}

theorem agree_bindParameters (hn : m.names name name') {params : List (Parameter Shape)}
    (hp : ∀ p ∈ params, type.Member p.name p.shape)
    (hf : AgreeOnMembers m f g scope name type) :
    Agree m Eq (bindParameters f scope name target params)
      (bindParameters g scope name' target params) := by
  induction params with
  | nil => exact .ret rfl
  | cons p rest ih =>
    have ih := ih fun q hq => hp q (List.mem_cons_of_mem _ hq)
    unfold bindParameters
    refine (agree_childName hn p.name).bind fun child child' ⟨hc, hchild⟩ => ?_
    refine (hf p.name p.shape child child' _ (hp p List.mem_cons_self) hchild hc).seq fun _ => ?_
    exact ih.seq fun _ => .ret rfl

theorem agree_buildInstance (h : b.Alike c) (hn : m.names name name') (typeName : String)
    (arguments : List Argument) (built : Fields) :
    Agree m Eq (b.buildInstance name typeName arguments built)
      (c.buildInstance name' typeName arguments built) := by
  induction arguments generalizing built with
  | nil => exact .ret rfl
  | cons arg rest ih =>
    unfold buildInstance
    split
    · exact ih _
    · exact .raise (m.errors_like (.missingParameter _ _ hn))
    · exact ih _
    · refine (agree_childName hn arg.param.name).bind fun child child' ⟨hc, _⟩ => ?_
      exact (agree_convertDefault h (m.properties_at _ hc) _).seq fun _ => ih _

theorem agree_bindThrough (h : b.Alike c) (hn : m.names name name') {ctor : Constructor Shape}
    (hc : ctor ∈ type.constructors) (hf : AgreeOnMembers m f g scope.forConstructor name type)
    (typeName : String) :
    Agree m Eq (b.bindThrough ctor f scope name target typeName)
      (c.bindThrough ctor g scope name' target typeName) := by
  unfold bindThrough
  refine (agree_bindParameters hn (fun p hp => .param hc hp) hf).seq fun arguments => ?_
  split
  · exact (agree_buildInstance h hn _ _ _).seq fun _ => .ret rfl
  · exact .ret rfl

/-- Choosing a constructor agrees with itself, and the choice is what was chosen. The choice fails
only because of constructors. -/
theorem agree_bindingConstructor (type : Composite Shape) (target : Target) (inConstructor : Bool) :
    Agree m (fun a a' => a = a' ∧ type.bindingConstructor target inConstructor = .ok a)
      (bindConstructed.liftExcept (type.bindingConstructor target inConstructor))
      (bindConstructed.liftExcept (type.bindingConstructor target inConstructor)) := by
  cases hx : type.bindingConstructor target inConstructor with
  | ok a => exact .ret ⟨rfl, rfl⟩
  | error e =>
    refine .raise ?_
    unfold Composite.bindingConstructor at hx
    split at hx
    · split at hx
      · cases hx
        exact m.errors_like (.invalidConstructor _)
      · cases hx
    · cases hx
      exact m.errors_like (.ambiguousConstructor _)
    · simp only at hx
      split at hx
      · cases hx
      · split at hx <;> cases hx

theorem agree_bindConstructed (h : b.Alike c) (hn : m.names name name')
    (hf : AgreeOnMembers m f g scope.forConstructor name type) :
    Agree m Eq (b.bindConstructed f scope name target type)
      (c.bindConstructed g scope name' target type) := by
  unfold bindConstructed
  refine (agree_bindingConstructor type target _).bind fun choice _ ⟨hc, hchoice⟩ => ?_
  subst hc
  cases choice with
  | none => exact .ret rfl
  | some ctor =>
    have hmem := (Composite.bindingConstructor_mem hchoice).1
    exact (agree_bindThrough h hn hmem hf _).andFinally (agree_setProperty .none) (.note _)

theorem mayTake_eq (h : b.Alike c) (field : Field Shape) (current : Option Value) (v : Value) :
    b.mayTake field current v = c.mayTake field current v := by
  unfold mayTake; rw [h.resolve]

theorem agree_bindFields (h : b.Alike c) (hn : m.names name name') {fields : List (Field Shape)}
    (hp : ∀ p ∈ fields, type.Member p.name p.shape)
    (hf : AgreeOnMembers m f g scope name type) (typeName : String) (built : Fields) (any : Bool) :
    Agree m Eq (b.bindFields f scope name typeName fields built any)
      (c.bindFields g scope name' typeName fields built any) := by
  induction fields generalizing built any with
  | nil => exact .ret rfl
  | cons p rest ih =>
    have ih := fun built any => ih (fun q hq => hp q (List.mem_cons_of_mem _ hq)) built any
    unfold bindFields
    refine (agree_childName hn p.name).bind fun child child' ⟨hc, hchild⟩ => ?_
    refine (hf p.name p.shape child child' _ (hp p List.mem_cons_self) hchild hc).seq fun bound => ?_
    cases bound with
    | none => exact ih _ _
    | some v =>
      simp only [mayTake_eq h, h.resolve]
      split
      · exact ih _ _
      · exact .raise (m.errors_like (.readOnlyProperty _ _ hn))

theorem agree_bindOnInstance (h : b.Alike c) (hn : m.names name name')
    (hf : AgreeOnMembers m f g scope name type) :
    Agree m Eq (b.bindOnInstance f scope name target type)
      (c.bindOnInstance g scope name' target type) := by
  unfold bindOnInstance
  split
  · exact (agree_bindFields h hn (fun p hp => .field hp) hf _ _ _).seq fun _ => .ret rfl
  · exact .ret rfl

theorem agree_assemble (h : b.Alike c) (hn : m.names name name')
    (hf : AgreeOnMembers m f g scope name type)
    (hc : AgreeOnMembers m f g scope.forConstructor name type) :
    Agree m Eq (b.assemble f scope name target type) (c.assemble g scope name' target type) := by
  unfold assemble
  split
  · exact agree_bindConstructed h hn hc
  · exact agree_bindOnInstance h hn hf
  · refine (agree_bindConstructed h hn hc).seq fun built => ?_
    cases built with
    | some v => exact .ret rfl
    | none => exact agree_bindOnInstance h hn hf

/-- The two ways one level down, of which both may be closed. Nothing is asked of the second where the
comparison excuses that the first is. -/
inductive Descent (m : Comparison) (b c : Binder) (R : BindBelow → BindBelow → Prop) :
    Option BindBelow → Option BindBelow → Prop
  | none (h : b.options.maxDepth = c.options.maxDepth) : Descent m b c R none none
  | some {f g : BindBelow} (h : R f g) : Descent m b c R (some f) (some g)
  | excused (h : ∀ n, m.excuses (.depthExceeded n b.options.maxDepth)) (below : Option BindBelow) :
      Descent m b c R none below

theorem Descent.mono {R R' : BindBelow → BindBelow → Prop} {below below' : Option BindBelow}
    (h : Descent m b c R below below') (hR : ∀ f g, R f g → R' f g) :
    Descent m b c R' below below' := by
  cases h with
  | none h => exact .none h
  | some h => exact .some (hR _ _ h)
  | excused h _ => exact .excused h _

theorem agree_enter (hn : m.names name name') {R : BindBelow → BindBelow → Prop}
    {below below' : Option BindBelow} (hb : Descent m b c R below below') :
    Agree m R (b.enter below name) (c.enter below' name') := by
  cases hb with
  | none h =>
    unfold enter
    rw [h]
    exact .raise (m.errors_like (.depthExceeded _ hn))
  | some hR => exact .ret hR
  | excused h _ => exact .of_excused fun _ => ⟨_, h name, rfl⟩

/-- A composite agrees with itself if its members do. -/
theorem agree_bindComposite (h : b.Alike c) (hn : m.names name name')
    {below below' : Option BindBelow}
    (hb : Descent m b c (fun f g => AgreeOnMembers m f g (scope.within type.typeName) name type ∧
      AgreeOnMembers m f g (scope.within type.typeName).forConstructor name type) below below')
    (hs : Agree m Eq (b.somethingBelow scope name) (c.somethingBelow scope name'))
    (recursive : Bool) :
    Agree m Eq (b.bindComposite below scope name target type recursive)
      (c.bindComposite below' scope name' target type recursive) := by
  unfold bindComposite
  have hguard : ∀ again : Bool,
      Agree m Eq (if again then b.somethingBelow scope name else pure true)
        (if again then c.somethingBelow scope name' else pure true) := by
    intro again
    cases again
    · exact .ret rfl
    · exact hs
  refine (hguard _).seq fun goesOn => ?_
  split
  · exact (agree_enter hn hb).bind fun f g hfg => agree_assemble h hn hfg.1 hfg.2
  · exact .ret rfl

/-! ## Maps -/

/-- Two listed names belong to entries at related names, and with the same key. -/
structure EntriesAlike (m : Comparison) (root root' : Name) (value : Shape)
    (candidate candidate' : Name) : Prop where
  names : m.names (entryName root candidate value) (entryName root' candidate' value)
  keys : entryKey root (entryName root candidate value) =
    entryKey root' (entryName root' candidate' value)

/-- Two maps have the same entries so far, which were looked for at related names. -/
structure GatheredAlike (m : Comparison) (g g' : Gathered) : Prop where
  seen : List.Forall₂ m.names g.seen g'.seen
  entries : g.entries = g'.entries

theorem contains_eq {seen seen' : List Name} (h : List.Forall₂ m.names seen seen')
    (hn : m.names name name') : seen.contains name = seen'.contains name' := by
  induction h with
  | nil => rfl
  | cons hk _ ih => rw [List.contains_cons, List.contains_cons, m.names_beq hn hk, ih]

theorem agree_bindEntries (h : b.Alike c) {root root' : Name} {key : ScalarKind} {value : Shape}
    {candidates candidates' : List Name}
    (hc : List.Forall₂ (EntriesAlike m root root' value) candidates candidates')
    (hf : ∀ entry entry', m.names entry entry' → Agree m Eq (f scope entry (.of value) true)
      (g scope entry' (.of value) true)) {so so' : Gathered} (hso : GatheredAlike m so so') :
    Agree m (GatheredAlike m) (b.bindEntries f scope root key value candidates so)
      (c.bindEntries g scope root' key value candidates' so') := by
  induction hc generalizing so so' with
  | nil => exact .ret hso
  | cons hcandidate _ ih =>
    unfold bindEntries
    simp only [contains_eq hso.seen hcandidate.names, hcandidate.keys, hso.entries]
    have hseen := List.Forall₂.cons hcandidate.names hso.seen
    split
    · exact ih hso
    · refine (agree_convertProperty h (m.properties_at _ hcandidate.names) key).seq
        fun converted => ?_
      split
      · exact ih ⟨hseen, rfl⟩
      · split
        · exact ih ⟨hseen, rfl⟩
        · exact (hf _ _ hcandidate.names).seq fun _ => ih ⟨hseen, rfl⟩

theorem agree_convertEntries (h : b.Alike c) {p q : Property} (hp : m.properties p q)
    (key : ScalarKind) (value : Shape) (entries converted : Fields) :
    Agree m Eq (b.convertEntries p key value entries converted)
      (c.convertEntries q key value entries converted) := by
  induction entries generalizing converted with
  | nil => exact .ret rfl
  | cons entry rest ih =>
    obtain ⟨k, v⟩ := entry
    unfold convertEntries
    refine (agree_convertProperty h (m.properties_withValue _ hp) key).seq fun _ => ?_
    simp only
    split
    · exact (agree_convertProperty h (m.properties_withValue _ hp) _).seq fun _ => ih _
    · exact Agree.seq (.ret rfl) fun _ => ih _

/-- A map value agrees with itself, wherever it was found. -/
theorem agree_bindMapValue (h : b.Alike c) {p q : Property} (hp : m.properties p q)
    (key : ScalarKind) (value : Shape) :
    Agree m Eq (b.bindMapValue p key value) (c.bindMapValue q key value) := by
  unfold bindMapValue
  rw [m.properties_value hp]
  split
  · refine (agree_convertEntries h hp key value _ _).seq fun _ => ?_
    exact (agree_setProperty (.some hp)).seq fun _ => .ret rfl
  · exact (agree_describe h _).seq fun _ => .raise (m.errors_like (.conversion _ _ hp))

/-! ## What the sources in sight say -/

/-- The two sources say the same of the items at two names, and of the property there. -/
structure ListItemsAlike (m : Comparison) (i : Nat) (s s' : Source) (n n' : Name) : Prop where
  get : Agree m (Option.Rel m.properties) (getFrom i s n) (getFrom i s' n')
  iterable : s.isIterable = s'.isIterable
  reach : s.names? = none → s.reach = s'.reach
  positions : s.names?.map (·.filterMap n.positionIn?) = s'.names?.map (·.filterMap n'.positionIn?)
  refused : ∀ positions, Agree m Eq (refuseItems i s n positions) (refuseItems i s' n' positions)

/-- They say the same of the entries of maps there, too. -/
structure AgreeOnSources (m : Comparison) (i : Nat) (s s' : Source) (n n' : Name) : Prop extends
    ListItemsAlike m i s s' n n' where
  listed : ∀ value, List.Forall₂ (EntriesAlike m n n' value)
    ((s.names?.getD []).filter n.isAncestorOf) ((s'.names?.getD []).filter n'.isAncestorOf)

/-- The two binders see the same at two names, whichever sources are in sight. -/
structure SeeAlike (m : Comparison) (b c : Binder) (n n' : Name) : Prop where
  lookUp : ∀ scope, Agree m (Option.Rel m.properties) (b.lookUp scope n) (c.lookUp scope n')
  nothingBelow : ∀ scope, Agree m Eq (b.nothingBelow scope n) (c.nothingBelow scope n')
  somethingBelow : ∀ scope, Agree m Eq (b.somethingBelow scope n) (c.somethingBelow scope n')
  sources : ∀ scope, List.Forall₂ (fun e e' => e.1 = e'.1 ∧ AgreeOnSources m e.1 e.2 e'.2 n n')
    (b.visible scope) (c.visible scope)

theorem SeeAlike.items (h : SeeAlike m b c name name') (scope : Scope) :
    List.Forall₂ (fun e e' => e.1 = e'.1 ∧ ListItemsAlike m e.1 e.2 e'.2 name name')
      (b.visible scope) (c.visible scope) :=
  (h.sources scope).imp fun _ _ he => ⟨he.1, he.2.toListItemsAlike⟩

/-! ### The same sources -/

/-- Binders with the same sources see the same of them. -/
theorem visible_eq (hs : b.sources = c.sources) (scope : Scope) :
    b.visible scope = c.visible scope := by
  unfold visible; rw [hs]

theorem isNone_eq_of_rel {α β : Type} {R : α → β → Prop} {x : Option α} {y : Option β}
    (h : Option.Rel R x y) : x.isNone = y.isNone := by
  cases h <;> rfl

theorem eq_of_rel {α : Type} {x y : Option α} (h : Option.Rel Eq x y) : x = y := by
  cases h with
  | none => rfl
  | some h => rw [h]

theorem rel_refl (p : Option Property) : Option.Rel m.properties p p := by
  cases p with
  | none => exact .none
  | some p => exact .some (m.properties_refl p)

theorem agree_ask (queries : List (Nat × Query)) :
    Agree m Eq (Journal.ask queries) (Journal.ask queries) :=
  .note (m.asked queries.reverse)

/-- A source says the same as itself, if errors and the names of entries are related to
themselves. -/
theorem AgreeOnSources.refl {i : Nat} {s : Source}
    (hnames : ∀ value, ∀ n ∈ s.names?.getD [], m.names (entryName name n value)
      (entryName name n value)) (herrors : ∀ e, m.errors e e) :
    AgreeOnSources m i s s name name where
  get := (agree_ask _).seq fun _ => .ret (rel_refl _)
  iterable := rfl
  reach _ := rfl
  positions := rfl
  refused _ := (agree_ask _).seq fun _ => .raise (herrors _)
  listed value := List.forall₂_same.mpr fun n hn =>
    ⟨hnames value n (List.mem_filter.mp hn).1, rfl⟩

/-- Binders with the same sources see alike. -/
theorem SeeAlike.of_sources (hs : b.sources = c.sources)
    (hnames : ∀ value, ∀ s ∈ b.sources, ∀ n ∈ s.names?.getD [],
      m.names (entryName name n value) (entryName name n value))
    (herrors : ∀ e, m.errors e e) : SeeAlike m b c name name where
  lookUp scope := by
    unfold Binder.lookUp
    rw [visible_eq hs]
    exact (agree_ask _).seq fun _ => .ret (rel_refl _)
  nothingBelow scope := by
    unfold Binder.nothingBelow
    rw [visible_eq hs]
    exact (agree_ask _).seq fun _ => .ret rfl
  somethingBelow scope := by
    unfold Binder.somethingBelow
    rw [visible_eq hs]
    exact (agree_ask _).seq fun _ => .ret rfl
  sources scope := by
    rw [← visible_eq hs]
    refine List.forall₂_same.mpr fun e he => ⟨rfl, .refl (fun value => ?_) herrors⟩
    exact hnames value e.2 (mem_sources_of_mem_visible he)

/-- A binder sees the same as itself. -/
theorem seeAlike_self (b : Binder) (name : Name) : SeeAlike .whereFirstEnds b b name name :=
  .of_sources rfl (fun _ _ _ _ _ => rfl) fun _ => trivial

/-! ### Collections -/

/-- The two ways down agree on the items of a collection, in every source. -/
def AgreeOnItems (m : Comparison) (f g : BindBelow) (scope : Scope) (name name' : Name)
    (element : Shape) : Prop :=
  ∀ (i position : Nat) (recursive : Bool),
    Agree m Eq (f (scope.restrictedTo i) (name.item (toString position)) (.of element) recursive)
      (g (scope.restrictedTo i) (name'.item (toString position)) (.of element) recursive)

variable {element : Shape}

theorem agree_bindItems {bindItem bindItem' : Nat → BindM (Option Value)}
    (hi : ∀ position, Agree m Eq (bindItem position) (bindItem' position))
    (worthTrying : Nat → Bool) (steps position : Nat) :
    Agree m Eq (bindItems bindItem worthTrying steps position)
      (bindItems bindItem' worthTrying steps position) := by
  induction steps generalizing position with
  | zero => exact Agree.seq (.note (m.endless .items)) fun _ => .ret rfl
  | succ steps ih =>
    unfold bindItems
    split
    · refine (hi position).seq fun bound => ?_
      cases bound with
      | some v => exact (ih _).seq fun _ => .ret rfl
      | none => exact .ret rfl
    · exact .ret rfl

theorem agree_bindFrom (hh : b.handler.reach = c.handler.reach) {i : Nat} {source source' : Source}
    (hs : ListItemsAlike m i source source' name name')
    (hf : AgreeOnItems m f g scope name name' element) (start : Nat) :
    Agree m Eq (b.bindFrom f scope name element i source start)
      (c.bindFrom g scope name' element i source' start) := by
  have hlisted : source.names?.map (listedPositions name start) =
      source'.names?.map (listedPositions name' start) := by
    have := congrArg (Option.map fun ps => ps.filter (start ≤ ·)) hs.positions
    rw [Option.map_map, Option.map_map] at this
    exact this
  have hlimit : b.itemLimit source start (source.names?.map (listedPositions name start)) =
      c.itemLimit source' start (source'.names?.map (listedPositions name' start)) := by
    rw [← hlisted]
    unfold itemLimit
    cases hnames : source.names? with
    | none => simp only [Option.map_none, hs.reach hnames, hh]
    | some names => rfl
  unfold bindFrom
  dsimp only
  rw [hlimit, hlisted, hs.iterable]
  refine (agree_bindItems (fun position => hf i position _) _ _ _).seq fun values => ?_
  split
  · exact .ret rfl
  · exact hs.refused _

theorem agree_bindFromAll (hh : b.handler.reach = c.handler.reach)
    (hf : AgreeOnItems m f g scope name name' element) (direct : Bool)
    {sources sources' : List (Nat × Source)}
    (hs : List.Forall₂ (fun e e' => e.1 = e'.1 ∧ ListItemsAlike m e.1 e.2 e'.2 name name')
      sources sources') (values : List Value) {single single' : Option Property}
    (hsingle : Option.Rel m.properties single single') :
    Agree m (fun r r' => r.1 = r'.1 ∧ Option.Rel m.properties r.2 r'.2)
      (b.bindFromAll f scope name element direct sources values single)
      (c.bindFromAll g scope name' element direct sources' values single') := by
  induction hs generalizing values single single' with
  | nil => exact .ret ⟨rfl, hsingle⟩
  | @cons entry entry' rest rest' he _ ih =>
    obtain ⟨i, source⟩ := entry
    obtain ⟨i', source'⟩ := entry'
    obtain ⟨hi, hsource⟩ := he
    cases hi
    unfold bindFromAll
    simp only
    have hrest : ∀ single single', Option.Rel m.properties single single' →
        Agree m (fun r r' => r.1 = r'.1 ∧ Option.Rel m.properties r.2 r'.2)
          (do b.bindFromAll f scope name element direct rest
                (values ++ (← b.bindFrom f scope name element i source values.length)) single)
          (do c.bindFromAll g scope name' element direct rest'
                (values ++ (← c.bindFrom g scope name' element i source' values.length)) single') :=
      fun _ _ h => (agree_bindFrom hh hsource hf _).seq fun _ => ih _ h
    rw [isNone_eq_of_rel hsingle]
    split
    · exact hsource.get.bind hrest
    · exact Agree.bind (.ret hsingle) hrest

theorem agree_convertPieces (h : b.Alike c) {p q : Property} (hp : m.properties p q)
    (kind : ScalarKind) (pieces : List Value) :
    Agree m Eq (b.convertPieces p kind pieces) (c.convertPieces q kind pieces) := by
  induction pieces with
  | nil => exact .ret rfl
  | cons piece rest ih =>
    unfold convertPieces
    refine (agree_convertProperty h (m.properties_withValue _ hp) kind).seq fun _ => ?_
    exact ih.seq fun _ => .ret rfl

theorem agree_splitValue (h : b.Alike c) {p q : Property} (hp : m.properties p q)
    (element : Shape) : Agree m Eq (b.splitValue p element) (c.splitValue q element) := by
  unfold splitValue
  rw [h.resolve, h.pieces, m.properties_value hp]
  split
  · split
    · exact agree_convertPieces h hp _ _
    · exact (agree_describe h _).seq fun _ => .raise (m.errors_like (.conversion _ _ hp))
  · exact (agree_describe h _).seq fun _ => .raise (m.errors_like (.conversion _ _ hp))

theorem agree_bindElements (h : b.Alike c) (hn : m.names name name')
    (hh : b.handler.reach = c.handler.reach) (kind : CollectionKind)
    (hs : List.Forall₂ (fun e e' => e.1 = e'.1 ∧ ListItemsAlike m e.1 e.2 e'.2 name name')
      (b.visible scope) (c.visible scope)) (hf : AgreeOnItems m f g scope name name' element) :
    Agree m Eq (b.bindElements kind f scope name target element)
      (c.bindElements kind g scope name' target element) := by
  unfold bindElements
  rw [m.names_isEmpty hn]
  refine (agree_bindFromAll hh hf _ hs _ .none).bind fun r r' hr => ?_
  obtain ⟨values, single⟩ := r
  obtain ⟨values', single'⟩ := r'
  obtain ⟨hvalues, hsingle⟩ := hr
  simp only at hvalues hsingle
  subst hvalues
  simp only
  split
  · cases hsingle with
    | some hp => exact (agree_splitValue h hp _).seq fun _ => .ret rfl
    | none => exact .ret rfl
  · exact .ret rfl

/-- A collection agrees with itself if its items do. -/
theorem agree_bindCollection (h : b.Alike c) (hn : m.names name name')
    (hh : b.handler.reach = c.handler.reach) (kind : CollectionKind)
    (hs : List.Forall₂ (fun e e' => e.1 = e'.1 ∧ ListItemsAlike m e.1 e.2 e'.2 name name')
      (b.visible scope.deeper) (c.visible scope.deeper))
    (hf : AgreeOnItems m f g scope.deeper name name' element) :
    Agree m Eq (b.bindCollection kind f scope name target element)
      (c.bindCollection kind g scope name' target element) := by
  unfold bindCollection
  refine (agree_bindElements h hn hh kind hs hf).seq fun bound => ?_
  split
  · exact .ret rfl
  · exact .ret rfl
  · exact Agree.seq (.note (m.whole hn)) fun _ => .ret rfl
  · exact .ret rfl

/-! ### Maps -/

theorem agree_bindMapFrom (h : b.Alike c) {key : ScalarKind} {value : Shape}
    (hf : ∀ entry entry', m.names entry entry' → Agree m Eq (f scope entry (.of value) true)
      (g scope entry' (.of value) true)) (direct : Bool) {sources sources' : List (Nat × Source)}
    (hs : List.Forall₂ (fun e e' => e.1 = e'.1 ∧ AgreeOnSources m e.1 e.2 e'.2 name name')
      sources sources') {so so' : Gathered} (hso : GatheredAlike m so so') :
    Agree m Eq (b.bindMapFrom f scope name key value direct sources so)
      (c.bindMapFrom g scope name' key value direct sources' so') := by
  induction hs generalizing so so' with
  | nil =>
    unfold bindMapFrom
    rw [hso.entries]
    exact .ret rfl
  | @cons entry entry' rest rest' he _ ih =>
    obtain ⟨i, source⟩ := entry
    obtain ⟨i', source'⟩ := entry'
    obtain ⟨hi, hsource⟩ := he
    cases hi
    unfold bindMapFrom
    cases direct with
    | false =>
      refine Agree.bind (V := fun p q => p = none ∧ q = none) (.ret ⟨rfl, rfl⟩) fun _ _ hnone => ?_
      obtain ⟨rfl, rfl⟩ := hnone
      exact (agree_bindEntries h (hsource.listed value) hf hso).bind fun _ _ hso => ih hso
    | true =>
      refine hsource.get.bind fun _ _ hrel => ?_
      cases hrel with
      | some hp => exact (agree_bindMapValue h hp key _).seq fun _ => .ret rfl
      | none => exact (agree_bindEntries h (hsource.listed value) hf hso).bind fun _ _ hso => ih hso

/-- A map agrees with itself if its entries do, at all related names. -/
theorem agree_bindMap (h : b.Alike c) (hn : m.names name name')
    (hsee : SeeAlike m b c name name') {key : ScalarKind} {value : Shape}
    (hf : ∀ entry entry', m.names entry entry' →
      Agree m Eq (f scope.deeper entry (.of (b.resolve value)) true)
        (g scope.deeper entry' (.of (b.resolve value)) true)) :
    Agree m Eq (b.bindMap f scope name target key value)
      (c.bindMap g scope name' target key value) := by
  unfold bindMap
  refine (hsee.somethingBelow _).seq fun nested => ?_
  rw [← h.resolve, m.names_isEmpty hn]
  refine (agree_bindMapFrom h hf _ (hsee.sources _) ⟨.nil, rfl⟩).seq fun bound => ?_
  split <;> exact .ret rfl

/-! ## Names -/

variable {below below' : Option BindBelow} {recursive : Bool}

theorem agree_directProperty (hn : m.names name name')
    (hl : Agree m (Option.Rel m.properties) (b.lookUp scope name) (c.lookUp scope name')) :
    Agree m (Option.Rel m.properties) (b.directProperty scope name target)
      (c.directProperty scope name' target) := by
  unfold directProperty
  rw [m.names_isEmpty hn]
  split
  · exact .ret .none
  · exact hl

/-- A name that is not passed over agrees with itself if its aggregates and composites do. -/
theorem agree_bindForm (h : b.Alike c) {property property' : Option Property}
    (hp : Option.Rel m.properties property property')
    (hcollection : ∀ kind element, (b.resolve target.shape).collection? = some (kind, element) →
      Agree m Eq (do b.bindCollection kind (← b.enter below name) scope name target element)
        (do c.bindCollection kind (← c.enter below' name') scope name' target element))
    (hmap : ∀ key value, b.resolve target.shape = .map key value →
      Agree m Eq (do b.bindMap (← b.enter below name) scope name target key value)
        (do c.bindMap (← c.enter below' name') scope name' target key value))
    (hcomposite : ∀ type, b.resolve target.shape = .composite type →
      Agree m Eq (b.bindComposite below scope name target type recursive)
        (c.bindComposite below' scope name' target type recursive)) :
    Agree m Eq (b.bindForm below scope name target recursive property)
      (c.bindForm below' scope name' target recursive property') := by
  unfold bindForm
  rw [← h.resolve]
  cases hs : b.resolve target.shape with
  | scalar kind =>
    cases hp with
    | none => exact .ret rfl
    | some hp => exact (agree_convertProperty h hp kind).seq fun _ => .ret rfl
  | array element => exact hcollection _ _ (by rw [hs]; rfl)
  | list element => exact hcollection _ _ (by rw [hs]; rfl)
  | set element => exact hcollection _ _ (by rw [hs]; rfl)
  | map key value => exact hmap _ _ hs
  | ref r => exact .ret rfl
  | composite type =>
    simp only [bindCompositeOver]
    refine (hcomposite type hs).seq fun bound => ?_
    cases bound with
    | some v => exact .ret rfl
    | none =>
      cases hp with
      | none => exact .ret rfl
      | some hp => exact .raise (m.errors_like (.conversion _ _ hp))

/-- A name agrees with itself if what it finds does, and what its shape makes of that. -/
theorem agree_bindShape (hn : m.names name name') (hprunes : b.prunes = c.prunes)
    (hl : Agree m (Option.Rel m.properties) (b.lookUp scope name) (c.lookUp scope name'))
    (hb : Agree m Eq (b.nothingBelow scope name) (c.nothingBelow scope name'))
    (hform : ∀ property property', Option.Rel m.properties property property' →
      Agree m Eq (b.bindForm below scope name target recursive property)
        (c.bindForm below' scope name' target recursive property')) :
    Agree m Eq (b.bindShape below scope name target recursive)
      (c.bindShape below' scope name' target recursive) := by
  rw [bindShape_eq, bindShape_eq]
  refine (agree_directProperty hn hl).bind fun property property' hp => ?_
  have hpass : Agree m Eq (b.passesOver scope name property)
      (c.passesOver scope name' property') := by
    unfold passesOver
    rw [hprunes, isNone_eq_of_rel hp]
    split
    · exact hb
    · exact .ret rfl
  refine hpass.seq fun passed => ?_
  split
  · exact .ret rfl
  · exact hform _ _ hp

/-- The two ways down agree at related names one level deeper. There a value right at the name
counts. -/
def AgreeBelow (m : Comparison) (f g : BindBelow) (scope : Scope) : Prop :=
  ∀ inner name name' target recursive, inner.depth = scope.depth + 1 →
    target.nestedOnly = false → m.names name name' →
      Agree m Eq (f inner name target recursive) (g inner name' target recursive)

/-- Binders that see alike agree on a name that is not passed over, if they agree one level deeper. -/
theorem agree_bindForm_of_seeAlike (h : b.Alike c) (hn : m.names name name')
    (hsee : SeeAlike m b c name name') (hh : b.handler.reach = c.handler.reach)
    (hb : Descent m b c (AgreeBelow m · · scope) below below') {property property' : Option Property}
    (hp : Option.Rel m.properties property property') :
    Agree m Eq (b.bindForm below scope name target recursive property)
      (c.bindForm below' scope name' target recursive property') := by
  refine agree_bindForm h hp (fun kind element _ => ?_) (fun key value _ => ?_) (fun type _ => ?_)
  · exact (agree_enter hn hb).bind fun f g hfg =>
      agree_bindCollection h hn hh kind (hsee.items _) fun i position recursive =>
        hfg _ _ _ _ recursive rfl rfl (m.names_item hn _)
  · exact (agree_enter hn hb).bind fun f g hfg =>
      agree_bindMap h hn hsee fun entry entry' hentry => hfg _ _ _ _ true rfl rfl hentry
  · refine agree_bindComposite h hn ?_ (hsee.somethingBelow _) recursive
    exact hb.mono fun f g hfg => ⟨fun _ _ _ _ _ _ _ hc => hfg _ _ _ _ _ rfl (by simp) hc,
      fun _ _ _ _ _ _ _ hc => hfg _ _ _ _ _ rfl (by simp) hc⟩

/-- Binders that see alike agree on a name if they agree one level deeper. -/
theorem agree_bindShape_of_seeAlike (h : b.Alike c) (hn : m.names name name')
    (hsee : SeeAlike m b c name name') (hprunes : b.prunes = c.prunes)
    (hh : b.handler.reach = c.handler.reach)
    (hb : Descent m b c (AgreeBelow m · · scope) below below') :
    Agree m Eq (b.bindShape below scope name target recursive)
      (c.bindShape below' scope name' target recursive) :=
  agree_bindShape hn hprunes (hsee.lookUp _) (hsee.nothingBelow _) fun _ _ hp =>
    agree_bindForm_of_seeAlike h hn hsee hh hb hp

/-! ## Creation -/

theorem agree_constructFresh (h : b.Alike c) (params : List (Parameter Shape)) (built : Fields) :
    Agree m Eq (b.constructFresh params built) (c.constructFresh params built) := by
  induction params generalizing built with
  | nil => exact .ret rfl
  | cons p rest ih =>
    unfold constructFresh
    split
    · exact .ret rfl
    · exact ih _
    · exact (agree_convertDefault h (m.properties_refl _) _).seq fun _ => ih _

theorem agree_createConstructed (h : b.Alike c) :
    Agree m Eq (b.createConstructed scope target type) (c.createConstructed scope target type) := by
  unfold createConstructed
  refine (agree_bindingConstructor type target _).bind fun choice _ ⟨hc, _⟩ => ?_
  subst hc
  cases choice with
  | none => exact .ret rfl
  | some ctor => exact agree_constructFresh h _ _

theorem agree_createComposite (h : b.Alike c) :
    Agree m Eq (b.createComposite scope target type) (c.createComposite scope target type) := by
  unfold createComposite
  split
  · exact agree_createConstructed h
  · exact .ret rfl
  · exact (agree_createConstructed h).seq fun _ => .ret rfl

theorem agree_create (h : b.Alike c) :
    Agree m Eq (b.create scope target) (c.create scope target) := by
  unfold create
  rw [h.resolve]
  cases target.existing? with
  | some v => exact .ret rfl
  | none =>
    cases c.resolve target.shape with
    | array _ | list _ | set _ | map _ _ => exact .ret rfl
    | scalar _ | ref _ =>
      exact (agree_describe h _).seq fun _ => .raise (m.errors_like (.uncreatable _))
    | composite type =>
      refine (agree_createComposite h).seq fun fields => ?_
      cases fields with
      | none => exact .raise (m.errors_like (.uncreatable _))
      | some fields => exact .ret rfl

/-! ## Handlers -/

/-- The handlers of two visits agree on whether to bind the name, and on its value. -/
structure AgreeOnValues (m : Comparison) (h h' : Handler) (v v' : Visit) : Prop where
  start : Agree m Eq (h.onStart v) (h'.onStart v')
  success : ∀ value, Agree m Eq (h.onSuccess v value) (h'.onSuccess v' value)
  create : ∀ value, Agree m Eq (h.onCreate v value) (h'.onCreate v' value)

/-- The handlers of two visits agree in all that they decide. Of a failure that is excused, the first
handler makes one that is. -/
structure AgreeOnVisits (m : Comparison) (h h' : Handler) (v v' : Visit) : Prop extends
    AgreeOnValues m h h' v v' where
  failure : ∀ e e', m.errors e e' → Agree m Eq (h.onFailure v e) (h'.onFailure v' e')
  finish : ∀ result, Agree m Eq (h.onFinish v result []) (h'.onFinish v' result [])
  excused : ∀ e, m.excuses e → Excused m (h.onFailure v e)

/-- The handler that lets everything pass agrees with itself. -/
theorem AgreeOnVisits.default (v v' : Visit) : AgreeOnVisits m .default .default v v' where
  start := .ret rfl
  success _ := .ret rfl
  create _ := .ret rfl
  failure _ _ h := .raise h
  finish _ := .ret rfl
  excused e h _ := ⟨e, h, rfl⟩

/-- What becomes of the value of a name, or of its absence. -/
def settle (b : Binder) (scope : Scope) (name : Name) (target : Target) (create : Bool)
    (bound : Option Value) : BindM (Option Value) := do
  let v := b.visit scope name target
  match bound with
  | some value =>
    Journal.noteBound name
    return some (← b.handler.onSuccess v value)
  | none =>
    if create then return some (← b.handler.onCreate v (← b.create scope target)) else return none

/-- A name with its handlers agrees with itself if it does without them. -/
theorem agree_bindHandled (h : b.Alike c) (hn : m.names name name') {create : Bool}
    (hv : AgreeOnValues m b.handler c.handler (b.visit scope name target)
      (c.visit scope name' target))
    (hs : Agree m Eq (b.bindShape below scope name target recursive)
      (c.bindShape below' scope name' target recursive)) :
    Agree m Eq (b.bindHandled below scope name target recursive create)
      (c.bindHandled below' scope name' target recursive create) := by
  unfold bindHandled
  refine hv.start.seq fun starts => ?_
  simp only
  have hrest : ∀ bound : Option Value, Agree m Eq
      (b.settle scope name target create bound) (c.settle scope name' target create bound) := by
    intro bound
    unfold settle
    cases bound with
    | some value =>
      exact Agree.seq (.note (m.bound hn)) fun _ => (hv.success value).seq fun _ => .ret rfl
    | none =>
      cases create
      · exact .ret rfl
      · exact (agree_create h).seq fun v => (hv.create v).seq fun _ => .ret rfl
  cases starts
  · exact Agree.seq (.ret rfl) hrest
  · exact hs.seq hrest

theorem agree_bindVisit (h : b.Alike c) (hn : m.names name name') {create : Bool}
    (hv : AgreeOnVisits m b.handler c.handler (b.visit scope name target)
      (c.visit scope name' target))
    (hs : Agree m Eq (b.bindShape below scope name target recursive)
      (c.bindShape below' scope name' target recursive)) :
    Agree m Eq (b.bindVisit below scope name target recursive create)
      (c.bindVisit below' scope name' target recursive create) := by
  unfold bindVisit
  refine (agree_bindHandled h hn hv.toAgreeOnValues hs).attempt_bind (fun r _ hr => ?_)
    (fun e e' he => (agree_setProperty .none).seq fun _ => hv.failure e e' he)
    fun e he j => hv.excused e he { j with property := none }
  subst hr
  exact (hv.finish _).seq fun _ => .ret rfl

/-- Binders that see alike agree at all related names, by induction on the levels below. -/
theorem agree_bindAt (h : b.Alike c) (hprunes : b.prunes = c.prunes)
    (hdepth : b.options.maxDepth = c.options.maxDepth) (hh : b.handler.reach = c.handler.reach)
    (hsee : ∀ {n n'}, m.names n n' → SeeAlike m b c n n')
    (hv : ∀ scope n n' target, m.names n n' → AgreeOnVisits m b.handler c.handler
      (b.visit scope n target) (c.visit scope n' target))
    (levels : Nat) (scope : Scope) (hn : m.names name name') (target : Target)
    (recursive create : Bool) :
    Agree m Eq (b.bindAt levels scope name target recursive create)
      (c.bindAt levels scope name' target recursive create) := by
  induction levels generalizing scope name name' target recursive create with
  | zero =>
    exact agree_bindVisit h hn (hv _ _ _ _ hn)
      (agree_bindShape_of_seeAlike h hn (hsee hn) hprunes hh (.none hdepth))
  | succ levels ih =>
    refine agree_bindVisit h hn (hv _ _ _ _ hn)
      (agree_bindShape_of_seeAlike h hn (hsee hn) hprunes hh (.some ?_))
    exact fun inner n n' target recursive _ _ hn => ih inner hn target recursive false

/-- A binder without handlers that ends well does so again, with the same value, whatever was noted
before. -/
theorem agree_bindAt_self (hh : b.handler = .default) (levels : Nat) (scope : Scope) (name : Name)
    (target : Target) (recursive create : Bool) :
    Agree .whereFirstEnds Eq (b.bindAt levels scope name target recursive create)
      (b.bindAt levels scope name target recursive create) := by
  refine agree_bindAt ⟨rfl, rfl, rfl⟩ rfl rfl rfl (fun hn => ?_) (fun _ _ _ _ _ => ?_) levels scope rfl
    target recursive create
  · cases hn
    exact seeAlike_self b _
  · rw [hh]
    exact .default _ _

end Binder

end TypedConfig
