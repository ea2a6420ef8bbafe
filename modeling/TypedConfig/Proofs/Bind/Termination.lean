import TypedConfig.Proofs.Bind.Items
import TypedConfig.Proofs.Bind.Recovery
import TypedConfig.Proofs.Bind.Traced
import TypedConfig.Proofs.Source.Reach

/-!
# Where binding ends

Binding takes a level with each aggregate and composite, and there are only so many. Two things might
still go on without end. One is a source that does not list its names: its items are read one by one up
to the first that binds nothing, and handlers may make a value of each. The other is a message, which
may show a collection that has itself inside. The journal says if one of the two was cut short.

* `Binder.bindItems_more`: the bound on the steps is not seen unless the journal says so, and it says
  so to the end.
* `Binder.keeps_bindItems_of_end`: the items end at a position from which on none is bound.
* `Binder.EndsBelow`: the way down ends. So does each way of binding, one level up.
* `Binder.bindRoot_ends`: so does a whole bind, where items and texts end. Without handlers they do for
  a collection of scalars (`Binder.bindRoot_scalars_ends`).
* `Binder.bindRoot_returns`: nothing goes on without end unless failures are recovered from, with what
  a default instance holds, at items of a source that does not tell where they end
  (`Binder.ItemsEnd`), or a text has no end; and no name lies too deep.
* `Binder.goes_on_without_end`: both things that might go on do.
-/

namespace TypedConfig

/-- Nothing went on without end. -/
def Journal.Invariant.ending : Journal.Invariant where
  holds j := j.endless = none
  allows _ := True
  tolerates _ := False
  allows_presence _ := trivial
  asked _ _ h := h
  converted _ h := h
  bound _ h := h
  whole _ h := h
  endless h := h.elim

namespace Binder

open BindM

variable {b : Binder} {scope : Scope} {name : Name} {target : Target} {recursive : Bool}
  {f : BindBelow} {below : Option BindBelow}

/-- The items of the source end: it lists its names, or it denies that there is anything below a name
where it has nothing, so that binding passes over such items. -/
def KnowsEnd (b : Binder) (s : Source) : Prop :=
  s.names?.isSome = true ∨
    b.prunes = true ∧ ∀ n : Name, n.Built → s.BarrenAt n → s.presence n = .absent

/-- The items in the shape end, where a source has none: failures are not recovered from, or the
sources tell, or no default instance has anything to recover with. -/
def ItemsEnd (b : Binder) (shape : Shape) : Prop :=
  b.handler.Unforgiving ∨ (∀ s ∈ b.sources, b.KnowsEnd s) ∨
    shape.AllComposites b.definitions (Composite.FlatDefault b.definitions)

/-- Entries deny that there is anything where they have nothing, also if they are not listed. -/
theorem knowsEnd_unlisted (hp : b.prunes = true) (label : String) {held : Entries} (h : held.Built) :
    b.KnowsEnd (.unlisted (.entries label held)) := by
  refine .inr ⟨hp, fun n _ hbarren => ?_⟩
  refine Presence.ofBool_eq_absent.mpr (List.any_eq_false.mpr fun k hk hanc => ?_)
  have hnone : (Source.entries label held).get? k = none := hbarren.below k (h.names k hk) hanc
  have hsome := (Entries.find?_isSome h.wellFormed (h.names k hk).wellFormed).mpr ⟨k, hk, rfl⟩
  rw [Source.get?, Option.map_eq_none_iff] at hnone
  rw [hnone] at hsome
  cases hsome

/-! ## The bound on the steps -/

/-- Items that end within a number of steps are the same with more steps. -/
theorem bindItems_more {bindItem : Nat → BindM (Option Value)} {worthTrying : Nat → Bool}
    {steps position : Nat} {j : Journal}
    (h : ((bindItems bindItem worthTrying steps position).runFrom j).2.endless = none) (more : Nat) :
    (bindItems bindItem worthTrying (steps + more) position).runFrom j =
      (bindItems bindItem worthTrying steps position).runFrom j := by
  induction steps generalizing position j with
  | zero =>
    have hcut : (j.endless.or (some .items)).isSome = true := by
      rw [Option.isSome_or, Option.isSome_some, Bool.or_true]
    rw [show j.endless.or (some .items) = none from h] at hcut
    cases hcut
  | succ steps ih =>
    rw [Nat.succ_add]
    unfold bindItems at h ⊢
    split
    · rename_i hworth
      rw [if_pos hworth] at h
      rcases hrun : (bindItem position).runFrom j with ⟨r, k⟩
      cases r with
      | error e => rw [runFrom_bind_error hrun, runFrom_bind_error hrun]
      | ok bound =>
        rw [runFrom_bind_ok hrun] at h ⊢
        rw [runFrom_bind_ok hrun]
        cases bound with
        | none => rfl
        | some v =>
          -- What is done with the rest leaves the journal as it is.
          have hrest : ((bindItems bindItem worthTrying steps (position + 1)).runFrom k).2.endless =
              none := by
            rcases hrun' : (bindItems bindItem worthTrying steps (position + 1)).runFrom k with ⟨r, l⟩
            cases r with
            | ok rest => rwa [runFrom_bind_ok hrun'] at h
            | error e => rwa [runFrom_bind_error hrun'] at h
          simp only [runFrom_bind, ih hrest]
    · rfl

/-! ## Items -/

/-- Items from a position on that is not behind the last come to an end, if the steps suffice. -/
theorem keeps_bindItems_of_end {I : Journal.Invariant} {bindItem : Nat → BindM (Option Value)}
    {worthTrying : Nat → Bool} (last : Nat) (hi : ∀ position, Keeps I (bindItem position))
    (hend : ∀ position, last ≤ position →
      worthTrying position = false ∨ (bindItem position).Yields (· = none))
    {steps position : Nat} (hp : position ≤ last) (hsteps : last < position + steps) :
    Keeps I (bindItems bindItem worthTrying steps position) := by
  induction steps generalizing position with
  | zero => omega
  | succ steps ih =>
    unfold bindItems
    split
    · rename_i hworth
      rcases Nat.lt_or_eq_of_le hp with hlt | rfl
      · refine (hi position).seq fun bound => ?_
        cases bound with
        | some v => exact (ih hlt (by omega)).seq fun _ => .ret _
        | none => exact .ret _
      · have hnone := (hend position (Nat.le_refl _)).resolve_left (by simp [hworth])
        refine (hi position).bind hnone fun bound hbound => ?_
        subst hbound
        exact .ret _
    · exact .ret _

/-- The way down ends, and it binds nothing where the only source in sight has nothing, if that lists
no names. -/
structure EndsBelow (b : Binder) (f : BindBelow) : Prop where
  keeps : ∀ scope name target recursive, name.Built → target.shape.Displayable b.definitions →
    b.ItemsEnd target.shape → Keeps .ending (f scope name target recursive)
  stops : ∀ scope name element recursive e, b.ItemsEnd element → scope.depth ≠ 0 →
    b.visible scope = [e] → e.2.names? = none → b.BarrenAt scope name →
    (f scope name (.of element) recursive).Yields (· = none)

/-- The items of all sources end if the way down does. -/
theorem keptOnItems_ending (hs : ∀ s ∈ b.sources, s.Finite) (hf : b.EndsBelow f) (hn : name.Built)
    {element : Shape} (helement : element.Displayable b.definitions) (hend : b.ItemsEnd element) :
    KeptOnItems .ending b f scope.deeper name element := by
  intro e he start
  have hitem : ∀ position : Nat, Keeps .ending (f (scope.deeper.restrictedTo e.1)
      (name.item (toString position)) (.of element) e.2.isIterable) :=
    fun position => hf.keeps _ _ _ _ (.item hn _) helement hend
  refine keeps_bindFrom ?_ fun _ _ _ => trivial
  cases hnames : e.2.names? with
  | some names =>
    -- Behind the last position that is listed, no item is worth a try.
    obtain ⟨hstart, hlisted⟩ := le_foldl_max (listedPositions name start names) start
    refine keeps_bindItems_of_end ((listedPositions name start names).foldl max start + 1) hitem
      (fun position hp => .inl ?_) (by omega) (by simp only [Option.map_some, itemLimit]; omega)
    refine List.any_eq_false.mpr fun p hp' => ?_
    have hle := hlisted p hp'
    simp only [decide_eq_true_eq]
    omega
  | none =>
    -- Beyond the reach of the source there is nothing, so no item is bound.
    refine keeps_bindItems_of_end (start + (max e.2.reach b.handler.reach - start)) hitem
      (fun position hp => .inr ?_) (by omega) (by simp only [Option.map_none, itemLimit]; omega)
    have hvisible : b.visible (scope.deeper.restrictedTo e.1) = [(e.1, e.2)] :=
      visible_restrictedTo (getElem?_of_mem_visible he)
    refine hf.stops _ _ _ _ e hend (Nat.succ_ne_zero _) hvisible hnames ⟨.item hn _, ?_⟩
    rw [hvisible]
    exact List.forall_mem_singleton.mpr
      ((hs e.2 (mem_sources_of_mem_visible he)).barrenAt_item hnames hn (by omega))

/-! ## Names -/

/-- A name ends if the way down from it does. -/
theorem keeps_bindShape_ending (hs : ∀ s ∈ b.sources, s.Finite) (hn : name.Built)
    (hshape : target.shape.Displayable b.definitions) (hend : b.ItemsEnd target.shape)
    (hf : ∀ f, below = some f → b.EndsBelow f) :
    Keeps .ending (b.bindShape below scope name target recursive) := by
  rw [bindShape_eq]
  refine (keeps_directProperty trivial).seq fun property => ?_
  refine (keeps_passesOver property).seq fun passed => ?_
  split
  · exact .ret _
  · refine keeps_bindForm trivial (.inr hshape.ends) (fun f hb => ?_) property
    have hf := hf f hb
    refine ⟨fun kind element hr => ?_, fun key value hr e he n hlisted _ => ?_, fun type hr => ?_⟩
    · exact keptOnItems_ending hs hf hn (hshape.inner (inner?_of_collection? hr))
        (hend.imp_right fun h => h.imp_right (·.element (element?_of_collection? hr)))
    · have hlisted := (hs e.2 (mem_sources_of_mem_visible he)).built n hlisted
      have hvalue : value.Displayable b.definitions := hshape.inner (congrArg Shape.inner? hr)
      exact hf.keeps _ _ _ _ (entryName_built hlisted _ _) hvalue.resolve
        (hend.imp_right fun h => h.imp_right fun h => (h.entry hr).resolve)
    · have hmember : ∀ inner : Scope, KeptOnMembers .ending f inner name type := by
        intro inner id shape child existing hm hchild
        refine hf.keeps _ _ _ _ (hn.extend? hchild) ?_ ?_
        · rw [Target.withExisting_shape]
          exact hshape.member hr hm
        · rw [Target.withExisting_shape]
          exact hend.imp_right fun h => h.imp_right (·.member hr hm)
      exact ⟨hmember _, hmember _⟩

section Levels

variable (hh : b.handler.Builtin) (hs : ∀ s ∈ b.sources, s.Finite)

include hh in
/-- No item is bound where the only source in sight has nothing, if that lists no names. -/
theorem bindAt_stops (levels : Nat) {element : Shape} (hend : b.ItemsEnd element) {e : Nat × Source}
    (hd : scope.depth ≠ 0) (hvisible : b.visible scope = [e]) (hnames : e.2.names? = none)
    (h : b.BarrenAt scope name) :
    (b.bindAt levels scope name (.of element) recursive false).Yields (· = none) := by
  have he : e ∈ b.visible scope := hvisible ▸ List.mem_singleton_self e
  rcases hend with hunforgiving | hknows | hflat
  · exact bindAt_barren_of_unforgiving hunforgiving levels _ _ _ _ h
  · rcases hknows e.2 (mem_sources_of_mem_visible he) with hlists | ⟨hp, hdenies⟩
    · rw [hnames] at hlists
      cases hlists
    · -- The source denies the item, which is passed over.
      have hdenied : ∀ e ∈ b.visible scope, e.2.presence name = .absent := by
        rw [hvisible]
        exact List.forall_mem_singleton.mpr (hdenies name h.built (h.sources e he))
      have hshape : ∀ below,
          (b.bindShape below scope name (.of element) recursive).Gives (.ok none) := by
        intro below
        rw [bindShape_eq]
        exact (directProperty_none h.get?_eq_none).bind
          ((passesOver_denied hp hd hdenied).bind (.ret none))
      cases levels <;> exact bindVisit_none hh (hshape _)
  · exact bindAt_barren_of_plain hh levels _ _ _ _ ⟨.inl rfl, hflat⟩ h

include hh hs in
/-- Binding ends, by induction on the levels. -/
theorem keeps_bindAt_ending (levels : Nat) (scope : Scope) (hn : name.Built)
    (hshape : target.shape.Displayable b.definitions) (hend : b.ItemsEnd target.shape)
    (recursive create : Bool) :
    Keeps .ending (b.bindAt levels scope name target recursive create) := by
  have hv : ∀ scope name target, KeptByHandler .ending b.handler (b.visit scope name target) :=
    fun _ _ _ => hh.keeps_of_allows fun _ => trivial
  induction levels generalizing scope name target recursive create with
  | zero =>
    exact keeps_bindVisit (hv _ _ _)
      (keeps_bindShape_ending hs hn hshape hend fun f hf => by cases hf)
  | succ levels ih =>
    refine keeps_bindVisit (hv _ _ _) (keeps_bindShape_ending hs hn hshape hend fun f hf => ?_)
    cases hf
    exact ⟨fun scope name target recursive hn hshape hend => ih scope hn hshape hend recursive false,
      fun scope name element recursive e hend hd hvisible hnames h =>
        bindAt_stops hh levels hend hd hvisible hnames h⟩

end Levels

/-! ## A whole bind -/

theorem endless_ofRun {α : Type} {x : BindM α} (history : List Name) (root : Name)
    (h : Keeps .ending x) : (Report.ofRun history root x).journal.endless = none :=
  h { bound := history } rfl

/-- A bind that creates what it does not find ends like others. -/
theorem bindOrCreateAt_ends (hh : b.handler.Builtin) (hs : ∀ s ∈ b.sources, s.Finite)
    (history : List Name) {root : Name} (hroot : root.Built)
    (hshape : target.shape.Displayable b.definitions) (hend : b.ItemsEnd target.shape) :
    (b.bindOrCreateAt root target history).journal.endless = none := by
  have hbind := keeps_bindAt_ending hh hs b.options.maxDepth {} hroot hshape hend false true
  unfold bindOrCreateAt
  refine endless_ofRun history root (hbind.seq fun r => ?_)
  cases r with
  | some v => exact .ret v
  | none => exact (keeps_describe (.inr hshape.ends)).seq fun _ => .raise _

/-- A bind whose items and texts end is not cut short. -/
theorem bindRoot_ends (hh : b.handler.Builtin) (hs : ∀ s ∈ b.sources, s.Finite)
    (history : List Name) {root : Name} (hroot : root.Built)
    (hshape : target.shape.Displayable b.definitions) (hend : b.ItemsEnd target.shape)
    (create : Bool) : (b.bindRoot history root target create).journal.endless = none :=
  endless_ofRun history root
    (keeps_bindAt_ending hh hs b.options.maxDepth {} hroot hshape hend false create)

/-- So is a collection of scalars without handlers, since no failure is recovered from and its text
has two levels. -/
theorem bindRoot_scalars_ends (hh : b.handler = .default) (hs : ∀ s ∈ b.sources, s.Finite)
    (history : List Name) {root : Name} (hroot : root.Built) {collection : CollectionKind}
    {element : Shape} {kind : ScalarKind}
    (hcollection : (b.resolve target.shape).collection? = some (collection, element))
    (hel : b.resolve element = .scalar kind) (create : Bool) :
    (b.bindRoot history root target create).journal.endless = none := by
  refine bindRoot_ends (hh ▸ .default) hs history hroot ?_ (.inl (hh ▸ .default)) create
  exact .of_element (element?_of_collection? hcollection) (.of_scalar hel)

/-- A bind over sources that hold finitely many names returns: nothing goes on without end, provided
that the items end (failures are not recovered from, or all sources tell where their items end, or no
default instance holds more than single values) and that the texts of the shapes do. No name is bound
deeper than the limit, and with no level left, a name that goes deeper is an error with the limit in
it. -/
theorem bindRoot_returns (hh : b.handler.Builtin) (hs : ∀ s ∈ b.sources, s.Finite)
    (history : List Name) {root : Name} (hroot : root.Built) (target : Target) (create : Bool) :
    let run := b.bindRoot history root target create
    let traced := b.traced.bindRoot history root target create
    (b.ItemsEnd target.shape → target.shape.Displayable b.definitions →
      run.journal.endless = none) ∧
    traced.result = run.result ∧ (∀ e ∈ traced.journal.events, e.depth ≤ b.options.maxDepth) ∧
    ∀ scope name target recursive create, b.goesDeeper scope name target recursive = true →
      (b.bindHandled none scope name target recursive create).Gives
        (.error (.depthExceeded name b.options.maxDepth)) := by
  intro run traced
  exact ⟨fun hend hshape => bindRoot_ends hh hs history hroot hshape hend create,
    bindRoot_traced hh history root target create, events_traced hh history root target create,
    fun scope name target recursive create hdeeper => bindHandled_tooDeep hh hdeeper create⟩

/-- A type that contains itself, with a name and children. -/
def treeType : Composite Shape :=
  ⟨"Tree", .bean, false, [], [⟨"name", .scalar .string, true⟩,
    ⟨"children", .list (.ref (.declared "Tree")), true⟩], none⟩

/-- Trees from two sources, one of which can only be looked up in. Failures are recovered from. -/
def treeBinder : Binder where
  sources := [.lookupOnly (.entries "env" (.ofList [("tree.name", .string "oak")])),
    .entries "file" (.ofList
      [("tree.name", .string "elm"), ("tree.children[0].name", .string "leaf")])]
  definitions := [(.declared "Tree", .composite treeType)]
  handler := .ignoreErrors (.noUnbound .default)
  options := { maxDepth := 3 }

/-- The shapes in a tree. -/
def InTree (s : Shape) : Prop :=
  s = .ref (.declared "Tree") ∨ s = .composite treeType ∨ s = .list (.ref (.declared "Tree")) ∨
    s = .scalar .string

/-- The only composite in a tree is the tree. -/
theorem allComposites_tree {P : Composite Shape → Prop} (h : P treeType) :
    (Shape.ref (.declared "Tree")).AllComposites treeBinder.definitions P := by
  intro type hpart
  have hin : InTree (.composite type) := by
    refine hpart.of_closed (P := InTree) ?_ ?_ ?_ ?_ (.inl rfl)
    · rintro s (rfl | rfl | rfl | rfl)
      · exact .inr (.inl rfl)
      · exact .inr (.inl rfl)
      · exact .inr (.inr (.inl rfl))
      · exact .inr (.inr (.inr rfl))
    · rintro s e he (rfl | rfl | rfl | rfl) <;> cases he
      exact .inl rfl
    · rintro key value (hs | hs | hs | hs) <;> cases hs
    · rintro type id s hm (hs | hs | hs | hs) <;> cases hs
      cases hm with
      | param hc _ => cases hc
      | field hf =>
        rcases List.mem_cons.mp hf with rfl | hf
        · exact .inr (.inr (.inr rfl))
        · obtain rfl := List.mem_singleton.mp hf
          exact .inr (.inr (.inl rfl))
  rcases hin with hin | hin | hin | hin <;> cases hin
  exact h

set_option maxRecDepth 4000 in
/-- A tree is bound from a source that can only be looked up in and one that lists its names. The trees
go on without end, but the bind does not, and the children of the child lie too deep. -/
theorem bindRoot_returns_tree :
    let root := Name.adapt "tree" '.'
    let target : Target := .of (.ref (.declared "Tree"))
    let run := treeBinder.bindRoot [] root target false
    let traced := treeBinder.traced.bindRoot [] root target false
    let children := Name.adapt "tree.children[0].children" '.'
    run.result = .ok (some (.map [("name", .string "oak"),
      ("children", .list [.map [("name", .string "leaf")]])])) ∧
    run.journal.endless = none ∧ traced.result = run.result ∧
    (∀ e ∈ traced.journal.events, e.depth ≤ 3) ∧
    (treeBinder.bindHandled none { depth := 3 } children (.of (.list (.ref (.declared "Tree"))))
      false false).Gives (.error (.depthExceeded children 3)) := by
  intro root target run traced children
  have hfinite : ∀ s ∈ treeBinder.sources, s.Finite := List.forall_mem_cons.mpr
    ⟨(Source.Finite.entries "env" (.ofList _)).lookupOnly,
      List.forall_mem_singleton.mpr (.entries "file" (.ofList _))⟩
  have hshape : target.shape.Displayable treeBinder.definitions := fun s _ =>
    Definitions.displayEnds_of_definitions (List.forall_mem_singleton.mpr rfl) s
  have hitems : treeBinder.ItemsEnd target.shape :=
    .inr (.inr (allComposites_tree fun _ _ _ hdefault => by cases hdefault))
  obtain ⟨hends, htraced, hdepth, hdeeper⟩ :=
    bindRoot_returns (.ignoreErrors (.noUnbound .default)) hfinite [] (.adapt "tree" '.') target false
  exact ⟨by rfl, hends hitems hshape, htraced, hdepth,
    hdeeper { depth := 3 } children _ false false (by rfl)⟩

/-! ## Without end -/

/-- Where each item is bound, the loop takes as many as there are steps. -/
theorem bindItems_endless {bindItem : Nat → BindM (Option Value)} {v : Value}
    (h : ∀ position, (bindItem position).Gives (.ok (some v))) (steps position : Nat) :
    (bindItems bindItem (fun _ => true) steps position).Gives (.ok (List.replicate steps v)) := by
  induction steps generalizing position with
  | zero => exact Gives.bind (.note _) (.ret _)
  | succ steps ih =>
    unfold bindItems
    exact (h position).bind ((ih (position + 1)).bind (.ret _))

/-- Items whose tags lie too deep, but that have one to begin with. -/
def taggedShape : Shape :=
  .composite ⟨"Item", .bean, false, [], [⟨"tags", .list (.scalar .string), true⟩],
    some (.map [("tags", .list [.string "x"])])⟩

/-- A source that can only be looked up in, and has nothing. Failures are recovered from. -/
def probingBinder : Binder where
  sources := [.lookupOnly (.entries "test" [])]
  handler := .ignoreErrors .default
  options := { maxDepth := 2 }

/-- The list of itself, and a single value in its place. -/
def nestedBinder : Binder where
  sources := [.entries "test" (.ofList [("n", .string "x")])]
  definitions := [(.declared "L", .list (.ref (.declared "L")))]

/-- Both things that might go on without end do. Where failures are recovered from, there is an item at
every position of a source that does not tell where they end. And the text of a list of itself, which
says what a single value cannot be, does not end. -/
theorem goes_on_without_end :
    let n := Name.adapt "n" '.'
    let item (position : Nat) := probingBinder.bindAt 1 { depth := 1, only := some 0 }
      (n.item (toString position)) (.of taggedShape) false false
    let nested : Shape := .ref (.declared "L")
    (probingBinder.bindRoot [] n (.of (.list taggedShape)) false).journal.endless = some .items ∧
    (∀ steps, (bindItems item (fun _ => true) steps 0).Gives
      (.ok (List.replicate steps (.map [("tags", .list [.string "x"])])))) ∧
    (nestedBinder.bindRoot [] n (.of nested) false).journal.endless = some .text ∧
    ∀ steps, nestedBinder.definitions.displayEndsWithin steps nested = false := by
  intro n item nested
  have hitem : ∀ position, (item position).Gives (.ok (some (.map [("tags", .list [.string "x"])]))) :=
    fun position j => by rfl
  exact ⟨by rfl, fun steps => bindItems_endless hitem steps 0, by rfl,
    Definitions.displayEndsWithin_of_inner_self rfl⟩

end Binder

end TypedConfig
