import TypedConfig.Proofs.Bind.Steps
import TypedConfig.Proofs.Source.Barren

/-!
# Binding where there is nothing

At a name where no source in sight has anything, here or below, nothing is bound, whatever the shape
and whatever is there already. A bind may still fail there, because it goes too deep or a type cannot
be built. A handler may recover from that with what is there already, so targets matter then: what is
said here is said of any kind of target that the way down keeps to (`Binder.Lasting`).

* `Binder.BarrenAt`: the sources in sight have nothing at a name or below it. So it is at every name
  that binding goes to from there (`BarrenAt.child`, `BarrenAt.item`).
* `Binder.SparesBarrenOn`: the way down binds nothing at barren names, for targets of a kind. Each way
  of binding keeps this one level up.
* `Binder.bindAt_barrenOn`: nothing is bound at a barren name, by induction on the levels, if the
  handlers of a name keep to that. Without handlers they do (`Binder.bindAt_barren`).
-/

namespace TypedConfig.Binder

open BindM

/-- No source in sight has anything at the name or below it. -/
structure BarrenAt (b : Binder) (scope : Scope) (name : Name) : Prop where
  built : name.Built
  sources : ∀ e ∈ b.visible scope, e.2.BarrenAt name

/-- From a target of the kind, binding goes on to targets of the kind, as long as it binds nothing. -/
structure Lasting (b : Binder) (P : Target → Prop) : Prop where
  item : ∀ {t kind element}, P t → (b.resolve t.shape).collection? = some (kind, element) →
    P (.of element)
  parameter : ∀ {t type ctor p}, P t → b.resolve t.shape = .composite type →
    ctor ∈ type.constructors → p ∈ ctor.params →
    P ((Target.of p.shape).withExisting (t.existingField? p.name))
  field : ∀ {t type base f}, P t → b.resolve t.shape = .composite type →
    type.baseInstance t = some base → f ∈ type.fields →
    P ((Target.of f.shape).withExisting ((Keyed.find? f.name base).filter fun v => !v.isNull))

/-- The way down binds nothing where there is nothing, for targets of a kind. -/
def SparesBarrenOn (b : Binder) (P : Target → Prop) (below : BindBelow) : Prop :=
  ∀ scope name target recursive, P target → b.BarrenAt scope name →
    (below scope name target recursive).Yields (· = none)

/-- The way down binds nothing where there is nothing, whatever the target. -/
def SparesBarren (b : Binder) (below : BindBelow) : Prop :=
  ∀ scope name target recursive, b.BarrenAt scope name →
    (below scope name target recursive).Yields (· = none)

variable {b : Binder} {scope : Scope} {name : Name} {target : Target} {below : BindBelow}
  {P : Target → Prop}

theorem SparesBarren.on (h : b.SparesBarren below) : b.SparesBarrenOn (fun _ => True) below :=
  fun scope name target recursive _ => h scope name target recursive

theorem lasting_any (b : Binder) : b.Lasting fun _ => True :=
  ⟨fun _ _ => trivial, fun _ _ _ _ => trivial, fun _ _ _ _ => trivial⟩

namespace BarrenAt

theorem append (h : b.BarrenAt scope name) {k : Name} (hk : k.Built) :
    b.BarrenAt scope (name ++ k) where
  built := .append h.built hk
  sources e he := (h.sources e he).append h.built hk

/-- The members of a composite are barren with it. -/
theorem child (h : b.BarrenAt scope name) {id : String} {child : Name}
    (hc : name.extend? id = .ok child) : b.BarrenAt scope child := by
  obtain ⟨k, hk, rfl⟩ := Name.exists_of_extend? hc
  exact h.append (.parse hk)

/-- The items of a collection are barren with it, in each source. -/
theorem item (h : b.BarrenAt scope name) {e : Nat × Source} (he : e ∈ b.visible scope)
    (key : String) : b.BarrenAt (scope.restrictedTo e.1) (name.item key) where
  built := .item h.built key
  sources := by
    rw [visible_restrictedTo (getElem?_of_mem_visible he)]
    refine List.forall_mem_singleton.mpr ?_
    exact (h.sources e he).append h.built (.index key)

/-- There is no value to take. -/
theorem get?_eq_none (h : b.BarrenAt scope name) (hne : name.isEmpty = false) :
    ∀ e ∈ b.visible scope, e.2.get? name = none :=
  fun e he => (h.sources e he).here hne

theorem directProperty (h : b.BarrenAt scope name) :
    (b.directProperty scope name target).Yields (· = none) :=
  (directProperty_none h.get?_eq_none).yields

/-- No source lists an item. -/
theorem listedPositions_eq_nil (h : b.BarrenAt scope name) {e : Nat × Source}
    (he : e ∈ b.visible scope) (start : Nat) :
    (e.2.names?.map (listedPositions name start)).getD [] = [] := by
  have hlisted := (h.sources e he).listed
  cases hn : e.2.names? with
  | none => rfl
  | some names =>
    rw [hn] at hlisted
    have hnone : names.filterMap name.positionIn? = [] :=
      List.filterMap_eq_nil_iff.mpr fun m hm => by
        unfold Name.positionIn?
        rw [if_neg (by simp [hlisted m hm])]
    simp [listedPositions, hnone]

end BarrenAt

/-! ## Collections and maps -/

section Aggregates

variable {element : Shape} (hbelow : b.SparesBarrenOn P below) (helement : P (.of element))
  (h : b.BarrenAt scope name)

theorem bindItems_barren {bindItem : Nat → BindM (Option Value)} {worthTrying : Nat → Bool}
    (hitem : ∀ position, (bindItem position).Yields (· = none)) (steps position : Nat) :
    (bindItems bindItem worthTrying steps position).Yields (· = []) := by
  cases steps with
  | zero => exact .after _ fun _ => .ret rfl
  | succ steps =>
    unfold bindItems
    split
    · refine (hitem position).bind fun bound hbound => ?_
      subst hbound
      exact .ret rfl
    · exact .ret rfl

include hbelow helement h

theorem bindFrom_barren {e : Nat × Source} (he : e ∈ b.visible scope) (start : Nat) :
    (b.bindFrom below scope name element e.1 e.2 start).Yields (· = []) := by
  have hitem : ∀ position : Nat, (below (scope.restrictedTo e.1) (name.item (toString position))
      (.of element) e.2.isIterable).Yields (· = none) :=
    fun position => hbelow _ _ _ _ helement (h.item he _)
  refine (bindItems_barren hitem _ _).bind fun values hvalues => ?_
  subst hvalues
  rw [h.listedPositions_eq_nil he]
  exact .ret rfl

theorem bindFromAll_barren {direct : Bool} (hdirect : direct = true → name.isEmpty = false)
    (sources : List (Nat × Source)) (hs : ∀ e ∈ sources, e ∈ b.visible scope) :
    (b.bindFromAll below scope name element direct sources [] none).Yields (· = ([], none)) := by
  induction sources with
  | nil => exact .ret rfl
  | cons e rest ih =>
    obtain ⟨he, hrest⟩ := List.forall_mem_cons.mp hs
    have htail : (do
        let more ← b.bindFrom below scope name element e.1 e.2 0
        b.bindFromAll below scope name element direct rest more none).Yields (· = ([], none)) := by
      refine (bindFrom_barren hbelow helement h he 0).bind fun more hmore => ?_
      subst hmore
      exact ih hrest
    unfold bindFromAll
    cases direct with
    | false => exact htail
    | true =>
      refine (getFrom_gives e.1 e.2 name).yields.bind fun single hsingle => ?_
      rw [h.get?_eq_none (hdirect rfl) e he] at hsingle
      subst hsingle
      exact htail

theorem bindCollection_barren (kind : CollectionKind) :
    (b.bindCollection kind below scope name target element).Yields (· = none) := by
  have hdirect : (!name.isEmpty && !target.nestedOnly) = true → name.isEmpty = false := by
    simp +contextual
  have hinner : b.BarrenAt scope.deeper name := ⟨h.built, h.sources⟩
  have helements : (b.bindElements kind below scope.deeper name target element).Yields
      (· = none) := by
    refine (bindFromAll_barren hbelow helement hinner hdirect _ fun e he => he).bind fun r hr => ?_
    subst hr
    exact .ret rfl
  refine helements.bind fun bound hbound => ?_
  subst hbound
  cases target.existing? <;> exact .ret rfl

omit hbelow helement in
theorem bindMapFrom_barren {direct : Bool} (hdirect : direct = true → name.isEmpty = false)
    {key : ScalarKind} (sources : List (Nat × Source)) (hs : ∀ e ∈ sources, e ∈ b.visible scope) :
    (b.bindMapFrom below scope name key element direct sources {}).Yields (· = none) := by
  induction sources with
  | nil => exact .ret rfl
  | cons e rest ih =>
    obtain ⟨he, hrest⟩ := List.forall_mem_cons.mp hs
    have hcandidates : (e.2.names?.getD []).filter name.isAncestorOf = [] :=
      List.filter_eq_nil_iff.mpr fun m hm => by simp [(h.sources e he).listed m hm]
    unfold bindMapFrom
    rw [hcandidates]
    cases direct with
    | false => exact ih hrest
    | true =>
      refine (getFrom_gives e.1 e.2 name).yields.bind fun found hfound => ?_
      rw [h.get?_eq_none (hdirect rfl) e he] at hfound
      subst hfound
      exact ih hrest

omit hbelow helement in
theorem bindMap_barren (key : ScalarKind) :
    (b.bindMap below scope name target key element).Yields (· = none) := by
  have hinner : b.BarrenAt scope.deeper name := ⟨h.built, h.sources⟩
  refine .after _ fun nested => ?_
  refine (bindMapFrom_barren hinner (by simp +contextual) _ fun e he => he).bind
    fun bound hbound => ?_
  subst hbound
  cases target.existing? <;> exact .ret rfl

end Aggregates

/-! ## Composites -/

section Composites

variable {type : Composite Shape} (hbelow : b.SparesBarrenOn P below) (h : b.BarrenAt scope name)

include hbelow h

theorem bindParameters_barren (params : List (Parameter Shape))
    (hparams : ∀ p ∈ params, P ((Target.of p.shape).withExisting (target.existingField? p.name))) :
    (bindParameters below scope name target params).Yields fun arguments =>
      ∀ arg ∈ arguments, arg.bound = none := by
  induction params with
  | nil => exact .ret (List.forall_mem_nil _)
  | cons p rest ih =>
    rw [List.forall_mem_cons] at hparams
    unfold bindParameters
    refine (childName_yields name p.name).bind fun child hchild => ?_
    refine (hbelow _ _ _ _ hparams.1 (h.child hchild)).bind fun bound hbound => ?_
    refine (ih hparams.2).bind fun arguments hargs => ?_
    exact .ret (List.forall_mem_cons.mpr ⟨hbound, hargs⟩)

/-- Fields that bind nothing leave the instance as it is. -/
theorem bindFields_barren (typeName : String) (fields : List (Field Shape)) (built : Fields)
    (hfields : ∀ f ∈ fields,
      P ((Target.of f.shape).withExisting ((Keyed.find? f.name built).filter fun v => !v.isNull)))
    (any : Bool) :
    (b.bindFields below scope name typeName fields built any).Yields (· = (built, any)) := by
  induction fields with
  | nil => exact .ret rfl
  | cons field rest ih =>
    rw [List.forall_mem_cons] at hfields
    unfold bindFields
    refine (childName_yields name field.name).bind fun child hchild => ?_
    refine (hbelow _ _ _ _ hfields.1 (h.child hchild)).bind fun bound hbound => ?_
    subst hbound
    exact ih hfields.2

variable (hP : b.Lasting P) (ht : P target) (hs : b.resolve target.shape = .composite type)

include hP ht hs

theorem bindConstructed_barren :
    (b.bindConstructed below scope name target type).Yields (· = none) := by
  have hinner : b.BarrenAt scope.forConstructor name := ⟨h.built, h.sources⟩
  unfold bindConstructed
  refine (liftExcept_yields _).bind fun choice hchoice => ?_
  cases choice with
  | none => exact .ret rfl
  | some ctor =>
    have hctor := (Composite.bindingConstructor_mem hchoice).1
    refine Yields.andFinally ?_ _
    refine (bindParameters_barren hbelow hinner _ fun p hp => hP.parameter ht hs hctor hp).bind
      fun arguments harguments => ?_
    have hany : (arguments.any fun arg => arg.bound.isSome) = false :=
      List.any_eq_false.mpr fun arg harg => by simp [harguments arg harg]
    rw [hany]
    exact .ret rfl

theorem bindOnInstance_barren :
    (b.bindOnInstance below scope name target type).Yields (· = none) := by
  unfold bindOnInstance
  cases hbase : type.baseInstance target with
  | none => exact .ret rfl
  | some base =>
    refine (bindFields_barren hbelow h _ _ base (fun f hf => hP.field ht hs hbase hf) false).bind
      fun r hr => ?_
    subst hr
    exact .ret rfl

theorem assemble_barren : (b.assemble below scope name target type).Yields (· = none) := by
  unfold assemble
  split
  · exact bindConstructed_barren hbelow h hP ht hs
  · exact bindOnInstance_barren hbelow h hP ht hs
  · refine (bindConstructed_barren hbelow h hP ht hs).bind fun built hbuilt => ?_
    subst hbuilt
    exact bindOnInstance_barren hbelow h hP ht hs

end Composites

/-! ## Names -/

section Names

variable {level : Option BindBelow} (hP : b.Lasting P)
  (hlevel : ∀ below, level = some below → b.SparesBarrenOn P below) (ht : P target)
  (h : b.BarrenAt scope name)

include hP hlevel ht h

theorem bindComposite_barren {type : Composite Shape}
    (hs : b.resolve target.shape = .composite type) (recursive : Bool) :
    (b.bindComposite level scope name target type recursive).Yields (· = none) := by
  have hinner : b.BarrenAt (scope.within type.typeName) name := ⟨h.built, h.sources⟩
  unfold bindComposite
  refine .after _ fun goesOn => ?_
  cases goesOn with
  | false => exact .ret rfl
  | true =>
    exact (enter_yields name).bind fun below hb => assemble_barren (hlevel below hb) hinner hP ht hs

/-- A name without a property binds nothing by any form. -/
theorem bindForm_barren (recursive : Bool) :
    (b.bindForm level scope name target recursive none).Yields (· = none) := by
  have hcollection : ∀ kind element,
      (b.resolve target.shape).collection? = some (kind, element) → (do
        b.bindCollection kind (← b.enter level name) scope name target element).Yields (· = none) :=
    fun kind element hs => (enter_yields name).bind fun below hb =>
      bindCollection_barren (hlevel below hb) (hP.item ht hs) h kind
  unfold bindForm
  split
  · exact .ret rfl
  · rename_i hs
    exact hcollection _ _ (by rw [hs]; rfl)
  · rename_i hs
    exact hcollection _ _ (by rw [hs]; rfl)
  · rename_i hs
    exact hcollection _ _ (by rw [hs]; rfl)
  · exact (enter_yields name).bind fun below _ => bindMap_barren h _
  · rename_i hs
    refine (bindComposite_barren hP hlevel ht h hs recursive).bind fun bound hbound => ?_
    subst hbound
    exact .ret rfl
  · exact .ret rfl

theorem bindShape_barren (recursive : Bool) :
    (b.bindShape level scope name target recursive).Yields (· = none) := by
  rw [bindShape_eq]
  refine h.directProperty.bind fun property hproperty => ?_
  subst hproperty
  refine .after _ fun passed => ?_
  cases passed with
  | true => exact .ret rfl
  | false => exact bindForm_barren hP hlevel ht h recursive

end Names

/-- Nothing is bound at a barren name, for targets of a kind that the way down keeps to, if handlers do
not bind anything there for such targets. -/
theorem bindAt_barrenOn (hP : b.Lasting P)
    (hvisit : ∀ level scope name target recursive, P target → b.BarrenAt scope name →
      (b.bindShape level scope name target recursive).Yields (· = none) →
      (b.bindVisit level scope name target recursive false).Yields (· = none)) (levels : Nat) :
    b.SparesBarrenOn P (b.descend levels) := by
  induction levels with
  | zero =>
    exact fun scope name target recursive ht h => hvisit _ _ _ _ _ ht h
      (bindShape_barren hP (fun below hb => by cases hb) ht h recursive)
  | succ levels ih =>
    intro scope name target recursive ht h
    refine hvisit _ _ _ _ _ ht h (bindShape_barren hP (fun below hb => ?_) ht h recursive)
    cases hb
    exact ih

/-- Under handlers that recover from nothing, nothing is bound at a barren name. -/
theorem bindAt_barren_of_unforgiving (hh : b.handler.Unforgiving) (levels : Nat) :
    b.SparesBarren (b.descend levels) :=
  fun scope name target recursive => bindAt_barrenOn b.lasting_any
    (fun _ _ _ _ _ _ _ => bindVisit_yields_of_unforgiving hh) levels scope name target recursive
    trivial

/-- Without handlers, nothing is bound at a barren name. -/
theorem bindAt_barren (hh : b.handler = .default) (levels : Nat) :
    b.SparesBarren (b.descend levels) :=
  bindAt_barren_of_unforgiving (.of_default hh) levels

end TypedConfig.Binder
