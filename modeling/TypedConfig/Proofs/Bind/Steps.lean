import TypedConfig.Proofs.Bind.Run

/-!
# What single steps of binding come to

Small facts that the proofs about binding share: which sources are in sight and what they answer, what
a choice or the way down gives, and the form of a step at one name.

* `Binder.visible_restrictedTo`, `Binder.getElem?_of_mem_visible`: the sources in sight.
* `Composite.bindingConstructor_mem`: the constructor to bind through.
* `Binder.lookUp_gives`, `Binder.nothingBelow_gives`: a question always has an answer.
* `Binder.convertProperty_yields`, `Binder.convertProperty_gives`: a scalar is what converts to it.
* `Binder.entryName_built`: the names of entries.
* `Binder.bindShape_eq`: a name is looked up, maybe passed over, and else bound by its form.
* `Binder.directProperty_none`, `Binder.passesOver_denied`: where the sources in sight have nothing.
* `Binder.bindRoot_result`: without handlers, a bind is what the shape at its root comes to. For a
  collection that is the collection's own step (`Binder.bindShape_leadsTo_bindCollection`).
* `Handler.Unforgiving`: the handlers that let all pass but leftovers, failures too. Under them, what a
  name yields is what its shape does (`Binder.bindVisit_yields_of_unforgiving`).
-/

namespace TypedConfig

/-! ## Handlers that recover from nothing -/

namespace Handler

/-- The handlers that let all pass but leftovers, failures too. -/
inductive Unforgiving : Handler → Prop
  | default : Unforgiving .default
  | noUnbound {parent : Handler} (h : Unforgiving parent) : Unforgiving (.noUnbound parent)

namespace Unforgiving

variable {h : Handler}

theorem of_default (hh : h = .default) : h.Unforgiving := hh ▸ .default

theorem onStart (hh : h.Unforgiving) (v : Visit) : h.onStart v = pure true := by
  induction hh with
  | default => rfl
  | noUnbound _ ih => exact ih

theorem onSuccess (hh : h.Unforgiving) (v : Visit) (value : Value) :
    h.onSuccess v value = pure value := by
  induction hh with
  | default => rfl
  | noUnbound _ ih => exact ih

theorem onFailure (hh : h.Unforgiving) (v : Visit) (e : BindError) : h.onFailure v e = throw e := by
  induction hh with
  | default => rfl
  | noUnbound _ ih => exact ih

end Unforgiving

end Handler

/-! ## Constructors -/

namespace Composite

variable {type : Composite Shape} {target : Target} {inConstructor : Bool}
  {ctor : Constructor Shape}

/-- The constructor to bind through is one of the type, and it has parameters. -/
theorem bindingConstructor_mem
    (h : type.bindingConstructor target inConstructor = .ok (some ctor)) :
    ctor ∈ type.constructors ∧ ctor.params ≠ [] := by
  unfold bindingConstructor at h
  split at h
  · rename_i one hm
    split at h
    · cases h
    · rename_i hne
      cases h
      have hmem : ctor ∈ type.constructors.filter (·.marked) := by rw [hm]; exact .head _
      exact ⟨(List.mem_filter.mp hmem).1, by simpa using hne⟩
  · cases h
  · simp only at h
    split at h
    · cases h
    · split at h
      · rename_i only hc
        split at h
        · cases h
        · rename_i hne
          cases h
          exact ⟨by rw [hc]; exact .head _, by simpa using hne⟩
      · cases h

end Composite

namespace Binder

open BindM

variable {b : Binder} {scope : Scope} {name : Name}

/-! ## The sources in sight -/

/-- Where no source is singled out, all are in sight. -/
theorem map_visible (h : scope.only = none) : (b.visible scope).map (·.2) = b.sources := by
  refine List.ext_getElem? fun i => ?_
  simp [visible, h, Function.comp_def]

/-- The only source of a binder is the only one in sight. -/
theorem visible_single {source : Source} (hs : b.sources = [source]) (ho : scope.only = none) :
    b.visible scope = [(0, source)] := by
  unfold visible
  rw [hs, ho]
  rfl

private theorem filter_position {α : Type} (xs : List α) (start i : Nat) :
    (xs.mapIdx fun j x => (start + j, x)).filter (·.1 == start + i) =
      (xs[i]?.map (start + i, ·)).toList := by
  induction xs generalizing start i with
  | nil => rfl
  | cons x xs ih =>
    have ih := fun i => ih (start + 1) i
    simp only [Nat.add_assoc, Nat.add_comm 1] at ih
    rw [List.mapIdx_cons]
    cases i with
    | zero =>
      have hne : ∀ y ∈ xs.mapIdx fun j x => (start + (j + 1), x), ¬(y.1 == start + 0) = true := by
        intro y hy
        obtain ⟨j, hj, rfl⟩ := List.mem_mapIdx.mp hy
        simp
      rw [List.filter_cons_of_pos (by simp), List.filter_eq_nil_iff.mpr hne]
      rfl
    | succ i =>
      rw [List.filter_cons_of_neg (by simp), ih i]
      rfl

/-- A source that is singled out is the only one in sight. -/
theorem visible_restrictedTo {i : Nat} {s : Source} (h : b.sources[i]? = some s) :
    b.visible (scope.restrictedTo i) = [(i, s)] := by
  have hf := filter_position b.sources 0 i
  simp only [Nat.zero_add, h] at hf
  exact hf

/-- A source in sight stands at its position. -/
theorem getElem?_of_mem_visible {e : Nat × Source} (h : e ∈ b.visible scope) :
    b.sources[e.1]? = some e.2 := by
  have hall : e ∈ b.sources.mapIdx fun i source => (i, source) := by
    unfold visible at h
    simp only at h
    split at h
    · exact (List.mem_filter.mp h).1
    · exact h
  obtain ⟨i, hi, rfl⟩ := List.mem_mapIdx.mp hall
  exact List.getElem?_eq_getElem hi

theorem mem_sources_of_mem_visible {e : Nat × Source} (h : e ∈ b.visible scope) :
    e.2 ∈ b.sources :=
  List.mem_of_getElem? (getElem?_of_mem_visible h)

/-! ## Questions to sources -/

theorem getFrom_gives (i : Nat) (source : Source) (name : Name) :
    (getFrom i source name).Gives (.ok (source.get? name)) :=
  Gives.bind (.note _) (.ret _)

theorem lookUp_gives (b : Binder) (scope : Scope) (name : Name) :
    (b.lookUp scope name).Gives
      (.ok ((b.visible scope).findSome? fun (_, s) => s.get? name)) :=
  Gives.bind (.note _) (.ret _)

theorem nothingBelow_gives (b : Binder) (scope : Scope) (name : Name) :
    (b.nothingBelow scope name).Gives
      (.ok ((b.visible scope).all fun (_, s) => s.presence name == .absent)) :=
  Gives.bind (.note _) (.ret _)

theorem somethingBelow_gives (b : Binder) (scope : Scope) (name : Name) :
    (b.somethingBelow scope name).Gives
      (.ok ((b.visible scope).any fun (_, s) => s.presence name == .present)) :=
  Gives.bind (.note _) (.ret _)

/-! ## Scalars -/

theorem convertProperty_yields (p : Property) (kind : ScalarKind) :
    (b.convertProperty p kind).Yields fun v => b.converter.convert kind p.value = .ok v := by
  unfold convertProperty
  split
  · rename_i v hv
    exact .after _ fun _ => .ret hv
  · exact .raise _

theorem convertProperty_gives {p : Property} {kind : ScalarKind} {v : Value}
    (h : b.converter.convert kind p.value = .ok v) : (b.convertProperty p kind).Gives (.ok v) := by
  unfold convertProperty
  rw [h]
  exact Gives.bind (.note _) (.ret v)

/-! ## Choices and the way down -/

theorem liftExcept_yields {α : Type} (x : Except BindError α) :
    (bindConstructed.liftExcept x).Yields fun a => x = .ok a := by
  cases x with
  | ok a => exact .ret rfl
  | error e => exact .raise e

theorem enter_yields {level : Option BindBelow} (name : Name) :
    (b.enter level name).Yields fun below => level = some below := by
  cases level with
  | none => exact .raise _
  | some below => exact .ret rfl

theorem childName_yields (parent : Name) (identifier : String) :
    (childName parent identifier).Yields fun child =>
      parent.extend? (Name.dashed identifier) = .ok child := by
  unfold childName
  split
  · rename_i child h
    exact .ret h
  · exact .raise _

theorem childName_gives {parent child : Name} {identifier : String}
    (h : parent.extend? (Name.dashed identifier) = .ok child) :
    (childName parent identifier).Gives (.ok child) := by
  unfold childName
  rw [h]
  exact .ret child

/-- A composite without fields binds nothing on an instance. -/
theorem bindOnInstance_of_nil {below : BindBelow} {target : Target} {type : Composite Shape}
    (h : type.fields = []) :
    (b.bindOnInstance below scope name target type).LeadsTo (pure none) := by
  unfold bindOnInstance
  rw [h]
  cases type.baseInstance target <;> exact .refl _

/-! ## Entries -/

theorem cutAtPosition_built {n : Name} (hn : n.Built) (start : Nat) :
    (cutAtPosition n start).Built := by
  unfold cutAtPosition
  split
  · exact .take hn _
  · exact hn

/-- Entries have names that can be built, if listed names can. -/
theorem entryName_built {n : Name} (hn : n.Built) (root : Name) (value : Shape) :
    (entryName root n value).Built := by
  unfold entryName
  cases value with
  | scalar _ => exact hn
  | array _ | list _ | set _ => exact cutAtPosition_built hn _
  | map _ _ | composite _ | ref _ => exact .take hn _

/-! ## One name -/

/-- Binds a name by its shape, once its property is known and the name is not passed over. -/
def bindForm (b : Binder) (below : Option BindBelow) (scope : Scope) (name : Name)
    (target : Target) (recursive : Bool) (property : Option Property) : BindM (Option Value) :=
  match b.resolve target.shape with
  | .scalar kind =>
    match property with
    | some p => return some (← b.convertProperty p kind)
    | none => return none
  | .array element => do b.bindCollection .array (← b.enter below name) scope name target element
  | .list element => do b.bindCollection .list (← b.enter below name) scope name target element
  | .set element => do b.bindCollection .set (← b.enter below name) scope name target element
  | .map key value => do b.bindMap (← b.enter below name) scope name target key value
  | .composite type => b.bindCompositeOver below scope name target type recursive property
  | .ref _ => return none

/-- Whether a name is passed over, by its property. -/
def passesOver (b : Binder) (scope : Scope) (name : Name) (property : Option Property) :
    BindM Bool :=
  if b.prunes && property.isNone && scope.depth != 0 then b.nothingBelow scope name else pure false

theorem bindShape_eq (b : Binder) (below : Option BindBelow) (scope : Scope) (name : Name)
    (target : Target) (recursive : Bool) :
    b.bindShape below scope name target recursive = (do
      let property ← b.directProperty scope name target
      if ← b.passesOver scope name property then return none
      else b.bindForm below scope name target recursive property) := rfl

/-- Where no source in sight has a value, none is found. -/
theorem directProperty_none {target : Target}
    (h : name.isEmpty = false → ∀ e ∈ b.visible scope, e.2.get? name = none) :
    (b.directProperty scope name target).Gives (.ok none) := by
  unfold directProperty
  split
  · exact .ret none
  · rename_i hne
    simp only [Bool.or_eq_true, not_or, Bool.not_eq_true] at hne
    have hfound : ((b.visible scope).findSome? fun (_, s) => s.get? name) = none :=
      List.findSome?_eq_none_iff.mpr (h hne.1)
    exact hfound ▸ b.lookUp_gives scope name

/-- Below the root, a name without a value is passed over if all sources in sight deny that there is
anything below it. -/
theorem passesOver_denied (hp : b.prunes = true) (hd : scope.depth ≠ 0)
    (h : ∀ e ∈ b.visible scope, e.2.presence name = .absent) :
    (b.passesOver scope name none).Gives (.ok true) := by
  have hall : ((b.visible scope).all fun (_, s) => s.presence name == .absent) = true :=
    List.all_eq_true.mpr fun e he => by simp [h e he]
  rw [show b.passesOver scope name none = b.nothingBelow scope name by simp [passesOver, hp, hd]]
  exact hall ▸ b.nothingBelow_gives scope name

theorem passesOver_gives (b : Binder) (scope : Scope) (name : Name) (property : Option Property) :
    ∃ passed, (b.passesOver scope name property).Gives (.ok passed) := by
  unfold passesOver
  split
  · exact ⟨_, b.nothingBelow_gives scope name⟩
  · exact ⟨_, .ret false⟩

/-- At the root of a bind no name is passed over: what follows is up to its form. -/
theorem bindShape_root (hd : scope.depth = 0) (below : Option BindBelow) (name : Name)
    (target : Target) (recursive : Bool) :
    b.bindShape below scope name target recursive = (do
      let property ← b.directProperty scope name target
      b.bindForm below scope name target recursive property) := by
  rw [bindShape_eq]
  refine bind_congr fun property => ?_
  simp [passesOver, hd]

theorem bindForm_collection {target : Target} {kind : CollectionKind} {element : Shape}
    (hs : (b.resolve target.shape).collection? = some (kind, element)) (below : Option BindBelow)
    (scope : Scope) (name : Name) (recursive : Bool) (property : Option Property) :
    b.bindForm below scope name target recursive property = (do
      b.bindCollection kind (← b.enter below name) scope name target element) := by
  unfold bindForm
  cases h : b.resolve target.shape with
  | array _ | list _ | set _ =>
    rw [h] at hs
    cases hs
    rfl
  | scalar _ | map _ _ | composite _ | ref _ =>
    rw [h] at hs
    cases hs

/-- A collection at the root of a bind is bound. -/
theorem bindShape_leadsTo_bindCollection {target : Target} {kind : CollectionKind} {element : Shape}
    (hs : (b.resolve target.shape).collection? = some (kind, element)) (hd : scope.depth = 0)
    (f : BindBelow) (name : Name) (recursive : Bool) :
    (b.bindShape (some f) scope name target recursive).LeadsTo
      (b.bindCollection kind f scope name target element) := by
  obtain ⟨property, hproperty⟩ : ∃ property,
      (b.directProperty scope name target).Gives (.ok property) := by
    unfold directProperty
    split
    · exact ⟨_, .ret none⟩
    · exact ⟨_, b.lookUp_gives scope name⟩
  rw [bindShape_root hd]
  refine (LeadsTo.of_gives hproperty _).trans ?_
  rw [bindForm_collection hs]
  exact .of_gives (.ret f) _

/-- A composite at a root where nothing is held is assembled. -/
theorem bindShape_leadsTo_assemble {below : BindBelow} {target : Target} {type : Composite Shape}
    {recursive : Bool} (hs : b.resolve target.shape = .composite type)
    (hget : ∀ s ∈ b.sources, s.get? name = none) :
    (b.bindShape (some below) {} name target recursive).LeadsTo
      (b.assemble below (Scope.within {} type.typeName) name target type) := by
  rw [bindShape_eq]
  have hnothing : (b.directProperty {} name target).Gives (.ok none) :=
    directProperty_none fun _ e he => hget _ (mem_sources_of_mem_visible he)
  refine (LeadsTo.of_gives hnothing _).trans ?_
  have hform : b.bindForm (some below) {} name target recursive none =
      b.assemble below (Scope.within {} type.typeName) name target type := by
    unfold bindForm
    rw [hs]
    simp only [bindCompositeOver, bindComposite, enter, List.contains_nil, Bool.and_false,
      Bool.false_eq_true, if_false, pure_bind, if_true]
    refine (bind_congr fun bound => ?_).trans (bind_pure _)
    cases bound <;> rfl
  simp only [passesOver, bne_self_eq_false, Bool.and_false, Bool.false_eq_true, if_false, pure_bind,
    hform]
  exact .refl _

/-- Under handlers that recover from nothing, what a name yields is what its shape does. -/
theorem bindVisit_yields_of_unforgiving {below : Option BindBelow} {target : Target}
    {recursive : Bool} {Q : Option Value → Prop} (hh : b.handler.Unforgiving)
    (h : (b.bindShape below scope name target recursive).Yields Q) :
    (b.bindVisit below scope name target recursive false).Yields Q := by
  have hhandled : (b.bindHandled below scope name target recursive false).Yields Q := by
    unfold bindHandled
    simp only [hh.onStart, hh.onSuccess]
    refine h.bind fun bound hbound => ?_
    cases bound with
    | some v => exact .after _ fun _ => .ret hbound
    | none => exact .ret hbound
  unfold bindVisit
  simp only [hh.onFailure]
  refine hhandled.attempt.bind fun r hr => ?_
  cases r with
  | ok result => exact .after _ fun _ => .ret (hr result rfl)
  | error e => exact .after _ fun _ => .raise e

/-- Without handlers, what a name yields is what its shape does. -/
theorem bindVisit_yields {below : Option BindBelow} {target : Target} {recursive : Bool}
    {Q : Option Value → Prop} (hh : b.handler = .default)
    (h : (b.bindShape below scope name target recursive).Yields Q) :
    (b.bindVisit below scope name target recursive false).Yields Q :=
  bindVisit_yields_of_unforgiving (.of_default hh) h

/-- Without handlers, a name comes to what its shape does. -/
theorem bindVisit_gives {below : Option BindBelow} {target : Target} {recursive create : Bool}
    {r : Except BindError (Option Value)} (hh : b.handler = .default)
    (hs : (b.bindShape below scope name target recursive).Gives r)
    (hr : create = true → r ≠ .ok none) :
    (b.bindVisit below scope name target recursive create).Gives r := by
  have hhandled : (b.bindHandled below scope name target recursive create).Gives r := by
    unfold bindHandled
    simp only [hh, Handler.onStart, Handler.onSuccess, Handler.onCreate]
    refine Gives.bind (.ret _) ?_
    cases r with
    | error e => exact Gives.bind_error hs
    | ok bound =>
      refine Gives.bind hs ?_
      cases bound with
      | some v => exact Gives.bind (.note _) (Gives.bind (.ret _) (.ret _))
      | none =>
        cases create
        · exact .ret _
        · exact absurd rfl (hr rfl)
  unfold bindVisit
  simp only [hh, Handler.onFinish, Handler.onFailure]
  refine hhandled.attempt.bind ?_
  cases r with
  | error e => exact Gives.bind (.note _) (.raise _)
  | ok bound => exact Gives.bind (.ret _) (.ret _)

/-- Without handlers, what a name comes to is what its shape does, from the same journal. -/
theorem runFrom_bindVisit (hh : b.handler = .default) (below : Option BindBelow) (target : Target)
    (recursive : Bool) (j : Journal) :
    ((b.bindVisit below scope name target recursive false).runFrom j).1 =
      ((b.bindShape below scope name target recursive).runFrom j).1 := by
  have hhandled : ((b.bindHandled below scope name target recursive false).runFrom j).1 =
      ((b.bindShape below scope name target recursive).runFrom j).1 := by
    unfold bindHandled
    simp only [hh, Handler.onStart, Handler.onSuccess, pure_bind, if_true]
    rcases hrun : (b.bindShape below scope name target recursive).runFrom j with ⟨r, k⟩
    cases r with
    | error e => rw [runFrom_bind_error hrun]
    | ok bound =>
      rw [runFrom_bind_ok hrun]
      cases bound <;> rfl
  unfold bindVisit
  simp only [hh, Handler.onFinish, Handler.onFailure, pure_bind]
  rw [runFrom_bind_ok (runFrom_attempt _), hhandled]
  cases ((b.bindShape below scope name target recursive).runFrom j).1 <;> rfl

/-! ## A whole bind -/

/-- The way down, with so many levels left below it. -/
def descend (b : Binder) (levels : Nat) : BindBelow := fun scope name target recursive =>
  b.bindAt levels scope name target recursive false

/-- The way one level down, with so many levels left. -/
def way (b : Binder) : Nat → Option BindBelow
  | 0 => none
  | levels + 1 => some (b.descend levels)

/-- Binding with so many levels left is binding one name with the way down. -/
theorem bindAt_eq_bindVisit (b : Binder) (levels : Nat) (scope : Scope) (name : Name)
    (target : Target) (recursive create : Bool) :
    b.bindAt levels scope name target recursive create =
      b.bindVisit (b.way levels) scope name target recursive create := by
  cases levels <;> rfl

theorem descend_eq_bindVisit (b : Binder) (levels : Nat) (scope : Scope) (name : Name)
    (target : Target) (recursive : Bool) :
    b.descend levels scope name target recursive =
      b.bindVisit (b.way levels) scope name target recursive false :=
  b.bindAt_eq_bindVisit levels scope name target recursive false

/-- Without handlers, the result of a bind is what the shape at its root comes to. -/
theorem bindRoot_result (hh : b.handler = .default) (history : List Name) (root : Name)
    (target : Target) :
    (b.bindRoot history root target false).result =
      ((b.bindShape (b.way b.options.maxDepth) {} root target false).runFrom
        { bound := history }).1.mapError (.bind root) := by
  rw [← runFrom_bindVisit hh, ← bindAt_eq_bindVisit]
  rfl

/-- A bind ends well exactly if the run at its root does. -/
theorem bindRoot_ok_iff {history : List Name} {root : Name} {target : Target} {create : Bool}
    {r : Option Value} :
    (b.bindRoot history root target create).result = .ok r ↔
      ((b.bindAt b.options.maxDepth {} root target false create).runFrom
        { bound := history }).1 = .ok r := by
  unfold bindRoot Report.ofRun
  rcases (b.bindAt b.options.maxDepth {} root target false create).runFrom
    { bound := history } with ⟨outcome, journal⟩
  cases outcome with
  | error e => constructor <;> (intro h; cases h)
  | ok v => constructor <;> exact fun h => congrArg Except.ok (Except.ok.inj h)

/-- A bind fails exactly if the run at its root does, of the same. -/
theorem bindRoot_error_iff {history : List Name} {root : Name} {target : Target} {create : Bool}
    {e : BindError} : (b.bindRoot history root target create).result = .error (.bind root e) ↔
      ((b.bindAt b.options.maxDepth {} root target false create).runFrom
        { bound := history }).1 = .error e := by
  unfold bindRoot Report.ofRun
  rcases (b.bindAt b.options.maxDepth {} root target false create).runFrom
    { bound := history } with ⟨outcome, journal⟩
  cases outcome with
  | error e' =>
    refine ⟨fun h => ?_, fun h => ?_⟩ <;> cases h <;> rfl
  | ok v => constructor <;> (intro h; cases h)

/-- What a run at a root yields holds of the result of a bind. -/
theorem bindRoot_yields {history : List Name} {root : Name} {target : Target} {create : Bool}
    {r : Option Value} {Q : Option Value → Prop}
    (hq : (b.bindAt b.options.maxDepth {} root target false create).Yields Q)
    (h : (b.bindRoot history root target create).result = .ok r) : Q r :=
  hq _ _ _ (Prod.ext (bindRoot_ok_iff.mp h) rfl)

end Binder

end TypedConfig
