import TypedConfig.Proofs.Bind.Fields
import TypedConfig.Proofs.Bind.Memoryless

/-!
# Ignored failures

Where failures are ignored, a value that does not convert counts for nothing: its field keeps what the
instance holds for it. That is put in as if it had been bound, which changes nothing unless it is the
only thing that was found for the bean.

* `BindM.GivesNoting`: what a step comes to, and the names that it notes as bound.
* `Handler.Tolerant`: the handlers that make every failure into the value that is there.
* `Binder.fieldValue?`, `Binder.change?`: the value of a field, and what is put in for it.
* `Binder.bindFields_tolerant`: all fields, one after the other.
* `Binder.bindRoot_tolerant`: a whole bind of a bean of scalars.
-/

namespace TypedConfig

/-! ## What a step gives and notes -/

namespace BindM

variable {α β : Type}

/-- The outcome of `x`, and the names that it notes as bound, the latest first, whatever was noted
before. -/
def GivesNoting (x : BindM α) (r : Except BindError α) (names : List Name) : Prop :=
  ∀ j, (x.runFrom j).1 = r ∧ (x.runFrom j).2.bound = names ++ j.bound

namespace GivesNoting

variable {x : BindM α} {f : α → BindM β} {r : Except BindError β} {names more : List Name}

theorem ret (a : α) : (pure a : BindM α).GivesNoting (.ok a) [] := fun _ => ⟨rfl, rfl⟩

theorem raise (e : BindError) : (throw e : BindM α).GivesNoting (.error e) [] := fun _ => ⟨rfl, rfl⟩

/-- Notes of another kind. -/
theorem note {f : Journal → Journal} (h : ∀ j, (f j).bound = j.bound) :
    (modify f : BindM Unit).GivesNoting (.ok ()) [] := fun j => ⟨rfl, h j⟩

theorem noteBound (name : Name) : (Journal.noteBound name).GivesNoting (.ok ()) [name] :=
  fun _ => ⟨rfl, rfl⟩

theorem bind {a : α} (hx : x.GivesNoting (.ok a) names) (hf : (f a).GivesNoting r more) :
    (x >>= f).GivesNoting r (more ++ names) := by
  intro j
  obtain ⟨hr, hnames⟩ := hx j
  rw [runFrom_bind_ok (Prod.ext hr rfl)]
  obtain ⟨hr', hmore⟩ := hf (x.runFrom j).2
  exact ⟨hr', by rw [hmore, hnames, List.append_assoc]⟩

/-- A first step that notes nothing. -/
theorem after {a : α} (hx : x.GivesNoting (.ok a) []) (hf : (f a).GivesNoting r names) :
    (x >>= f).GivesNoting r names := by
  simpa using hx.bind hf

/-- A second step that notes nothing. -/
theorem before {a : α} (hx : x.GivesNoting (.ok a) names) (hf : (f a).GivesNoting r []) :
    (x >>= f).GivesNoting r names := hx.bind hf

theorem bind_error {e : BindError} (hx : x.GivesNoting (.error e) names) :
    (x >>= f).GivesNoting (.error e) names := by
  intro j
  obtain ⟨hr, hnames⟩ := hx j
  rw [runFrom_bind_error (Prod.ext hr rfl)]
  exact ⟨rfl, hnames⟩

theorem attempt {r : Except BindError α} (hx : x.GivesNoting r names) :
    (BindM.attempt x).GivesNoting (.ok r) names := by
  intro j
  obtain ⟨hr, hnames⟩ := hx j
  rw [runFrom_attempt]
  exact ⟨by rw [hr], hnames⟩

theorem gives {r : Except BindError α} (hx : x.GivesNoting r names) : x.Gives r :=
  fun j => (hx j).1

end GivesNoting

end BindM

/-! ## Tolerant handlers -/

namespace Handler

/-- The handlers that make every failure into the value that is there. Leftovers they may refuse. -/
structure Tolerant (handler : Handler) : Prop where
  builtin : handler.Builtin
  onFailure : ∀ v e, handler.onFailure v e = pure v.target.existing?

theorem Tolerant.ignoreErrors : (ignoreErrors .default).Tolerant :=
  ⟨.ignoreErrors .default, fun _ _ => rfl⟩

theorem Tolerant.noUnbound {parent : Handler} (h : parent.Tolerant) : (noUnbound parent).Tolerant :=
  ⟨.noUnbound h.builtin, h.onFailure⟩

end Handler

namespace Binder

open BindM Keyed

variable {b : Binder} {level : Option BindBelow} {scope : Scope} {name root : Name} {target : Target}
  {kind : ScalarKind} {field : Field Shape}

/-! ## Scalars -/

/-- The property in the first source that has it. -/
def first? (b : Binder) (name : Name) : Option Property := b.sources.findSome? (·.get? name)

/-- The first value that a source holds under a name, if it converts. -/
def converted? (b : Binder) (kind : ScalarKind) (name : Name) : Option Value :=
  (b.first? name).bind fun p => (b.converter.convert kind p.value).toOption

theorem lookUp_givesNoting (ho : scope.only = none) :
    (b.lookUp scope name).GivesNoting (.ok (b.first? name)) [] := by
  have hfirst : b.first? name = (b.visible scope).findSome? fun origin => origin.2.get? name := by
    rw [first?, ← map_visible ho, List.findSome?_map]
    rfl
  rw [hfirst]
  exact GivesNoting.after (.note fun _ => rfl) (.ret _)

/-- A scalar is the first value that is held, converted. An empty name has none. -/
theorem bindShape_scalar (hs : b.resolve target.shape = .scalar kind) (ho : scope.only = none)
    (ht : target.nestedOnly = false) (hname : name.isEmpty = true → b.first? name = none) :
    (b.bindShape level scope name target false).GivesNoting
      (match b.first? name with
        | none => .ok none
        | some p => match b.converter.convert kind p.value with
          | .ok v => .ok (some v)
          | .error e => .error (.conversion p kind.display (.scalar e))) [] := by
  have hdirect : (b.directProperty scope name target).GivesNoting (.ok (b.first? name)) [] := by
    unfold directProperty
    rw [ht]
    cases hempty : name.isEmpty with
    | true =>
      rw [hname hempty]
      exact .ret none
    | false => exact lookUp_givesNoting ho
  rw [bindShape_eq]
  refine hdirect.after ?_
  cases b.first? name with
  | none =>
    obtain ⟨passed, hpassed⟩ : ∃ passed,
        (b.passesOver scope name none).GivesNoting (.ok passed) [] := by
      unfold passesOver
      split
      · exact ⟨_, GivesNoting.after (.note fun _ => rfl) (.ret _)⟩
      · exact ⟨_, .ret false⟩
    refine hpassed.after ?_
    unfold bindForm
    rw [hs]
    cases passed <;> exact .ret none
  | some p =>
    have hpassed : b.passesOver scope name (some p) = pure false := by simp [passesOver]
    rw [hpassed]
    unfold bindForm convertProperty
    rw [hs]
    simp only [pure_bind, Bool.false_eq_true, if_false]
    cases b.converter.convert kind p.value with
    | ok v => exact GivesNoting.after (GivesNoting.after (.note fun _ => rfl) (.ret v)) (.ret _)
    | error e => exact GivesNoting.bind_error (.raise _)

/-- Below the root, a tolerant handler makes a scalar that does not convert into the value that is
there. Only one that converts is noted as bound. -/
theorem bindVisit_scalar (hh : b.handler.Tolerant) (hs : b.resolve target.shape = .scalar kind)
    (hd : scope.depth ≠ 0) (ho : scope.only = none) (ht : target.nestedOnly = false)
    (hname : name.isEmpty = true → b.first? name = none) :
    (b.bindVisit level scope name target false false).GivesNoting
      (.ok (if (b.first? name).isSome then (b.converted? kind name).or target.existing? else none))
      (if (b.converted? kind name).isSome then [name] else []) := by
  have hshape := @bindShape_scalar _ level _ _ _ _ hs ho ht hname
  unfold bindVisit bindHandled
  simp only [hh.builtin.onStart, hh.builtin.onSuccess, pure_bind, if_true, hh.onFailure,
    hh.builtin.onFinish_below (v := b.visit scope name target) hd]
  unfold converted?
  cases hp : b.first? name with
  | none =>
    simp only [hp] at hshape
    refine GivesNoting.after (GivesNoting.attempt (GivesNoting.after hshape (.ret none))) ?_
    exact .ret none
  | some p =>
    simp only [hp] at hshape
    cases hc : b.converter.convert kind p.value with
    | ok v =>
      simp only [hc] at hshape
      simp only [Option.isSome_some, Option.bind_some, hc, Except.toOption, Option.some_or, if_true]
      refine GivesNoting.before (GivesNoting.attempt (GivesNoting.after hshape
        (GivesNoting.before (.noteBound name) (.ret _)))) ?_
      exact .ret _
    | error e =>
      simp only [hc] at hshape
      simp only [Option.isSome_some, Option.bind_some, hc, Except.toOption, Option.none_or, if_true]
      refine GivesNoting.after (GivesNoting.attempt hshape.bind_error) ?_
      exact GivesNoting.after (.note fun _ => rfl) (.ret _)

/-! ## Fields -/

/-- The first value that a source holds for a field, if it converts. -/
def fieldValue? (b : Binder) (name : Name) (field : Field Shape) : Option Value :=
  match name.extend? (Name.dashed field.name), b.resolve field.shape with
  | .ok child, .scalar kind => b.converted? kind child
  | _, _ => none

/-- Some source holds a value for a field. -/
def holdsField (b : Binder) (name : Name) (field : Field Shape) : Bool :=
  match name.extend? (Name.dashed field.name) with
  | .ok child => (b.first? child).isSome
  | .error _ => false

/-- What is put in for a field: its value, or what the instance holds if the value does not convert. -/
def change? (b : Binder) (name : Name) (built : Fields) (field : Field Shape) : Option Value :=
  if b.holdsField name field then (b.fieldValue? name field).or (heldFor field built) else none

/-- An instance after one field more, and whether anything was put in. -/
def tolerate (b : Binder) (name : Name) (so : Fields × Bool) (field : Field Shape) : Fields × Bool :=
  (insert? field.name (b.change? name so.1 field) so.1, so.2 || (b.change? name so.1 field).isSome)

variable {below : BindBelow} {typeName : String} {child : Name} {fields : List (Field Shape)}
  {built : Fields} {any : Bool}

/-- The name of a field is not empty, or it is that of the bean. -/
theorem first?_of_isEmpty {id : String} (hget : ∀ s ∈ b.sources, s.get? name = none)
    (hchild : name.extend? id = .ok child) (h : child.isEmpty = true) : b.first? child = none := by
  obtain ⟨k, -, rfl⟩ := Name.exists_of_extend? hchild
  have hempty : name.elements = [] ∧ k.elements = [] := by simpa [Name.isEmpty] using h
  have hsame : name ++ k = name :=
    congrArg Name.mk (show name.elements ++ k.elements = name.elements by simp [hempty])
  rw [hsame]
  exact List.findSome?_eq_none_iff.mpr hget

/-- The value that an instance holds for a field is there for it. -/
theorem existing?_heldFor (field : Field Shape) (built : Fields) :
    ((Target.of field.shape).withExisting (heldFor field built)).existing? = heldFor field built := by
  cases h : heldFor field built with
  | none => rfl
  | some v =>
    obtain ⟨-, hv⟩ := Option.filter_eq_some_iff.mp h
    simp [Target.withExisting, Target.existing?, hv]

/-- The fields can be set and have a name and a scalar each. -/
structure Settable (b : Binder) (name : Name) (field : Field Shape) : Prop where
  scalar : (b.resolve field.shape).isScalar = true
  writable : field.writable = true
  named : ∃ child, name.extend? (Name.dashed field.name) = .ok child

theorem bindField_tolerant (hh : b.handler.Tolerant) (hd : scope.depth ≠ 0)
    (ho : scope.only = none) (hget : ∀ s ∈ b.sources, s.get? name = none)
    (hf : b.Settable name field) (levels : Nat) :
    (b.bindField (b.descend levels) scope name typeName field (heldFor field built)).Gives
      (.ok ((b.change? name built field).map some)) := by
  obtain ⟨child, hchild⟩ := hf.named
  cases hs : b.resolve field.shape with
  | scalar kind =>
    have hvisit := (@bindVisit_scalar b (b.way levels) scope child
      ((Target.of field.shape).withExisting (heldFor field built)) kind hh (by simpa using hs) hd ho
      (by simp) (first?_of_isEmpty hget hchild)).gives
    rw [existing?_heldFor] at hvisit
    have hchange : (if (b.first? child).isSome then (b.converted? kind child).or (heldFor field built)
        else none) = b.change? name built field := by
      simp [change?, holdsField, fieldValue?, hchild, hs]
    rw [hchange] at hvisit
    unfold bindField
    simp only [descend_eq_bindVisit]
    refine (childName_gives hchild).bind (hvisit.bind ?_)
    cases b.change? name built field with
    | none => exact .ret none
    | some v =>
      simp only [mayTake, hf.writable, Bool.true_or, if_true, Bool.not_true, Bool.false_and,
        Bool.false_eq_true, if_false]
      exact .ret _
  | _ =>
    have hscalar := hf.scalar
    rw [hs] at hscalar
    cases hscalar

/-- By induction on the fields. None of them stops the others. -/
theorem bindFields_tolerant (hh : b.handler.Tolerant) (hd : scope.depth ≠ 0)
    (ho : scope.only = none) (hget : ∀ s ∈ b.sources, s.get? name = none)
    (hf : ∀ f ∈ fields, b.Settable name f) (levels : Nat) :
    (b.bindFields (b.descend levels) scope name typeName fields built any).Gives
      (.ok (fields.foldl (b.tolerate name) (built, any))) := by
  induction fields generalizing built any with
  | nil => exact .ret _
  | cons field rest ih =>
    obtain ⟨hfield, hrest⟩ := List.forall_mem_cons.mp hf
    rw [bindFields_cons]
    refine (bindField_tolerant hh hd ho hget hfield levels).bind ?_
    have hnext : b.tolerate name (built, any) field =
        (insert? field.name ((b.change? name built field).map some).join built,
          any || ((b.change? name built field).map some).isSome) := by
      unfold tolerate
      cases b.change? name built field <;> rfl
    rw [List.foldl_cons, hnext]
    exact ih hrest

/-! ## What is there afterwards -/

theorem fieldValue?_of_not_holds (h : b.holdsField name field = false) :
    b.fieldValue? name field = none := by
  unfold holdsField at h
  unfold fieldValue? converted?
  split
  · rename_i child kind hchild hs
    simp_all
  · rfl

/-- A field has its value afterwards, and else what it had before. -/
theorem find?_tolerate_self (so : Fields × Bool) :
    find? field.name (b.tolerate name so field).1 =
      (b.fieldValue? name field).or (find? field.name so.1) := by
  unfold tolerate change?
  cases hholds : b.holdsField name field with
  | false => simp [insert?, fieldValue?_of_not_holds hholds]
  | true =>
    cases hv : b.fieldValue? name field with
    | some v => simp [insert?, find?_insert_self]
    | none =>
      cases hheld : heldFor field so.1 with
      | none => simp [insert?]
      | some v =>
        have hfound : find? field.name so.1 = some v := (Option.filter_eq_some_iff.mp hheld).1
        simp [insert?, find?_insert_self, hfound]

theorem find?_tolerate_of_ne {key : String} (h : field.name ≠ key) (so : Fields × Bool) :
    find? key (b.tolerate name so field).1 = find? key so.1 :=
  find?_insert?_of_ne h _ _

theorem find?_tolerate_of_not_mem {key : String} (h : key ∉ fields.map (·.name))
    (so : Fields × Bool) : find? key (fields.foldl (b.tolerate name) so).1 = find? key so.1 := by
  induction fields generalizing so with
  | nil => rfl
  | cons field rest ih =>
    simp only [List.map_cons, List.mem_cons, not_or] at h
    rw [List.foldl_cons, ih h.2, find?_tolerate_of_ne (Ne.symm h.1)]

/-- By induction on the fields. No field touches another. -/
theorem find?_tolerate_of_mem (hn : (fields.map (·.name)).Nodup) (hf : field ∈ fields)
    (so : Fields × Bool) : find? field.name (fields.foldl (b.tolerate name) so).1 =
      (b.fieldValue? name field).or (find? field.name so.1) := by
  induction fields generalizing so with
  | nil => cases hf
  | cons first rest ih =>
    obtain ⟨hfirst, hrest⟩ := List.nodup_cons.mp hn
    rw [List.foldl_cons]
    rcases List.mem_cons.mp hf with rfl | hf
    · rw [find?_tolerate_of_not_mem hfirst, find?_tolerate_self]
    · have hne : first.name ≠ field.name := fun heq =>
        hfirst (List.mem_map.mpr ⟨field, hf, heq.symm⟩)
      rw [ih hrest hf, find?_tolerate_of_ne hne]

/-- Something is put in exactly if something is put in for one of the fields. -/
theorem tolerate_any_iff (hn : (fields.map (·.name)).Nodup) (so : Fields × Bool) :
    (fields.foldl (b.tolerate name) so).2 = true ↔
      so.2 = true ∨ ∃ f ∈ fields, (b.change? name so.1 f).isSome = true := by
  induction fields generalizing so with
  | nil => simp
  | cons first rest ih =>
    obtain ⟨hfirst, hrest⟩ := List.nodup_cons.mp hn
    have hsame : ∀ f ∈ rest, b.change? name (b.tolerate name so first).1 f =
        b.change? name so.1 f := fun f hf => by
      have hne : first.name ≠ f.name := fun heq => hfirst (List.mem_map.mpr ⟨f, hf, heq.symm⟩)
      unfold change? heldFor
      rw [find?_tolerate_of_ne hne]
    have hothers : (∃ f ∈ rest, (b.change? name (b.tolerate name so first).1 f).isSome = true) ↔
        ∃ f ∈ rest, (b.change? name so.1 f).isSome = true :=
      exists_congr fun f => and_congr_right fun hf => by rw [hsame f hf]
    rw [List.foldl_cons, ih hrest, hothers, List.exists_mem_cons_iff, ← or_assoc]
    simp [tolerate]

/-! ## A whole bind -/

variable {type : Composite Shape}

/-- What a bean comes to where failures are ignored. -/
def tolerated (b : Binder) (name : Name) (target : Target) (type : Composite Shape) : Option Value :=
  let so := type.fields.foldl (b.tolerate name) (type.base target, false)
  if target.method = some .constructor then none
  else if so.2 then some (.map so.1) else none

theorem assemble_tolerant (hh : b.handler.Tolerant) (hd : scope.depth ≠ 0)
    (ho : scope.only = none) (hget : ∀ s ∈ b.sources, s.get? name = none) (hk : type.kind = .bean)
    (hc : type.constructors = []) (hf : ∀ f ∈ type.fields, b.Settable name f) (levels : Nat) :
    (b.assemble (b.descend levels) scope name target type).Gives
      (.ok (b.tolerated name target type)) := by
  rw [assemble_of_nil hc]
  unfold tolerated
  split
  · exact .ret none
  · unfold bindOnInstance
    rw [type.baseInstance_of_bean hk]
    exact (bindFields_tolerant hh hd ho hget hf levels).bind (.ret _)

/-- A bean comes to something exactly if something is put in. -/
theorem tolerated_isSome_iff (hn : (type.fields.map (·.name)).Nodup)
    (hm : target.method ≠ some .constructor) : (b.tolerated name target type).isSome = true ↔
      ∃ f ∈ type.fields, (b.change? name (type.base target) f).isSome = true := by
  have hany := @tolerate_any_iff b name type.fields hn (type.base target, false)
  unfold tolerated
  rw [if_neg hm]
  simpa using hany

/-- What a bean comes to has the values of its fields, and else what was there before. -/
theorem exists_map_of_tolerated {v : Value} (hn : (type.fields.map (·.name)).Nodup)
    (h : b.tolerated name target type = some v) :
    ∃ m, v = .map m ∧
      (∀ f ∈ type.fields,
        find? f.name m = (b.fieldValue? name f).or (find? f.name (type.base target))) ∧
      ∀ key ∉ type.fields.map (·.name), find? key m = find? key (type.base target) := by
  unfold tolerated at h
  simp only at h
  split at h
  · cases h
  · split at h
    · cases h
      exact ⟨_, rfl, fun f hf => find?_tolerate_of_mem hn hf _,
        fun key hkey => find?_tolerate_of_not_mem hkey _⟩
    · cases h

theorem extend?_of_isValid {id : String} (h : Name.isValid id = true) (name : Name) :
    ∃ child, name.extend? id = .ok child := by
  unfold Name.isValid at h
  unfold Name.extend?
  cases hk : Name.parse id with
  | ok k => exact ⟨name ++ k, rfl⟩
  | error e =>
    rw [hk] at h
    cases h

/-- Where failures are ignored, binding a bean of scalars never fails. It binds something exactly if a
value converts, or one that does not is put in again because the instance has a value there. Then each
field has the first value that is held for it, if that converts, and else what it had before, and so
have all keys that are no fields. -/
theorem bindRoot_tolerant (hh : b.handler = .ignoreErrors .default) (hdepth : 1 ≤ b.options.maxDepth)
    (hget : ∀ s ∈ b.sources, s.get? root = none) (hs : b.resolve target.shape = .composite type)
    (hb : type.FilledBean) (hscalar : ∀ f ∈ type.fields, (b.resolve f.shape).isScalar = true)
    (hwritable : ∀ f ∈ type.fields, f.writable = true)
    (hvalid : ∀ f ∈ type.fields, Name.isValid (Name.dashed f.name) = true) (history : List Name) :
    let base := type.base target
    ∃ r, (b.bindRoot history root target false).result = .ok r ∧
      (target.method ≠ some .constructor →
        (r.isSome = true ↔ ∃ f ∈ type.fields, (b.change? root base f).isSome = true)) ∧
      ∀ v, r = some v → ∃ m, v = .map m ∧
        (∀ f ∈ type.fields, find? f.name m = (b.fieldValue? root f).or (find? f.name base)) ∧
        ∀ key ∉ type.fields.map (·.name), find? key m = find? key base := by
  obtain ⟨levels, hlevels⟩ := Nat.exists_eq_add_of_le' hdepth
  have htolerant : b.handler.Tolerant := hh ▸ .ignoreErrors
  have hmemoryless : b.handler.Memoryless := hh ▸ .ignoreErrors .default
  have hf : ∀ f ∈ type.fields, b.Settable root f := fun f hf =>
    ⟨hscalar f hf, hwritable f hf, extend?_of_isValid (hvalid f hf) root⟩
  have hrun : (b.bindAt b.options.maxDepth {} root target false false).Gives
      (.ok (b.tolerated root target type)) := by
    rw [hlevels]
    refine bindVisit_gives_of_memoryless hmemoryless ((bindShape_leadsTo_assemble hs hget).gives ?_)
    exact assemble_tolerant htolerant (Nat.succ_ne_zero 0) rfl hget hb.kind hb.constructors hf levels
  exact ⟨_, bindRoot_ok_iff.mpr (hrun _), tolerated_isSome_iff hb.names,
    fun v => exists_map_of_tolerated hb.names⟩

/-- A bean of a queue. -/
def queueBean : Composite Shape :=
  ⟨"Queue", .bean, false, [], [⟨"maxSize", .scalar (.int 0 99), true⟩, ⟨"topic", .scalar .string, true⟩,
    ⟨"label", .scalar .string, true⟩, ⟨"retries", .scalar (.int 0 9), true⟩], none⟩

/-- Of a queue that is there, the size and the topic that are held do not convert, a label is found, and
no retries. The queue has a label now, and is else as it was. -/
theorem bindRoot_tolerant_queue :
    let layer := Entries.ofList [("queue.max-size", .string "many"), ("queue.topic", .list []),
      ("queue.label", .string "main")]
    let b : Binder := { sources := [.entries "test" layer], handler := .ignoreErrors .default }
    let held : Fields := [("maxSize", .int 8), ("topic", .null), ("retries", .int 2),
      ("owner", .string "me")]
    let target := (Target.of (.composite queueBean)).withExisting (some (.map held))
    ∃ m, (b.bindRoot [] (Name.adapt "queue" '.') target false).result = .ok (some (.map m)) ∧
      find? "maxSize" m = some (.int 8) ∧ find? "topic" m = some .null ∧
      find? "label" m = some (.string "main") ∧ find? "retries" m = some (.int 2) ∧
      find? "owner" m = some (.string "me") := by
  intro layer b held target
  obtain ⟨r, hr, hsome, hmap⟩ := @bindRoot_tolerant b (Name.adapt "queue" '.') target queueBean rfl
    (by decide) (List.forall_mem_singleton.mpr rfl) rfl ⟨rfl, rfl, by decide⟩ (by decide) (by decide)
    (by decide +kernel) []
  have hbound : r.isSome = true :=
    (hsome (by decide)).mpr ⟨⟨"label", .scalar .string, true⟩, .tail _ (.tail _ (.head _)), rfl⟩
  obtain ⟨v, hv⟩ := Option.isSome_iff_exists.mp hbound
  obtain ⟨m, rfl, hfields, hothers⟩ := hmap v hv
  obtain ⟨hsize, htopic, hlabel, hretries⟩ := List.forall_iff_forall_mem.mpr hfields
  refine ⟨m, hv ▸ hr, hsize, htopic, hlabel, hretries, hothers "owner" (by decide)⟩

end Binder

end TypedConfig
