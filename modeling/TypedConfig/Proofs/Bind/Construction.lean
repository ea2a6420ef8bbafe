import TypedConfig.Proofs.Bind.Rebuilding

/-!
# Building from parameters

A record is built by its constructor all at once. Its parameters are bound first, one after the other.
If none of them finds anything, neither does the record. Otherwise each parameter needs a value: the one
that was bound, else the one that is there, else what its default comes to. The first required one
that has none is an error.

* `Argument.given`, `Argument.isMissing`, `Binder.entryOf`: what a parameter comes to.
* `Binder.buildInstance_gives`: an instance is built of all arguments, unless one is missing.
* `Binder.bindRoot_built`: a whole bind of a record.
-/

namespace TypedConfig

/-! ## Arguments -/

/-- The parameter has to be given. -/
def Fallback.isRequired : Fallback → Bool
  | required => true
  | optional | value _ => false

namespace Argument

/-- The value that is given: what was bound, else what is there. -/
def given (arg : Argument) : Option Value := arg.bound.or arg.current

/-- Nothing is given that has to be. -/
def isMissing (arg : Argument) : Bool := arg.given.isNone && arg.param.fallback.isRequired

end Argument

namespace Binder

open BindM

variable {b : Binder} {name : Name} {typeName : String} {target : Target}

/-- What the declared default of a parameter comes to, if there is one and it converts. -/
def default? (b : Binder) (param : Parameter Shape) : Option Value :=
  match param.fallback with
  | .value v =>
    match b.resolve param.shape with
    | .scalar kind => (b.converter.convert kind v).toOption
    | _ => some v
  | .required | .optional => none

/-- The entry of an instance for an argument: what is given, else what the default comes to. -/
def entryOf (b : Binder) (arg : Argument) : Option (String × Value) :=
  (arg.given.or (b.default? arg.param)).map (arg.param.name, ·)

/-- The defaults that are used convert: those of arguments to which nothing is given, before the first
that is missing. -/
def DefaultsConvert (b : Binder) (arguments : List Argument) : Prop :=
  ∀ arg ∈ arguments.takeWhile fun arg => !arg.isMissing, ∀ v, arg.given = none →
    arg.param.fallback = .value v → (b.default? arg.param).isSome = true

theorem convertDefault_gives {param : Parameter Shape} {v w : Value} (hf : param.fallback = .value v)
    (hw : b.default? param = some w) : (b.convertDefault name v param.shape).Gives (.ok w) := by
  unfold default? at hw
  unfold convertDefault
  rw [hf] at hw
  cases hs : b.resolve param.shape with
  | scalar kind =>
    rw [hs] at hw
    cases hc : b.converter.convert kind v with
    | error e =>
      simp only [hc] at hw
      cases hw
    | ok converted =>
      simp only [hc] at hw
      cases hw
      simp only [hc]
      exact .ret w
  | _ =>
    rw [hs] at hw
    cases hw
    exact .ret v

/-! ## Instances -/

variable {arg : Argument} {rest arguments : List Argument} {built : Fields}

theorem buildInstance_cons_required (h : arg.given = none) (hf : arg.param.fallback = .required) :
    b.buildInstance name typeName (arg :: rest) built =
      throw (.missingParameter name arg.param.name typeName) := by
  unfold Argument.given at h
  simp only [buildInstance, h, hf]

/-- What building an instance comes to: the arguments' entries after those that there are, unless one
is missing. -/
def instanceOf (b : Binder) (name : Name) (typeName : String) (arguments : List Argument)
    (built : Fields) : Except BindError Fields :=
  match arguments.find? (·.isMissing) with
  | some arg => .error (.missingParameter name arg.param.name typeName)
  | none => .ok (built ++ arguments.filterMap b.entryOf)

/-- After an argument that is not missing, the other defaults are used. -/
theorem DefaultsConvert.cons (h : b.DefaultsConvert (arg :: rest)) (hm : arg.isMissing = false) :
    (∀ v, arg.given = none → arg.param.fallback = .value v → (b.default? arg.param).isSome = true) ∧
      b.DefaultsConvert rest := by
  unfold DefaultsConvert at h
  rw [List.takeWhile_cons_of_pos (by simp [hm])] at h
  exact List.forall_mem_cons.mp h

/-- An entry for the first argument stands before those for the others. -/
theorem instanceOf_cons_some {v : Value} (hm : arg.isMissing = false)
    (he : b.entryOf arg = some (arg.param.name, v))
    (hnew : Keyed.find? arg.param.name built = none) :
    b.instanceOf name typeName (arg :: rest) built =
      b.instanceOf name typeName rest (Keyed.insert arg.param.name v built) := by
  unfold instanceOf
  rw [List.find?_cons_of_neg (by simp [hm]), List.filterMap_cons_some he,
    Keyed.insert_of_find?_eq_none v hnew]
  simp

/-- An instance is built of arguments for different parameters, by induction on them. Only a missing
one stops that. -/
theorem buildInstance_gives (hd : b.DefaultsConvert arguments)
    (hchild : ∀ arg ∈ arguments, ∃ child, name.extend? (Name.dashed arg.param.name) = .ok child)
    (hn : (arguments.map (·.param.name)).Nodup)
    (hnew : ∀ arg ∈ arguments, Keyed.find? arg.param.name built = none) :
    (b.buildInstance name typeName arguments built).Gives
      (b.instanceOf name typeName arguments built) := by
  induction arguments generalizing built with
  | nil =>
    unfold instanceOf buildInstance
    simp only [List.find?_nil, List.filterMap_nil, List.append_nil]
    exact .ret built
  | cons arg rest ih =>
    obtain ⟨⟨child, hname⟩, hchild⟩ := List.forall_mem_cons.mp hchild
    obtain ⟨hfresh, hnew⟩ := List.forall_mem_cons.mp hnew
    obtain ⟨hother, hn⟩ := List.nodup_cons.mp hn
    -- What is put in for the first leaves the place of the others free.
    have hput : ∀ v, b.DefaultsConvert rest → (b.buildInstance name typeName rest
        (Keyed.insert arg.param.name v built)).Gives
          (b.instanceOf name typeName rest (Keyed.insert arg.param.name v built)) := by
      refine fun v hd => ih hd hchild hn fun a ha => ?_
      have hne : arg.param.name ≠ a.param.name := fun heq =>
        hother (List.mem_map.mpr ⟨a, ha, heq.symm⟩)
      rw [Keyed.find?_insert_of_ne hne]
      exact hnew a ha
    cases hg : arg.given with
    | some v =>
      have hm : arg.isMissing = false := by simp [Argument.isMissing, hg]
      have he : b.entryOf arg = some (arg.param.name, v) := by simp [entryOf, hg]
      rw [buildInstance_cons_some hg, instanceOf_cons_some hm he hfresh]
      exact hput v (hd.cons hm).2
    | none =>
      cases hf : arg.param.fallback with
      | required =>
        have hm : arg.isMissing = true := by simp [Argument.isMissing, hg, hf, Fallback.isRequired]
        rw [buildInstance_cons_required hg hf]
        unfold instanceOf
        rw [List.find?_cons_of_pos hm]
        exact .raise _
      | optional =>
        have hm : arg.isMissing = false := by simp [Argument.isMissing, hf, Fallback.isRequired]
        have he : b.entryOf arg = none := by simp [entryOf, hg, default?, hf]
        rw [buildInstance_cons_optional hg hf]
        unfold instanceOf
        rw [List.find?_cons_of_neg (by simp [hm]), List.filterMap_cons_none he]
        exact ih (hd.cons hm).2 hchild hn hnew
      | value v =>
        have hm : arg.isMissing = false := by simp [Argument.isMissing, hf, Fallback.isRequired]
        obtain ⟨hdefault, hd⟩ := hd.cons hm
        obtain ⟨w, hw⟩ := Option.isSome_iff_exists.mp (hdefault v hg hf)
        have he : b.entryOf arg = some (arg.param.name, w) := by simp [entryOf, hg, hw]
        rw [buildInstance_cons_value hg hf, instanceOf_cons_some hm he hfresh]
        exact (childName_gives hname).bind ((convertDefault_gives hf hw).bind (hput w hd))

/-! ## Parameters -/

variable {below : BindBelow} {scope : Scope} {param : Parameter Shape}
  {params : List (Parameter Shape)}

/-- Binds a parameter on top of the value that is there for it. -/
def bindParameter (below : BindBelow) (scope : Scope) (name : Name) (target : Target)
    (param : Parameter Shape) : BindM (Option Value) := do
  let child ← childName name param.name
  below scope child ((Target.of param.shape).withExisting (target.existingField? param.name)) false

/-- The argument for a parameter, of what was bound for it and what is there. -/
def argument (target : Target) (bound : Parameter Shape → Option Value) (param : Parameter Shape) :
    Argument :=
  ⟨param, bound param, target.existingField? param.name⟩

/-- The parameters are bound one by one. -/
theorem bindParameters_cons (rest : List (Parameter Shape)) :
    bindParameters below scope name target (param :: rest) = (do
      let found ← bindParameter below scope name target param
      return ⟨param, found, target.existingField? param.name⟩ ::
        (← bindParameters below scope name target rest)) := by
  simp only [bindParameters, bindParameter, bind_assoc]

theorem bindParameters_gives {bound : Parameter Shape → Option Value}
    (h : ∀ p ∈ params, (bindParameter below scope name target p).Gives (.ok (bound p))) :
    (bindParameters below scope name target params).Gives
      (.ok (params.map (argument target bound))) := by
  induction params with
  | nil => exact .ret []
  | cons param rest ih =>
    obtain ⟨hparam, hrest⟩ := List.forall_mem_cons.mp h
    rw [bindParameters_cons]
    exact hparam.bind ((ih hrest).bind (.ret _))

/-! ## Records -/

variable {type : Composite Shape} {ctor : Constructor Shape} {bound : Parameter Shape → Option Value}

/-- What binding a record through its constructor comes to. -/
def constructed (b : Binder) (name : Name) (typeName : String) (arguments : List Argument) :
    Except BindError (Option Value) :=
  if arguments.any (·.bound.isSome) then
    (b.instanceOf name typeName arguments []).map fun built => some (.map built)
  else .ok none

/-- A parameter that is bound has a name. -/
theorem extend?_of_bindParameter {r : Option Value}
    (h : (bindParameter below scope name target param).Gives (.ok r)) :
    ∃ child, name.extend? (Name.dashed param.name) = .ok child := by
  cases hchild : name.extend? (Name.dashed param.name) with
  | ok child => exact ⟨child, rfl⟩
  | error e =>
    have hfails : (bindParameter below scope name target param).Gives (.error (.invalidName e)) := by
      unfold bindParameter childName
      rw [hchild]
      exact Gives.bind_error (.raise _)
    cases (h {}).symm.trans (hfails {})

theorem bindThrough_gives
    (h : ∀ p ∈ ctor.params, (bindParameter below scope.forConstructor name target p).Gives
      (.ok (bound p)))
    (hd : (ctor.params.map (argument target bound)).any (·.bound.isSome) →
      b.DefaultsConvert (ctor.params.map (argument target bound)))
    (hn : (ctor.params.map (·.name)).Nodup) :
    (b.bindThrough ctor below scope name target typeName).Gives
      (b.constructed name typeName (ctor.params.map (argument target bound))) := by
  unfold bindThrough constructed
  refine (bindParameters_gives h).bind ?_
  split
  · rename_i hany
    have hbuilt : (b.buildInstance name typeName (ctor.params.map (argument target bound)) []).Gives
        (b.instanceOf name typeName (ctor.params.map (argument target bound)) []) := by
      refine buildInstance_gives (hd hany) (fun arg harg => ?_) ?_ fun _ _ => rfl
      · obtain ⟨p, hp, rfl⟩ := List.mem_map.mp harg
        exact extend?_of_bindParameter (h p hp)
      · rw [List.map_map]
        exact hn
    cases hr : b.instanceOf name typeName (ctor.params.map (argument target bound)) [] with
    | ok built => exact (hr ▸ hbuilt).bind (.ret _)
    | error e => exact (hr ▸ hbuilt).bind_error
  · exact .ret none

/-- A record with one constructor is bound through it. -/
theorem bindingConstructor_of_record (hk : type.kind = .record) (hc : type.constructors = [ctor])
    (hp : ctor.params ≠ []) (inConstructor : Bool) :
    type.bindingConstructor target inConstructor = .ok (some ctor) := by
  have hparams : ctor.params.isEmpty = false := by simpa using hp
  unfold Composite.bindingConstructor
  cases hm : ctor.marked <;> simp [hc, hk, hm, hparams]

theorem assemble_gives_of_record (hk : type.kind = .record) (hc : type.constructors = [ctor])
    (hp : ctor.params ≠ []) (hf : type.fields = []) (hm : target.method ≠ some .fields)
    {r : Except BindError (Option Value)}
    (h : (b.bindThrough ctor below scope name target type.typeName).Gives r) :
    (b.assemble below scope name target type).Gives r := by
  have hconstructed : (b.bindConstructed below scope name target type).Gives r := by
    unfold bindConstructed
    rw [bindingConstructor_of_record hk hc hp]
    exact Gives.bind (.ret _) (h.andFinally (.note _))
  unfold assemble
  split
  · exact hconstructed
  · rename_i hfields
    exact absurd hfields hm
  · cases r with
    | error e => exact hconstructed.bind_error
    | ok built =>
      refine hconstructed.bind ?_
      cases built with
      | some v => exact .ret _
      | none => exact (bindOnInstance_of_nil hf).gives (.ret none)

/-! ## A whole bind -/

/-- What binding a parameter of a record at a root comes to by itself. -/
def rootParameter (b : Binder) (root : Name) (typeName : String) (target : Target)
    (param : Parameter Shape) : Except BindError (Option Value) :=
  ((bindParameter (b.descend (b.options.maxDepth - 1)) (Scope.within {} typeName).forConstructor root
    target param).runFrom {}).1

/-- A parameter comes to the same in the course of a bind. -/
theorem bindParameter_gives (hh : b.handler = .default) {levels : Nat} {r : Option Value}
    (h : ((bindParameter (b.descend levels) scope name target param).runFrom {}).1 = .ok r) :
    (bindParameter (b.descend levels) scope name target param).Gives (.ok r) := by
  refine Agree.yields_gives ?_ _ _ _ (Prod.ext h rfl)
  refine ((agree_childName rfl param.name).mono fun _ _ hc => hc.1).seq fun child => ?_
  exact agree_bindAt_self hh levels scope child _ false false

/-- Construction is all or nothing. Where the parameters of a record are bound and the defaults that it
needs convert, nothing is bound if no parameter is; else the first required parameter without a value
is an error, and if there is none, the instance has exactly the parameters that have a value: what was
bound, else what is there, else the default. -/
theorem bindRoot_built {root : Name} (hh : b.handler = .default) (hdepth : 1 ≤ b.options.maxDepth)
    (hget : ∀ s ∈ b.sources, s.get? root = none) (hs : b.resolve target.shape = .composite type)
    (hk : type.kind = .record) (hc : type.constructors = [ctor]) (hp : ctor.params ≠ [])
    (hn : (ctor.params.map (·.name)).Nodup) (hf : type.fields = [])
    (hm : target.method ≠ some .fields)
    (hbound : ∀ p ∈ ctor.params, b.rootParameter root type.typeName target p = .ok (bound p))
    (hd : (ctor.params.map (argument target bound)).any (·.bound.isSome) →
      b.DefaultsConvert (ctor.params.map (argument target bound))) (history : List Name) :
    (b.bindRoot history root target false).result =
      let arguments := ctor.params.map (argument target bound)
      if arguments.any (·.bound.isSome) then
        match arguments.find? (·.isMissing) with
        | some arg => .error (.bind root (.missingParameter root arg.param.name type.typeName))
        | none => .ok (some (.map (arguments.filterMap b.entryOf)))
      else .ok none := by
  obtain ⟨levels, hlevels⟩ := Nat.exists_eq_add_of_le' hdepth
  have hparams : ∀ p ∈ ctor.params, (bindParameter (b.descend levels)
      (Scope.within {} type.typeName).forConstructor root target p).Gives (.ok (bound p)) := by
    intro p hmem
    have hrun := hbound p hmem
    unfold rootParameter at hrun
    rw [show b.options.maxDepth - 1 = levels by omega] at hrun
    exact bindParameter_gives hh hrun
  have hshape : (b.bindShape (some (b.descend levels)) {} root target false).Gives
      (b.constructed root type.typeName (ctor.params.map (argument target bound))) :=
    (bindShape_leadsTo_assemble hs hget).gives (assemble_gives_of_record hk hc hp hf hm
      (bindThrough_gives hparams hd hn))
  have hrun : (b.bindAt b.options.maxDepth {} root target false false).Gives
      (b.constructed root type.typeName (ctor.params.map (argument target bound))) := by
    rw [hlevels]
    exact bindVisit_gives hh hshape fun h => by cases h
  have hresult : (b.bindRoot history root target false).result =
      (b.constructed root type.typeName (ctor.params.map (argument target bound))).mapError
        (.bind root) := congrArg (Except.mapError (Failure.bind root)) (hrun { bound := history })
  rw [hresult]
  unfold constructed instanceOf
  simp only
  split
  · split <;> rfl
  · rfl

/-- The parameters of a job: a name and an owner that have to be given, a number of tries, and a note. -/
def jobConstructor : Constructor Shape :=
  ⟨[⟨"name", .scalar .string, .required⟩, ⟨"owner", .scalar .string, .required⟩,
    ⟨"maxTries", .scalar (.int 0 9), .value (.string "3")⟩, ⟨"note", .scalar .string, .optional⟩],
    false⟩

def jobRecord : Composite Shape := ⟨"Job", .record, false, [jobConstructor], [], none⟩

/-- A job of which the owner is there already: nothing is found for it, then only its note, then its
name, too. -/
theorem bindRoot_built_job :
    let root := Name.adapt "job" '.'
    let target := (Target.of (.composite jobRecord)).withExisting
      (some (.map [("name", .null), ("owner", .string "me")]))
    let binderOf (entries : Fields) : Binder :=
      { sources := [.entries "test" (Entries.ofList entries)] }
    let run (entries : Fields) := ((binderOf entries).bindRoot [] root target false).result
    run [] = .ok none ∧
      run [("job.note", .string "now")] =
        .error (.bind root (.missingParameter root "name" "Job")) ∧
      run [("job.note", .string "now"), ("job.name", .string "copy")] =
        .ok (some (.map [("name", .string "copy"), ("owner", .string "me"), ("maxTries", .int 3),
          ("note", .string "now")])) := by
  intro root target binderOf run
  let note : Parameter Shape → Option Value := fun p =>
    if p.name = "note" then some (.string "now") else none
  let both : Parameter Shape → Option Value := fun p =>
    if p.name = "name" then some (.string "copy") else note p
  have hused : ∀ entries bound, (binderOf entries).DefaultsConvert
      (jobConstructor.params.map (argument target bound)) := by
    intro entries bound arg harg v _ hf
    obtain ⟨p, hp, rfl⟩ := List.mem_map.mp ((List.takeWhile_prefix _).subset harg)
    simp only [jobConstructor, List.mem_cons, List.not_mem_nil, or_false] at hp
    rcases hp with rfl | rfl | rfl | rfl
    · cases hf
    · cases hf
    · rfl
    · cases hf
  have hbuilt := fun entries bound hget hbound =>
    @bindRoot_built (binderOf entries) target jobRecord jobConstructor bound root rfl
      (Nat.le_add_left 1 63) hget rfl rfl rfl (by decide) (by decide) rfl (by decide) hbound
      (fun _ => hused entries bound) []
  refine ⟨?_, ?_, ?_⟩
  · exact hbuilt [] (fun _ => none) (List.forall_mem_singleton.mpr rfl)
      (List.forall_iff_forall_mem.mp ⟨rfl, rfl, rfl, rfl⟩)
  · exact hbuilt [("job.note", .string "now")] note (List.forall_mem_singleton.mpr rfl)
      (List.forall_iff_forall_mem.mp ⟨rfl, rfl, rfl, rfl⟩)
  · exact hbuilt [("job.note", .string "now"), ("job.name", .string "copy")] both
      (List.forall_mem_singleton.mpr rfl) (List.forall_iff_forall_mem.mp ⟨rfl, rfl, rfl, rfl⟩)

end Binder

end TypedConfig
