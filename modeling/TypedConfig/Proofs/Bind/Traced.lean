import TypedConfig.Proofs.Bind.Invariants

/-!
# What a tracing handler sees

A tracing handler around the others sees every name that is bound, with the number of composites and
aggregates around it. It changes nothing of what a bind comes to.

* `Binder.bindRoot_traced`: a traced bind comes to what the bind does.
* `Binder.events_traced`: no name is bound deeper than the limit, by induction on the levels.
* `Binder.bindHandled_tooDeep`: with no level left, a name that would go deeper is an error.
-/

namespace TypedConfig

open BindM

/-- The two runs come to the same, whatever tracing handlers see. -/
def Comparison.apartFromEvents : Comparison :=
  { Comparison.equal with
    journals j k := { j with events := [] } = { k with events := [] }
    asked queries h := congrArg (fun j => { j with queries := queries ++ j.queries }) h
    bound {_ _ m _} hn h := hn ▸ congrArg (fun j => { j with bound := m :: j.bound }) h
    whole {_ _ m _} hn h := hn ▸ congrArg (fun j => { j with whole := m :: j.whole }) h
    converted {_ _ p q} hp h := by
      have hpq : p = q := by
        cases hp with
        | none => rfl
        | some hp => exact congrArg some hp
      exact hpq ▸ congrArg (fun j => { j with property := p }) h
    endless what h := congrArg (fun j => { j with endless := j.endless.or (some what) }) h }

/-- No tracing handler saw a name deeper than `d`. -/
def Journal.Invariant.within (d : Nat) : Journal.Invariant where
  holds j := ∀ e ∈ j.events, e.depth ≤ d
  allows _ := True
  tolerates _ := True
  allows_presence _ := trivial
  asked _ _ h := h
  converted _ h := h
  bound _ h := h
  whole _ h := h
  endless _ h := h

namespace Binder

variable {α β : Type} {V : α → β → Prop} {x : BindM α} {y : BindM β} {handler : Handler} {v : Visit}

/-! ## Tracing changes nothing -/

theorem agree_see (v : Visit) (happening : Happening) (h : Agree .apartFromEvents V x y) :
    Agree .apartFromEvents V x (do Handler.see v happening; y) := by
  intro j k hj
  have hsee : (Handler.see v happening).runFrom k =
      (.ok (), { k with events := ⟨v.name, v.depth, happening⟩ :: k.events }) := rfl
  rw [runFrom_bind_ok hsee]
  exact h j _ hj

/-- Handlers decide the same with a tracing handler around them. -/
theorem agree_trace (h : AgreeOnVisits .apartFromEvents handler handler v v) :
    AgreeOnVisits .apartFromEvents handler (.trace handler) v v where
  start := agree_see v _ h.start
  success value j k hj := by
    rw [Handler.onSuccess, runFrom_bind_ok runFrom_get]
    exact agree_see v _ (h.success value) j k hj
  create value := agree_see v _ (h.create value)
  failure e e' he := agree_see v _ (h.failure e e' he)
  finish result := agree_see v _ (h.finish result)
  excused _ he := he.elim

/-- Leftovers do not depend on what tracing handlers saw. -/
theorem agree_refuseLeftovers (v : Visit) :
    Agree .apartFromEvents Eq (Handler.refuseLeftovers v []) (Handler.refuseLeftovers v []) := by
  unfold Handler.refuseLeftovers
  refine Agree.journal.bind fun j k hj => ?_
  have hsame : { j with events := [] } = { k with events := [] } := hj
  have hbound := congrArg Journal.bound hsame
  simp only at hbound
  rw [hbound]
  refine (agree_ask _).seq fun _ => ?_
  split
  · exact .ret rfl
  · exact .raise rfl

/-- The binder with a tracing handler around the others. -/
def traced (b : Binder) : Binder := { b with handler := .trace b.handler }

variable {b : Binder}

/-- A traced bind comes to what the bind does. -/
theorem bindRoot_traced (hh : b.handler.Builtin) (history : List Name) (root : Name) (target : Target)
    (create : Bool) :
    (b.traced.bindRoot history root target create).result =
      (b.bindRoot history root target create).result := by
  have hagree : Agree .apartFromEvents Eq (b.bindAt b.options.maxDepth {} root target false create)
      (b.traced.bindAt b.options.maxDepth {} root target false create) := by
    have hroot : Comparison.apartFromEvents.names root root := rfl
    refine agree_bindAt (b := b) (c := b.traced) ⟨rfl, rfl, rfl⟩ rfl rfl rfl ?_ ?_ _ {} hroot
      target false create
    · rintro n _ rfl
      exact .of_sources rfl (fun _ _ _ _ _ => rfl) fun _ => rfl
    · rintro scope n _ target rfl
      exact agree_trace (hh.agree (fun _ => id) rfl rfl fun _ => agree_refuseLeftovers _)
  have hruns := hagree { bound := history } { bound := history } rfl
  exact (congrArg (Except.mapError (Failure.bind root)) (hruns.outcome_eq id fun _ => id)).symm

/-! ## The depth of a name -/

section Depth

variable {d : Nat}

theorem keeps_see (hv : v.depth ≤ d) (happening : Happening) :
    Keeps (.within d) (Handler.see v happening) :=
  .note fun hj => List.forall_mem_cons.mpr ⟨hv, hj⟩

/-- At a name within the depth, a tracing handler sees nothing deeper. -/
theorem keptByHandler_trace (hv : v.depth ≤ d) (h : KeptByHandler (.within d) handler v) :
    KeptByHandler (.within d) (.trace handler) v where
  start := (keeps_see hv _).seq fun _ => h.start
  success value := Keeps.journal.seq fun _ => (keeps_see hv _).seq fun _ => h.success value
  create value := (keeps_see hv _).seq fun _ => h.create value
  failure e := (keeps_see hv _).seq fun _ => h.failure e
  finish result := (keeps_see hv _).seq fun _ => h.finish result

/-- With so many levels left, no name lies deeper than the limit, by induction on the levels. -/
theorem keeps_bindAt_within (hh : b.handler.Builtin) (levels : Nat) (scope : Scope) (name : Name)
    (target : Target) (recursive create : Bool) (hd : scope.depth + levels = d) :
    Keeps (.within d) (b.traced.bindAt levels scope name target recursive create) := by
  have hv : ∀ {scope : Scope} {name target}, scope.depth ≤ d →
      KeptByHandler (.within d) b.traced.handler (b.traced.visit scope name target) :=
    fun hle => keptByHandler_trace hle (hh.keeps_of_allows fun _ => trivial)
  induction levels generalizing scope name target recursive create with
  | zero =>
    exact keeps_bindVisit (hv (Nat.le_of_eq hd))
      (keeps_bindShape_of_below (fun _ => trivial) (fun _ => trivial) fun f hf => by cases hf)
  | succ levels ih =>
    refine keeps_bindVisit (hv (by omega))
      (keeps_bindShape_of_below (fun _ => trivial) (fun _ => trivial) fun f hf => ?_)
    cases hf
    exact fun inner name target recursive hinner => ih inner name target recursive false (by omega)

/-- No name is bound deeper than the limit. -/
theorem events_traced (hh : b.handler.Builtin) (history : List Name) (root : Name) (target : Target)
    (create : Bool) :
    ∀ e ∈ (b.traced.bindRoot history root target create).journal.events,
      e.depth ≤ b.options.maxDepth :=
  keeps_bindAt_within hh b.options.maxDepth {} root target false create (Nat.zero_add _)
    { bound := history } nofun

end Depth

/-! ## Going too deep -/

section TooDeep

variable {scope : Scope} {name : Name} {target : Target} {recursive : Bool}

/-- The property that may count at a name. -/
def found? (b : Binder) (scope : Scope) (name : Name) (target : Target) : Option Property :=
  if name.isEmpty || target.nestedOnly then none
  else (b.visible scope).findSome? fun (_, s) => s.get? name

/-- A name is bound through what lies below it: it is not passed over, and the target is an aggregate,
or a composite that is not passed over as a part of itself. -/
def goesDeeper (b : Binder) (scope : Scope) (name : Name) (target : Target) (recursive : Bool) : Bool :=
  let denied := (b.visible scope).all fun (_, s) => s.presence name == .absent
  let seen := (b.visible scope).any fun (_, s) => s.presence name == .present
  let passed := b.prunes && (b.found? scope name target).isNone && scope.depth != 0 && denied
  !passed && match b.resolve target.shape with
    | .array _ | .list _ | .set _ | .map _ _ => true
    | .composite type => recursive || !scope.assembling.contains type.typeName || seen
    | .scalar _ | .ref _ => false

theorem directProperty_found (b : Binder) (scope : Scope) (name : Name) (target : Target) :
    (b.directProperty scope name target).Gives (.ok (b.found? scope name target)) := by
  unfold directProperty found?
  split
  · exact .ret none
  · exact b.lookUp_gives scope name

/-- With no level left, there is no way into a composite. -/
theorem bindComposite_tooDeep {type : Composite Shape}
    (h : (recursive || !scope.assembling.contains type.typeName ||
      (b.visible scope).any fun (_, s) => s.presence name == .present) = true) :
    (b.bindComposite none scope name target type recursive).Gives
      (.error (.depthExceeded name b.options.maxDepth)) := by
  have hgoesOn : (if !recursive && scope.assembling.contains type.typeName then
      b.somethingBelow scope name else pure true).Gives (.ok true) := by
    split
    · rename_i hagain
      have hseen := b.somethingBelow_gives scope name
      rwa [show ((b.visible scope).any fun (_, s) => s.presence name == .present) = true by
        simp_all] at hseen
    · exact .ret true
  unfold bindComposite
  exact hgoesOn.bind (Gives.bind_error (.raise _))

/-- With no level left, a name that goes deeper is an error with the limit in it. -/
theorem bindHandled_tooDeep (hh : b.handler.Builtin)
    (h : b.goesDeeper scope name target recursive = true) (create : Bool) :
    (b.bindHandled none scope name target recursive create).Gives
      (.error (.depthExceeded name b.options.maxDepth)) := by
  simp only [goesDeeper, Bool.and_eq_true, Bool.not_eq_true'] at h
  obtain ⟨hpassed, hdeep⟩ := h
  have hnot : (b.passesOver scope name (b.found? scope name target)).Gives (.ok false) := by
    unfold passesOver
    split
    · rename_i hmay
      rw [hmay, Bool.true_and] at hpassed
      exact hpassed ▸ b.nothingBelow_gives scope name
    · exact .ret false
  have hform : (b.bindForm none scope name target recursive (b.found? scope name target)).Gives
      (.error (.depthExceeded name b.options.maxDepth)) := by
    unfold bindForm
    cases hs : b.resolve target.shape with
    | scalar _ | ref _ => rw [hs] at hdeep; cases hdeep
    | array _ | list _ | set _ | map _ _ => exact Gives.bind_error (.raise _)
    | composite type =>
      rw [hs] at hdeep
      exact Gives.bind_error (bindComposite_tooDeep hdeep)
  unfold bindHandled
  simp only [hh.onStart]
  refine Gives.bind (.ret true) (Gives.bind_error ?_)
  rw [bindShape_eq]
  exact (b.directProperty_found scope name target).bind (hnot.bind hform)

end TooDeep

end Binder

end TypedConfig
