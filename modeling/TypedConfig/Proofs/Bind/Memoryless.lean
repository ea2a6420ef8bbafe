import TypedConfig.Proofs.Bind.Builtin

/-!
# Runs that do not look back

Binding reads nothing of what was noted before, unless a handler does. The handlers that let all pass or
ignore failures do not, so under them a name comes to the same wherever it stands in a run
(`Binder.bindAt_repeats`), and two names that are bound one after the other may change places
(`BindM.Agree.swap`).

* `Comparison.bothEnd`: two runs both end well, with related values, or both fail.
* `Handler.Memoryless`: the handlers that read nothing of what was noted.
-/

namespace TypedConfig

/-- Both runs end well, or both fail. -/
def Comparison.bothEnd : Comparison :=
  { whereFirstEnds with
    excuses := fun _ => False }

namespace BindM.Agree

variable {α β γ δ : Type} {V : α → β → Prop} {W : γ → δ → Prop} {x : BindM α} {y : BindM β}

/-- Runs that both fail are related. -/
theorem of_errors {run : Except BindError α × Journal} {run' : Except BindError β × Journal}
    {e f : BindError} (h : run.1 = .error e) (h' : run'.1 = .error f) :
    Comparison.bothEnd.Runs V run run' := by
  obtain ⟨r, j⟩ := run
  obtain ⟨r', k⟩ := run'
  cases h
  cases h'
  exact .error trivial trivial

theorem trans {z : BindM γ} {U : β → γ → Prop} (h : Agree .bothEnd V x y)
    (h' : Agree .bothEnd U y z) : Agree .bothEnd (fun a c => ∃ b, V a b ∧ U b c) x z := by
  intro j k _
  have hxy := h j k trivial
  have hyz := h' k k trivial
  generalize x.runFrom j = first at hxy ⊢
  generalize y.runFrom k = second at hxy hyz
  generalize z.runFrom k = third at hyz ⊢
  cases hxy with
  | ok hV _ =>
    cases hyz with
    | ok hU _ => exact .ok ⟨_, hV, hU⟩ trivial
  | error _ _ =>
    cases hyz with
    | error _ _ => exact .error trivial trivial
    | excused he _ => exact he.elim
  | excused he _ => exact he.elim

/-- A run that ends well from one journal gives the same value from all. -/
theorem gives {x : BindM α} (h : Agree .bothEnd Eq x x) {j : Journal} {a : α}
    (ha : (x.runFrom j).1 = .ok a) : x.Gives (.ok a) := by
  intro k
  obtain ⟨_, rfl, hb, -⟩ := (h j k trivial).exists_of_ok ha
  exact hb

/-- A run that fails from one journal fails from all. -/
theorem fails {x : BindM α} (h : Agree .bothEnd Eq x x) {j : Journal} {e : BindError}
    (he : (x.runFrom j).1 = .error e) (k : Journal) : ∃ e', (x.runFrom k).1 = .error e' := by
  cases hk : (x.runFrom k).1 with
  | error e' => exact ⟨e', rfl⟩
  | ok a =>
    have hj := h.gives hk j
    rw [he] at hj
    cases hj

/-- Two steps that do not look back may change places. -/
theorem swap {x : BindM α} {y : BindM β} (hx : Agree .bothEnd Eq x x) (hy : Agree .bothEnd Eq y y)
    {f : α → β → BindM γ} {g : α → β → BindM δ} (h : ∀ a b, Agree .bothEnd W (f a b) (g a b)) :
    Agree .bothEnd W (do let a ← x; let b ← y; f a b) (do let b ← y; let a ← x; g a b) := by
  intro j k _
  rcases hxj : x.runFrom j with ⟨r, j'⟩
  rcases hyk : y.runFrom k with ⟨s, k'⟩
  cases r with
  | error e =>
    cases s with
    | error e' =>
      exact of_errors (by rw [runFrom_bind_error hxj]) (by rw [runFrom_bind_error hyk])
    | ok b =>
      obtain ⟨e', hxk⟩ := hx.fails (congrArg Prod.fst hxj) k'
      refine of_errors (by rw [runFrom_bind_error hxj]) (f := e') ?_
      rw [runFrom_bind_ok hyk, runFrom_bind_error (Prod.ext hxk rfl)]
  | ok a =>
    cases s with
    | error e' =>
      obtain ⟨e, hyj⟩ := hy.fails (congrArg Prod.fst hyk) j'
      refine of_errors (e := e) ?_ (by rw [runFrom_bind_error hyk])
      rw [runFrom_bind_ok hxj, runFrom_bind_error (Prod.ext hyj rfl)]
    | ok b =>
      have hxk : (x.runFrom k').1 = .ok a := hx.gives (congrArg Prod.fst hxj) k'
      have hyj : (y.runFrom j').1 = .ok b := hy.gives (congrArg Prod.fst hyk) j'
      rw [runFrom_bind_ok hxj, runFrom_bind_ok (Prod.ext hyj rfl), runFrom_bind_ok hyk,
        runFrom_bind_ok (Prod.ext hxk rfl)]
      exact h a b _ _ trivial

end BindM.Agree

namespace Handler

open BindM Binder

/-- The handlers that read nothing of what was noted: leftovers are not refused. -/
inductive Memoryless : Handler → Prop
  | default : Memoryless .default
  | ignoreErrors {parent : Handler} (h : Memoryless parent) : Memoryless (.ignoreErrors parent)

namespace Memoryless

variable {handler : Handler} {v v' : Visit}

theorem builtin (h : handler.Memoryless) : handler.Builtin := by
  induction h with
  | default => exact .default
  | ignoreErrors _ ih => exact .ignoreErrors ih

/-- They have nothing to say at the end. -/
theorem onFinish (h : handler.Memoryless) (v : Visit) (result : Option Value) (unseen : List Name) :
    handler.onFinish v result unseen = pure () := by
  induction h with
  | default => rfl
  | ignoreErrors _ ih => exact ih

/-- They recover from a failure alike where the same is there. -/
theorem agree (h : handler.Memoryless) (ht : v.target.existing? = v'.target.existing?) :
    AgreeOnVisits .bothEnd handler handler v v' := by
  induction h with
  | default => exact .default _ _
  | ignoreErrors _ ih =>
    refine ⟨⟨ih.start, ih.success, ih.create⟩, fun e e' he => ?_, ih.finish, fun e he => he.elim⟩
    exact (ih.failure e e' he).attempt_bind (fun _ _ hr => .ret hr)
      (fun _ _ _ => .ret (by rw [ht])) fun _ he => he.elim

end Memoryless

end Handler

namespace Binder

open BindM

variable {b : Binder}

/-- A name that ends well by its shape does so with its handlers, if they do not look back. -/
theorem bindVisit_gives_of_memoryless (hh : b.handler.Memoryless) {level : Option BindBelow}
    {scope : Scope} {name : Name} {target : Target} {recursive : Bool} {r : Option Value}
    (h : (b.bindShape level scope name target recursive).Gives (.ok r)) :
    (b.bindVisit level scope name target recursive false).Gives (.ok r) := by
  have hhandled : (b.bindHandled level scope name target recursive false).Gives (.ok r) := by
    unfold bindHandled
    simp only [hh.builtin.onStart, hh.builtin.onSuccess, pure_bind, if_true]
    refine h.bind ?_
    cases r with
    | some v => exact Gives.bind (.note _) (.ret _)
    | none => exact .ret none
  unfold bindVisit
  simp only [hh.onFinish, pure_bind]
  exact hhandled.attempt.bind (.ret r)

/-- The way down comes to the same wherever it stands in a run. -/
def Forgetful (f : BindBelow) : Prop :=
  ∀ scope name target recursive, Agree .bothEnd Eq (f scope name target recursive)
    (f scope name target recursive)

/-- A binder sees the same as itself wherever it stands in a run. -/
theorem seeAlike_bothEnd (b : Binder) (name : Name) : SeeAlike .bothEnd b b name name :=
  .of_sources rfl (fun _ _ _ _ _ => rfl) fun _ => trivial

/-- Under handlers that do not look back, a name comes to the same wherever it stands in a run. -/
theorem bindAt_repeats (hh : b.handler.Memoryless) (levels : Nat) (scope : Scope) (name : Name)
    (target : Target) (recursive create : Bool) :
    Agree .bothEnd Eq (b.bindAt levels scope name target recursive create)
      (b.bindAt levels scope name target recursive create) := by
  refine agree_bindAt ⟨rfl, rfl, rfl⟩ rfl rfl rfl (fun hn => ?_) (fun _ _ _ _ _ => hh.agree rfl)
    levels scope rfl target recursive create
  cases hn
  exact b.seeAlike_bothEnd _

end Binder

end TypedConfig
