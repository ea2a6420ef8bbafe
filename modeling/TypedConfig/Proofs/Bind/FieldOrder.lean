import TypedConfig.Proofs.Bind.Fields
import TypedConfig.Proofs.Bind.Memoryless

/-!
# Fields in another order

The fields of a bean are bound one after the other, each from the value that the instance holds for it.
Where no two fields share a name, that is the value that was there from the start, so a field comes to
the same in whichever place it is bound.

* `Binder.agree_bindFields_perm`: the fields in two orders.
* `Binder.bindRoot_permuted`: a whole bind. It ends well in both orders or in none, with the same fields
  in the instance.
-/

namespace TypedConfig.Binder

open BindM Keyed

variable {b : Binder} {below : BindBelow} {scope : Scope} {name : Name} {typeName : String}
  {fields fields' : List (Field Shape)} {built built' : Fields} {any : Bool}

/-! ## Fields -/

/-- A field comes to the same wherever it is bound, if the way down does. -/
theorem agree_bindField (hf : Forgetful below) (field : Field Shape) (current : Option Value) :
    Agree .bothEnd Eq (b.bindField below scope name typeName field current)
      (b.bindField below scope name typeName field current) := by
  unfold bindField
  refine ((agree_childName rfl field.name).mono fun _ _ h => h.1).seq fun child => ?_
  refine (hf _ _ _ _).seq fun bound => ?_
  cases bound with
  | none => exact .ret rfl
  | some v =>
    simp only
    split
    · exact .ret rfl
    · exact .raise trivial

/-- Two instances on the way: the same apart from the order, and something was bound for both or for
neither. -/
def SameProgress (r r' : Fields × Bool) : Prop := Reordered r.1 r'.1 ∧ r.2 = r'.2

theorem heldFor_eq (h : Reordered built built') (field : Field Shape) :
    heldFor field built' = heldFor field built := by
  rw [heldFor, heldFor, h.find?]

/-- On top of the same in another order, the same fields come to the same in another order. -/
theorem agree_bindFields_onto (hf : Forgetful below) (h : Reordered built built') :
    Agree .bothEnd SameProgress (b.bindFields below scope name typeName fields built any)
      (b.bindFields below scope name typeName fields built' any) := by
  induction fields generalizing built built' any with
  | nil => exact .ret ⟨h, rfl⟩
  | cons field rest ih =>
    rw [bindFields_cons, bindFields_cons, heldFor_eq h]
    exact (agree_bindField hf field _).seq fun change => ih (h.insert? _ _)

/-- Fields of different names come to the same in whichever order they are bound. -/
theorem agree_bindFields_perm (hf : Forgetful below) (hperm : fields.Perm fields')
    (hn : (fields.map (·.name)).Nodup) (h : Reordered built built') :
    Agree .bothEnd SameProgress (b.bindFields below scope name typeName fields built any)
      (b.bindFields below scope name typeName fields' built' any) := by
  induction hperm generalizing built built' any with
  | nil => exact .ret ⟨h, rfl⟩
  | cons field _ ih =>
    rw [bindFields_cons, bindFields_cons, heldFor_eq h]
    have hrest := (List.nodup_cons.mp hn).2
    exact (agree_bindField hf field _).seq fun change => ih hrest (h.insert? _ _)
  | swap first second rest =>
    -- Neither of the two fields changes what the instance holds for the other.
    have hne : second.name ≠ first.name := fun heq => by simp [heq] at hn
    have hheld : ∀ {f g : Field Shape} (v : Option Value), f.name ≠ g.name →
        heldFor g (insert? f.name v built) = heldFor g built := fun v hfg => by
      rw [heldFor, heldFor, find?_insert?_of_ne hfg]
    have hswapped : Agree .bothEnd SameProgress
        (b.bindFields below scope name typeName (second :: first :: rest) built any)
        (b.bindFields below scope name typeName (first :: second :: rest) built any) := by
      simp only [bindFields_cons, hheld _ hne, hheld _ hne.symm]
      refine (agree_bindField hf second _).swap (agree_bindField hf first _) fun change change' => ?_
      rw [Bool.or_right_comm]
      exact agree_bindFields_onto hf (.insert?_comm hne.symm _ _ _)
    refine (hswapped.trans (agree_bindFields_onto hf h)).mono fun _ _ hr => ?_
    obtain ⟨s, hrs, hst⟩ := hr
    exact ⟨hrs.1.trans hst.1, hrs.2.trans hst.2⟩
  | trans hleft _ ih ih' =>
    have hn' := (hleft.map (·.name)).nodup_iff.mp hn
    refine ((ih hn (.refl built)).trans (ih' hn' h)).mono fun _ _ hr => ?_
    obtain ⟨s, hrs, hst⟩ := hr
    exact ⟨hrs.1.trans hst.1, hrs.2.trans hst.2⟩

/-! ## A bean -/

section

variable {target : Target} {type : Composite Shape} {level : Option BindBelow}
  {recursive create : Bool} (hb : type.FilledBean) (hperm : type.fields.Perm fields')

include hb hperm

theorem agree_bindOnInstance_perm (hf : Forgetful below) {shape : Shape} :
    Agree .bothEnd (Option.Rel Value.Reordered) (b.bindOnInstance below scope name target type)
      (b.bindOnInstance below scope name { target with shape }
        { type with fields := fields' }) := by
  unfold bindOnInstance
  rw [show Composite.baseInstance { type with fields := fields' } { target with shape } =
    type.baseInstance target from rfl]
  cases type.baseInstance target with
  | none => exact .ret Option.Rel.none
  | some base =>
    refine (agree_bindFields_perm hf hperm hb.names (.refl base)).bind fun r r' hr => ?_
    obtain ⟨built, any⟩ := r
    obtain ⟨built', any'⟩ := r'
    obtain ⟨hbuilt, rfl⟩ := hr
    cases any with
    | true => exact .ret (.some (.map hbuilt))
    | false => exact .ret Option.Rel.none

theorem agree_bindComposite_perm (hl : ∀ f, level = some f → Forgetful f) {shape : Shape} :
    Agree .bothEnd (Option.Rel Value.Reordered)
      (b.bindComposite level scope name target type recursive)
      (b.bindComposite level scope name { target with shape }
        { type with fields := fields' } recursive) := by
  unfold bindComposite
  have hguard : ∀ again : Bool,
      Agree .bothEnd Eq (if again then b.somethingBelow scope name else pure true)
        (if again then b.somethingBelow scope name else pure true) := by
    intro again
    cases again
    · exact .ret rfl
    · exact (b.seeAlike_bothEnd name).somethingBelow scope
  have henter : Agree .bothEnd (fun f g => f = g ∧ Forgetful f) (b.enter level name)
      (b.enter level name) := by
    cases level with
    | none => exact .raise trivial
    | some f => exact .ret ⟨rfl, hl f rfl⟩
  refine (hguard _).seq fun goesOn => ?_
  split
  · refine henter.bind fun f g hfg => ?_
    obtain ⟨rfl, hf⟩ := hfg
    have hnil : { type with fields := fields' }.constructors = [] := hb.constructors
    rw [assemble_of_nil hb.constructors, assemble_of_nil hnil]
    simp only
    split
    · exact .ret Option.Rel.none
    · exact agree_bindOnInstance_perm hb hperm hf
  · exact .ret Option.Rel.none

theorem agree_bindShape_perm (hs : b.resolve target.shape = .composite type)
    (hl : ∀ f, level = some f → Forgetful f) :
    Agree .bothEnd (Option.Rel Value.Reordered) (b.bindShape level scope name target recursive)
      (b.bindShape level scope name
        { target with shape := .composite { type with fields := fields' } } recursive) := by
  rw [bindShape_eq, bindShape_eq]
  have hsee := b.seeAlike_bothEnd name
  refine (agree_directProperty rfl (hsee.lookUp scope)).bind fun property property' hp => ?_
  obtain rfl : property = property' := eq_of_rel hp
  have hpasses : Agree .bothEnd Eq (b.passesOver scope name property)
      (b.passesOver scope name property) := by
    unfold passesOver
    split
    · exact hsee.nothingBelow scope
    · exact .ret rfl
  refine hpasses.seq fun passed => ?_
  split
  · exact .ret Option.Rel.none
  · unfold bindForm
    rw [hs, show b.resolve (.composite { type with fields := fields' }) =
      .composite { type with fields := fields' } from rfl]
    unfold bindCompositeOver
    refine (agree_bindComposite_perm hb hperm hl).bind fun bound bound' hbound => ?_
    cases hbound with
    | some h => exact .ret (.some h)
    | none =>
      cases property with
      | none => exact .ret Option.Rel.none
      | some p => exact .raise trivial

omit hperm in
/-- What is created where nothing is found is a matter of what is there, and not of the fields. -/
theorem create_perm (hs : b.resolve target.shape = .composite type) :
    b.create scope { target with shape := .composite { type with fields := fields' } } =
      b.create scope target := by
  have hnil : { type with fields := fields' }.constructors = [] := hb.constructors
  rw [create_of_nil hs hb.constructors, create_of_nil rfl hnil]
  rfl

theorem agree_bindHandled_perm (hh : b.handler.Memoryless)
    (hs : b.resolve target.shape = .composite type) (hl : ∀ f, level = some f → Forgetful f) :
    Agree .bothEnd (Option.Rel Value.Reordered)
      (b.bindHandled level scope name target recursive create)
      (b.bindHandled level scope name
        { target with shape := .composite { type with fields := fields' } } recursive create) := by
  unfold bindHandled
  simp only [hh.builtin.onStart, hh.builtin.onSuccess, hh.builtin.onCreate, create_perm hb hs,
    pure_bind, if_true]
  refine (agree_bindShape_perm hb hperm hs hl).bind fun bound bound' hbound => ?_
  cases hbound with
  | some h => exact Agree.seq (.note id) fun _ => .ret (.some h)
  | none =>
    cases create
    · exact .ret Option.Rel.none
    · exact (agree_create ⟨rfl, rfl, rfl⟩).seq fun v => .ret (.some (.same v))

/-- A bean at a name, with its fields in two orders. -/
theorem agree_bindVisit_perm (hh : b.handler.Memoryless)
    (hs : b.resolve target.shape = .composite type) (hl : ∀ f, level = some f → Forgetful f) :
    Agree .bothEnd (Option.Rel Value.Reordered)
      (b.bindVisit level scope name target recursive create)
      (b.bindVisit level scope name
        { target with shape := .composite { type with fields := fields' } } recursive create) := by
  unfold bindVisit
  simp only [hh.onFinish, pure_bind]
  refine (agree_bindHandled_perm hb hperm hh hs hl).attempt_bind (fun _ _ h => .ret h)
    (fun e e' he => Agree.seq (.note id) fun _ => ?_) fun _ he => he.elim
  refine ((hh.agree (by rfl)).failure e e' he).mono fun v v' hv => ?_
  subst hv
  cases v with
  | none => exact Option.Rel.none
  | some v => exact .some (.same v)

theorem agree_bindAt_perm (hh : b.handler.Memoryless)
    (hs : b.resolve target.shape = .composite type) (levels : Nat) :
    Agree .bothEnd (Option.Rel Value.Reordered)
      (b.bindAt levels scope name target recursive create)
      (b.bindAt levels scope name
        { target with shape := .composite { type with fields := fields' } } recursive create) := by
  cases levels with
  | zero => exact agree_bindVisit_perm hb hperm hh hs fun _ h => by cases h
  | succ levels =>
    refine agree_bindVisit_perm hb hperm hh hs fun f hf => ?_
    cases hf
    exact fun scope name target recursive =>
      bindAt_repeats hh levels scope name target recursive false

end

/-! ## A whole bind -/

/-- Under handlers that let all pass or ignore failures, the fields of a bean are bound independently.
Declared in another order, they come to the same: either both binds end well, and then the instances
are the same apart from the order, or both fail. What the fields are made of may be anything. -/
theorem bindRoot_permuted {b : Binder} {type : Composite Shape} {target : Target}
    (hh : b.handler.Memoryless) (hs : b.resolve target.shape = .composite type)
    (hb : type.FilledBean) {fields' : List (Field Shape)} (hperm : type.fields.Perm fields')
    (history : List Name) (root : Name) (create : Bool) :
    let run := b.bindRoot history root target create
    let run' := b.bindRoot history root
      { target with shape := .composite { type with fields := fields' } } create
    run.result.isOk = run'.result.isOk ∧
      ∀ r r', run.result = .ok r → run'.result = .ok r' → Option.Rel Value.Reordered r r' := by
  have hruns : Agree .bothEnd (Option.Rel Value.Reordered)
      (b.bindAt b.options.maxDepth {} root target false create)
      (b.bindAt b.options.maxDepth {} root
        { target with shape := .composite { type with fields := fields' } } false create) :=
    agree_bindAt_perm hb hperm hh hs _
  have hrelated := hruns { bound := history } { bound := history } trivial
  have hresult : ∀ t, (b.bindRoot history root t create).result =
      ((b.bindAt b.options.maxDepth {} root t false create).runFrom { bound := history }).1.mapError
        (.bind root) := fun t => rfl
  simp only [hresult]
  generalize (b.bindAt b.options.maxDepth {} root target false create).runFrom
    { bound := history } = run at hrelated ⊢
  generalize (b.bindAt b.options.maxDepth {} root _ false create).runFrom
    { bound := history } = run' at hrelated ⊢
  cases hrelated with
  | ok h _ =>
    refine ⟨rfl, fun r r' hr hr' => ?_⟩
    cases hr
    cases hr'
    exact h
  | error _ _ => exact ⟨rfl, fun r r' hr => by cases hr⟩
  | excused he _ => exact he.elim

/-- An app of which the host of the server cannot be read, bound with its fields in both orders. The
failure inside the server is ignored, and the other fields are bound all the same. -/
theorem bindRoot_permuted_app :
    let layer := Entries.ofList [("app.server.host", .list []), ("app.server.max-port", .string "81"),
      ("app.name", .string "first")]
    let b : Binder := { sources := [.entries "test" layer], handler := .ignoreErrors .default }
    let target := Target.of (.composite appBean)
    let turned : Target := { target with
      shape := .composite { appBean with fields := appBean.fields.reverse } }
    let server := Value.map [("host", .string "localhost"), ("maxPort", .string "81")]
    let run := (b.bindRoot [] (Name.adapt "app" '.') target false).result
    let run' := (b.bindRoot [] (Name.adapt "app" '.') turned false).result
    run = .ok (some (.map [("name", .string "first"), ("server", server)])) ∧
      run' = .ok (some (.map [("server", server), ("name", .string "first")])) ∧
      Value.Reordered (.map [("name", .string "first"), ("server", server)])
        (.map [("server", server), ("name", .string "first")]) := by
  intro layer b target turned server run run'
  have hrun : run = .ok (some (.map [("name", .string "first"), ("server", server)])) := by rfl
  have hrun' : run' = .ok (some (.map [("server", server), ("name", .string "first")])) := by rfl
  have hsame := (@bindRoot_permuted b appBean target (.ignoreErrors .default) rfl appBean_filled _
    (List.reverse_perm _).symm [] (Name.adapt "app" '.') false).2 _ _ hrun hrun'
  cases hsame with
  | some h => exact ⟨hrun, hrun', h⟩

end TypedConfig.Binder
