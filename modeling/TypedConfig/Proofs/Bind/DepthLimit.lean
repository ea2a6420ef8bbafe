import TypedConfig.Proofs.Bind.Congruence

/-!
# The limit on the depth

A binder with a higher limit on the depth does what the binder with the lower one does, until that goes
too deep. Without handlers nothing recovers from going too deep, so what the lower limit settles is
settled: a value stays, and so does any other failure, with all that was noted on the way.

* `Comparison.unlessTooDeep`: the comparison of the two runs. A first run that goes too deep is excused.
* `Binder.agree_bindAt_limited`: the runs with more and with fewer levels left.
* `Binder.bindRoot_limited`: a whole bind.
-/

namespace TypedConfig

/-- The target nests deeper than was allowed. -/
def BindError.IsTooDeep (e : BindError) : Prop := ∃ name maxDepth, e = .depthExceeded name maxDepth

/-- A whole bind failed because its target nests deeper than was allowed. -/
def Failure.IsTooDeep (f : Failure) : Prop := ∃ root e, f = .bind root e ∧ e.IsTooDeep

/-- The two runs are the same, unless the first goes too deep. -/
def Comparison.unlessTooDeep : Comparison := { Comparison.equal with excuses := BindError.IsTooDeep }

namespace Binder

open BindM

/-- The binder with another limit on the depth. -/
def limited (b : Binder) (maxDepth : Nat) : Binder :=
  { b with options := { b.options with maxDepth } }

variable {b : Binder} {d d' : Nat}

theorem alike_limited (b : Binder) (d d' : Nat) : (b.limited d).Alike (b.limited d') where
  definitions := rfl
  converter := rfl
  pieces := rfl

/-- Both binders see the same. -/
theorem seeAlike_limited (b : Binder) (d d' : Nat) (name : Name) :
    SeeAlike .unlessTooDeep (b.limited d) (b.limited d') name name :=
  .of_sources rfl (fun _ _ _ _ _ => rfl) fun _ => rfl

/-- More levels below a name change nothing unless the fewer are used up, by induction on the
fewer. -/
theorem agree_bindAt_limited (hh : b.handler = .default) (levels levels' : Nat)
    (hle : levels ≤ levels') (scope : Scope) (name : Name) (target : Target)
    (recursive create : Bool) :
    Agree .unlessTooDeep Eq ((b.limited d).bindAt levels scope name target recursive create)
      ((b.limited d').bindAt levels' scope name target recursive create) := by
  have hv : ∀ scope name target, AgreeOnVisits .unlessTooDeep (b.limited d).handler
      (b.limited d').handler ((b.limited d).visit scope name target)
      ((b.limited d').visit scope name target) := by
    intro scope name target
    have hd : (b.limited d).handler = .default := hh
    have hd' : (b.limited d').handler = .default := hh
    rw [hd, hd']
    exact .default _ _
  have hvisit : ∀ {below below' : Option BindBelow} {scope : Scope} {name : Name} {target : Target}
      {recursive create : Bool}, Descent .unlessTooDeep (b.limited d) (b.limited d')
        (AgreeBelow .unlessTooDeep · · scope) below below' →
      Agree .unlessTooDeep Eq
        ((b.limited d).bindVisit below scope name target recursive create)
        ((b.limited d').bindVisit below' scope name target recursive create) :=
    fun hb => agree_bindVisit (b.alike_limited d d') rfl (hv _ _ _)
      (agree_bindShape_of_seeAlike (b.alike_limited d d') rfl (b.seeAlike_limited d d' _) rfl rfl hb)
  induction levels generalizing levels' scope name target recursive create with
  | zero =>
    have hexcused : ∀ n, Comparison.unlessTooDeep.excuses
        (.depthExceeded n (b.limited d).options.maxDepth) := fun n => ⟨n, _, rfl⟩
    cases levels' with
    | zero => exact hvisit (.excused hexcused none)
    | succ levels' => exact hvisit (.excused hexcused (some _))
  | succ levels ih =>
    obtain ⟨levels', rfl⟩ := Nat.exists_eq_add_of_le' (Nat.le_trans (Nat.succ_pos levels) hle)
    refine hvisit (.some ?_)
    rintro inner name _ target recursive - - rfl
    exact ih levels' (Nat.le_of_succ_le_succ hle) inner name target recursive false

/-- Raising the limit on the depth changes no settled outcome: a bind that ends well ends well with the
same value, and one that fails in another way than by going too deep fails in the same way. Nothing
else is noted either, so the one is cut short where the other is. -/
theorem bindRoot_limited (hh : b.handler = .default) (hle : d ≤ d') (history : List Name)
    (root : Name) (target : Target) (create : Bool) :
    let run (limit : Nat) := (b.limited limit).bindRoot history root target create
    (∀ r, (run d).result = .ok r →
      (run d').result = .ok r ∧ (run d').journal = (run d).journal) ∧
    ∀ f, (run d).result = .error f → ¬f.IsTooDeep →
      (run d').result = .error f ∧ (run d').journal = (run d).journal := by
  intro run
  have hagree : Agree .unlessTooDeep Eq ((b.limited d).bindAt d {} root target false create)
      ((b.limited d').bindAt d' {} root target false create) :=
    agree_bindAt_limited hh d d' hle {} root target false create
  have hruns := hagree { bound := history } { bound := history } rfl
  have hd : (b.limited d).options.maxDepth = d := rfl
  have hd' : (b.limited d').options.maxDepth = d' := rfl
  simp only [run, bindRoot, Report.ofRun, hd, hd']
  generalize ((b.limited d).bindAt d {} root target false create).runFrom { bound := history } = first
    at hruns ⊢
  generalize ((b.limited d').bindAt d' {} root target false create).runFrom { bound := history } =
    second at hruns ⊢
  cases hruns with
  | ok hv hj => exact ⟨fun r hr => ⟨by rw [← hr, hv], hj.symm⟩, fun f hf => by cases hf⟩
  | error he hj => exact ⟨fun r hr => (by cases hr), fun f hf _ => ⟨by rw [← hf, he], hj.symm⟩⟩
  | excused he _ =>
    refine ⟨fun r hr => (by cases hr), fun f hf hsettled => ?_⟩
    cases hf
    exact absurd ⟨root, _, rfl, he⟩ hsettled

/-- Servers by name, with the ports that they listen on. -/
def listenersTarget : Target :=
  let server : Shape := .composite ⟨"Server", .bean, false, [],
    [⟨"ports", .list (.scalar .string), true⟩], none⟩
  .of (.map .string server)

set_option maxRecDepth 4000 in
/-- The ports of a server lie three levels deep. With as many levels they are bound, and with more. With
two it goes too deep, which more levels do change. -/
theorem bindRoot_limited_listeners :
    let b : Binder := { sources := [.entries "test" (.ofList
      [("servers.main.ports[0]", .string "80"), ("servers.main.ports[1]", .string "81")])] }
    let root := Name.adapt "servers" '.'
    let run (limit : Nat) := (b.limited limit).bindRoot [] root listenersTarget false
    let main := Value.map [("ports", .list [.string "80", .string "81"])]
    (run 3).result = .ok (some (.map [("main", main)])) ∧
      (run 64).result = .ok (some (.map [("main", main)])) ∧ (run 64).journal = (run 3).journal ∧
      (run 2).result =
        .error (.bind root (.depthExceeded (Name.adapt "servers.main.ports" '.') 2)) := by
  intro b root run main
  have hthree : (run 3).result = .ok (some (.map [("main", main)])) := by rfl
  have hmore := bindRoot_limited (b := b) rfl (show 3 ≤ 64 by decide) [] root listenersTarget false
  obtain ⟨hbound, hsame⟩ := hmore.1 _ hthree
  exact ⟨hthree, hbound, hsame, by rfl⟩

end Binder

end TypedConfig
