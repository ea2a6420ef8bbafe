import TypedConfig.Proofs.Bind.Congruence

/-!
# Leftovers

A strict binder refuses what nothing used: at the end of the root, a name below it that a source
lists must be accounted for. A lenient binder is the same without that check.

* `Binder.bindRoot_strict`: the strict binder does what the lenient one does, and then checks.
* `Binder.strict_ok_iff`: it accepts exactly if the lenient binder succeeds and every held name below
  the root was bound, or lies at or below an index of digits of a bound name. How that name was
  bound does not count, so an item that was bound field by field hides its other fields
  (`Binder.leftover_of_item_accepted`).
-/

namespace TypedConfig

open BindM

/-- The source lists the name and has a value under it. -/
def Source.Holds (s : Source) (n : Name) : Prop :=
  n ∈ s.names?.getD [] ∧ (s.get? n).isSome = true

/-- A name was bound, or lies at or below an item of a collection that was bound from a single
value. -/
def Journal.AccountsFor (j : Journal) (n : Name) : Prop :=
  j.bound.contains n = true ∨ Handler.isOverriddenItem j.whole n = true

/-! ## The check -/

namespace Handler

/-- Nothing is gathered exactly if nothing was there and no leftover has a value. -/
theorem gatherLeftovers_eq_nil {found : List Property} {l : List (Nat × Source × Name)} :
    (gatherLeftovers found l).1 = [] ↔ found = [] ∧ ∀ x ∈ l, x.2.1.get? x.2.2 = none := by
  induction l generalizing found with
  | nil => simp [gatherLeftovers]
  | cons x rest ih =>
    obtain ⟨i, source, candidate⟩ := x
    cases found with
    | nil =>
      simp only [gatherLeftovers, List.any_nil, Bool.false_eq_true, ↓reduceIte, ih]
      simp
    | cons p found =>
      unfold gatherLeftovers
      split <;> simp [ih]

/-- No leftover is gathered exactly if none that is listed has a value. -/
theorem gatherLeftovers_leftoverNames {root : Name} {bound : List Name}
    {sources : List (Nat × Source)} :
    (gatherLeftovers [] (leftoverNames root bound sources)).1 = [] ↔
      ∀ e ∈ sources, ∀ n ∈ e.2.names?.getD [], isLeftover root bound n = true →
        e.2.get? n = none := by
  rw [gatherLeftovers_eq_nil]
  simp only [leftoverNames, List.mem_flatMap, List.mem_map, List.mem_filter]
  constructor
  · exact fun ⟨_, h⟩ e he n hn hl => h (e.1, e.2, n) ⟨e, he, n, ⟨hn, hl⟩, rfl⟩
  · refine fun h => ⟨trivial, ?_⟩
    rintro _ ⟨e, he, n, ⟨hn, hl⟩, rfl⟩
    exact h e he n hn hl

/-- The check passes exactly if every held name below the root was bound, or lies at or below an
item of a bound name. It changes neither what was bound nor how. -/
theorem refuseLeftovers_run (v : Visit) (j : Journal) :
    (((refuseLeftovers v []).runFrom j).1 = .ok () ↔ ∀ x ∈ v.sources, ∀ n, x.2.Holds n →
      v.name.isAncestorOf n = true →
        j.bound.contains n = true ∨ isOverriddenItem j.bound n = true) ∧
    ((refuseLeftovers v []).runFrom j).2.bound = j.bound ∧
    ((refuseLeftovers v []).runFrom j).2.whole = j.whole := by
  have hbound : (j.bound.filter fun n => !([] : List Name).contains n) = j.bound := by simp
  unfold refuseLeftovers Journal.ask
  rw [runFrom_bind, runFrom_get]
  simp only [hbound]
  rw [runFrom_bind, runFrom_modify]
  simp only
  have hiff : (gatherLeftovers [] (leftoverNames v.name j.bound v.sources)).1 = [] ↔
      ∀ x ∈ v.sources, ∀ n, x.2.Holds n → v.name.isAncestorOf n = true →
        j.bound.contains n = true ∨ isOverriddenItem j.bound n = true := by
    simp only [gatherLeftovers_leftoverNames, isLeftover, Source.Holds]
    constructor
    · rintro h e he n ⟨hn, hget⟩ hanc
      by_cases hacc : j.bound.contains n = true ∨ isOverriddenItem j.bound n = true
      · exact hacc
      · rw [h e he n hn (by simp_all)] at hget
        cases hget
    · intro h e he n hn hl
      simp only [Bool.and_eq_true, Bool.not_eq_true'] at hl
      cases hget : e.2.get? n with
      | none => rfl
      | some p =>
        have := h e he n ⟨hn, by rw [hget]; rfl⟩ hl.1.1
        simp [hl.1.2, hl.2] at this
  split
  · rename_i he
    refine ⟨⟨fun _ => hiff.mp (by simpa using he), fun _ => rfl⟩, rfl, rfl⟩
  · rename_i he
    refine ⟨⟨fun h => (by cases h), fun h => ?_⟩, rfl, rfl⟩
    exact absurd (by simpa using hiff.mpr h) he

end Handler

namespace Binder

/-- The binder with leftovers refused, and no other handler. -/
def strict (b : Binder) : Binder := { b with handler := .noUnbound .default }

/-- The binder without handlers. -/
def lenient (b : Binder) : Binder := { b with handler := .default }

/-- Some source holds the name, below the root. -/
def HoldsBelow (b : Binder) (root n : Name) : Prop :=
  root.isAncestorOf n = true ∧ ∃ s ∈ b.sources, s.Holds n

variable {b : Binder}

theorem strict_alike_lenient (b : Binder) : b.strict.Alike b.lenient := ⟨rfl, rfl, rfl⟩

theorem strict_seeAlike_lenient (b : Binder) (name : Name) :
    SeeAlike .equal b.strict b.lenient name name := by
  have hs : b.strict.sources = b.lenient.sources := rfl
  exact .of_sources hs (fun _ _ _ _ _ => rfl) fun _ => rfl

/-- Below the root the check does nothing. -/
theorem agree_bindAt_strict (levels : Nat) (scope : Scope) (name : Name) (target : Target)
    (recursive create : Bool) (hd : scope.depth ≠ 0) :
    Agree .equal Eq (b.strict.bindAt levels scope name target recursive create)
      (b.lenient.bindAt levels scope name target recursive create) := by
  have hv : ∀ scope name target, scope.depth ≠ 0 → AgreeOnVisits .equal b.strict.handler
      b.lenient.handler (b.strict.visit scope name target) (b.lenient.visit scope name target) :=
    fun scope name target hd =>
      { start := .ret rfl
        success := fun _ => .ret rfl
        create := fun _ => .ret rfl
        failure := fun _ _ h => .raise h
        excused := fun _ h => False.elim h
        finish := fun result => by
          have hf : b.strict.handler.onFinish (b.strict.visit scope name target) result [] =
              pure () := by
            simp only [strict, Handler.onFinish, visit, if_neg hd]
            rfl
          rw [hf]
          exact .ret rfl }
  induction levels generalizing scope name target recursive create with
  | zero =>
    exact agree_bindVisit b.strict_alike_lenient rfl (hv _ _ _ hd)
      (agree_bindShape_of_seeAlike b.strict_alike_lenient rfl (b.strict_seeAlike_lenient name) rfl rfl
        (.none rfl))
  | succ levels ih =>
    refine agree_bindVisit b.strict_alike_lenient rfl (hv _ _ _ hd)
      (agree_bindShape_of_seeAlike b.strict_alike_lenient rfl (b.strict_seeAlike_lenient name) rfl rfl
        (.some ?_))
    rintro inner name _ target recursive hi - rfl
    exact ih inner name target recursive false (by omega)

/-- Before the end of the root, the strict binder runs as the lenient one does. -/
theorem bindHandled_strict (levels : Nat) (root : Name) (target : Target) (create : Bool)
    (j : Journal) :
    ∃ below below', b.strict.bindAt levels {} root target false create =
        b.strict.bindVisit below {} root target false create ∧
      b.lenient.bindAt levels {} root target false create =
        b.lenient.bindVisit below' {} root target false create ∧
      (b.strict.bindHandled below {} root target false create).runFrom j =
        (b.lenient.bindHandled below' {} root target false create).runFrom j := by
  have hv : AgreeOnValues .equal b.strict.handler b.lenient.handler
      (b.strict.visit {} root target) (b.lenient.visit {} root target) :=
    { start := .ret rfl, success := fun _ => .ret rfl, create := fun _ => .ret rfl }
  cases levels with
  | zero =>
    exact ⟨none, none, rfl, rfl, (agree_bindHandled b.strict_alike_lenient rfl hv
      (agree_bindShape_of_seeAlike b.strict_alike_lenient rfl (b.strict_seeAlike_lenient root) rfl rfl
        (.none rfl))).runFrom_eq j⟩
  | succ levels =>
    refine ⟨_, _, rfl, rfl, (agree_bindHandled b.strict_alike_lenient rfl hv
      (agree_bindShape_of_seeAlike b.strict_alike_lenient rfl (b.strict_seeAlike_lenient root) rfl rfl
        (.some ?_))).runFrom_eq j⟩
    rintro inner name _ target recursive hi - rfl
    exact agree_bindAt_strict levels inner name target recursive false (by rw [hi]; simp)

/-- The end of the root, for the strict binder. -/
theorem onFinish_strict (b : Binder) (root : Name) (target : Target) (result : Option Value) :
    b.strict.handler.onFinish (b.strict.visit {} root target) result [] =
      Handler.refuseLeftovers (b.strict.visit {} root target) [] := rfl

/-- At a root, the check passes exactly if every held name below it was bound, or lies at or below an
item of a bound name. -/
theorem refuseLeftovers_at_root (b : Binder) (root : Name) (target : Target) (j : Journal) :
    (((Handler.refuseLeftovers (b.visit {} root target) []).runFrom j).1 = .ok () ↔
      ∀ n, b.HoldsBelow root n →
        j.bound.contains n = true ∨ Handler.isOverriddenItem j.bound n = true) ∧
    ((Handler.refuseLeftovers (b.visit {} root target) []).runFrom j).2.bound = j.bound ∧
    ((Handler.refuseLeftovers (b.visit {} root target) []).runFrom j).2.whole = j.whole := by
  obtain ⟨hiff, hkept⟩ := Handler.refuseLeftovers_run (b.visit {} root target) j
  have hvisible : (b.visible {}).map (·.2) = b.sources := map_visible rfl
  refine ⟨hiff.trans ⟨?_, fun h x hx n hn hanc => ?_⟩, hkept⟩
  · rintro h n ⟨hanc, s, hs, hn⟩
    rw [← hvisible, List.mem_map] at hs
    obtain ⟨x, hx, rfl⟩ := hs
    exact h x hx n hn hanc
  · exact h n ⟨hanc, x.2, by rw [← hvisible]; exact List.mem_map_of_mem hx, hn⟩

/-- The strict binder accepts what the lenient one does if nothing is left over, and the two have
bound the same. -/
theorem bindRoot_strict (b : Binder) (root : Name) (target : Target) (create : Bool)
    (r : Option Value) :
    let strict := b.strict.bindRoot [] root target create
    let lenient := b.lenient.bindRoot [] root target create
    strict.journal.bound = lenient.journal.bound ∧ strict.journal.whole = lenient.journal.whole ∧
    (strict.result = .ok r ↔ lenient.result = .ok r ∧ ∀ n, b.HoldsBelow root n →
      lenient.journal.bound.contains n = true ∨
        Handler.isOverriddenItem lenient.journal.bound n = true) := by
  obtain ⟨below, below', hs, hl, heq⟩ :=
    bindHandled_strict (b := b) b.options.maxDepth root target create { bound := [] }
  have hs' : b.strict.bindAt b.strict.options.maxDepth {} root target false create = _ := hs
  have hl' : b.lenient.bindAt b.lenient.options.maxDepth {} root target false create = _ := hl
  simp only [bindRoot, Report.ofRun, hs', hl', bindVisit]
  rw [runFrom_bind, runFrom_bind, runFrom_attempt, runFrom_attempt, heq]
  rcases (b.lenient.bindHandled below' {} root target false create).runFrom { bound := [] }
    with ⟨outcome, j⟩
  cases outcome with
  | error e =>
    refine ⟨rfl, rfl, fun h => ?_, fun ⟨h, _⟩ => ?_⟩ <;> cases h
  | ok r' =>
    obtain ⟨hall, hbound, hwhole⟩ := refuseLeftovers_at_root b.strict root target j
    simp only [onFinish_strict]
    rw [runFrom_bind]
    rcases hrun : (Handler.refuseLeftovers (b.strict.visit {} root target) []).runFrom j
      with ⟨check, k⟩
    rw [hrun] at hall hbound hwhole
    cases check with
    | error e =>
      refine ⟨hbound, hwhole, fun h => ?_, fun ⟨_, h⟩ => ?_⟩
      · cases h
      · cases hall.mpr h
    | ok _ => exact ⟨hbound, hwhole, fun h => ⟨h, hall.mp rfl⟩, fun h => h.1⟩

/-- The strict binder accepts exactly if the lenient one succeeds and every held name below the root
was bound, or lies at or below an index of digits of a bound name. A run that it accepts accounts
for all held names exactly if none of them is let pass under an index of a name that was bound in
another way than from a single value. -/
theorem strict_ok_iff (b : Binder) (root : Name) (target : Target) (create : Bool)
    (r : Option Value) :
    let strict := b.strict.bindRoot [] root target create
    let lenient := b.lenient.bindRoot [] root target create
    (strict.result = .ok r ↔ lenient.result = .ok r ∧ ∀ n, b.HoldsBelow root n →
      lenient.journal.bound.contains n = true ∨
        Handler.isOverriddenItem lenient.journal.bound n = true) ∧
    (strict.result = .ok r ∧ (∀ n, b.HoldsBelow root n → strict.journal.AccountsFor n) ↔
      strict.result = .ok r ∧ ∀ n, b.HoldsBelow root n →
        strict.journal.bound.contains n = false →
        Handler.isOverriddenItem strict.journal.bound n = true →
        Handler.isOverriddenItem strict.journal.whole n = true) := by
  obtain ⟨hbound, -, hok⟩ := bindRoot_strict b root target create r
  refine ⟨hok, and_congr_right fun hr => ?_⟩
  have hpassed := (hok.mp hr).2
  rw [← hbound] at hpassed
  constructor
  · intro h n hn hunbound _
    rcases h n hn with h | h
    · rw [hunbound] at h; cases h
    · exact h
  · intro h n hn
    cases hb : (b.strict.bindRoot [] root target create).journal.bound.contains n with
    | true => exact .inl hb
    | false =>
      refine .inr (h n hn hb ((hpassed n hn).resolve_left fun h => ?_))
      rw [hb] at h; cases h

/-- Items with a name and one more entry that their shape has no field for. -/
def itemsWithExtra : Binder where
  sources := [.entries "test" (.ofList [("app.items[0].name", .string "a"),
    ("app.items[0].extra", .string "b")])]

/-- A bean with a list of beans that have a name. -/
def itemsTarget : Target :=
  let bean (typeName : String) (field : String) (shape : Shape) : Shape :=
    .composite ⟨typeName, .bean, false, [], [⟨field, shape, true⟩], none⟩
  .of (bean "App" "items" (.list (bean "Item" "name" (.scalar .string))))

set_option maxRecDepth 4000 in
/-- The items are bound field by field, and the strict binder accepts them though one holds a field
that nothing used. -/
theorem leftover_of_item_accepted :
    let root := Name.adapt "app" '.'
    let extra := Name.adapt "app.items[0].extra" '.'
    let run := itemsWithExtra.strict.bindRoot [] root itemsTarget false
    run.result = .ok (some (.map [("items", .list [.map [("name", .string "a")]])])) ∧
    itemsWithExtra.HoldsBelow root extra ∧ ¬run.journal.AccountsFor extra := by
  refine ⟨by rfl, ⟨by decide +kernel, _, .head _, ?_, by decide +kernel⟩, ?_⟩
  · exact .tail _ (.head _)
  · rintro (h | h)
    · revert h; decide +kernel
    · revert h; decide +kernel

end Binder

end TypedConfig
