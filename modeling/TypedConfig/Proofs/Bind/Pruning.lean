import TypedConfig.Proofs.Bind.Barren
import TypedConfig.Proofs.Bind.Invariants

/-!
# Passing over names

A binder that passes over names that all sources deny saves questions. If the sources are truthful,
that changes no result: what the binder finds that looks into every name, the other finds too, and it
goes on without end only where that does. The converse fails, because the one that looks may fail where
there is nothing, by going too deep.

* `Binder.agree_bindShape_pruned`: one name. Where the name is passed over, the other binder goes on
  and binds nothing (`Binder.bindForm_barren`).
* `Binder.bindRoot_pruned`: a whole bind.
-/

namespace TypedConfig

namespace Binder

open BindM

/-- The binder that passes over names where there is nothing. -/
def pruned (b : Binder) : Binder := { b with prunes := true }

/-- The binder that looks into every name. -/
def unpruned (b : Binder) : Binder := { b with prunes := false }

theorem alike_pruned (b : Binder) : b.unpruned.Alike b.pruned := ⟨rfl, rfl, rfl⟩

/-- The comparison of the two: at names that can be built, if the first ends well, so does the
second, with the same value, and it is not cut short if the first is not. -/
def WhereFirstEnds : Comparison :=
  Comparison.atBuilt { Comparison.whereFirstEnds with
    journals := fun j k => j.endless = none → k.endless = none
    asked := fun _ h => h
    bound := fun _ h => h
    whole := fun _ h => h
    converted := fun _ h => h
    endless := fun _ _ hnone => by simp at hnone }

theorem whereFirstEnds_names {n : Name} (hn : n.Built) : WhereFirstEnds.names n n := ⟨rfl, hn, hn⟩

variable {b : Binder} {scope : Scope} {name : Name} {target : Target}
  {below below' : Option BindBelow} {recursive : Bool}

/-- Both binders see the same. -/
theorem seeAlike_pruned (hb : ∀ s ∈ b.sources, s.ListsBuilt) (name : Name) :
    SeeAlike WhereFirstEnds b.unpruned b.pruned name name :=
  .of_sources rfl (fun _ s hs n hn => whereFirstEnds_names (entryName_built (hb s hs n hn) _ _))
    fun _ => trivial

/-- A name without a property has none in any source in sight. -/
theorem directProperty_yields (ht : target.nestedOnly = false) :
    (b.directProperty scope name target).Yields fun p => p = none → name.isEmpty = false →
      ∀ e ∈ b.visible scope, e.2.get? name = none := by
  unfold directProperty
  split
  · rename_i hskip
    refine .ret fun _ hne => ?_
    simp [ht, hne] at hskip
  · refine (b.lookUp_gives scope name).yields.mono fun p hp hnone _ => ?_
    rw [hp] at hnone
    exact List.findSome?_eq_none_iff.mp hnone

/-- A step of the first run keeps the journals related, if what was cut short stays noted. -/
theorem journals_of_keeps {α : Type} {x : BindM α} (hx : Keeps .cut x) {j k : Journal}
    (h : WhereFirstEnds.journals j k) : WhereFirstEnds.journals (x.runFrom j).2 k := by
  intro hnone
  refine h ?_
  by_contra hcut
  have hkept : (x.runFrom j).2.endless.isSome = true := hx j (Option.isSome_iff_ne_none.mpr hcut)
  rw [hnone] at hkept
  cases hkept

/-- The binders agree on a name if they do one level down: where one passes over the name, the other
binds nothing. -/
theorem agree_bindShape_pruned (hb : ∀ s ∈ b.sources, s.ListsBuilt)
    (hs : ∀ s ∈ b.sources, s.Truthful) (hn : name.Built)
    (ht : scope.depth ≠ 0 → target.nestedOnly = false)
    (hbelow : Descent WhereFirstEnds b.unpruned b.pruned (AgreeBelow WhereFirstEnds · · scope) below
      below')
    (hspares : ∀ f, below = some f → b.unpruned.SparesBarren f)
    (hcut : ∀ f, below = some f → ∀ scope name target recursive,
      Keeps .cut (f scope name target recursive)) :
    Agree WhereFirstEnds Eq (b.unpruned.bindShape below scope name target recursive)
      (b.pruned.bindShape below' scope name target recursive) := by
  have hsee := seeAlike_pruned hb name
  have hname := whereFirstEnds_names hn
  have hform : ∀ p, Agree WhereFirstEnds Eq
      (b.unpruned.bindForm below scope name target recursive p)
      (b.pruned.bindForm below' scope name target recursive p) := fun p =>
    agree_bindForm_of_seeAlike b.alike_pruned hname hsee rfl hbelow (rel_refl p)
  have hproperty : Agree WhereFirstEnds Eq (b.unpruned.directProperty scope name target)
      (b.pruned.directProperty scope name target) :=
    (agree_directProperty hname (hsee.lookUp scope)).mono fun _ _ => eq_of_rel
  rw [bindShape_eq, bindShape_eq]
  by_cases hd : scope.depth = 0
  · -- At the root no name is passed over.
    refine hproperty.seq fun p => ?_
    have hgo : b.pruned.passesOver scope name p = pure false := by simp [passesOver, hd]
    rw [hgo]
    exact hform p
  · refine (hproperty.and_yields (directProperty_yields (ht hd))).bind fun p _ hfound => ?_
    obtain ⟨hp, hnone⟩ := hfound
    subst hp
    cases p with
    | some p => exact hform (some p)
    | none =>
      have hpass : b.pruned.passesOver scope name none = b.pruned.nothingBelow scope name := by
        simp [passesOver, pruned, hd]
      obtain ⟨denied, hgives, hdenied⟩ : ∃ denied,
          (b.pruned.nothingBelow scope name).Gives (.ok denied) ∧
            (denied = true → ∀ e ∈ b.pruned.visible scope, e.2.presence name = .absent) :=
        ⟨_, b.pruned.nothingBelow_gives scope name, fun hall e he => by
          simpa using List.all_eq_true.mp hall e he⟩
      rw [hpass]
      refine Agree.after_right (fun _ _ h => h) hgives ?_
      cases denied with
      | false => exact hform none
      | true =>
        have hbarren : b.unpruned.BarrenAt scope name := by
          refine ⟨hn, fun e he => ?_⟩
          exact (hs e.2 (mem_sources_of_mem_visible he)).barrenAt hn (hdenied rfl e he)
            fun hne => hnone rfl hne e he
        have hkeeps : Keeps .cut (b.unpruned.bindForm below scope name target recursive none) :=
          keeps_bindForm_of_below (fun _ => trivial) (fun _ => trivial)
            (fun f hf inner name target recursive _ => hcut f hf inner name target recursive) none
        exact Agree.of_yields (fun _ => trivial) (fun _ _ => journals_of_keeps hkeeps)
          (bindForm_barren b.unpruned.lasting_any (fun f hf => (hspares f hf).on) trivial hbarren
            recursive)

/-- The binders agree at every name, by induction on the levels below it. -/
theorem agree_bindAt_pruned (hh : b.handler = .default) (hb : ∀ s ∈ b.sources, s.ListsBuilt)
    (hs : ∀ s ∈ b.sources, s.Truthful) (levels : Nat) (scope : Scope) (hn : name.Built)
    (ht : scope.depth ≠ 0 → target.nestedOnly = false) (recursive create : Bool) :
    Agree WhereFirstEnds Eq (b.unpruned.bindAt levels scope name target recursive create)
      (b.pruned.bindAt levels scope name target recursive create) := by
  have hv : ∀ scope name target, AgreeOnVisits WhereFirstEnds b.unpruned.handler b.pruned.handler
      (b.unpruned.visit scope name target) (b.pruned.visit scope name target) := by
    intro scope name target
    have hu : b.unpruned.handler = .default := hh
    have hp : b.pruned.handler = .default := hh
    rw [hu, hp]
    exact .default _ _
  induction levels generalizing scope name target recursive create with
  | zero =>
    exact agree_bindVisit b.alike_pruned (whereFirstEnds_names hn) (hv _ _ _)
      (agree_bindShape_pruned hb hs hn ht (.none rfl) (fun f hf => by cases hf)
        fun f hf => by cases hf)
  | succ levels ih =>
    refine agree_bindVisit b.alike_pruned (whereFirstEnds_names hn) (hv _ _ _)
      (agree_bindShape_pruned hb hs hn ht (.some ?_) (fun f hf => ?_) fun f hf => ?_)
    · rintro inner n _ target recursive - hnested ⟨rfl, hn, -⟩
      exact ih inner hn (fun _ => hnested) recursive false
    · cases hf
      exact @bindAt_barren b.unpruned hh levels
    · cases hf
      have hbuiltin : b.unpruned.handler.Builtin := hh ▸ .default
      exact fun scope name target recursive =>
        keeps_bindAt_cut hbuiltin levels scope name target recursive false

/-- Passing over names that truthful sources deny changes no result: what is found without, is found
with it, and what returns without, returns with it. -/
theorem bindRoot_pruned (hh : b.handler = .default) (hb : ∀ s ∈ b.sources, s.ListsBuilt)
    (hs : ∀ s ∈ b.sources, s.Truthful) (history : List Name) {root : Name} (hroot : root.Built)
    (target : Target) (create : Bool) {r : Option Value}
    (h : (b.unpruned.bindRoot history root target create).result = .ok r) :
    let unpruned := b.unpruned.bindRoot history root target create
    let pruned := b.pruned.bindRoot history root target create
    pruned.result = .ok r ∧ (unpruned.journal.endless = none → pruned.journal.endless = none) := by
  intro unpruned pruned
  have hagree : Agree WhereFirstEnds Eq
      (b.unpruned.bindAt b.options.maxDepth {} root target false create)
      (b.pruned.bindAt b.options.maxDepth {} root target false create) :=
    agree_bindAt_pruned hh hb hs _ {} hroot (fun hd => absurd rfl hd) false create
  have hruns := hagree { bound := history } { bound := history } fun h => h
  obtain ⟨_, rfl, hresult, hends⟩ := hruns.exists_of_ok (bindRoot_ok_iff.mp h)
  exact ⟨bindRoot_ok_iff.mpr hresult, hends⟩

/-- A node with a text, labels and a node inside, of which only the outer text is there. -/
def sparseNode : Binder where
  sources := [.entries "test" (.ofList [("root.name", .string "outer"), ("other", .int 1)])]
  definitions := [(.declared "Node", .composite ⟨"Node", .bean, false, [],
    [⟨"name", .scalar .string, true⟩, ⟨"labels", .list (.scalar .string), true⟩,
      ⟨"next", .ref (.declared "Node"), true⟩], none⟩)]

/-- The labels and the node inside are passed over, or looked into in vain. -/
theorem bindRoot_pruned_sparseNode :
    let run (b : Binder) :=
      b.bindRoot [] (Name.adapt "root" '.') (.of (.ref (.declared "Node"))) false
    (run sparseNode.unpruned).result = .ok (some (.map [("name", .string "outer")])) ∧
    (run sparseNode.pruned).result = .ok (some (.map [("name", .string "outer")])) ∧
    (run sparseNode.pruned).journal.endless = none := by
  have hfound : (sparseNode.unpruned.bindRoot [] (Name.adapt "root" '.')
      (.of (.ref (.declared "Node"))) false).result =
        .ok (some (.map [("name", .string "outer")])) := by rfl
  have hbuilt := Entries.Built.ofList [("root.name", .string "outer"), ("other", .int 1)]
  obtain ⟨hpruned, hends⟩ := bindRoot_pruned (b := sparseNode) rfl
    (List.forall_mem_singleton.mpr (Source.listsBuilt_entries hbuilt))
    (List.forall_mem_singleton.mpr (Source.truthful_entries hbuilt.wellFormed)) [] (.adapt "root" '.')
    _ false hfound
  exact ⟨hfound, hpruned, hends (by rfl)⟩

end Binder

end TypedConfig
