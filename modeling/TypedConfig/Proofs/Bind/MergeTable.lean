import TypedConfig.Proofs.Bind.ItemLoop

/-!
# What is bound on top of what is there

A bind onto a container that is there comes to what the bind without it does, merged into the
container: binding does not look at what is there before it is done. How the two are merged depends
on the container and on what its elements were read from.

* `MergesTo`: the rules, one for each container, and one for single values.
* `CollectionKind.mergeItems_set_eq`, `Keyed.insertAll_eq`: sets and maps merged, all at once.
* `Binder.provenanceAt`: the elements are read from the items that the sources list, if they list
  any (`Binder.bindFromAll_provenance`).
* `Binder.bindRoot_onto`: a whole bind.
-/

namespace TypedConfig

/-! ## Sets -/

namespace CollectionKind

/-- A set takes the values that it does not have, in their order, if none of them repeats. -/
theorem mergeItems_set_eq {old new : List Value} (h : new.Pairwise fun w v => (v == w) = false) :
    CollectionKind.set.mergeItems old new = old ++ new.filter fun v => !old.contains v := by
  induction new generalizing old with
  | nil => exact (List.append_nil old).symm
  | cons w rest ih =>
    obtain ⟨hw, hrest⟩ := List.pairwise_cons.mp h
    have hstep : CollectionKind.set.mergeItems old (w :: rest) =
        CollectionKind.set.mergeItems (if old.contains w then old else old ++ [w]) rest := rfl
    rw [hstep, ih hrest]
    by_cases hc : old.contains w = true
    · rw [if_pos hc, List.filter_cons_of_neg (by simp [hc])]
    · rw [if_neg hc, List.filter_cons_of_pos (by simpa using hc), List.append_assoc]
      refine congrArg (old ++ w :: ·) (List.filter_congr fun v hv => ?_)
      rw [List.contains_append, List.contains_cons, hw v hv]
      simp

theorem pairwise_mergeItems_set {old new : List Value}
    (h : old.Pairwise fun w v => (v == w) = false) :
    (CollectionKind.set.mergeItems old new).Pairwise fun w v => (v == w) = false := by
  induction new generalizing old with
  | nil => exact h
  | cons w rest ih =>
    have hstep : CollectionKind.set.mergeItems old (w :: rest) =
        CollectionKind.set.mergeItems (if old.contains w then old else old ++ [w]) rest := rfl
    rw [hstep]
    split
    · exact ih h
    · rename_i hc
      refine ih (List.pairwise_append.mpr ⟨h, List.pairwise_singleton _ _, fun v hv u hu => ?_⟩)
      rw [List.mem_singleton.mp hu, ← Bool.not_eq_true]
      exact fun heq => hc (List.contains_iff_exists_mem_beq.mpr ⟨v, hv, heq⟩)

/-- No value of a set repeats. -/
theorem pairwise_distinct (values : List Value) :
    (distinct values).Pairwise fun w v => (v == w) = false :=
  pairwise_mergeItems_set (show List.Pairwise _ [] from .nil)

end CollectionKind

/-! ## The rules -/

/-- The container that a shape asks for. A map has no key twice. -/
inductive IsContainer (shape : Shape) : Value → Prop
  | collection {kind : CollectionKind} {element : Shape} {items : List Value}
      (h : shape.collection? = some (kind, element)) : IsContainer shape (.list items)
  | map {key : ScalarKind} {value : Shape} {entries : Fields} (h : shape = .map key value)
      (hd : (entries.map (·.1)).Nodup) : IsContainer shape (.map entries)

/-- What a new container comes to on top of an old one. -/
inductive MergesTo (shape : Shape) (provenance : Provenance) : Value → Value → Value → Prop
  /-- An array is replaced. -/
  | array {element : Shape} {old new : Value} (h : shape = .array element) :
      MergesTo shape provenance old new new
  /-- So is every collection whose elements come from a single value. -/
  | single {kind : CollectionKind} {element : Shape} {old new : Value}
      (h : shape.collection? = some (kind, element)) (hp : provenance = .singleValue) :
      MergesTo shape provenance old new new
  /-- A list takes the new items at their positions, and keeps those behind. -/
  | list {element : Shape} {old new merged : List Value} (h : shape = .list element)
      (hp : provenance = .items) (hlength : merged.length = max old.length new.length)
      (hnew : ∀ i < new.length, merged[i]? = new[i]?)
      (hold : ∀ i, new.length ≤ i → merged[i]? = old[i]?) :
      MergesTo shape provenance (.list old) (.list new) (.list merged)
  /-- A set takes the elements that it does not have, behind its own. -/
  | set {element : Shape} {old new : List Value} (h : shape = .set element)
      (hp : provenance = .items) : MergesTo shape provenance (.list old) (.list new)
        (.list (old ++ new.filter fun v => !old.contains v))
  /-- A map takes the new values of its keys in their places, and the new keys behind. -/
  | map {key : ScalarKind} {value : Shape} {old new : Fields} (h : shape = .map key value) :
      MergesTo shape provenance (.map old) (.map new)
        (.map (old.map (fun e => (e.1, (Keyed.find? e.1 new).getD e.2)) ++
          new.filter fun e => (Keyed.find? e.1 old).isNone))

section Rules

variable {shape element : Shape} {kind : CollectionKind} {provenance : Provenance}
  {existing : Value}

/-- What a collection binds merges into the one that is there as the rules say. -/
theorem IsContainer.mergesTo_onto (h : IsContainer shape existing)
    (hs : shape.collection? = some (kind, element)) (elements : List Value) :
    ∃ merged, kind.onto (some existing) (some (kind.collect elements, provenance)) = some merged ∧
      MergesTo shape provenance existing (kind.collect elements) merged := by
  cases h with
  | map hm _ =>
    rw [hm] at hs
    cases hs
  | @collection _ _ old _ =>
    cases provenance with
    | singleValue => exact ⟨_, rfl, .single hs rfl⟩
    | items =>
      cases shape with
      | array e =>
        cases hs
        exact ⟨_, rfl, .array rfl⟩
      | list e =>
        cases hs
        refine ⟨_, rfl, ?_⟩
        show MergesTo _ _ (.list old) (.list elements)
          (.list (elements ++ old.drop elements.length))
        refine .list rfl rfl ?_ ?_ ?_
        · rw [List.length_append, List.length_drop]
          omega
        · exact fun i hi => List.getElem?_append_left hi
        · intro i hi
          rw [List.getElem?_append_right hi, List.getElem?_drop, Nat.add_sub_cancel' hi]
      | set e =>
        cases hs
        refine ⟨_, rfl, ?_⟩
        show MergesTo _ _ (.list old) (.list (distinct elements))
          (.list (CollectionKind.set.mergeItems old (distinct elements)))
        rw [CollectionKind.mergeItems_set_eq (CollectionKind.pairwise_distinct elements)]
        exact .set rfl rfl
      | scalar _ | map _ _ | composite _ | ref _ => cases hs

/-- So does what a map binds. -/
theorem IsContainer.mergesTo_mapOnto {key : ScalarKind} {value : Shape}
    (h : IsContainer (.map key value) existing) {entries : Fields}
    (hd : (entries.map (·.1)).Nodup) (provenance : Provenance) :
    ∃ merged, Binder.mapOnto (some existing) (some (.map entries)) = some merged ∧
      MergesTo (.map key value) provenance existing (.map entries) merged := by
  cases h with
  | collection hc => cases hc
  | @map _ _ old _ hold =>
    refine ⟨_, rfl, ?_⟩
    show MergesTo _ _ (.map old) (.map entries) (.map (Keyed.insertAll old entries))
    rw [Keyed.insertAll_eq hold hd]
    exact .map rfl

end Rules

/-! ## What elements are read from -/

/-- The source lists something at or below an item of a collection. -/
def Source.listsItem (s : Source) (name : Name) : Bool :=
  (s.names?.getD []).any fun n => (name.positionIn? n).isSome

namespace Binder

open BindM

variable {b : Binder} {below : BindBelow} {scope : Scope} {name root : Name} {target : Target}
  {element : Shape}

/-- What the elements of a collection are read from: items, if a source lists any. -/
def provenanceAt (b : Binder) (name : Name) : Provenance :=
  if b.sources.any (·.listsItem name) then .items else .singleValue

theorem listedPositions_eq_nil_iff {names : List Name} :
    listedPositions name 0 names = [] ↔
      names.any (fun n => (name.positionIn? n).isSome) = false := by
  simp [listedPositions]

/-- From the first position on, a source that lists its names binds an item if and only if it lists
one. -/
theorem bindFrom_provenance {i : Nat} {source : Source} (hl : source.names?.isSome = true) :
    (b.bindFrom below scope name element i source 0).Yields fun values =>
      values = [] ↔ source.listsItem name = false := by
  obtain ⟨names, hnames⟩ := Option.isSome_iff_exists.mp hl
  unfold bindFrom Source.listsItem
  simp only [hnames, Option.map_some, Option.getD_some, Option.all_some]
  rw [← listedPositions_eq_nil_iff]
  cases hlisted : listedPositions name 0 names with
  | nil =>
    have hnone : bindItems (fun position => below (scope.restrictedTo i)
        (name.item (toString position)) (.of element) source.isIterable)
        (fun position => ([] : List Nat).any (position ≤ ·))
        (b.itemLimit source 0 (some []) + 1) 0 = pure [] := rfl
    rw [hnone, pure_bind]
    exact .ret ⟨fun _ => rfl, fun _ => rfl⟩
  | cons p rest =>
    refine .after _ fun values => ?_
    split
    · rename_i hleft
      refine .ret ⟨fun hvalues => ?_, fun h => by cases h⟩
      rw [hvalues] at hleft
      simp at hleft
    · unfold refuseItems
      exact .after _ fun _ => .raise _

/-- All sources together bind an item exactly if one of them lists one. -/
theorem bindFromAll_provenance {direct : Bool} {sources : List (Nat × Source)}
    (hl : ∀ e ∈ sources, e.2.names?.isSome = true) (values : List Value)
    (single : Option Property) :
    (b.bindFromAll below scope name element direct sources values single).Yields fun r =>
      r.1 = [] ↔ values = [] ∧ ∀ e ∈ sources, e.2.listsItem name = false := by
  induction sources generalizing values single with
  | nil => exact .ret ⟨fun h => ⟨h, fun e he => by cases he⟩, fun h => h.1⟩
  | cons entry rest ih =>
    obtain ⟨i, source⟩ := entry
    obtain ⟨hsource, hrest⟩ := List.forall_mem_cons.mp hl
    rw [bindFromAll_cons_eq]
    refine .after _ fun single => ?_
    have hfrom : (b.bindFrom below scope name element i source values.length).Yields fun more =>
        values = [] → (more = [] ↔ source.listsItem name = false) := by
      cases values with
      | nil => exact (bindFrom_provenance hsource).mono fun more hmore _ => hmore
      | cons v vs => exact (Yields.any _).mono fun more _ h => by cases h
    refine hfrom.bind fun more hmore => (ih hrest _ _).mono fun r hr => ?_
    rw [hr, List.append_eq_nil_iff, List.forall_mem_cons, and_assoc]
    exact and_congr_right fun hvalues => and_congr_left fun _ => hmore hvalues

/-- What a collection binds, with what its elements are read from. -/
theorem bindElements_provenance {collection : CollectionKind} (ho : scope.only = none)
    (hl : ∀ s ∈ b.sources, s.names?.isSome = true) :
    (b.bindElements collection below scope name target element).Yields fun bound =>
      ∀ r ∈ bound, ∃ elements, r = (collection.collect elements, b.provenanceAt name) := by
  have hlisted : (∀ e ∈ b.visible scope, e.2.listsItem name = false) ↔
      b.sources.any (·.listsItem name) = false := by
    rw [← map_visible ho, List.any_map, List.any_eq_false]
    simp
  rw [bindElements_eq_collect]
  refine (bindFromAll_provenance (fun e he => hl _ (mem_sources_of_mem_visible he)) [] none).bind
    fun r hr => ?_
  rw [eq_self, true_and, hlisted] at hr
  unfold collect provenanceAt
  split
  · rename_i hnone
    rw [hr.mp (List.isEmpty_iff.mp hnone)]
    cases r.2 with
    | none => exact .ret fun x hx => by cases hx
    | some p =>
      refine .after _ fun elements => .ret ?_
      rintro _ ⟨⟩
      exact ⟨elements, rfl⟩
  · rename_i hsome
    rw [if_pos (by simpa [List.isEmpty_iff, hr] using hsome)]
    refine .ret ?_
    rintro _ ⟨⟩
    exact ⟨r.1, rfl⟩

/-! ## A whole bind -/

/-- A collection at the root of a bind, without regard to the one that is there. -/
def collectionAlone (b : Binder) (collection : CollectionKind) (level : Option BindBelow)
    (root : Name) (target : Target) (element : Shape) : BindM (Option (Value × Provenance)) := do
  let _ ← b.directProperty {} root target
  b.bindElements collection (← b.enter level root) (Scope.deeper {}) root target element

/-- A map at the root of a bind, without regard to the one that is there. -/
def mapAlone (b : Binder) (level : Option BindBelow) (root : Name) (target : Target)
    (key : ScalarKind) (value : Shape) : BindM (Option Value) := do
  let _ ← b.directProperty {} root target
  b.bindMapAlone (← b.enter level root) {} root target key value

theorem directProperty_eq {target' : Target} (h : target.Like target') :
    b.directProperty scope name target' = b.directProperty scope name target := by
  unfold directProperty
  rw [h.nestedOnly]

/-- For all alike targets, a collection comes to one thing, on top of what is there. -/
theorem bindShape_collectionAlone {collection : CollectionKind} {target' : Target}
    (h : target.Like target')
    (hs : (b.resolve target.shape).collection? = some (collection, element))
    (level : Option BindBelow) (j : Journal) :
    ((b.bindShape level {} root target' false).runFrom j).1 =
      ((b.collectionAlone collection level root target element).runFrom j).1.map
        (collection.onto target'.existing?) := by
  rw [← h.shape] at hs
  rw [bindShape_root rfl, collectionAlone, directProperty_eq h]
  refine runFrom_bind_map (fun property j => ?_) j
  rw [bindForm_collection hs]
  refine runFrom_bind_map (fun f j => ?_) j
  rw [bindCollection_outcome, bindElements_eq h]

/-- So does a map. -/
theorem bindShape_mapAlone {target' : Target} {key : ScalarKind} {value : Shape}
    (h : target.Like target') (hs : b.resolve target.shape = .map key value)
    (level : Option BindBelow) (j : Journal) :
    ((b.bindShape level {} root target' false).runFrom j).1 =
      ((b.mapAlone level root target key value).runFrom j).1.map (mapOnto target'.existing?) := by
  rw [← h.shape] at hs
  rw [bindShape_root rfl, mapAlone, directProperty_eq h]
  refine runFrom_bind_map (fun property j => ?_) j
  unfold bindForm
  simp only [hs]
  refine runFrom_bind_map (fun f j => ?_) j
  rw [bindMap_eq, bindMapAlone_eq h]
  exact Gives.runFrom_map (fun bound => .ret _) j

/-- One outcome that two binds put on top of different values: where it is none, or a failure, the
binds come to the same. -/
theorem results_of_outcome {α : Type} {R : Value → Value → Prop} {f g : Option α → Option Value}
    (hf : f none = none) (hg : g none = none) {o : Except BindError (Option α)}
    (h : ∀ x, o = .ok (some x) →
      ∃ fresh merged, f (some x) = some fresh ∧ g (some x) = some merged ∧ R fresh merged)
    (e : BindError → Failure) :
    (∀ fresh, (o.map f).mapError e = .ok (some fresh) →
      ∃ merged, (o.map g).mapError e = .ok (some merged) ∧ R fresh merged) ∧
    ((∀ fresh, (o.map f).mapError e ≠ .ok (some fresh)) →
      (o.map g).mapError e = (o.map f).mapError e) := by
  rcases o with error | _ | x
  · refine ⟨fun fresh h => ?_, fun _ => rfl⟩
    cases h
  · refine ⟨fun fresh h => ?_, fun _ => congrArg Except.ok (hg.trans hf.symm)⟩
    cases hf.symm.trans (Except.ok.inj h)
  · obtain ⟨fresh, merged, hfresh, hmerged, hR⟩ := h x rfl
    refine ⟨fun fresh' h => ?_, fun h => absurd (congrArg Except.ok hfresh) (h fresh)⟩
    cases hfresh.symm.trans (Except.ok.inj h)
    exact ⟨merged, congrArg Except.ok hmerged, hR⟩

/-- Merging follows one table for whole binds: what is bound onto a container that is there is what
is bound without it, merged into it by the rules. Where that is nothing, or fails, so does binding
onto the container. -/
theorem bindRoot_onto (hh : b.handler = .default) (hl : ∀ s ∈ b.sources, s.names?.isSome = true)
    {existing : Value} (hc : IsContainer (b.resolve target.shape) existing) (history : List Name)
    (root : Name) :
    let alone := (b.bindRoot history root { target with held := none } false).result
    let onto := (b.bindRoot history root { target with held := some existing } false).result
    (∀ fresh, alone = .ok (some fresh) → ∃ merged, onto = .ok (some merged) ∧
      MergesTo (b.resolve target.shape) (b.provenanceAt root) existing fresh merged) ∧
    ((∀ fresh, alone ≠ .ok (some fresh)) → onto = alone) := by
  intro alone onto
  have hheld : ({ target with held := some existing } : Target).existing? = some existing := by
    cases hc <;> rfl
  have halike : ∀ held, target.Like { target with held } := fun held => ⟨rfl, rfl, rfl⟩
  have halone : alone = _ := bindRoot_result hh history root _
  have honto : onto = _ := bindRoot_result hh history root _
  cases hshape : (b.resolve target.shape).collection? with
  | some shapes =>
    obtain ⟨collection, element⟩ := shapes
    rw [bindShape_collectionAlone (halike none) hshape] at halone
    rw [bindShape_collectionAlone (halike (some existing)) hshape, hheld] at honto
    rw [halone, honto]
    refine results_of_outcome rfl rfl (fun x hx => ?_) _
    have hyields : (b.collectionAlone collection (b.way b.options.maxDepth) root target
        element).Yields fun bound => ∀ r ∈ bound, ∃ elements,
          r = (collection.collect elements, b.provenanceAt root) :=
      .after _ fun _ => .after _ fun _ => bindElements_provenance rfl hl
    obtain ⟨elements, rfl⟩ := hyields _ _ _ (Prod.ext hx rfl) x rfl
    obtain ⟨merged, hmerged, htable⟩ := hc.mergesTo_onto hshape elements
    exact ⟨_, merged, collection.onto_none _, hmerged, htable⟩
  | none =>
    cases hc with
    | collection h =>
      rw [h] at hshape
      cases hshape
    | @map key value _ h hd =>
      rw [bindShape_mapAlone (halike none) h] at halone
      rw [bindShape_mapAlone (halike (some _)) h, hheld] at honto
      rw [halone, honto]
      refine results_of_outcome rfl rfl (fun x hx => ?_) _
      have hyields : (b.mapAlone (b.way b.options.maxDepth) root target key value).Yields
          fun bound => ∀ v ∈ bound, ∃ entries, v = Value.map entries ∧ KeysDistinct entries :=
        .after _ fun _ => .after _ fun _ => .after _ fun _ => bindMapFrom_distinct _ .nil
      obtain ⟨entries, rfl, hdistinct⟩ := hyields _ _ _ (Prod.ext hx rfl) x rfl
      rw [h]
      obtain ⟨merged, hmerged, htable⟩ :=
        (IsContainer.map rfl hd).mergesTo_mapOnto hdistinct (b.provenanceAt root)
      exact ⟨_, merged, rfl, hmerged, htable⟩

/-- A set with one element that is there already. -/
theorem bindRoot_onto_tags :
    let b := ofLayers [("test", .ofList [("tags[0]", .string "b"), ("tags[1]", .string "c")])]
    let shape := Shape.set (.scalar .string)
    let run (held : Option Value) :=
      (b.bindRoot [] (Name.adapt "tags" '.') { shape, held } false).result
    let old : Value := .list [.string "a", .string "b"]
    let new : Value := .list [.string "b", .string "c"]
    let merged : Value := .list [.string "a", .string "b", .string "c"]
    run none = .ok (some new) ∧ run (some old) = .ok (some merged) ∧
      MergesTo shape .items old new merged := by
  intro b shape run
  have halone : run none = .ok (some (.list [.string "b", .string "c"])) := by rfl
  have honto : run (some (.list [.string "a", .string "b"])) =
      .ok (some (.list [.string "a", .string "b", .string "c"])) := by rfl
  obtain ⟨merged, hmerged, htable⟩ := (@bindRoot_onto b { shape } rfl
    (List.forall_mem_singleton.mpr rfl) (.list [.string "a", .string "b"]) (.collection rfl) []
    (Name.adapt "tags" '.')).1 _ halone
  cases honto.symm.trans hmerged
  exact ⟨halone, honto, htable⟩

end Binder

end TypedConfig
