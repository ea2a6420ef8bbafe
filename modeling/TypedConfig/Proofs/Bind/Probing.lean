import TypedConfig.Proofs.Bind.Alike
import TypedConfig.Proofs.Bind.ItemLoop
import TypedConfig.Proofs.Bind.Termination

/-!
# Items without a list of names

A source that lists no names is asked for one item after the other, up to the first that it does not
have. Where the names are listed and binding ends well, no item stands behind a gap, so asking finds
the same items.

* `Binder.probing`: the binder that sees its sources by lookups only.
* `Binder.bindFrom_probed`, `Binder.bindFromAll_probed`: the items of one source and of all of them.
* `Binder.bindRoot_probed`: a whole bind.
-/

namespace TypedConfig

namespace Binder

open BindM

/-- The binder that can only look names up in its sources. -/
def probing (b : Binder) : Binder := { b with sources := b.sources.map .lookupOnly }

variable {b : Binder} {scope : Scope} {name : Name} {target : Target} {kind : ScalarKind}
  {element : Shape} {held : Entries} {start : Nat}

theorem visible_probing (ho : scope.only = none) :
    b.probing.visible scope = (b.visible scope).map fun e => (e.1, e.2.lookupOnly) := by
  refine List.ext_getElem? fun i => ?_
  simp [visible, ho, probing, Function.comp_def]

/-! ## One source -/

/-- Without a list of names, items are tried as long as they are found, within the reach of the
source. -/
theorem bindFrom_lookupOnly (b : Binder) (below : BindBelow) (scope : Scope) (name : Name)
    (element : Shape) (i : Nat) (source : Source) (start : Nat) :
    b.bindFrom below scope name element i source.lookupOnly start =
      bindItems (fun p => below (scope.restrictedTo i) (name.item (toString p)) (.of element) false)
        (fun _ => true) (max source.reach b.handler.reach - start + 1) start :=
  bind_pure _

/-- An item that is bound is held. -/
theorem holdsItem_of_scalarAt {label : String} {p : Nat} {v : Value}
    (h : b.scalarAt kind ((Source.entries label held).get? (name.item (toString p))) =
      .ok (some v)) :
    held.HoldsItem name p := by
  unfold Entries.HoldsItem
  cases hf : Keyed.find? (name.item (toString p)) held with
  | some e => rfl
  | none =>
    rw [Source.get?, hf] at h
    cases h

/-- Behind its last position, a source in memory has no item. One at a gap would be listed, as far
as positions go, and they go as far as names can be counted. -/
theorem get?_gap {label : String} (hbuilt : held.Built) (hname : name.WellFormed) {m : Nat}
    (hm : ∀ k < m, held.HoldsItem name (start + k))
    (hend : ∀ n ∈ held.names, ∀ p ∈ name.positionIn? n, p < start + m)
    (hcount : start + held.length ≤ UInt64.size) :
    (Source.entries label held).get? (name.item (toString (start + m))) = none := by
  rw [← Option.not_isSome_iff_eq_none, Source.get?, Option.isSome_map]
  intro hgap
  have hall : ∀ k < m + 1, held.HoldsItem name (start + k) := by
    intro k hk
    rcases Nat.lt_succ_iff_lt_or_eq.mp hk with hk | rfl
    · exact hm k hk
    · exact hgap
  have hle := Entries.le_length_of_holdsItem hbuilt.wellFormed hname hall
  obtain ⟨n, hn, hp⟩ := Entries.HoldsItem.exists_position hgap hbuilt.wellFormed hname (by omega)
  exact absurd (hend n hn _ hp) (by omega)

/-- No item is held beyond the reach of the source. -/
theorem lt_reach_of_holdsItem (label : String) (hbuilt : held.Built) (hname : name.Built) {p : Nat}
    (h : held.HoldsItem name p) : p < (Source.entries label held).reach := by
  have hget : ((Source.entries label held).get? (name.item (toString p))).isSome = true := by
    rw [Source.get?, Option.isSome_map]
    exact h
  exact Nat.lt_of_lt_of_le (name.lt_reach_item p)
    ((Source.Finite.entries label hbuilt).reach _ (hname.item _) hget)

section Items

variable (hh : b.handler = .default) (hs : b.resolve element = .scalar kind) (hname : name.Built)

include hh hs hname

/-- The items of a source in memory that are bound from its names are found without them. -/
theorem bindFrom_probed {i : Nat} {label : String} (hbuilt : held.Built)
    (hi : b.sources[i]? = some (.entries label held)) (levels : Nat)
    (hcount : start + held.length ≤ UInt64.size) :
    (b.bindFrom (b.descend levels) scope name element i (.entries label held) start).Yields
      fun values => values.length ≤ held.length ∧
        (b.probing.bindFrom (b.probing.descend levels) scope name element i
          (.lookupOnly (.entries label held)) start).Gives (.ok values) := by
  have hi' : b.probing.sources[i]? = some (.lookupOnly (.entries label held)) := by
    rw [probing, List.getElem?_map, hi]
    rfl
  refine (bindFrom_yields fun p => descend_item_gives hh hs hi levels scope name _ true).mono
    fun values ⟨hvalues, hend⟩ => ?_
  have hheld : ∀ k < values.length, held.HoldsItem name (start + k) :=
    fun k hk => holdsItem_of_scalarAt (hvalues k hk)
  refine ⟨Entries.le_length_of_holdsItem hbuilt.wellFormed hname.wellFormed hheld, ?_⟩
  have hsteps : values.length ≤ (Source.entries label held).reach - start := by
    cases hlength : values.length with
    | zero => exact Nat.zero_le _
    | succ m =>
      have := lt_reach_of_holdsItem label hbuilt hname (hheld m (by omega))
      omega
  have hloop : (bindItems (fun p => b.probing.descend levels (scope.restrictedTo i)
      (name.item (toString p)) (.of element) false) (fun _ => true)
      (max (Source.entries label held).reach b.handler.reach - start + 1) start).Gives
        (values.mapM (pure : Value → Except BindError Value)) := by
    refine bindItems_gives_mapM (fun k hk => ?_) (fun _ _ => rfl) ?_ (by omega)
    · have := descend_item_gives (b := b.probing) hh hs hi' levels scope name
        (toString (start + k)) false
      rwa [show b.probing.scalarAt kind (Source.get? (.lookupOnly (.entries label held)) _) =
        .ok (some values[k]) from hvalues k hk] at this
    · intro _
      have := descend_item_gives (b := b.probing) hh hs hi' levels scope name
        (toString (start + values.length)) false
      rwa [show Source.get? (.lookupOnly (.entries label held)) _ = none from
        get?_gap hbuilt hname.wellFormed hheld hend hcount] at this
  rw [List.mapM_pure, List.map_id'] at hloop
  rw [bindFrom_lookupOnly]
  exact hloop

/-- So are those of all sources, if their names can be counted. -/
theorem bindFromAll_probed (levels : Nat) (direct : Bool) {layers : List (Nat × String × Entries)}
    (hlayers : ∀ l ∈ layers, l.2.2.Built ∧ b.sources[l.1]? = some (.entries l.2.1 l.2.2))
    (values : List Value) (single : Option Property)
    (hcount : values.length + (layers.flatMap fun l => l.2.2).length ≤ UInt64.size) :
    (b.bindFromAll (b.descend levels) scope name element direct
      (layers.map fun l => (l.1, .entries l.2.1 l.2.2)) values single).Yields fun r =>
        (b.probing.bindFromAll (b.probing.descend levels) scope name element direct
          (layers.map fun l => (l.1, .lookupOnly (.entries l.2.1 l.2.2))) values single).Gives
            (.ok r) := by
  induction layers generalizing values single with
  | nil => exact .ret (.ret _)
  | cons layer rest ih =>
    obtain ⟨i, label, held⟩ := layer
    obtain ⟨⟨hbuilt, hi⟩, hrest⟩ := List.forall_mem_cons.mp hlayers
    rw [List.flatMap_cons, List.length_append] at hcount
    simp only [List.map_cons, bindFromAll_cons_eq]
    refine (seekSingle_gives direct i _ name single).yields.bind fun _ h => ?_
    subst h
    refine (bindFrom_probed hh hs hname hbuilt hi levels (by omega)).bind fun more hmore => ?_
    obtain ⟨hmore, hgives⟩ := hmore
    have hcount' : (values ++ more).length + (rest.flatMap fun l => l.2.2).length ≤
        UInt64.size := by
      rw [List.length_append]
      omega
    refine (ih hrest (values ++ more) _ hcount').mono fun r hr => ?_
    exact (seekSingle_gives direct i _ name single).bind (hgives.bind hr)

end Items

/-! ## A whole bind -/

section Layers

variable {layers : List (String × Entries)} (hh : b.handler = .default)
  (hs : b.resolve element = .scalar kind) (hname : name.Built)
  (hsources : b.sources = layers.map fun l => .entries l.1 l.2) (hbuilt : ∀ l ∈ layers, l.2.Built)
  (hcount : (layers.flatMap fun l => l.2).length ≤ UInt64.size)

include hh hs hname hsources hbuilt hcount

theorem bindElements_probed (levels : Nat) (ho : scope.only = none) (collection : CollectionKind)
    (target : Target) :
    (b.bindElements collection (b.descend levels) scope name target element).Yields fun bound =>
      (b.probing.bindElements collection (b.probing.descend levels) scope name target element).Gives
        (.ok bound) := by
  have hcount' : ([] : List Value).length + ((placed layers).flatMap fun l => l.2.2).length ≤
      UInt64.size := by
    rw [← map_placed layers, List.flatMap_map] at hcount
    exact (Nat.zero_add _).symm ▸ hcount
  rw [bindElements_eq_collect, bindElements_eq_collect, visible_probing ho,
    visible_layers hsources ho, List.map_map]
  refine (bindFromAll_probed hh hs hname levels _ (fun l hl =>
    ⟨hbuilt _ (mem_of_mem_placed hl), getElem?_of_placed hsources hl⟩) [] none hcount').bind
      fun r hr => ?_
  refine (collect_gives hs collection r.1 r.2).yields_outcome.mono fun bound hbound => ?_
  have hcollect : (b.probing.collect collection element r.1 r.2).Gives (.ok bound) :=
    hbound ▸ collect_gives (b := b.probing) hs collection r.1 r.2
  exact hr.bind hcollect

theorem bindAt_probed {collection : CollectionKind}
    (hcollection : (b.resolve target.shape).collection? = some (collection, element)) :
    (b.bindAt b.options.maxDepth {} name target false false).Yields fun r =>
      (b.probing.bindAt b.options.maxDepth {} name target false false).Gives (.ok r) := by
  rw [bindAt_eq_bindVisit, bindAt_eq_bindVisit]
  refine bindVisit_yields hh ?_
  cases b.options.maxDepth with
  | zero =>
    -- A collection is too deep where no levels are left.
    rw [bindShape_root rfl]
    refine .after _ fun property => ?_
    rw [bindForm_collection hcollection]
    exact Yields.bind (.raise (Q := fun _ => False) _) fun _ h => h.elim
  | succ levels =>
    refine (bindShape_leadsTo_bindCollection hcollection rfl (b.descend levels) name
      false).yields ?_
    refine (bindCollection_yields (bindElements_probed hh hs hname hsources hbuilt hcount levels rfl
      collection target)).mono fun r hr => ?_
    obtain ⟨bound, rfl, hgives⟩ := hr
    refine bindVisit_gives hh ?_ fun h => by cases h
    exact (bindShape_leadsTo_bindCollection (b := b.probing) hcollection rfl
      (b.probing.descend levels) name false).gives (bindCollection_gives hgives)

end Layers

/-- Items that are listed and items that are asked for one after the other agree: what is bound from
sources in memory, to a collection of scalars, is bound as well where those only answer lookups, and
asking comes to an end. Their names can be counted, as they are in memory. -/
theorem bindRoot_probed {layers : List (String × Entries)}
    (hsources : b.sources = layers.map fun l => .entries l.1 l.2) (hbuilt : ∀ l ∈ layers, l.2.Built)
    (hcount : (layers.flatMap fun l => l.2).length ≤ UInt64.size) (hh : b.handler = .default)
    {root : Name} (hroot : root.Built) {collection : CollectionKind}
    (hcollection : (b.resolve target.shape).collection? = some (collection, element))
    (hs : b.resolve element = .scalar kind) (history : List Name) {r : Option Value}
    (h : (b.bindRoot history root target false).result = .ok r) :
    let run := b.probing.bindRoot history root target false
    run.result = .ok r ∧ run.journal.endless = none := by
  intro run
  have hgives := bindRoot_yields
    (bindAt_probed hh hs hroot hsources hbuilt hcount hcollection) h
  have hfinite : ∀ s ∈ b.probing.sources, s.Finite := by
    rw [probing, hsources, List.map_map]
    exact List.forall_mem_map.mpr fun l hl => (Source.Finite.entries l.1 (hbuilt l hl)).lookupOnly
  exact ⟨bindRoot_ok_iff.mpr (hgives _),
    bindRoot_scalars_ends (b := b.probing) hh hfinite history hroot hcollection hs false⟩

/-- A list from two sources, of which the second goes on where the first ends, on top of a longer
one. An item that is null is bound. -/
def chainedLists : List (String × Entries) :=
  [("first", .ofList [("n[0]", .string "a"), ("n[1]", .null)]),
    ("second", .ofList [("n[2]", .string "c")])]

/-- It is the same whether the sources list their names or not, and asking for items ends. -/
theorem bindRoot_probed_chained :
    let existing : Value := .list [.string "x", .string "y", .string "z", .string "d"]
    let target := (Target.of (.list (.scalar .string))).withExisting (some existing)
    let run (b : Binder) := b.bindRoot [] (Name.adapt "n" '.') target false
    let bound : Value := .list [.string "a", .null, .string "c", .string "d"]
    (run (ofLayers chainedLists)).result = .ok (some bound) ∧
      (run (ofLayers chainedLists).probing).result = .ok (some bound) ∧
      (run (ofLayers chainedLists).probing).journal.endless = none := by
  intro existing target run bound
  have hbound : (run (ofLayers chainedLists)).result = .ok (some bound) := by rfl
  refine ⟨hbound, @bindRoot_probed _ target _ _ chainedLists rfl ?_ ?_ rfl _ (.adapt "n" '.') _
    rfl rfl [] _ hbound⟩
  · exact List.forall_mem_cons.mpr ⟨.ofList _, List.forall_mem_singleton.mpr (.ofList _)⟩
  · decide +kernel

end Binder

end TypedConfig
