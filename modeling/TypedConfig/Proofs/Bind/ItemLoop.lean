import Mathlib.Data.List.Perm.Subperm
import TypedConfig.Proofs.Bind.Alike
import TypedConfig.Proofs.Bind.Items
import TypedConfig.Proofs.Bind.Scalars
import TypedConfig.Proofs.Name.Kept

/-!
# The loop over the items of one source

Each item has an outcome. The loop takes the items one after the other, up to the first that binds
nothing, and it ends with the first failure.

* `Binder.bindItems_gives_mapM`: what the loop comes to, given the items up to the gap.
* `Binder.bindItems_yields`: where the loop ends well, what it bound are the items.
* `Binder.bindFrom_gives_mapM`: the items of a source in memory that lists no others.
* `Binder.bindFrom_yields`: where the items of a source in memory are bound, none is behind them.
* `Binder.bindRoot_of_bindFrom`: a whole collection of scalars, from the items of its only source.
* `Entries.le_length_of_holdsItem`: entries hold no more items than names.
-/

namespace TypedConfig

open BindM

/-! ## Items that are held -/

namespace Entries

variable {held : Entries} {name : Name}

/-- What is held under the name of an item is listed at its position, if positions go that far. -/
theorem HoldsItem.exists_position {k : Nat} (h : held.HoldsItem name k) (hwf : held.WellFormed)
    (hname : name.WellFormed) (hk : k < UInt64.size) :
    ∃ n ∈ held.names, name.positionIn? n = some k := by
  obtain ⟨n, hn, hm⟩ := (find?_isSome hwf (hname.item _)).mp h
  exact ⟨n, hn, by rw [Name.positionIn?_of_meaning hname (hwf n hn) hm, if_pos hk]⟩

/-- Items at different positions have different names. -/
theorem nodup_items (name : Name) (start m : Nat) :
    ((List.range m).map fun k => (name.item (toString (start + k))).meaning).Nodup := by
  refine List.nodup_range.map fun i j hij => ?_
  simp only [Name.meaning_item, List.append_cancel_left_eq, List.cons.injEq, Prod.mk.injEq,
    true_and, and_true] at hij
  have := congrArg Number.digitsValue hij
  rw [digitsValue_toString, digitsValue_toString] at this
  omega

/-- Entries that hold so many items have at least as many names. -/
theorem le_length_of_holdsItem (hwf : held.WellFormed) (hname : name.WellFormed) {start m : Nat}
    (h : ∀ k < m, held.HoldsItem name (start + k)) : m ≤ held.length := by
  have hsub : ((List.range m).map fun k => (name.item (toString (start + k))).meaning) ⊆
      held.names.map Name.meaning := by
    intro meaning hmem
    obtain ⟨k, hk, rfl⟩ := List.mem_map.mp hmem
    obtain ⟨n, hn, hm⟩ := (find?_isSome hwf (hname.item _)).mp (h k (List.mem_range.mp hk))
    exact List.mem_map.mpr ⟨n, hn, hm⟩
  have hle := (List.subperm_of_subset (nodup_items name start m) hsub).length_le
  simpa [names] using hle

end Entries

namespace Binder

/-! ## The loop -/

section Loop

variable {bindItem : Nat → BindM (Option Value)} {worthTrying : Nat → Bool} {steps start : Nat}

/-- The loop converts the items up to the first that binds nothing, one after the other. -/
theorem bindItems_gives_mapM {α : Type} {read : α → Except BindError Value} {xs : List α}
    (hitem : ∀ k (h : k < xs.length), (bindItem (start + k)).Gives ((read xs[k]).map some))
    (hworth : ∀ k < xs.length, worthTrying (start + k) = true)
    (hgap : worthTrying (start + xs.length) = true →
      (bindItem (start + xs.length)).Gives (.ok none)) (hsteps : xs.length ≤ steps) :
    (bindItems bindItem worthTrying steps start).Gives (xs.mapM read) := by
  induction xs generalizing start steps with
  | nil =>
    cases steps with
    | zero => exact Gives.bind (.note _) (.ret [])
    | succ steps =>
      unfold bindItems
      split
      · rename_i hstart
        exact (hgap hstart).bind (.ret [])
      · exact .ret []
  | cons x xs ih =>
    obtain ⟨steps, rfl⟩ := Nat.exists_eq_add_of_le' (Nat.lt_of_lt_of_le (Nat.succ_pos _) hsteps)
    have hfirst : (bindItem start).Gives ((read x).map some) := hitem 0 (Nat.succ_pos _)
    have hrest : (bindItems bindItem worthTrying steps (start + 1)).Gives (xs.mapM read) := by
      refine ih (fun k hk => ?_) (fun k hk => ?_) ?_ (Nat.le_of_succ_le_succ hsteps)
      · rw [Nat.add_assoc, Nat.add_comm 1]
        exact hitem (k + 1) (Nat.succ_lt_succ hk)
      · rw [Nat.add_assoc, Nat.add_comm 1]
        exact hworth (k + 1) (Nat.succ_lt_succ hk)
      · rw [Nat.add_assoc, Nat.add_comm 1]
        exact hgap
    have hstart : worthTrying start = true := hworth 0 (Nat.succ_pos _)
    unfold bindItems
    rw [if_pos hstart, List.mapM_cons]
    cases hx : read x with
    | error e =>
      rw [hx] at hfirst
      exact hfirst.bind_error
    | ok v =>
      rw [hx] at hfirst
      exact hfirst.bind (hrest.seq fun vs _ => .ret (v :: vs))

/-- What the loop binds are the items from the start on. -/
theorem bindItems_yields {item : Nat → Except BindError (Option Value)}
    (hitem : ∀ p, (bindItem p).Gives (item p)) :
    (bindItems bindItem worthTrying steps start).Yields fun values =>
      ∀ k (h : k < values.length), item (start + k) = .ok (some values[k]) := by
  induction steps generalizing start with
  | zero => exact .after _ fun _ => .ret fun k hk => by cases hk
  | succ steps ih =>
    unfold bindItems
    split
    · refine (hitem start).yields_outcome.bind fun bound hbound => ?_
      cases bound with
      | none => exact .ret fun k hk => by cases hk
      | some v =>
        refine ih.bind fun values hvalues => .ret fun k hk => ?_
        cases k with
        | zero => exact hbound
        | succ k =>
          have := hvalues k (Nat.lt_of_succ_lt_succ hk)
          rwa [Nat.add_assoc, Nat.add_comm 1] at this
    · exact .ret fun k hk => by cases hk

end Loop

/-! ## The items of a source in memory -/

variable {b : Binder} {below : BindBelow} {scope : Scope} {name : Name} {element : Shape} {i : Nat}
  {label : String} {held : Entries} {start : Nat}

/-- A source in memory that lists these items and no others converts them one after the other. -/
theorem bindFrom_gives_mapM {α : Type} {read : α → Except BindError Value} {xs : List α}
    (hitem : ∀ k (h : k < xs.length), (below (scope.restrictedTo i) (name.item (toString k))
      (.of element) true).Gives ((read xs[k]).map some))
    (hlisted : ∀ k < xs.length, ∃ n ∈ held.names, name.positionIn? n = some k)
    (hend : ∀ n ∈ held.names, ∀ p ∈ name.positionIn? n, p < xs.length) :
    (b.bindFrom below scope name element i (.entries label held) 0).Gives (xs.mapM read) := by
  let listed := listedPositions name 0 held.names
  have hmem : ∀ p, p ∈ listed ↔ p < xs.length := by
    intro p
    constructor
    · intro hp
      obtain ⟨n, hn, hpos⟩ := List.mem_filterMap.mp (List.mem_filter.mp hp).1
      exact hend n hn p hpos
    · intro hp
      obtain ⟨n, hn, hpos⟩ := hlisted p hp
      exact List.mem_filter.mpr
        ⟨List.mem_filterMap.mpr ⟨n, hn, hpos⟩, decide_eq_true (Nat.zero_le p)⟩
  have hworth : ∀ k, listed.any (k ≤ ·) = true ↔ k < xs.length := by
    intro k
    simp only [List.any_eq_true, decide_eq_true_eq]
    constructor
    · rintro ⟨p, hp, hkp⟩
      exact Nat.lt_of_le_of_lt hkp ((hmem p).mp hp)
    · exact fun hk => ⟨k, (hmem k).mpr hk, Nat.le_refl k⟩
  have hsteps : xs.length ≤ listed.foldl max 0 + 1 - 0 + 1 := by
    cases hlength : xs.length with
    | zero => exact Nat.zero_le _
    | succ m =>
      have := (le_foldl_max listed 0).2 m ((hmem m).mpr (by omega))
      omega
  have hloop : (bindItems (fun p => below (scope.restrictedTo i) (name.item (toString p))
      (.of element) true) (fun p => listed.any (p ≤ ·)) (listed.foldl max 0 + 1 - 0 + 1) 0).Gives
        (xs.mapM read) := by
    refine bindItems_gives_mapM (fun k hk => ?_) (fun k hk => ?_) (fun hgap => ?_) hsteps
    · rw [Nat.zero_add]
      exact hitem k hk
    · rw [Nat.zero_add]
      exact (hworth k).mpr hk
    · rw [Nat.zero_add] at hgap
      exact absurd ((hworth _).mp hgap) (Nat.lt_irrefl _)
  rw [bindFrom_entries]
  cases hread : xs.mapM read with
  | error e => exact (hread ▸ hloop).bind_error
  | ok values =>
    have hlength := (length_of_mapM hread).symm
    have hleft : listed.filter (0 + values.length ≤ ·) = [] := by
      refine List.filter_eq_nil_iff.mpr fun p hp => ?_
      have := (hmem p).mp hp
      simp only [decide_eq_true_eq]
      omega
    refine (hread ▸ hloop).bind ?_
    simp only
    rw [hleft]
    exact .ret values

/-- Where the items of a source in memory are bound, it lists nothing behind them. -/
theorem bindFrom_yields {item : Nat → Except BindError (Option Value)}
    (hitem : ∀ p, (below (scope.restrictedTo i) (name.item (toString p)) (.of element) true).Gives
      (item p)) :
    (b.bindFrom below scope name element i (.entries label held) start).Yields fun values =>
      (∀ k (h : k < values.length), item (start + k) = .ok (some values[k])) ∧
      ∀ n ∈ held.names, ∀ p ∈ name.positionIn? n, p < start + values.length := by
  rw [bindFrom_entries]
  refine (bindItems_yields hitem).bind fun values hvalues => ?_
  simp only
  split
  · rename_i hleft
    refine .ret ⟨hvalues, fun n hn p hp => ?_⟩
    by_contra hle
    have hlisted : p ∈ (listedPositions name start held.names).filter
        (start + values.length ≤ ·) := by
      refine List.mem_filter.mpr ⟨List.mem_filter.mpr ⟨?_, ?_⟩, ?_⟩
      · exact List.mem_filterMap.mpr ⟨n, hn, hp⟩
      · exact decide_eq_true (by omega)
      · exact decide_eq_true (by omega)
    rw [List.isEmpty_iff.mp hleft] at hlisted
    cases hlisted
  · unfold refuseItems
    exact .after _ fun _ => .raise _

/-! ## One source after the other -/

/-- Looks for the single value in a source, if it is asked for and not found yet. -/
def seekSingle (direct : Bool) (i : Nat) (source : Source) (name : Name)
    (single : Option Property) : BindM (Option Property) :=
  if direct && single.isNone then getFrom i source name else pure single

theorem seekSingle_gives (direct : Bool) (i : Nat) (source : Source) (name : Name)
    (single : Option Property) : (seekSingle direct i source name single).Gives
      (.ok (if direct && single.isNone then source.get? name else single)) := by
  unfold seekSingle
  split
  · exact getFrom_gives i source name
  · exact .ret single

theorem bindFromAll_cons_eq (b : Binder) (below : BindBelow) (scope : Scope) (name : Name)
    (element : Shape) (direct : Bool) (i : Nat) (source : Source) (rest : List (Nat × Source))
    (values : List Value) (single : Option Property) :
    b.bindFromAll below scope name element direct ((i, source) :: rest) values single = (do
      let single ← seekSingle direct i source name single
      let more ← b.bindFrom below scope name element i source values.length
      b.bindFromAll below scope name element direct rest (values ++ more) single) := by
  unfold seekSingle
  rw [bindFromAll]
  split <;> rfl

/-! ## A collection from one source -/

/-- What a collection of scalars comes to at the root of a bind, given the outcome of its items in
the only source. -/
theorem bindRoot_of_bindFrom {source : Source} {root : Name} {target : Target} {kind : ScalarKind}
    {collection : CollectionKind} {levels : Nat} (hh : b.handler = .default)
    (hsource : b.sources = [source]) (hlevels : b.options.maxDepth = levels + 1)
    (hne : root.isEmpty = false)
    (hcollection : (b.resolve target.shape).collection? = some (collection, element))
    (hs : b.resolve element = .scalar kind) (hnew : target.existing? = none)
    (hdirect : target.nestedOnly = false) {r : Except BindError (List Value)}
    (hr : (b.bindFrom (b.descend levels) (Scope.deeper {}) root element 0 source 0).Gives r)
    (history : List Name) :
    (b.bindRoot history root target false).result =
      ((r >>= fun values => b.collected collection kind element values (source.get? root)).map
        (Option.map (·.1))).mapError (.bind root) := by
  have hvisible : b.visible (Scope.deeper {}) = [(0, source)] := visible_single hsource rfl
  have hall : (b.bindFromAll (b.descend levels) (Scope.deeper {}) root element true
      [(0, source)] [] none).Gives (r.map fun values => (values, source.get? root)) := by
    rw [bindFromAll_cons_eq]
    exact (seekSingle_gives true 0 source root none).bind (hr.map _)
  have helements : (b.bindElements collection (b.descend levels) (Scope.deeper {}) root target
      element).Gives (r >>= fun values =>
        b.collected collection kind element values (source.get? root)) := by
    rw [bindElements_eq_collect, hvisible, hne, hdirect]
    cases r with
    | error e => exact hall.bind_error
    | ok values => exact hall.bind (collect_gives hs collection values _)
  have hshape : (b.bindShape (b.way (levels + 1)) {} root target false).LeadsTo
      (b.bindCollection collection (b.descend levels) {} root target element) :=
    bindShape_leadsTo_bindCollection hcollection rfl (b.descend levels) root false
  obtain ⟨j, hj⟩ := hshape { bound := history }
  rw [bindRoot_result hh, hlevels, hj, bindCollection_outcome, helements, hnew]
  refine congrArg (Except.mapError (Failure.bind root)) (congrArg (fun f => Except.map f _) ?_)
  exact funext fun bound => collection.onto_none bound

end Binder

end TypedConfig
