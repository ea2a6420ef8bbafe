import Mathlib.Order.Bounds.Basic
import TypedConfig.Proofs.Bind.ItemLoop
import TypedConfig.Proofs.Bind.Termination

/-!
# Gaps in a collection

The items of a collection end at the first position that is not held. What a source lists at or
below positions behind it is reported, in the order in which the source lists it, and nothing else
is.

* `Name.AtOrBehind`: a name lies at or below an item from a position on.
* `Entries.IsGap`: the first position without an item.
* `Binder.bindFrom_gap`: the items of one source, or the names that it has behind the gap.
* `Binder.bindRoot_gap`: a whole bind.
-/

namespace TypedConfig

/-! ## Names at or below items -/

/-- What means the same as an index has its text. -/
theorem Element.text_of_same_index {key : String} {e : Element} (h : (index key).same e = true) :
    e.text = key := by
  unfold index at h
  split at h
  all_goals
    unfold same at h
    cases hk : e.kind <;> simp_all

namespace Name

/-- The name lies at or below an item of a collection, at a position from `start` on. -/
def AtOrBehind (collection : Name) (start : Nat) (n : Name) : Prop :=
  ∃ k, start ≤ k ∧ (collection.item (toString k)).covers n = true

variable {collection n : Name} {start k : Nat}

/-- The position of an item that a name lies at or below is read off the name. -/
theorem digitsValue_of_covers_item (h : (collection.item (toString k)).covers n = true) :
    ∃ e, n.element? collection.length = some e ∧ Number.digitsValue e.text.toList = k := by
  obtain ⟨hlt, hsame⟩ : collection.length < n.length ∧
      sameElements (collection.elements ++ [.index (toString k)]) n.elements = true := by
    rw [covers, Bool.or_eq_true, isAncestorOf, Bool.and_eq_true, decide_eq_true_eq] at h
    rcases h with h | ⟨hlt, hsame⟩
    · have h : (collection.item (toString k)).same n = true := h
      rw [same, Bool.and_eq_true, beq_iff_eq, length_item] at h
      exact ⟨by omega, h.2⟩
    · rw [length_item] at hlt
      exact ⟨by omega, hsame⟩
  have he : n.elements[collection.elements.length]? = some n.elements[collection.length] :=
    List.getElem?_eq_getElem hlt
  refine ⟨_, he, ?_⟩
  rw [sameElements_append_singleton he, Bool.and_eq_true] at hsame
  rw [Element.text_of_same_index hsame.2, digitsValue_toString]

instance : Decidable (collection.AtOrBehind start n) :=
  decidable_of_iff
    ((n.element? collection.length).any fun e =>
      decide (start ≤ Number.digitsValue e.text.toList) &&
        (collection.item (toString (Number.digitsValue e.text.toList))).covers n) <| by
    rw [Option.any_eq_true]
    constructor
    · rintro ⟨e, -, he⟩
      rw [Bool.and_eq_true, decide_eq_true_eq] at he
      exact ⟨_, he⟩
    · rintro ⟨k, hk, hc⟩
      obtain ⟨e, he, rfl⟩ := digitsValue_of_covers_item hc
      exact ⟨e, he, by rw [Bool.and_eq_true, decide_eq_true_eq]; exact ⟨hk, hc⟩⟩

end Name

/-! ## The first gap -/

namespace Entries

variable {held : Entries} {root : Name} {g : Nat}

/-- The first position of a collection without an item. -/
def IsGap (held : Entries) (root : Name) (g : Nat) : Prop := IsLeast {k | ¬held.HoldsItem root k} g

/-- The names at or below items from a position on, in the order of the entries. -/
def late (held : Entries) (root : Name) (g : Nat) : List Name :=
  held.names.filter fun n => root.AtOrBehind g n

/-- The numeric indexes right below a name are positions, as they are written. -/
def CanonicalIndexes (held : Entries) (root : Name) : Prop :=
  ∀ n ∈ held.names, root.isAncestorOf n = true → n.isNumericAt root.length = true →
    ∃ k : Nat, k < UInt64.size ∧ (root.item (toString k)).covers n = true

/-- Where the indexes are positions, a name lies at or behind a position exactly if it is listed
there. -/
theorem CanonicalIndexes.atOrBehind_iff (h : held.CanonicalIndexes root) (hwf : held.WellFormed)
    (hroot : root.WellFormed) {n : Name} (hn : n ∈ held.names) :
    root.AtOrBehind g n ↔ ∃ p, root.positionIn? n = some p ∧ g ≤ p := by
  have hposition : ∀ {k : Nat}, (root.item (toString k)).covers n = true →
      root.positionIn? n = if k < UInt64.size then some k else none := fun hk =>
    Name.positionIn?_of_prefix hroot (hwf n hn)
      ((Name.covers_iff (hroot.item _) (hwf n hn)).mp hk)
  have hlisted : root.isAncestorOf n = true → n.isNumericAt root.length = true →
      ∃ k : Nat, root.positionIn? n = some k ∧ (root.item (toString k)).covers n = true := by
    intro hanc hnum
    obtain ⟨k, hk, hc⟩ := h n hn hanc hnum
    exact ⟨k, by rw [hposition hc, if_pos hk], hc⟩
  constructor
  · rintro ⟨k, hgk, hc⟩
    obtain ⟨hanc, e, he, hkind, -⟩ := Name.exists_index_of_prefix hroot (hwf n hn)
      ((Name.covers_iff (hroot.item _) (hwf n hn)).mp hc)
    obtain ⟨p, hp, -⟩ := hlisted hanc (by simp [Name.isNumericAt, he, hkind])
    rw [hposition hc] at hp
    split at hp
    · cases hp
      exact ⟨k, hposition hc ▸ if_pos ‹_›, hgk⟩
    · cases hp
  · rintro ⟨p, hp, hgp⟩
    obtain ⟨hanc, hnum⟩ := Name.isNumericAt_of_positionIn? hp
    obtain ⟨k, hk, hc⟩ := hlisted hanc hnum
    rw [hp] at hk
    cases hk
    exact ⟨p, hgp, hc⟩

/-- Where the indexes are positions, the names at or behind one are those that are listed there. -/
theorem CanonicalIndexes.late_eq (h : held.CanonicalIndexes root) (hwf : held.WellFormed)
    (hroot : root.WellFormed) (g : Nat) :
    held.late root g = held.names.filter fun n => (root.positionIn? n).any
      ((Binder.listedPositions root 0 held.names).filter (g ≤ ·)).contains := by
  refine List.filter_congr fun n hn => ?_
  rw [Bool.eq_iff_iff, decide_eq_true_eq, h.atOrBehind_iff hwf hroot hn, Option.any_eq_true]
  refine exists_congr fun p => and_congr_right fun hp => ?_
  have hmem : p ∈ held.names.filterMap root.positionIn? := List.mem_filterMap.mpr ⟨n, hn, hp⟩
  simpa [Binder.listedPositions] using fun _ => List.mem_filterMap.mp hmem

/-- There are such names exactly if a position behind is listed. -/
theorem CanonicalIndexes.late_eq_nil_iff (h : held.CanonicalIndexes root) (hwf : held.WellFormed)
    (hroot : root.WellFormed) (g : Nat) :
    held.late root g = [] ↔ (Binder.listedPositions root 0 held.names).filter (g ≤ ·) = [] := by
  rw [h.late_eq hwf hroot]
  constructor
  · intro hnone
    refine List.eq_nil_iff_forall_not_mem.mpr fun p hp => ?_
    obtain ⟨n, hn, hpos⟩ := List.mem_filterMap.mp (List.mem_filter.mp (List.mem_filter.mp hp).1).1
    refine List.filter_eq_nil_iff.mp hnone n hn ?_
    rw [hpos]
    exact List.contains_iff_mem.mpr hp
  · intro hnone
    rw [hnone, List.filter_eq_nil_iff]
    intro n _
    cases root.positionIn? n <;> simp

/-- An item that is held is listed at its position. -/
theorem CanonicalIndexes.mem_positions (h : held.CanonicalIndexes root) (hwf : held.WellFormed)
    (hroot : root.WellFormed) {k : Nat} (hk : held.HoldsItem root k) :
    k ∈ held.names.filterMap root.positionIn? := by
  obtain ⟨n, hn, hm⟩ := (find?_isSome hwf (hroot.item _)).mp hk
  have hc : (root.item (toString k)).covers n = true :=
    (Name.covers_iff (hroot.item _) (hwf n hn)).mpr (hm ▸ List.prefix_refl _)
  obtain ⟨p, hp, -⟩ := (h.atOrBehind_iff hwf hroot hn).mp ⟨k, Nat.le_refl k, hc⟩
  have hpk := Name.positionIn?_of_meaning hroot (hwf n hn) hm
  rw [hp] at hpk
  split at hpk
  · cases hpk
    exact List.mem_filterMap.mpr ⟨n, hn, hp⟩
  · cases hpk

end Entries

namespace Binder

open BindM

variable {b : Binder} {root : Name} {target : Target} {kind : ScalarKind} {element : Shape}
  {held : Entries} {label : String}

/-- An item that converts, if it is held, comes to its value. -/
theorem scalarAt_itemAt {k : Nat}
    (h : ∀ e : Entry, Keyed.find? (root.item (toString k)) held = some e →
      ∃ v, b.converter.convert kind e.value = .ok v) :
    b.scalarAt kind ((Source.entries label held).get? (root.item (toString k))) =
      .ok (b.itemAt kind root held k) := by
  unfold itemAt Source.get?
  cases he : Keyed.find? (root.item (toString k)) held with
  | none => rfl
  | some e =>
    obtain ⟨v, hv⟩ := h e he
    show (b.scalarOf kind _).map some = .ok (b.converter.convert kind e.value).toOption
    rw [hv, scalarOf_of_convert (p := ⟨_, e.value, _⟩) hv]
    rfl

/-! ## What is reported -/

/-- The properties of names that a source in memory lists, in their order. -/
theorem map_name_filterMap_get? {names : List Name}
    (h : ∀ n ∈ names, (Keyed.find? n held).isSome = true) :
    (names.filterMap (Source.entries label held).get?).map (·.name) = names := by
  have hget : ∀ n ∈ names, ((Source.entries label held).get? n).map (·.name) = some n := by
    intro n hn
    obtain ⟨e, he⟩ := Option.isSome_iff_exists.mp (h n hn)
    rw [Source.get?, he]
    rfl
  rw [List.map_filterMap, List.filterMap_congr hget, List.filterMap_some]

/-- What a source has at some positions is refused, in the order of its names. -/
theorem refuseItems_error (i : Nat) (positions : List Nat) :
    (refuseItems i (.entries label held) root positions).Gives (.error (.unboundProperties
      ((held.names.filter fun n => (root.positionIn? n).any positions.contains).filterMap
        (Source.entries label held).get?))) :=
  Gives.bind (.note _) (.raise _)

/-! ## A whole bind -/

section Gap

variable (hh : b.handler = .default) (hsource : b.sources = [.entries label held])
  (hbuilt : held.Built) (hroot : root.Built) (hs : b.resolve element = .scalar kind)
  (hindexes : held.CanonicalIndexes root)
  (hconvert : ∀ (k : Nat) (e : Entry), Keyed.find? (root.item (toString k)) held = some e →
    ∃ v, b.converter.convert kind e.value = .ok v)

include hh hsource hbuilt hroot hs hindexes hconvert

/-- The items of a source are those before the gap, unless it has names behind it. -/
theorem bindFrom_gap (levels : Nat) :
    ∃ values : List Value, held.IsGap root values.length ∧
      (∀ k (h : k < values.length), ∃ e : Entry,
        Keyed.find? (root.item (toString k)) held = some e ∧
          b.converter.convert kind e.value = .ok values[k]) ∧
      (b.bindFrom (b.descend levels) (Scope.deeper {}) root element 0 (.entries label held) 0).Gives
        (if held.late root values.length = [] then .ok values
        else .error (.unboundProperties
          ((held.late root values.length).filterMap (Source.entries label held).get?))) := by
  have hwf := hbuilt.wellFormed
  have hname := hroot.wellFormed
  have hheld := fun k => holdsItem_iff_isSome (hconvert k)
  obtain ⟨values, hrun, hleads⟩ : ∃ values, IsRun (b.itemAt kind root held) 0 values ∧
      (b.bindFrom (b.descend levels) (Scope.deeper {}) root element 0 (.entries label held)
        0).LeadsTo _ :=
    bindFrom_leadsTo (fun p hp => hindexes.mem_positions hwf hname ((hheld p).mpr hp))
      (fun p => scalarAt_itemAt (hconvert p) ▸ descend_item_gives hh hs (by rw [hsource]; rfl)
        levels (Scope.deeper {}) root (toString p) true) 0
  refine ⟨values, ⟨fun hgap => ?_, fun k hk => ?_⟩, fun k hk => ?_, hleads.gives ?_⟩
  · have hnone := hrun.gap
    rw [Nat.zero_add] at hnone
    rw [hheld, hnone] at hgap
    cases hgap
  · by_contra hlt
    exact hk ((hheld k).mpr (hrun.isSome (Nat.zero_le k) (by omega)))
  · have hk := hrun.held k hk
    rw [Nat.zero_add] at hk
    obtain ⟨e, he, hv⟩ := Option.bind_eq_some_iff.mp hk
    obtain ⟨v, hc⟩ := hconvert k e he
    rw [hc] at hv
    cases hv
    exact ⟨e, he, hc⟩
  · simp only [Nat.zero_add, List.isEmpty_iff, hindexes.late_eq_nil_iff hwf hname]
    split
    · exact .ret values
    · rw [hindexes.late_eq hwf hname]
      exact refuseItems_error 0 _

end Gap

/-- A list of scalars from one source ends at its first gap. Names at or behind the gap are an error
that lists them. If there are none, the items before the gap are bound, and a single value only
counts where there is no item. The bind is not cut short. -/
theorem bindRoot_gap (hsource : b.sources = [.entries label held]) (hbuilt : held.Built)
    (hh : b.handler = .default) (hdepth : 1 ≤ b.options.maxDepth) (hroot : root.Built)
    (hne : root.isEmpty = false) (hlist : b.resolve target.shape = .list element)
    (hs : b.resolve element = .scalar kind) (hnew : target.existing? = none)
    (hdirect : target.nestedOnly = false) (hindexes : held.CanonicalIndexes root)
    (hconvert : ∀ (k : Nat) (e : Entry), Keyed.find? (root.item (toString k)) held = some e →
      ∃ v, b.converter.convert kind e.value = .ok v) (history : List Name) :
    ∃ g, held.IsGap root g ∧
      let source := Source.entries label held
      let run := b.bindRoot history root target false
      let result := run.result
      run.journal.endless = none ∧
      (held.late root g ≠ [] → ∃ ps, result = .error (.bind root (.unboundProperties ps)) ∧
        ps.map (·.name) = held.late root g ∧ ∀ p ∈ ps, source.get? p.name = some p) ∧
      (held.late root g = [] → 0 < g → ∃ values, result = .ok (some (.list values)) ∧
        values.length = g ∧ ∀ k (h : k < values.length), ∃ e : Entry,
          Keyed.find? (root.item (toString k)) held = some e ∧
            b.converter.convert kind e.value = .ok values[k]) ∧
      (held.late root g = [] → g = 0 →
        (source.get? root = none → result = .ok none) ∧
        ∀ p, source.get? root = some p → result =
          ((b.scalarsOf kind element p).map fun values => some (.list values)).mapError
            (.bind root)) := by
  obtain ⟨levels, hlevels⟩ := Nat.exists_eq_add_of_le' hdepth
  obtain ⟨values, hgap, hvalues, hfrom⟩ := bindFrom_gap hh hsource hbuilt hroot hs hindexes hconvert
    levels
  have hcollection : (b.resolve target.shape).collection? = some (.list, element) := by
    rw [hlist]
    rfl
  have hresult := bindRoot_of_bindFrom hh hsource hlevels hne hcollection hs hnew hdirect hfrom
    history
  have hfinite : ∀ s ∈ b.sources, s.Finite := by
    rw [hsource]
    exact List.forall_mem_singleton.mpr (.entries label hbuilt)
  refine ⟨values.length, hgap,
    bindRoot_scalars_ends hh hfinite history hroot hcollection hs false,
    fun hlate => ?_, fun hlate hpos => ?_, fun hlate hzero => ?_⟩
  · rw [hresult, if_neg hlate]
    refine ⟨_, rfl, map_name_filterMap_get? fun n hn => ?_, fun p hp => ?_⟩
    · have hmem := (List.mem_filter.mp hn).1
      exact (Entries.find?_isSome hbuilt.wellFormed (hbuilt.wellFormed n hmem)).mpr ⟨n, hmem, rfl⟩
    · obtain ⟨n, -, hp⟩ := List.mem_filterMap.mp hp
      obtain ⟨e, -, rfl⟩ := Option.map_eq_some_iff.mp hp
      exact hp
  · refine ⟨values, ?_, rfl, hvalues⟩
    rw [hresult, if_pos hlate]
    cases values with
    | nil => cases hpos
    | cons v rest => rfl
  · obtain rfl : values = [] := List.length_eq_zero_iff.mp hzero
    rw [hresult, if_pos hlate]
    refine ⟨fun hnone => ?_, fun p hp => ?_⟩
    · show ((b.collected .list kind element [] _).map _).mapError _ = _
      rw [hnone]
      rfl
    · show ((b.collected .list kind element [] _).map _).mapError _ = _
      rw [hp]
      show (((b.scalarsOf kind element p).map _).map _).mapError _ = _
      cases b.scalarsOf kind element p <;> rfl

/-- Ports of which the second is missing. What lies below the fourth counts as an index as well. -/
def ports : Entries :=
  .ofList [("ports[0]", .string "80"), ("ports[3].open", .int 83), ("timeout", .int 30),
    ("ports[2]", .string "82")]

/-- What is behind the missing port is listed. -/
theorem bindRoot_gap_ports :
    let root := Name.adapt "ports" '.'
    let run := (ofLayers [("test", ports)]).bindRoot [] root
      (.of (.list (.scalar (.int 0 65535)))) false
    ports.IsGap root 1 ∧ run.journal.endless = none ∧
    ∃ ps, run.result = .error (.bind root (.unboundProperties ps)) ∧
      ps.map (·.name) = [Name.adapt "ports[3].open" '.', Name.adapt "ports[2]" '.'] := by
  intro root run
  have hindexes : ports.CanonicalIndexes root := by
    intro n hn hanc _
    have hn : n ∈ [root.item "0", root.item "3" ++ Name.adapt "open" '.', Name.adapt "timeout" '.',
      root.item "2"] := hn
    simp only [List.mem_cons, List.not_mem_nil, or_false] at hn
    rcases hn with rfl | rfl | rfl | rfl
    · exact ⟨0, by decide, by rfl⟩
    · exact ⟨3, by decide, by rfl⟩
    · exact absurd hanc (by decide)
    · exact ⟨2, by decide, by rfl⟩
  have hgap : ports.IsGap root 1 := by
    have hmissing : (Keyed.find? (root.item (toString 1)) ports).isSome = false := by rfl
    refine ⟨fun h => Bool.false_ne_true (hmissing.symm.trans h), fun k hk => ?_⟩
    refine Nat.one_le_iff_ne_zero.mpr ?_
    rintro rfl
    exact hk (by rfl)
  have hconvert : ∀ (k : Nat) (e : Entry), Keyed.find? (root.item (toString k)) ports = some e →
      ∃ v, Converter.standard.convert (.int 0 65535) e.value = .ok v := by
    intro k e he
    obtain ⟨n, hn, -⟩ := Keyed.mem_of_find? he
    have hall : ports.all fun entry =>
        (Converter.standard.convert (.int 0 65535) entry.2.value).isOk := by decide +kernel
    have hok := List.all_eq_true.mp hall _ hn
    cases hv : Converter.standard.convert (.int 0 65535) e.value with
    | ok v => exact ⟨v, rfl⟩
    | error f => simp [hv, Except.isOk, Except.toBool] at hok
  obtain ⟨g, hg, hends, hlate, -⟩ := @bindRoot_gap (ofLayers [("test", ports)]) root
    (.of (.list (.scalar (.int 0 65535)))) _ _ ports "test" rfl (.ofList _) rfl (by decide)
    (.adapt "ports" '.') (by decide) rfl rfl rfl rfl hindexes hconvert []
  obtain rfl := IsLeast.unique hg hgap
  obtain ⟨ps, hresult, hnames, -⟩ := hlate (by decide)
  exact ⟨hgap, hends, ps, hresult, hnames⟩

end Binder

end TypedConfig
