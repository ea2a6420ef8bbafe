import TypedConfig.Proofs.Bind.Congruence
import TypedConfig.Proofs.Source.Entries

/-!
# The items of layered sources

Each source gives the items from the position on that those before it left off at, up to its first
gap, and refuses what it lists behind that gap. So the indexes of layers are joined only if they go
on where earlier layers end.

* `bindItems_gives`, `bindFrom_gives`, `bindFromAll_gives`: the items of a loop, of one source, and of
  all sources, given what each item comes to.
* `Entries.InOrder`: no layer holds an item behind a gap of the layers up to it.
-/

namespace TypedConfig

open BindM

/-! ## Positions -/

/-- At the place of an item, a name at or below it has the index of its position. -/
theorem Name.exists_index_of_prefix {name n : Name} {k : Nat} (hname : name.WellFormed)
    (hn : n.WellFormed) (h : (name.item (toString k)).meaning <+: n.meaning) :
    name.isAncestorOf n = true ∧ ∃ e, n.element? name.length = some e ∧ e.kind = .numeric ∧
      e.text.toList = (toString k).toList := by
  obtain ⟨below, hbelow⟩ := h
  rw [meaning_item, List.append_assoc] at hbelow
  have hlen : name.length < n.length := by
    have := congrArg List.length hbelow
    simp only [List.length_append, length_meaning, List.length_singleton] at this
    omega
  have hanc : name.isAncestorOf n = true := by
    rw [isAncestorOf_iff hname hn, ← hbelow, List.take_left' (length_meaning name)]
    exact ⟨hlen, rfl⟩
  obtain ⟨e, he, hem⟩ : ∃ e, n.elements[name.length]? = some e ∧
      e.meaning = (Element.index (toString k)).meaning := by
    have hi := congrArg (·[name.length]?) hbelow
    rw [List.getElem?_append_right (by simp), length_meaning, Nat.sub_self, meaning,
      List.getElem?_map] at hi
    obtain ⟨e, he, hem⟩ := Option.map_eq_some_iff.mp hi.symm
    exact ⟨e, he, hem.trans (Element.index_meaning _).symm⟩
  have hkind := Element.numeric_of_meaning_eq (hn e (List.mem_of_getElem? he))
    (Element.index_wellFormed (toString k)) hem
  rw [index_toString_kind, beq_self_eq_true, beq_iff_eq] at hkind
  refine ⟨hanc, e, he, hkind, ?_⟩
  rw [Element.index_meaning] at hem
  unfold Element.meaning at hem
  split at hem
  · exact congrArg Prod.snd hem
  · exact absurd (congrArg Prod.fst hem) (by simp)

/-- A name at or below an item lies at the position of that item, if positions go that far. -/
theorem Name.positionIn?_of_prefix {name n : Name} {k : Nat} (hname : name.WellFormed)
    (hn : n.WellFormed) (h : (name.item (toString k)).meaning <+: n.meaning) :
    name.positionIn? n = if k < UInt64.size then some k else none := by
  obtain ⟨hanc, e, he, hkind, htext⟩ := exists_index_of_prefix hname hn h
  unfold positionIn?
  rw [if_pos hanc, he, Option.bind_some]
  simp only [Element.position?, hkind, htext, digitsValue_toString, true_and]

/-- So does a name that means the item. -/
theorem Name.positionIn?_of_meaning {name n : Name} {k : Nat} (hname : name.WellFormed)
    (hn : n.WellFormed) (h : n.meaning = (name.item (toString k)).meaning) :
    name.positionIn? n = if k < UInt64.size then some k else none :=
  positionIn?_of_prefix hname hn (h ▸ List.prefix_refl _)

/-- A name that lies at a position of a collection has an index of digits there. -/
theorem Name.isNumericAt_of_positionIn? {name n : Name} {k : Nat}
    (h : name.positionIn? n = some k) :
    name.isAncestorOf n = true ∧ n.isNumericAt name.length = true := by
  unfold positionIn? at h
  split at h
  · rename_i hanc
    obtain ⟨e, he, hpos⟩ := Option.bind_eq_some_iff.mp h
    refine ⟨hanc, ?_⟩
    unfold Element.position? at hpos
    simp only at hpos
    split at hpos
    · rename_i hk
      unfold isNumericAt
      rw [he]
      simpa using hk.1
    · cases hpos
  · cases h

/-! ## Items of one source -/

/-- The values are the items from a position on, up to the first gap. -/
structure IsRun (item : Nat → Option Value) (start : Nat) (values : List Value) : Prop where
  held : ∀ k (h : k < values.length), item (start + k) = some values[k]
  gap : item (start + values.length) = none

theorem IsRun.nil {item : Nat → Option Value} {start : Nat} (h : item start = none) :
    IsRun item start [] where
  held k hk := by cases hk
  gap := h

theorem IsRun.cons {item : Nat → Option Value} {start : Nat} {v : Value} {values : List Value}
    (h : item start = some v) (hr : IsRun item (start + 1) values) :
    IsRun item start (v :: values) where
  held k hk := by
    cases k with
    | zero => exact h
    | succ k =>
      have := hr.held k (by simpa using hk)
      rwa [Nat.add_assoc, Nat.add_comm 1] at this
  gap := by
    have := hr.gap
    rwa [Nat.add_assoc, Nat.add_comm 1] at this

/-- Before the end of the run every position is held. -/
theorem IsRun.isSome {item : Nat → Option Value} {start : Nat} {values : List Value}
    (hr : IsRun item start values) {p : Nat} (hs : start ≤ p) (hp : p < start + values.length) :
    (item p).isSome = true := by
  obtain ⟨k, rfl⟩ := Nat.exists_eq_add_of_le hs
  rw [hr.held k (by omega)]
  rfl

/-- If nothing is held behind the run, the positions before its end are those before its start and
those that are held. -/
theorem IsRun.lt_iff {item : Nat → Option Value} {start : Nat} {values : List Value}
    (hr : IsRun item start values) (hend : ∀ p, start + values.length ≤ p → item p = none)
    (j : Nat) : j < start + values.length ↔ j < start ∨ (item j).isSome = true := by
  constructor
  · intro hj
    by_cases hs : j < start
    · exact .inl hs
    · exact .inr (hr.isSome (by omega) hj)
  · rintro (hj | hj)
    · omega
    · by_contra hge
      rw [hend j (by omega)] at hj
      cases hj

namespace Binder

/-- Steps that reach beyond all items bind the run from the start on. -/
theorem bindItems_gives {bindItem : Nat → BindM (Option Value)} {worthTrying : Nat → Bool}
    {item : Nat → Option Value} (hitem : ∀ p, (bindItem p).Gives (.ok (item p)))
    {steps start : Nat}
    (hworth : ∀ p, start ≤ p → (item p).isSome = true → worthTrying p = true)
    (hend : ∀ p, start + steps ≤ p → item p = none) :
    ∃ values, IsRun item start values ∧
      (bindItems bindItem worthTrying steps start).Gives (.ok values) := by
  induction steps generalizing start with
  | zero =>
    exact ⟨[], .nil (hend start (Nat.le_refl _)), Gives.bind (.note _) (.ret _)⟩
  | succ steps ih =>
    unfold bindItems
    cases h : item start with
    | none =>
      refine ⟨[], .nil h, ?_⟩
      split
      · refine (hitem start).bind ?_
        rw [h]
        exact .ret _
      · exact .ret _
    | some v =>
      obtain ⟨values, hr, hg⟩ := @ih (start + 1) (fun p hp => hworth p (by omega))
        fun p hp => hend p (by omega)
      refine ⟨v :: values, .cons h hr, ?_⟩
      rw [if_pos (hworth start (Nat.le_refl _) (by rw [h]; rfl))]
      refine (hitem start).bind ?_
      rw [h]
      exact hg.bind (.ret _)

variable {b : Binder} {below : BindBelow} {scope : Scope} {name : Name} {element : Shape} {i : Nat}
  {label : String} {held : Entries} {item : Nat → Option Value}

theorem le_foldl_max (ps : List Nat) (start : Nat) :
    start ≤ ps.foldl max start ∧ ∀ p ∈ ps, p ≤ ps.foldl max start := by
  induction ps generalizing start with
  | nil => exact ⟨Nat.le_refl _, fun p hp => by cases hp⟩
  | cons q ps ih =>
    obtain ⟨hle, hmem⟩ := ih (max start q)
    refine ⟨Nat.le_trans (Nat.le_max_left _ _) hle, fun p hp => ?_⟩
    rcases List.mem_cons.mp hp with rfl | hp
    · exact Nat.le_trans (Nat.le_max_right _ _) hle
    · exact hmem p hp

/-- Items that a source has behind a gap are refused. -/
theorem refuseItems_gives {positions : List Nat} {p : Nat} (hp : p ∈ positions)
    (hl : p ∈ held.names.filterMap name.positionIn?) (hwf : held.WellFormed) :
    ∃ ps, ps ≠ [] ∧ (refuseItems i (.entries label held) name positions).Gives
      (.error (.unboundProperties ps)) := by
  obtain ⟨n, hn, hpos⟩ := List.mem_filterMap.mp hl
  refine ⟨_, ?_, Gives.bind (.note _) (.raise _)⟩
  have hget : ((Source.entries label held).get? n).isSome = true := by
    have hf := (Entries.find?_isSome hwf (hwf n hn)).mpr ⟨n, hn, rfl⟩
    simpa [Source.get?] using hf
  obtain ⟨q, hq⟩ := Option.isSome_iff_exists.mp hget
  have hmem : n ∈ ((Source.entries label held).names?.getD []).filter fun candidate =>
      (name.positionIn? candidate).any positions.contains := by
    refine List.mem_filter.mpr ⟨hn, ?_⟩
    rw [hpos]
    simpa using hp
  exact List.ne_nil_of_mem (List.mem_filterMap.mpr ⟨n, hmem, hq⟩)

/-- The items of a source in memory: it lists their positions, and a composite in them may contain
itself. -/
theorem bindFrom_entries (start : Nat) :
    let listed := listedPositions name start held.names
    b.bindFrom below scope name element i (.entries label held) start = (do
      let values ← bindItems (fun p =>
          below (scope.restrictedTo i) (name.item (toString p)) (.of element) true)
        (fun p => listed.any (p ≤ ·)) (listed.foldl max start + 1 - start + 1) start
      let left := listed.filter (start + values.length ≤ ·)
      if left.isEmpty then return values else refuseItems i (.entries label held) name left) := rfl

/-- A source binds the run of its items from the start on, and then looks at what it lists behind
them. -/
theorem bindFrom_leadsTo (hlist : ∀ p, (item p).isSome = true → p ∈ held.names.filterMap name.positionIn?)
    (hitem : ∀ p, (below (scope.restrictedTo i) (name.item (toString p)) (.of element) true).Gives
      (.ok (item p))) (start : Nat) :
    ∃ values, IsRun item start values ∧
      (b.bindFrom below scope name element i (.entries label held) start).LeadsTo
        (let left := (listedPositions name start held.names).filter (start + values.length ≤ ·)
        if left.isEmpty then pure values else refuseItems i (.entries label held) name left) := by
  let listed := listedPositions name start held.names
  have hlisted : ∀ p, (item p).isSome = true → start ≤ p → p ∈ listed := fun p hp hs =>
    List.mem_filter.mpr ⟨hlist p hp, decide_eq_true hs⟩
  obtain ⟨hstart, hmax⟩ := le_foldl_max listed start
  have hworth : ∀ p, start ≤ p → (item p).isSome = true → listed.any (p ≤ ·) = true := by
    intro p hp hi
    simp only [List.any_eq_true, decide_eq_true_eq]
    exact ⟨p, hlisted p hi hp, Nat.le_refl _⟩
  have hend : ∀ p, start + (listed.foldl max start + 1 - start + 1) ≤ p → item p = none := by
    intro p hp
    rw [← Option.not_isSome_iff_eq_none]
    intro hi
    have := hmax p (hlisted p hi (by omega))
    omega
  obtain ⟨values, hr, hg⟩ := bindItems_gives hitem hworth hend
  refine ⟨values, hr, ?_⟩
  rw [bindFrom_entries]
  exact .of_gives hg _

/-- A source gives the run of its items from the start on, unless it lists one behind the gap. -/
theorem bindFrom_gives (hwf : held.WellFormed)
    (hlist : ∀ p, p ∈ held.names.filterMap name.positionIn? ↔ (item p).isSome = true)
    (hitem : ∀ p, (below (scope.restrictedTo i) (name.item (toString p)) (.of element) true).Gives
      (.ok (item p))) (start : Nat) :
    ∃ values, IsRun item start values ∧
      ((∀ p, start + values.length ≤ p → item p = none) ∧
          (b.bindFrom below scope name element i (.entries label held) start).Gives (.ok values) ∨
        (∃ p, start + values.length < p ∧ (item p).isSome = true) ∧ ∃ ps, ps ≠ [] ∧
          (b.bindFrom below scope name element i (.entries label held) start).Gives
            (.error (.unboundProperties ps))) := by
  have hlisted : ∀ p, p ∈ listedPositions name start held.names ↔
      (item p).isSome = true ∧ start ≤ p := by
    intro p
    rw [← hlist p]
    simp [listedPositions]
  obtain ⟨values, hr, hleads⟩ := bindFrom_leadsTo (b := b) (fun p => (hlist p).mpr) hitem start
  refine ⟨values, hr, ?_⟩
  cases hleft : (listedPositions name start held.names).filter (start + values.length ≤ ·) with
  | nil =>
    rw [hleft] at hleads
    refine .inl ⟨fun p hp => ?_, hleads.gives (.ret values)⟩
    rw [← Option.not_isSome_iff_eq_none]
    intro hi
    have := List.filter_eq_nil_iff.mp hleft p ((hlisted p).mpr ⟨hi, by omega⟩)
    simp [hp] at this
  | cons p rest =>
    rw [hleft] at hleads
    have hp : p ∈ listedPositions name start held.names ∧ start + values.length ≤ p := by
      have : p ∈ (listedPositions name start held.names).filter (start + values.length ≤ ·) := by
        rw [hleft]
        exact .head _
      simpa using this
    have hi := ((hlisted p).mp hp.1).1
    refine .inr ⟨⟨p, Nat.lt_of_le_of_ne hp.2 fun h => ?_, hi⟩, ?_⟩
    · rw [← h, hr.gap] at hi
      cases hi
    · obtain ⟨ps, hps, href⟩ := @refuseItems_gives name i label held (p :: rest) p (.head _)
        ((hlist p).mpr hi) hwf
      exact ⟨ps, hps, hleads.gives href⟩

end Binder

/-! ## Items of layers -/

namespace Entries

/-- The item of a collection at a position is held. -/
def HoldsItem (held : Entries) (name : Name) (k : Nat) : Prop :=
  (Keyed.find? (name.item (toString k)) held).isSome = true

/-- Entries under the items of a collection hold the items at their positions, and no others. -/
theorem holdsItem_iff {held : Entries} {name : Name} {positions : List Nat} (hname : name.WellFormed)
    (h : held.names = positions.map fun p => name.item (toString p)) (k : Nat) :
    held.HoldsItem name k ↔ k ∈ positions := by
  have hwf : held.WellFormed := by
    intro n hn
    rw [h, List.mem_map] at hn
    obtain ⟨p, -, rfl⟩ := hn
    exact hname.item _
  unfold HoldsItem
  rw [find?_isSome hwf (hname.item _), h]
  constructor
  · rintro ⟨n, hn, hm⟩
    obtain ⟨p, hp, rfl⟩ := List.mem_map.mp hn
    rw [Name.meaning_item, Name.meaning_item, List.append_cancel_left_eq] at hm
    have hdigits : (toString p).toList = (toString k).toList := by simpa using hm
    have := congrArg Number.digitsValue hdigits
    rw [digitsValue_toString, digitsValue_toString] at this
    rwa [← this]
  · exact fun hk => ⟨_, List.mem_map_of_mem hk, rfl⟩

/-- No layer holds an item behind a gap: each item before it is one of the first ones, or held by that
layer or an earlier one. -/
def InOrderFrom (name : Name) (start : Nat) (layers : List Entries) : Prop :=
  ∀ before layer after, layers = before ++ layer :: after → ∀ k, layer.HoldsItem name k →
    ∀ j < k, j < start ∨ ∃ l ∈ before ++ [layer], l.HoldsItem name j

/-- No layer holds an item behind a gap of the layers up to it. -/
def InOrder (name : Name) (layers : List Entries) : Prop := InOrderFrom name 0 layers

variable {name : Name} {start next : Nat} {layer : Entries} {rest : List Entries}

/-- The layers behind the first go on where it ends. -/
theorem inOrderFrom_cons (hnext : ∀ j, j < next ↔ j < start ∨ layer.HoldsItem name j) :
    InOrderFrom name start (layer :: rest) ↔
      (∀ k, layer.HoldsItem name k → ∀ j < k, j < start ∨ layer.HoldsItem name j) ∧
        InOrderFrom name next rest := by
  constructor
  · refine fun h => ⟨fun k hk j hj => ?_, fun before l after heq k hk j hj => ?_⟩
    · obtain h | ⟨l, hl, h⟩ := h [] layer rest rfl k hk j hj
      · exact .inl h
      · rw [List.mem_singleton.mp hl] at h
        exact .inr h
    · subst heq
      obtain hs | ⟨l', hl, hj'⟩ := h (layer :: before) l after rfl k hk j hj
      · exact .inl ((hnext j).mpr (.inl hs))
      · rcases List.mem_cons.mp hl with rfl | hl
        · exact .inl ((hnext j).mpr (.inr hj'))
        · exact .inr ⟨l', hl, hj'⟩
  · rintro ⟨hhead, hrest⟩ before l after heq k hk j hj
    cases before with
    | nil =>
      cases heq
      exact (hhead k hk j hj).imp_right fun h => ⟨layer, .head _, h⟩
    | cons first before =>
      cases heq
      obtain h | ⟨l', hl, h⟩ := hrest before l after rfl k hk j hj
      · exact ((hnext j).mp h).imp_right fun h => ⟨layer, .head _, h⟩
      · exact .inr ⟨l', List.mem_cons_of_mem _ hl, h⟩

end Entries

namespace Binder

variable {b : Binder} {below : BindBelow} {scope : Scope} {name : Name} {element : Shape}
  {item : Entries → Nat → Option Value}

/-- What a collection needs to know of its items in a layer: which positions are listed, and what
each comes to. -/
structure GivesItems (below : BindBelow) (scope : Scope) (name : Name) (element : Shape)
    (i : Nat) (held : Entries) (item : Nat → Option Value) : Prop where
  wellFormed : held.WellFormed
  listed : ∀ p, p ∈ held.names.filterMap name.positionIn? ↔ held.HoldsItem name p
  holds : ∀ p, held.HoldsItem name p ↔ (item p).isSome = true
  gives : ∀ p, (below (scope.restrictedTo i) (name.item (toString p)) (.of element) true).Gives
    (.ok (item p))

/-- The items of the first source, then those of the rest. A single value may be looked up before. -/
theorem bindFromAll_cons (direct : Bool) (i : Nat) (source : Source)
    (rest : List (Nat × Source)) (values : List Value) (single : Option Property) :
    ∃ single', ∀ r, (do
        let more ← b.bindFrom below scope name element i source values.length
        b.bindFromAll below scope name element direct rest (values ++ more) single').Gives r →
      (b.bindFromAll below scope name element direct ((i, source) :: rest) values single).Gives r := by
  simp only [bindFromAll]
  split
  · exact ⟨_, fun r h => Gives.bind (Gives.bind (.note _) (.ret _)) h⟩
  · exact ⟨single, fun r h => Gives.bind (.ret _) h⟩

/-- Layers in order give, after the values so far, each item of the first layer that holds it. Layers
that are not in order are refused. -/
theorem bindFromAll_gives (direct : Bool) (layers : List (Nat × String × Entries))
    (hg : ∀ l ∈ layers, GivesItems below scope name element l.1 l.2.2 (item l.2.2))
    (values : List Value) (single : Option Property) :
    let run := b.bindFromAll below scope name element direct
      (layers.map fun l => (l.1, .entries l.2.1 l.2.2)) values single
    (Entries.InOrderFrom name values.length (layers.map (·.2.2)) ∧ ∃ more single',
      run.Gives (.ok (values ++ more, single')) ∧
      (∀ k (h : k < more.length),
        (layers.findSome? fun l => item l.2.2 (values.length + k)) = some more[k]) ∧
      ∀ l ∈ layers, ∀ p, values.length + more.length ≤ p → item l.2.2 p = none) ∨
    (¬Entries.InOrderFrom name values.length (layers.map (·.2.2)) ∧
      ∃ ps, ps ≠ [] ∧ run.Gives (.error (.unboundProperties ps))) := by
  induction layers generalizing values single with
  | nil =>
    refine .inl ⟨fun before layer after h => ?_, [], single, ?_, fun k h => ?_, fun l hl => ?_⟩
    · cases before <;> cases h
    · rw [List.append_nil]
      exact .ret _
    · cases h
    · cases hl
  | cons first rest ih =>
    obtain ⟨i, label, held⟩ := first
    have hfirst : GivesItems below scope name element i held (item held) := hg _ (.head _)
    have hrest := fun l hl => hg l (List.mem_cons_of_mem _ hl)
    obtain ⟨found, hr, hfrom⟩ := bindFrom_gives (b := b) hfirst.wellFormed
      (fun p => (hfirst.listed p).trans (hfirst.holds p)) hfirst.gives values.length
    obtain ⟨single', hcons⟩ := @bindFromAll_cons b below scope name element direct i
      (.entries label held) (rest.map fun l => (l.1, .entries l.2.1 l.2.2)) values single
    have hin : ((i, label, held) :: rest).map (·.2.2) = held :: rest.map (·.2.2) := rfl
    intro run
    rcases hfrom with ⟨hend, hgives⟩ | ⟨⟨p, hp, hi⟩, ps, hps, hgives⟩
    · have hnext : ∀ j, j < (values ++ found).length ↔
          j < values.length ∨ held.HoldsItem name j := by
        intro j
        rw [List.length_append, hr.lt_iff hend, hfirst.holds]
      have hhead : ∀ k, held.HoldsItem name k → ∀ j < k,
          j < values.length ∨ held.HoldsItem name j := by
        intro k hk j hj
        have hk := (hnext k).mpr (.inr hk)
        exact (hnext j).mp (Nat.lt_trans hj hk)
      rw [hin, Entries.inOrderFrom_cons hnext]
      rcases ih hrest (values ++ found) single' with
        ⟨horder, more, last, hrun, hmore, hbeyond⟩ | ⟨horder, ps, hps, hrun⟩
      · rw [List.length_append] at hmore hbeyond
        refine .inl ⟨⟨hhead, horder⟩, found ++ more, last, ?_, fun k hk => ?_, ?_⟩
        · rw [← List.append_assoc]
          exact hcons _ (hgives.bind hrun)
        · rw [List.findSome?_cons]
          by_cases hkf : k < found.length
          · rw [hr.held k hkf, List.getElem_append_left hkf]
          · rw [List.length_append] at hk
            rw [hend _ (by omega), List.getElem_append_right (by omega)]
            have := hmore (k - found.length) (by omega)
            rwa [Nat.add_assoc, Nat.add_sub_cancel' (by omega)] at this
        · intro l hl p hp
          rw [List.length_append] at hp
          rcases List.mem_cons.mp hl with rfl | hl
          · exact hend p (by omega)
          · exact hbeyond l hl p (by omega)
      · exact .inr ⟨fun h => horder h.2, ps, hps, hcons _ (hgives.bind hrun)⟩
    · refine .inr ⟨fun h => ?_, ps, hps, hcons _ (Gives.bind_error hgives)⟩
      obtain hlt | ⟨l, hl, hgap⟩ := h [] held _ hin p ((hfirst.holds p).mpr hi) _ hp
      · omega
      · rw [List.nil_append, List.mem_singleton] at hl
        rw [hl, hfirst.holds, hr.gap] at hgap
        cases hgap

/-! ## Layers as sources -/

/-- Layers with their positions. -/
def placed (layers : List (String × Entries)) : List (Nat × String × Entries) :=
  layers.mapIdx fun i l => (i, l)

theorem map_placed (layers : List (String × Entries)) : (placed layers).map (·.2) = layers := by
  refine List.ext_getElem? fun i => ?_
  simp [placed, Function.comp_def]

theorem mem_of_mem_placed {layers : List (String × Entries)} {l : Nat × String × Entries}
    (hl : l ∈ placed layers) : l.2 ∈ layers := by
  rw [← map_placed layers]
  exact List.mem_map_of_mem hl

/-- Where no source is singled out, all layers are in sight. -/
theorem visible_layers {layers : List (String × Entries)}
    (hs : b.sources = layers.map fun l => .entries l.1 l.2) (ho : scope.only = none) :
    b.visible scope = (placed layers).map fun l => (l.1, .entries l.2.1 l.2.2) := by
  refine List.ext_getElem? fun i => ?_
  simp [placed, visible, ho, hs, Function.comp_def]

theorem getElem?_of_placed {layers : List (String × Entries)} {l : Nat × String × Entries}
    (hs : b.sources = layers.map fun l => .entries l.1 l.2) (hl : l ∈ placed layers) :
    b.sources[l.1]? = some (.entries l.2.1 l.2.2) := by
  obtain ⟨i, hi, rfl⟩ := List.mem_mapIdx.mp hl
  rw [hs, List.getElem?_map, List.getElem?_eq_getElem hi]
  rfl

/-! ## Scalars and collections at a name -/

variable {target : Target} {below : Option BindBelow} {recursive create : Bool} {kind : ScalarKind}

/-- A scalar is the value of the first source in sight that has one, converted. -/
theorem bindShape_scalar_gives (hs : b.resolve target.shape = .scalar kind)
    (hname : name.isEmpty = false) (htarget : target.nestedOnly = false)
    {p? : Option Property} (hp : (b.visible scope).findSome? (fun (_, s) => s.get? name) = p?)
    (hc : ∀ p, p? = some p → ∃ v, b.converter.convert kind p.value = .ok v) :
    (b.bindShape below scope name target recursive).Gives
      (.ok (p?.bind fun p => (b.converter.convert kind p.value).toOption)) := by
  have hdirect : (b.directProperty scope name target).Gives (.ok p?) := by
    unfold directProperty lookUp
    rw [if_neg (by simp [hname, htarget])]
    refine Gives.bind (.note _) ?_
    rw [hp]
    exact .ret _
  unfold bindShape
  refine hdirect.bind ?_
  simp only [hs]
  cases p? with
  | none =>
    obtain ⟨pruned, hpruned⟩ : ∃ pruned, (if b.prunes && (none : Option Property).isNone
        && scope.depth != 0 then b.nothingBelow scope name else pure false).Gives (.ok pruned) := by
      split
      · exact ⟨_, Gives.bind (.note _) (.ret _)⟩
      · exact ⟨_, .ret _⟩
    refine hpruned.bind ?_
    cases pruned <;> exact .ret _
  | some p =>
    obtain ⟨v, hv⟩ := hc p rfl
    refine Gives.bind (a := false) (by simpa using .ret _) ?_
    exact (convertProperty_gives hv).bind (by simpa [hv, Except.toOption] using .ret _)

/-! ## A list of scalars -/

/-- What a held item comes to, if it converts. -/
def itemAt (b : Binder) (kind : ScalarKind) (name : Name) (held : Entries) (k : Nat) :
    Option Value :=
  (Keyed.find? (name.item (toString k)) held).bind fun e =>
    (b.converter.convert kind e.value).toOption

/-- An item that converts, if it is held, is held exactly if it comes to something. -/
theorem holdsItem_iff_isSome {held : Entries} {k : Nat}
    (h : ∀ e : Entry, Keyed.find? (name.item (toString k)) held = some e →
      ∃ v, b.converter.convert kind e.value = .ok v) :
    held.HoldsItem name k ↔ (b.itemAt kind name held k).isSome = true := by
  unfold Entries.HoldsItem itemAt
  cases hf : Keyed.find? (name.item (toString k)) held with
  | none => simp
  | some e =>
    obtain ⟨v, hv⟩ := h e hf
    simp [hv, Except.toOption]

/-- The layers hold the items of a list of scalars: exactly those at the positions below `m`, written
as plain numbers, with nothing below them, and all of the kind. -/
structure HoldsScalars (b : Binder) (kind : ScalarKind) (name : Name) (m : Nat)
    (layers : List (String × Entries)) : Prop where
  indexes : ∀ k : Nat, (∃ l ∈ layers, l.2.HoldsItem name k) ↔ k < m
  plain : ∀ l ∈ layers, ∀ n ∈ l.2.names, name.isAncestorOf n = true →
    n.isNumericAt name.length = true → ∃ k : Nat, k < m ∧ (name.item (toString k) == n) = true
  convert : ∀ l ∈ layers, ∀ (k : Nat) (e : Entry), Keyed.find? (name.item (toString k)) l.2 = some e →
    ∃ v, b.converter.convert kind e.value = .ok v

variable {layers : List (String × Entries)} {m : Nat}

/-- An item of the layers is held exactly if it comes to something in one of them. -/
theorem HoldsScalars.isSome_itemAt (h : b.HoldsScalars kind name m layers) {l : String × Entries}
    (hl : l ∈ layers) (k : Nat) : l.2.HoldsItem name k ↔ (b.itemAt kind name l.2 k).isSome = true :=
  holdsItem_iff_isSome (h.convert _ hl k)

/-- The items of a layer can be told from its names, and each comes to its value converted. -/
theorem HoldsScalars.givesItems (h : b.HoldsScalars kind name m layers) (hh : b.handler = .default)
    (hname : name.WellFormed) (hword : m ≤ UInt64.size) (hwf : ∀ l ∈ layers, l.2.WellFormed)
    (hs : b.resolve element = .scalar kind) {below : BindBelow}
    (hbelow : ∃ below', ∀ scope name target recursive,
      below scope name target recursive = b.bindVisit below' scope name target recursive false)
    {i : Nat} {label : String} {held : Entries} (hl : (label, held) ∈ layers)
    (hi : b.sources[i]? = some (.entries label held)) :
    GivesItems below scope name element i held (b.itemAt kind name held) where
  wellFormed := hwf _ hl
  listed p := by
    rw [List.mem_filterMap, Entries.HoldsItem, Entries.find?_isSome (hwf _ hl) (hname.item _)]
    constructor
    · rintro ⟨n, hn, hp⟩
      have hnwf := hwf _ hl n hn
      obtain ⟨hanc, hnum⟩ := Name.isNumericAt_of_positionIn? hp
      obtain ⟨k, hk, heq⟩ := h.plain _ hl n hn hanc hnum
      have hm := ((Name.beq_iff (hname.item _) hnwf).mp heq).symm
      rw [Name.positionIn?_of_meaning hname hnwf hm, if_pos (by omega)] at hp
      cases hp
      exact ⟨n, hn, hm⟩
    · rintro ⟨n, hn, hm⟩
      have hheld : held.HoldsItem name p :=
        (Entries.find?_isSome (hwf _ hl) (hname.item _)).mpr ⟨n, hn, hm⟩
      have hp := (h.indexes p).mp ⟨_, hl, hheld⟩
      exact ⟨n, hn, by rw [Name.positionIn?_of_meaning hname (hwf _ hl n hn) hm, if_pos (by omega)]⟩
  holds p := h.isSome_itemAt hl p
  gives p := by
    obtain ⟨below', hbelow⟩ := hbelow
    rw [hbelow]
    refine bindVisit_gives hh ?_ (fun h => by cases h)
    have hget : (b.visible (scope.restrictedTo i)).findSome?
        (fun (_, s) => s.get? (name.item (toString p))) =
          (Source.entries label held).get? (name.item (toString p)) := by
      rw [visible_restrictedTo hi, List.findSome?_singleton]
    have hitem : b.itemAt kind name held p =
        ((Source.entries label held).get? (name.item (toString p))).bind fun q =>
          (b.converter.convert kind q.value).toOption := by
      simp [Source.get?, itemAt, Option.bind_map]
    rw [hitem]
    refine bindShape_scalar_gives hs (by simp [Name.isEmpty]) rfl hget fun q hq => ?_
    obtain ⟨e, he, rfl⟩ := Option.map_eq_some_iff.mp hq
    exact h.convert _ hl p e he

/-- A name at which a collection stands comes to what the collection does, if names are not passed
over there. -/
theorem bindShape_list_gives (hs : b.resolve target.shape = .list element) {f : BindBelow}
    (hd : scope.depth = 0) {r : Except BindError (Option Value)}
    (hr : (b.bindCollection .list f scope name target element).Gives r) :
    (b.bindShape (some f) scope name target recursive).Gives r :=
  (bindShape_leadsTo_bindCollection (by rw [hs]; rfl) hd f name recursive).gives hr

/-- A list at the root comes to what the collection does. -/
theorem bindRoot_result_of_list (hh : b.handler = .default) {levels : Nat}
    (hlevels : b.options.maxDepth = levels + 1) (hs : b.resolve target.shape = .list element)
    {r : Except BindError (Option Value)} (hne : r ≠ .ok none)
    (hr : (b.bindCollection .list (b.descend levels) {} name target element).Gives r)
    (history : List Name) :
    (b.bindRoot history name target create).result = r.mapError (Failure.bind name) := by
  have hvisit : (b.bindAt (levels + 1) {} name target false create).Gives r :=
    bindVisit_gives hh (bindShape_list_gives hs rfl hr) fun _ => hne
  unfold bindRoot Report.ofRun
  rw [hlevels]
  exact congrArg (Except.mapError (Failure.bind name)) (hvisit { bound := history })

/-- The values of the items of a list, each from the first layer that holds it. -/
def FirstHeld (b : Binder) (kind : ScalarKind) (name : Name) (layers : List (String × Entries))
    (values : List Value) : Prop :=
  ∀ k (h : k < values.length), ∃ e : Entry,
    layers.findSome? (fun l => Keyed.find? (name.item (toString k)) l.2) = some e ∧
      b.converter.convert kind e.value = .ok values[k]

/-- What the first layer that has an item makes of it is what its entry there converts to. -/
theorem HoldsScalars.findSome?_itemAt (h : b.HoldsScalars kind name m layers) {k : Nat} {v : Value}
    (hv : layers.findSome? (fun l => b.itemAt kind name l.2 k) = some v) :
    ∃ e : Entry, layers.findSome? (fun l => Keyed.find? (name.item (toString k)) l.2) = some e ∧
      b.converter.convert kind e.value = .ok v := by
  have hconvert := fun l hl => h.convert l hl k
  clear h
  induction layers with
  | nil => cases hv
  | cons l rest ih =>
    rw [List.findSome?_cons] at hv ⊢
    cases hf : Keyed.find? (name.item (toString k)) l.2 with
    | none =>
      simp only [itemAt, hf, Option.bind_none] at hv
      exact ih hv fun l hl => hconvert l (List.mem_cons_of_mem _ hl)
    | some e =>
      obtain ⟨w, hw⟩ := hconvert l (.head _) e hf
      simp only [itemAt, hf, Option.bind_some, hw, Except.toOption, Option.some.injEq] at hv
      exact ⟨e, rfl, by rw [hw, hv]⟩

/-- As many values as the layers hold items: each is held, and nothing is behind them. -/
theorem HoldsScalars.length_eq (h : b.HoldsScalars kind name m layers) {values : List Value}
    (hvalues : ∀ k (hk : k < values.length),
      layers.findSome? (fun l => b.itemAt kind name l.2 k) = some values[k])
    (hend : ∀ l ∈ layers, ∀ p, values.length ≤ p → b.itemAt kind name l.2 p = none) :
    values.length = m := by
  refine Nat.le_antisymm ?_ ?_
  · by_contra hlt
    obtain ⟨l, hl, hv⟩ := List.exists_of_findSome?_eq_some (hvalues m (by omega))
    have := (h.indexes m).mp ⟨l, hl, (h.isSome_itemAt hl m).mpr (by rw [hv]; rfl)⟩
    omega
  · by_contra hlt
    obtain ⟨l, hl, hheld⟩ := (h.indexes values.length).mpr (by omega)
    rw [h.isSome_itemAt hl, hend l hl values.length (Nat.le_refl _)] at hheld
    cases hheld

/-- The items of layers in order are found, each in the first layer that holds it. Layers that are
not in order are refused. -/
theorem HoldsScalars.bindFromAll_gives (h : b.HoldsScalars kind name m layers)
    (hs : b.sources = layers.map fun l => .entries l.1 l.2)
    (hwf : ∀ l ∈ layers, l.2.WellFormed) (hh : b.handler = .default) (hname : name.WellFormed)
    (hword : m ≤ UInt64.size) (hscalar : b.resolve element = .scalar kind) {below : BindBelow}
    (hbelow : ∃ below', ∀ scope name target recursive,
      below scope name target recursive = b.bindVisit below' scope name target recursive false)
    (hscope : scope.only = none) (direct : Bool) :
    let run := b.bindFromAll below scope name element direct (b.visible scope) [] none
    (Entries.InOrder name (layers.map (·.2)) ∧ ∃ values single, run.Gives (.ok (values, single)) ∧
      values.length = m ∧ b.FirstHeld kind name layers values) ∨
    (¬Entries.InOrder name (layers.map (·.2)) ∧
      ∃ ps, ps ≠ [] ∧ run.Gives (.error (.unboundProperties ps))) := by
  have hlayers := map_placed layers
  have hentries : (placed layers).map (·.2.2) = layers.map (·.2) := by
    conv_rhs => rw [← hlayers, List.map_map]
    rfl
  have hitems : ∀ l ∈ placed layers, GivesItems below scope name element l.1 l.2.2
      (b.itemAt kind name l.2.2) := fun l hl =>
    h.givesItems hh hname hword hwf hscalar hbelow (mem_of_mem_placed hl) (getElem?_of_placed hs hl)
  have hgives := Binder.bindFromAll_gives (b := b) direct (placed layers) hitems [] none
  rw [← visible_layers hs hscope, hentries] at hgives
  rcases hgives with ⟨horder, more, single, hrun, hmore, hend⟩ | ⟨horder, ps, hps, hrun⟩
  · have hvalues : ∀ k (hk : k < more.length),
        layers.findSome? (fun l => b.itemAt kind name l.2 k) = some more[k] := by
      intro k hk
      have := hmore k hk
      rw [List.length_nil, Nat.zero_add] at this
      rw [← hlayers, List.findSome?_map]
      exact this
    have hbehind : ∀ l ∈ layers, ∀ p, more.length ≤ p → b.itemAt kind name l.2 p = none := by
      intro l hl p hp
      rw [← hlayers] at hl
      obtain ⟨x, hx, rfl⟩ := List.mem_map.mp hl
      exact hend x hx p (by simpa using hp)
    rw [List.nil_append] at hrun
    exact .inl ⟨horder, more, single, hrun, h.length_eq hvalues hbehind,
      fun k hk => h.findSome?_itemAt (hvalues k hk)⟩
  · exact .inr ⟨horder, ps, hps, hrun⟩

/-- The items of layers in order are bound as a list, each from the first layer that holds it. Layers
that are not in order are refused, though together they hold every item. -/
theorem bindRoot_list (hs : b.sources = layers.map fun l => .entries l.1 l.2)
    (hbuilt : ∀ l ∈ layers, l.2.Built) (hh : b.handler = .default) (hdepth : 1 ≤ b.options.maxDepth)
    {root : Name} (hroot : root.Built) (hlist : b.resolve target.shape = .list element)
    (hscalar : b.resolve element = .scalar kind) (hnew : target.existing? = none) (hm : 1 ≤ m)
    (hword : m ≤ UInt64.size) (hitems : b.HoldsScalars kind root m layers) (history : List Name)
    (create : Bool) :
    let result := (b.bindRoot history root target create).result
    (Entries.InOrder root (layers.map (·.2)) → ∃ values, result = .ok (some (.list values)) ∧
      values.length = m ∧ b.FirstHeld kind root layers values) ∧
    (¬Entries.InOrder root (layers.map (·.2)) →
      ∃ ps, ps ≠ [] ∧ result = .error (.bind root (.unboundProperties ps))) := by
  obtain ⟨levels, hlevels⟩ := Nat.exists_eq_add_of_le' hdepth
  have hf : ∃ below', ∀ scope name target recursive, b.descend levels scope name target recursive =
      b.bindVisit below' scope name target recursive false :=
    ⟨b.way levels, b.descend_eq_bindVisit levels⟩
  have hscope : (Scope.deeper {}).only = none := rfl
  rcases hitems.bindFromAll_gives hs (fun l hl => (hbuilt l hl).wellFormed) hh hroot.wellFormed
    hword hscalar hf hscope (!root.isEmpty && !target.nestedOnly) with
    ⟨horder, values, single, hrun, hlength, hfirst⟩ | ⟨horder, ps, hps, hrun⟩
  · refine ⟨fun _ => ⟨values, ?_, hlength, hfirst⟩, fun h => absurd horder h⟩
    refine bindRoot_result_of_list hh hlevels hlist (r := .ok (some (.list values))) (by simp) ?_
      history
    have hne : values.isEmpty = false := by
      cases values with
      | nil => simp at hlength; omega
      | cons _ _ => rfl
    unfold bindCollection bindElements
    refine Gives.bind (a := some (.list values, .items)) (Gives.bind hrun ?_) ?_
    · simp only [hne, Bool.false_eq_true, ↓reduceIte]
      exact .ret _
    · rw [hnew]
      exact .ret _
  · refine ⟨fun h => absurd h horder, fun _ => ⟨ps, hps, ?_⟩⟩
    refine bindRoot_result_of_list hh hlevels hlist (r := .error (.unboundProperties ps)) (by simp)
      ?_ history
    unfold bindCollection bindElements
    exact Gives.bind_error (Gives.bind_error hrun)

/-- Texts in two layers, under keys as a source reads them. -/
def textLayers (first second : List (String × String)) : List (String × Entries) :=
  [first, second].map fun pairs => ("test", .ofList (pairs.map fun (key, s) => (key, .string s)))

/-- A binder over layers, with the settings that it has from the start. -/
def ofLayers (layers : List (String × Entries)) : Binder where
  sources := layers.map fun l => .entries l.1 l.2

/-- Two layers with no other names than items hold the items at the positions of either. -/
theorem holdsScalars_of_positions (labels : String × String) {first second : Entries}
    (ps qs : List Nat) (hname : name.WellFormed)
    (hfirst : first.names = ps.map fun p => name.item (toString p))
    (hsecond : second.names = qs.map fun p => name.item (toString p))
    (hm : ∀ k, k ∈ ps ∨ k ∈ qs ↔ k < m)
    (hc : (first ++ second).all fun e => (b.converter.convert kind e.2.value).isOk) :
    b.HoldsScalars kind name m [(labels.1, first), (labels.2, second)] where
  indexes k := by
    simp only [List.mem_cons, List.not_mem_nil, or_false, exists_eq_or_imp, exists_eq_left]
    rw [Entries.holdsItem_iff hname hfirst, Entries.holdsItem_iff hname hsecond, hm]
  plain l hl n hn _ _ := by
    have hself : ∀ k : Nat, (name.item (toString k) == name.item (toString k)) = true := fun k =>
      (Name.beq_iff (hname.item _) (hname.item _)).mpr rfl
    rcases List.mem_cons.mp hl with rfl | hl
    · rw [hfirst, List.mem_map] at hn
      obtain ⟨k, hk, rfl⟩ := hn
      exact ⟨k, (hm k).mp (.inl hk), hself k⟩
    · rw [List.mem_singleton.mp hl, hsecond, List.mem_map] at hn
      obtain ⟨k, hk, rfl⟩ := hn
      exact ⟨k, (hm k).mp (.inr hk), hself k⟩
  convert l hl k e he := by
    obtain ⟨n, hn, -⟩ := Keyed.mem_of_find? he
    have hmem : (n, e) ∈ first ++ second := by
      rcases List.mem_cons.mp hl with rfl | hl
      · exact List.mem_append_left _ hn
      · rw [List.mem_singleton.mp hl] at hn
        exact List.mem_append_right _ hn
    have hok := List.all_eq_true.mp hc _ hmem
    cases hv : b.converter.convert kind e.value with
    | ok v => exact ⟨v, rfl⟩
    | error f => simp [hv, Except.isOk, Except.toBool] at hok

/-- A second layer adds an item behind those of the first, which hides its own first item. -/
theorem bindRoot_list_inOrder :
    let layers := textLayers [("n[0]", "a")] [("n[0]", "x"), ("n[1]", "b")]
    ∃ values, ((ofLayers layers).bindRoot [] (Name.adapt "n" '.') (.of (.list (.scalar .string)))
        false).result = .ok (some (.list values)) ∧
      values.length = 2 ∧ (ofLayers layers).FirstHeld .string (Name.adapt "n" '.') layers values := by
  have hname := Name.adapt_wellFormed "n" '.'
  have hfirst : (Entries.ofList [("n[0]", .string "a")]).names =
    [0].map fun p => (Name.adapt "n" '.').item (toString p) := rfl
  have hsecond : (Entries.ofList [("n[0]", .string "x"), ("n[1]", .string "b")]).names =
    [0, 1].map fun p => (Name.adapt "n" '.').item (toString p) := rfl
  refine (bindRoot_list (m := 2) rfl ?_ rfl (by decide) (.adapt "n" '.') rfl rfl rfl (by decide)
    (by decide) (holdsScalars_of_positions ("test", "test") [0] [0, 1] hname hfirst
      hsecond ?_ ?_) [] false).1 ?_
  · intro l hl
    rcases List.mem_cons.mp hl with rfl | hl
    · exact .ofList _
    · rw [List.mem_singleton.mp hl]
      exact .ofList _
  · intro k
    simp
    omega
  · decide +kernel
  · intro before layer after heq k hk j hj
    match before, heq with
    | [], heq =>
      cases heq
      have := (Entries.holdsItem_iff hname hfirst k).mp hk
      simp at this
      omega
    | [_], heq =>
      cases heq
      have := (Entries.holdsItem_iff hname hsecond k).mp hk
      simp at this
      exact .inr ⟨_, .tail _ (.head _), (Entries.holdsItem_iff hname hsecond j).mpr (by simp; omega)⟩
    | _ :: _ :: before, heq =>
      have := congrArg List.length heq
      simp at this

/-- The first layer has only the second item. It is refused, though the other layer holds the first
item and together they hold both. -/
theorem bindRoot_list_outOfOrder :
    let layers := textLayers [("n[1]", "b")] [("n[0]", "a")]
    (ofLayers layers).HoldsScalars .string (Name.adapt "n" '.') 2 layers ∧
    ((ofLayers layers).bindRoot [] (Name.adapt "n" '.') (.of (.list (.scalar .string))) false).result =
      .error (.bind (Name.adapt "n" '.') (.unboundProperties
        [⟨Name.adapt "n[1]" '.', .string "b", some "test [n[1]]"⟩])) := by
  refine ⟨?_, by rfl⟩
  refine holdsScalars_of_positions ("test", "test") [1] [0]
    (Name.adapt_wellFormed "n" '.') rfl rfl ?_ (by decide +kernel)
  intro k
  simp
  omega

end Binder

end TypedConfig
