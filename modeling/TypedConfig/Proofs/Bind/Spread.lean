import TypedConfig.Proofs.Bind.Locality
import TypedConfig.Proofs.Shape.Parts
import TypedConfig.Proofs.Source.Bracketed

/-!
# A map in one value, and a map entry by entry

A source can hold a map as one value, or each of its entries under a key in brackets. Entry by entry
every value is bound by its shape. Of a map in one value only keys and scalars are converted, and
any other value is taken as it is (`Binder.asHeld`).

* `Binder.bindAt_spread`: a map that is bound entry by entry has one pair for each entry, in order.
* `Binder.bindAt_whole`: what a map in one value is bound to, where its keys and scalars convert.
* `Binder.bindRoot_spread`: where the entries are bound one by one, so is the map in one value. The
  two are the same exactly if the values are scalars or each is bound to itself.
-/

namespace TypedConfig

open BindM

/-! ## Keys -/

namespace Converter

/-- The key of a map that a text is converted to, if it is of the kind and has a text again. -/
def mapKey? (c : Converter) (kind : ScalarKind) (key : String) : Option String :=
  (c.convert kind (.string key)).toOption.bind Value.text?

/-- A pair of a bound map comes from an entry: its key is the converted one, and so is its value, if
that is a scalar. -/
structure Converts (c : Converter) (key : ScalarKind) (value : Shape) (pair entry : String × Value) :
    Prop where
  key : c.mapKey? key entry.1 = some pair.1
  scalar : ∀ kind, value = .scalar kind → c.convert kind entry.2 = .ok pair.2

/-- The value is a map with one pair for each entry, in order. -/
def MapOf (c : Converter) (key : ScalarKind) (value : Shape) (entries : Fields) (v : Value) : Prop :=
  ∃ pairs, v = .map pairs ∧ List.Forall₂ (c.Converts key value) pairs entries

theorem mapKey?_eq {c : Converter} {kind : ScalarKind} {k : String} {v : Value}
    (h : c.convert kind (.string k) = .ok v) : c.mapKey? kind k = v.text? := by
  rw [mapKey?, h]
  rfl

theorem exists_of_mapKey? {c : Converter} {kind : ScalarKind} {k t : String}
    (h : c.mapKey? kind k = some t) : ∃ v, c.convert kind (.string k) = .ok v ∧ v.text? = some t := by
  unfold mapKey? at h
  cases hv : c.convert kind (.string k) with
  | ok v => exact ⟨v, rfl, by rwa [hv] at h⟩
  | error e => rw [hv] at h; cases h

/-- The keys of the entries are converted to different ones. -/
def DistinctKeys (c : Converter) (kind : ScalarKind) (entries : Fields) : Prop :=
  entries.Pairwise fun e e' => c.mapKey? kind e.1 ≠ c.mapKey? kind e'.1

instance (c : Converter) (kind : ScalarKind) (entries : Fields) :
    Decidable (c.DistinctKeys kind entries) :=
  inferInstanceAs (Decidable (entries.Pairwise _))

theorem DistinctKeys.nodup {c : Converter} {kind : ScalarKind} {entries : Fields}
    (h : c.DistinctKeys kind entries) : (entries.map (·.1)).Nodup :=
  List.pairwise_map.mpr (h.imp fun hne heq => hne (by rw [heq]))

/-- Pairs that come from entries with different keys have different keys. -/
theorem DistinctKeys.nodup_pairs {c : Converter} {kind : ScalarKind} {value : Shape}
    {pairs entries : Fields} (h : c.DistinctKeys kind entries)
    (hpairs : List.Forall₂ (c.Converts kind value) pairs entries) : (pairs.map (·.1)).Nodup := by
  have hkeys : pairs.map (fun pair => some pair.1) = entries.map fun e => c.mapKey? kind e.1 :=
    map_eq_of_forall₂ hpairs fun pair e hpair => hpair.key.symm
  have hnodup : (pairs.map fun pair => some pair.1).Nodup := hkeys ▸ List.pairwise_map.mpr h
  exact List.pairwise_map.mpr ((List.pairwise_map.mp hnodup).imp fun hne heq => hne (by rw [heq]))

/-- What a scalar that is not null is converted to has a text. -/
theorem text?_of_convertScalar {kind : ScalarKind} {v w : Value}
    (h : kind.convertScalar v = .ok w) :
    w.text?.isSome = true := by
  cases kind with
  | string => cases h; rfl
  | bool =>
    simp only [ScalarKind.convertScalar] at h
    split at h <;> cases h
    rfl
  | int min max =>
    simp only [ScalarKind.convertScalar, ScalarKind.checkRange] at h
    split at h
    · split at h <;> cases h
      rfl
    · cases h
  | float =>
    simp only [ScalarKind.convertScalar] at h
    split at h <;> cases h
    rfl
  | char =>
    simp only [ScalarKind.convertScalar, ScalarKind.checkCharacter] at h
    split at h <;> cases h
    rfl
  | enum variants =>
    simp only [ScalarKind.convertScalar, ScalarKind.selectVariant] at h
    split at h <;> cases h
    rfl

/-- What a text is converted to has a text for all texts, or for none. -/
theorem text?_of_text (c : Converter) (kind : ScalarKind) :
    (∀ key v, c.convert kind (.string key) = .ok v → v.text?.isSome = true) ∨
      ∀ key v, c.convert kind (.string key) = .ok v → v.text? = none := by
  cases c with
  | standard => exact .inl fun key v hv => text?_of_convertScalar hv
  | constant value =>
    cases ht : value.text? with
    | some t => exact .inl fun _ v hv => by cases hv; rw [ht]; rfl
    | none => exact .inr fun _ v hv => by cases hv; exact ht
  | refusing reason => exact .inr fun _ v hv => by cases hv

end Converter

namespace Binder

variable {b : Binder} {below : BindBelow} {scope : Scope} {root place : Name} {label text : String}
  {key : ScalarKind} {value : Shape} {entries pairs : Fields}

/-- The pairs of a bound map, but with the values of the entries where these are no scalars. -/
def asHeld (value : Shape) (pairs entries : Fields) : Fields :=
  pairs.zipWith (fun pair entry => (pair.1, if value.isScalar then pair.2 else entry.2)) entries

/-! ## Names of entries -/

/-- An item of a map is an entry of its own, whatever the shape of the values. -/
theorem entryName_item (hl : root.length = place.length) (k : String) (value : Shape) :
    entryName root (place.item k) value = place.item k := by
  have htake : (place.item k).take (root.length + 1) = place.item k := by
    rw [hl, ← Name.length_item place k]
    exact congrArg Name.mk List.take_length
  have hcut : cutAtPosition (place.item k) (root.length + 1) = place.item k := by
    have hnone : (List.range (place.item k).length).filter (root.length + 1 ≤ ·) = [] := by
      simp only [List.filter_eq_nil_iff, List.mem_range, decide_eq_true_eq, Name.length_item]
      omega
    rw [cutAtPosition, hnone]
    rfl
  cases value with
  | scalar _ => rfl
  | array _ | list _ | set _ => exact hcut
  | map _ _ | composite _ | ref _ => exact htake

/-- The key of an item is the text between its brackets. -/
theorem entryKey_item (hl : root.length = place.length) (k : String) :
    entryKey root (place.item k) = k := by
  have hdrop : ((place.item k).drop root.length).elements = [Element.index k] := by
    rw [hl]
    exact List.drop_left
  have hrender : (Element.index k).render .written = k := by
    unfold Element.index
    split <;> rfl
  rw [entryKey, hdrop, List.map_singleton, hrender]
  rfl

/-! ## Entry by entry -/

/-- Where keys have no text, or nothing is bound for an entry, no pair is added. -/
theorem bindEntries_nothing
    (h : (∀ k v, b.converter.convert key (.string k) = .ok v → v.text? = none) ∨
      ∀ entry, (below scope entry (.of value) true).Yields (· = none)) (names : List Name) :
    ∀ g, (b.bindEntries below scope root key value names g).Yields fun g' =>
      g'.entries = g.entries := by
  induction names with
  | nil => exact fun g => .ret rfl
  | cons candidate rest ih =>
    intro g
    rw [bindEntries]
    simp only
    split
    · exact ih g
    · refine (convertProperty_yields _ _).bind fun v hv => ?_
      split
      · exact ih _
      · rename_i k hk
        split
        · exact ih _
        · rcases h with htextless | hnothing
          · rw [htextless _ v hv] at hk
            cases hk
          · refine (hnothing _).bind fun bound hbound => ?_
            subst hbound
            exact (ih _).mono fun g' hg' => by simpa using hg'

/-- Where an entry always has a value and no two have the same key, one pair is added for each. -/
theorem bindEntries_items (hp : place.WellFormed) (hl : root.length = place.length)
    (htext : ∀ k v, b.converter.convert key (.string k) = .ok v → v.text?.isSome = true)
    (hdistinct : b.converter.DistinctKeys key entries)
    (hbelow : ∀ e ∈ entries, (below scope (place.item e.1) (.of value) true).Yields fun bound =>
      ∃ v, bound = some v ∧
        ∀ kind, value = .scalar kind → b.converter.convert kind e.2 = .ok v) :
    ∀ g : Gathered, (∀ e ∈ entries, g.seen.contains (place.item e.1) = false) →
      (∀ e ∈ entries, ∀ k, b.converter.mapKey? key e.1 = some k → Keyed.find? k g.entries = none) →
      (b.bindEntries below scope root key value (entries.map fun e => place.item e.1) g).Yields
        fun g' => ∃ pairs, g'.entries = g.entries ++ pairs ∧
          List.Forall₂ (b.converter.Converts key value) pairs entries := by
  induction entries with
  | nil => exact fun g _ _ => .ret ⟨[], (List.append_nil _).symm, .nil⟩
  | cons e rest ih =>
    intro g hseen hfresh
    obtain ⟨hapart, hdistinct⟩ := List.pairwise_cons.mp hdistinct
    obtain ⟨hfirst, hbelow⟩ := List.forall_mem_cons.mp hbelow
    obtain ⟨hunseen, hseen⟩ := List.forall_mem_cons.mp hseen
    obtain ⟨hnew, hfresh⟩ := List.forall_mem_cons.mp hfresh
    rw [List.map_cons, bindEntries]
    simp only [entryName_item hl, entryKey_item hl, hunseen, Bool.false_eq_true, ↓reduceIte]
    refine (convertProperty_yields _ _).bind fun converted hconverted => ?_
    obtain ⟨k, hk⟩ := Option.isSome_iff_exists.mp (htext _ _ hconverted)
    have hkey : b.converter.mapKey? key e.1 = some k := (Converter.mapKey?_eq hconverted).trans hk
    simp only [hk, hnew k hkey, Option.isSome_none, Bool.false_eq_true, ↓reduceIte]
    refine hfirst.bind fun bound hbound => ?_
    obtain ⟨v, rfl, hv⟩ := hbound
    refine (ih hdistinct hbelow _ (fun e' he' => ?_) fun e' he' k' hk' => ?_).mono fun g' hg' => ?_
    · have hne : (e'.1 == e.1) = false := beq_false_of_ne fun heq => hapart e' he' (by rw [heq])
      rw [List.contains_cons, hseen e' he', Name.item_beq_item hp, hne]
      rfl
    · have hne : (k == k') = false :=
        beq_false_of_ne fun heq => hapart e' he' (by rw [hkey, hk', heq])
      rw [Keyed.find?_append, hfresh e' he' k' hk']
      simp [Keyed.find?, hne]
    · obtain ⟨pairs, hpairs, hconverts⟩ := hg'
      exact ⟨(k, v) :: pairs, by simp [hpairs], .cons ⟨hkey, hv⟩ hconverts⟩

/-! ## One name that a source has a value at -/

section Found

variable {source : Source} {name : Name} {p : Property} {target : Target} {shape : Shape}

/-- The first single value is kept while items are looked for. -/
theorem bindFromAll_found (hp : source.get? name = some p) :
    (b.bindFromAll below scope name shape true [(0, source)] [] none).Yields (·.2 = some p) := by
  rw [bindFromAll]
  refine (hp ▸ getFrom_gives 0 source name).yields.bind fun single hsingle => ?_
  exact .after _ fun more => .ret hsingle

/-- A collection with a single value is bound. -/
theorem bindCollection_found {kind : CollectionKind} (hv : b.visible scope.deeper = [(0, source)])
    (hne : name.isEmpty = false) (hp : source.get? name = some p) :
    (b.bindCollection kind below scope name (.of value) shape).Yields (·.isSome = true) := by
  have helements : (b.bindElements kind below scope.deeper name (.of value) shape).Yields
      (·.isSome = true) := by
    unfold bindElements
    simp only [hv, hne, Target.of_nestedOnly, Bool.not_false, Bool.and_self]
    refine (bindFromAll_found hp).bind fun bound hsingle => ?_
    split
    · rw [hsingle]
      exact .after _ fun _ => .ret rfl
    · exact .ret rfl
  unfold bindCollection
  refine helements.bind fun bound hbound => ?_
  split
  · exact .ret rfl
  · exact .ret rfl
  · exact .after _ fun _ => .ret rfl
  · cases hbound

/-- A map without a single value is bound from the names below it. -/
theorem bindMapFrom_missing {direct : Bool} (hp : source.get? name = none) :
    (b.bindMapFrom below scope name key shape direct [(0, source)] {}).LeadsTo (do
      let g ← b.bindEntries below scope name key shape
        ((source.names?.getD []).filter name.isAncestorOf) {}
      return if g.entries.isEmpty then none else some (.map g.entries)) := by
  rw [bindMapFrom]
  cases direct with
  | false => exact LeadsTo.of_gives (.ret none) _
  | true => exact LeadsTo.of_gives (hp ▸ getFrom_gives 0 source name) _

/-- Where a single value counts, it is the map. -/
theorem bindMapFrom_found (hp : source.get? name = some p) :
    (b.bindMapFrom below scope name key shape true [(0, source)] {}).LeadsTo
      (do return some (← b.bindMapValue p key shape)) := by
  rw [bindMapFrom]
  exact LeadsTo.of_gives (hp ▸ getFrom_gives 0 source name) _

/-- A map with a single value and nothing below it is bound from that value. -/
theorem bindMap_found (hv : b.visible scope.deeper = [(0, source)]) (hne : name.isEmpty = false)
    (hp : source.get? name = some p) (hbelow : source.presence name ≠ .present) :
    (b.bindMap below scope name (.of value) key shape).LeadsTo
      (do return some (← b.bindMapValue p key (b.resolve shape))) := by
  have hnested : (b.somethingBelow scope.deeper name).Gives (.ok false) := by
    have h := b.somethingBelow_gives scope.deeper name
    rw [hv] at h
    simpa [beq_false_of_ne hbelow] using h
  refine (LeadsTo.of_gives hnested _).trans ?_
  simp only [hv, hne, Target.of_nestedOnly, Bool.not_false, Bool.and_self]
  refine ((bindMapFrom_found hp).bind _).trans fun j => ⟨j, ?_⟩
  -- Nothing is there yet, so the map is not put on top of another.
  simp only [runFrom_bind]
  rcases (b.bindMapValue p key (b.resolve shape)).runFrom j with ⟨r, k⟩
  cases r <;> rfl

/-- A name with a value and nothing below it is bound, or fails. A scalar is the value converted. -/
theorem bindForm_found (level : Option BindBelow) (recursive : Bool)
    (hv : b.visible scope.deeper = [(0, source)]) (hne : name.isEmpty = false)
    (hp : source.get? name = some p) (hbelow : source.presence name ≠ .present)
    (hresolve : b.resolve value = value) (href : value.isRef = false) :
    (b.bindForm level scope name (.of value) recursive (some p)).Yields fun bound =>
      ∃ v, bound = some v ∧
        ∀ kind, value = .scalar kind → b.converter.convert kind p.value = .ok v := by
  have hsome : ∀ bound : Option Value, bound.isSome = true → value.isScalar = false →
      ∃ v, bound = some v ∧
        ∀ kind, value = .scalar kind → b.converter.convert kind p.value = .ok v := by
    intro bound hbound hvalue
    obtain ⟨v, rfl⟩ := Option.isSome_iff_exists.mp hbound
    exact ⟨v, rfl, fun kind hkind => by rw [hkind] at hvalue; cases hvalue⟩
  unfold bindForm
  rw [Target.of_shape, hresolve]
  cases value with
  | scalar kind =>
    refine (convertProperty_yields p kind).bind fun v hv => .ret ⟨v, rfl, fun kind' hkind => ?_⟩
    cases hkind
    exact hv
  | array element | list element | set element =>
    exact .after _ fun _ => (bindCollection_found hv hne hp).mono fun bound h => hsome bound h rfl
  | map key element =>
    refine .after _ fun below => (bindMap_found hv hne hp hbelow).yields ?_
    exact .after _ fun _ => .ret (hsome _ rfl rfl)
  | composite type =>
    refine .after _ fun bound => ?_
    cases bound with
    | some v => exact .ret (hsome _ rfl rfl)
    | none => exact .raise _
  | ref target => cases href

/-- Without handlers, a name with a value is bound by the form of its shape. -/
theorem bindShape_found {level : Option BindBelow} {recursive : Bool}
    (hv : b.visible scope = [(0, source)]) (hne : name.isEmpty = false)
    (hn : target.nestedOnly = false) (hp : source.get? name = some p) :
    (b.bindShape level scope name target recursive).LeadsTo
      (b.bindForm level scope name target recursive (some p)) := by
  have hdirect : (b.directProperty scope name target).Gives (.ok (some p)) := by
    have h := b.lookUp_gives scope name
    rw [hv] at h
    simpa [directProperty, hne, hn, hp] using h
  have hstays : (b.passesOver scope name (some p)).Gives (.ok false) := by
    simp only [passesOver, Option.isNone_some, Bool.and_false, Bool.false_and, Bool.false_eq_true,
      ↓reduceIte]
    exact .ret false
  rw [bindShape_eq]
  exact (LeadsTo.of_gives hdirect _).trans (LeadsTo.of_gives hstays _)

end Found

/-! ## The map entry by entry -/

/-- Nothing is bound where a shape is a reference that leads nowhere. -/
theorem bindAt_ref (hh : b.handler = .default) (href : (b.resolve value).isRef = true) (levels : Nat)
    (scope : Scope) (name : Name) (recursive : Bool) :
    (b.bindAt levels scope name (.of value) recursive false).Yields (· = none) := by
  rw [bindAt_eq_bindVisit]
  refine bindVisit_yields hh ?_
  rw [bindShape_eq]
  refine .after _ fun property => .after _ fun passed => ?_
  split
  · exact .ret rfl
  · unfold bindForm
    rw [Target.of_shape]
    cases hvalue : b.resolve value with
    | ref target => exact .ret rfl
    | _ => rw [hvalue] at href; cases href

/-- Without handlers, what a map yields at its name is nothing, or what its entries do one level
down. -/
theorem bindVisit_map {level : Option BindBelow} {Q : Option Value → Prop} (hh : b.handler = .default)
    (hnone : Q none) (h : ∀ below, level = some below →
      (b.bindMap below scope root (.of (.map key value)) key value).Yields Q) :
    (b.bindVisit level scope root (.of (.map key value)) false false).Yields Q := by
  refine bindVisit_yields hh ?_
  rw [bindShape_eq]
  refine .after _ fun property => .after _ fun passed => ?_
  split
  · exact .ret hnone
  · exact (enter_yields root).bind h

section EntryByEntry

variable (hh : b.handler = .default)
  (hs : b.sources = [.entries label (.spread place text entries)]) (hp : place.Built)
  (hdistinct : b.converter.DistinctKeys key entries)

include hh hs hp in
/-- An entry that is held under its own name is bound, or its binding fails. -/
theorem bindAt_item (hkeys : (entries.map (·.1)).Nodup) (levels : Nat) (ho : scope.only = none)
    (hresolve : b.resolve value = value) (href : value.isRef = false) (recursive : Bool) :
    ∀ e ∈ entries, (b.bindAt levels scope (place.item e.1) (.of value) recursive false).Yields
      fun bound => ∃ v, bound = some v ∧
        ∀ kind, value = .scalar kind → b.converter.convert kind e.2 = .ok v := by
  intro e he
  have hheld : (Keyed.find? (place.item e.1) (Entries.spread place text entries)).map Entry.value =
      some e.2 := (Entries.spread_find? hp.wellFormed e.1).trans (Keyed.find?_of_mem hkeys he)
  obtain ⟨entry, hentry, hvalue⟩ := Option.map_eq_some_iff.mp hheld
  have hget : (Source.entries label (.spread place text entries)).get? (place.item e.1) =
      some ⟨place.item e.1, e.2, some s!"{label} [{entry.key}]"⟩ := by
    rw [Source.get?, hentry, ← hvalue]
    rfl
  have hbelow : (Source.entries label (.spread place text entries)).presence (place.item e.1) ≠
      .present := by
    rw [Source.presence, Entries.spread_nothing_below (Name.length_item _ _)]
    exact Presence.noConfusion
  have hne : (place.item e.1).isEmpty = false := by simp [Name.isEmpty]
  rw [bindAt_eq_bindVisit]
  refine bindVisit_yields hh ?_
  refine (bindShape_found (visible_single hs ho) hne rfl hget).yields ?_
  exact bindForm_found (b.way levels) recursive (visible_single hs ho) hne hget hbelow hresolve href

variable (hroot : root.WellFormed) (hmeaning : place.meaning = root.meaning)

include hh hs hp hdistinct hmeaning in
/-- The names of the entries give one pair for each, or none at all. -/
theorem bindEntries_spread (levels : Nat) (ho : scope.only = none) :
    (b.bindEntries (b.descend levels) scope root key (b.resolve value)
      (entries.map fun e => place.item e.1) {}).Yields fun g =>
        g.entries = [] ∨
          List.Forall₂ (b.converter.Converts key (b.resolve value)) g.entries entries := by
  rcases b.converter.text?_of_text key with htext | htextless
  · cases href : (b.resolve value).isRef with
    | true =>
      have hinner : (b.resolve (b.resolve value)).isRef = true := Definitions.resolve_isRef href _
      exact (bindEntries_nothing (.inr fun entry => bindAt_ref hh hinner levels scope entry true) _
        {}).mono fun g hg => .inl hg
    | false =>
      have hresolve : b.resolve (b.resolve value) = b.resolve value :=
        Definitions.follow_of_not_isRef href _
      refine (bindEntries_items hp.wellFormed (Name.length_congr hmeaning.symm) htext hdistinct
        (bindAt_item hh hs hp hdistinct.nodup levels ho hresolve href true) {}
        (fun _ _ => rfl) fun _ _ _ _ => rfl).mono fun g hg => ?_
      obtain ⟨pairs, hpairs, hconverts⟩ := hg
      exact .inr (hpairs ▸ hconverts)
  · exact (bindEntries_nothing (.inl htextless) _ {}).mono fun g hg => .inl hg

include hh hs hp hdistinct hroot hmeaning in
/-- A map whose entries are held one by one is bound to one pair for each, in order, or to nothing. -/
theorem bindMap_spread (levels : Nat) :
    (b.bindMap (b.descend levels) {} root (.of (.map key value)) key value).Yields fun bound =>
      ∀ v, bound = some v → b.converter.MapOf key (b.resolve value) entries v := by
  have hl : root.length = place.length := Name.length_congr hmeaning.symm
  have hnone : (Source.entries label (.spread place text entries)).get? root = none := by
    rw [Source.get?, Entries.spread_find?_of_length (by omega)]
    rfl
  have hlisted : (((Source.entries label (.spread place text entries)).names?.getD []).filter
      root.isAncestorOf) = entries.map fun e => place.item e.1 := by
    show (Entries.names _).filter _ = _
    rw [Entries.names_spread, List.filter_eq_self]
    intro n hn
    obtain ⟨e, -, rfl⟩ := List.mem_map.mp hn
    have htake : (root.meaning ++ [(true, e.1.toList)]).take root.length = root.meaning := by
      rw [← Name.length_meaning, List.take_left]
    rw [Name.isAncestorOf_iff hroot (hp.wellFormed.item e.1), Name.length_item, Name.meaning_item,
      hmeaning, htake]
    exact ⟨by omega, rfl⟩
  unfold bindMap
  refine .after _ fun nested => ?_
  simp only
  rw [visible_single hs rfl]
  refine Yields.bind (Q := fun bound => ∀ v, bound = some v →
    b.converter.MapOf key (b.resolve value) entries v) ?_ fun bound hbound => ?_
  · refine (bindMapFrom_missing hnone).yields ?_
    rw [hlisted]
    refine (bindEntries_spread hh hs hp hdistinct hmeaning levels rfl).bind fun g hg => ?_
    refine .ret fun v hv => ?_
    split at hv
    · cases hv
    · rename_i hne
      cases hv
      exact ⟨g.entries, rfl, hg.resolve_left fun h => hne (by rw [h]; rfl)⟩
  · split
    · rename_i existing hex
      cases hex
    · exact .ret hbound

include hh hs hp hdistinct hroot hmeaning in
/-- The same with so many levels left, of which the map takes one. -/
theorem bindAt_spread (levels : Nat) :
    (b.bindAt levels {} root (.of (.map key value)) false false).Yields fun bound =>
      ∀ v, bound = some v → 0 < levels ∧ b.converter.MapOf key (b.resolve value) entries v := by
  cases levels with
  | zero => exact bindVisit_map hh (fun v hv => by cases hv) fun below h => by cases h
  | succ n =>
    refine bindVisit_map hh (fun v hv => by cases hv) fun below h => ?_
    cases h
    exact (bindMap_spread hh hs hp hdistinct hroot hmeaning n).mono fun bound hbound v hv =>
      ⟨Nat.succ_pos n, hbound v hv⟩

end EntryByEntry

/-! ## The map in one value -/

/-- Entries whose keys and scalars convert are put behind those before, if no two keys are the same. -/
theorem convertEntries_gives {p : Property}
    (hconverts : List.Forall₂ (b.converter.Converts key value) pairs entries) : ∀ held : Fields,
      (pairs.map (·.1)).Nodup → (∀ pair ∈ pairs, Keyed.find? pair.1 held = none) →
      (b.convertEntries p key value entries held).Gives (.ok (held ++ asHeld value pairs entries)) := by
  induction hconverts with
  | nil =>
    intro held _ _
    rw [show held ++ asHeld value [] [] = held from List.append_nil held]
    exact .ret held
  | @cons pair e pairs entries hfirst _ ih =>
    intro held hdistinct hfresh
    obtain ⟨hapart, hdistinct⟩ := List.nodup_cons.mp hdistinct
    obtain ⟨hnew, hfresh⟩ := List.forall_mem_cons.mp hfresh
    obtain ⟨converted, hconverted, htext⟩ := Converter.exists_of_mapKey? hfirst.key
    have hinsert : ∀ v, Keyed.insert pair.1 v held = held ++ [(pair.1, v)] :=
      fun v => Keyed.insert_of_find?_eq_none v hnew
    have hrest : ∀ v, ∀ q ∈ pairs, Keyed.find? q.1 (held ++ [(pair.1, v)]) = none := by
      intro v q hq
      have hne : (pair.1 == q.1) = false :=
        beq_false_of_ne fun heq => hapart (List.mem_map.mpr ⟨q, hq, heq.symm⟩)
      rw [Keyed.find?_append, hfresh q hq]
      simp [Keyed.find?, hne]
    have hgives := ih _ hdistinct (hrest (if value.isScalar then pair.2 else e.2))
    rw [List.append_assoc, ← hinsert] at hgives
    rw [convertEntries]
    refine (convertProperty_gives hconverted).bind ?_
    simp only [htext, Option.getD_some]
    cases value with
    | scalar kind => exact Gives.bind (convertProperty_gives (hfirst.scalar kind rfl)) hgives
    | _ => exact Gives.bind (.ret e.2) hgives

/-- Where its keys and scalars convert, a map in one value is bound with all other values as they
are. -/
theorem bindAt_whole (hh : b.handler = .default)
    (hs : b.sources = [.entries label [(place, ⟨text, .map entries⟩)]])
    (hplace : (place == root) = true) (hne : root.isEmpty = false)
    (hconverts : List.Forall₂ (b.converter.Converts key (b.resolve value)) pairs entries)
    (hdistinct : (pairs.map (·.1)).Nodup) {levels : Nat} (hlevels : 0 < levels) :
    (b.bindAt levels {} root (.of (.map key value)) false false).Gives
      (.ok (some (.map (asHeld (b.resolve value) pairs entries)))) := by
  obtain ⟨n, rfl⟩ := Nat.exists_eq_succ_of_ne_zero (Nat.ne_of_gt hlevels)
  have hget : (Source.entries label [(place, ⟨text, .map entries⟩)]).get? root =
      some ⟨root, .map entries, some s!"{label} [{text}]"⟩ := by
    simp [Source.get?, Keyed.find?, hplace]
  have hbelow : (Source.entries label [(place, ⟨text, .map entries⟩)]).presence root ≠ .present := by
    have hl : place.length = root.length := eq_of_beq (Bool.and_elim_left hplace)
    simp [Source.presence, Entries.names, Name.isAncestorOf, hl, Presence.ofBool]
  have hvalue : ∀ p : Property, p.value = .map entries → (b.bindMapValue p key (b.resolve value)).Gives
      (.ok (.map (asHeld (b.resolve value) pairs entries))) := by
    intro p hp
    unfold bindMapValue
    rw [hp]
    exact (convertEntries_gives hconverts [] hdistinct fun _ _ => rfl).bind
      (Gives.bind (.note _) (.ret _))
  refine bindVisit_gives hh ?_ Bool.noConfusion
  refine (bindShape_found (visible_single hs rfl) hne rfl hget).gives ?_
  refine LeadsTo.gives (LeadsTo.of_gives (.ret _) _) ?_
  exact (bindMap_found (visible_single hs rfl) hne hget hbelow).gives ((hvalue _ rfl).bind (.ret _))

/-! ## The two compared -/

/-- The values as they are held are those that were bound, if they are scalars or nothing else was
bound. -/
theorem asHeld_eq_iff (h : pairs.length = entries.length) :
    asHeld value pairs entries = pairs ↔
      value.isScalar = true ∨ pairs.map (·.2) = entries.map (·.2) := by
  induction pairs generalizing entries with
  | nil =>
    obtain rfl := List.length_eq_zero_iff.mp h.symm
    exact ⟨fun _ => .inr rfl, fun _ => rfl⟩
  | cons pair pairs ih =>
    cases entries with
    | nil => cases h
    | cons e entries =>
      have hrest := ih (Nat.succ.inj h)
      show (pair.1, if value.isScalar then pair.2 else e.2) :: asHeld value pairs entries =
        pair :: pairs ↔ _
      rw [List.cons.injEq, hrest, List.map_cons, List.map_cons, List.cons.injEq, Prod.ext_iff]
      cases value.isScalar <;> simp [eq_comm]

/-- A map in one value and the same map entry by entry, each under its key in brackets: where the
entries are bound to a map, that has one pair for each, in order, and the map in one value is bound
as well. Its keys and scalars are those of the other, but any other value is the one held. So the two
agree exactly if the values are scalars or each value that was bound is the one held. -/
theorem bindRoot_spread (hh : b.handler = .default) {m : Name} (hm : m.Built)
    (hne : m.isEmpty = false) (ht : Balanced text.toList) (htext : (Name.adapt text '.' == m) = true)
    (hkeys : ∀ e ∈ entries, e.1 ≠ "" ∧ Balanced e.1.toList)
    (hdistinct : b.converter.DistinctKeys key entries)
    (label label' : String) (history : List Name) {r : Value} :
    let whole := (b.withSources [.entries label (.ofList [(text, .map entries)])]).bindRoot history m
      (.of (.map key value)) false
    let spread := (b.withSources [.entries label' (.ofList (entries.map fun e =>
      (text ++ "[" ++ e.1 ++ "]", e.2)))]).bindRoot history m (.of (.map key value)) false
    spread.result = .ok (some r) → ∃ pairs : Fields, r = .map pairs ∧
      List.Forall₂ (b.converter.Converts key (b.resolve value)) pairs entries ∧
      whole.result = .ok (some (.map (asHeld (b.resolve value) pairs entries))) ∧
      (whole.result = spread.result ↔
        (b.resolve value).isScalar = true ∨ pairs.map (·.2) = entries.map (·.2)) := by
  have hplace : (Name.adapt text '.').Built := .adapt text '.'
  have hmeaning : (Name.adapt text '.').meaning = m.meaning :=
    (Name.beq_iff hplace.wellFormed hm.wellFormed).mp htext
  have hnonempty : (Name.adapt text '.').isEmpty = false := (Name.isEmpty_congr hmeaning).trans hne
  have hone : Entries.ofList [(text, .map entries)] = [(Name.adapt text '.', ⟨text, .map entries⟩)] := by
    simp [Entries.ofList, Entries.insert, hnonempty, Keyed.insert]
  rw [hone, Entries.ofList_bracketed ht hkeys hdistinct.nodup]
  intro whole spread hspread
  let holdsOne := b.withSources [.entries label [(Name.adapt text '.', ⟨text, .map entries⟩)]]
  let holdsEach := b.withSources [.entries label' (.spread (Name.adapt text '.') text entries)]
  have hbound : ∀ v, some r = some v → 0 < b.options.maxDepth ∧
      b.converter.MapOf key (b.resolve value) entries v :=
    bindRoot_yields (bindAt_spread (b := holdsEach) hh rfl hplace hdistinct hm.wellFormed hmeaning
      b.options.maxDepth) hspread
  obtain ⟨hlevels, pairs, rfl, hconverts⟩ := hbound r rfl
  have hwhole : whole.result = .ok (some (.map (asHeld (b.resolve value) pairs entries))) :=
    bindRoot_ok_iff.mpr (bindAt_whole (b := holdsOne) hh rfl htext hne hconverts
      (hdistinct.nodup_pairs hconverts) hlevels _)
  refine ⟨pairs, rfl, hconverts, hwhole, ?_⟩
  rw [← asHeld_eq_iff hconverts.length_eq, hwhole, hspread]
  simp

/-- Numbers are scalars, so a map of them is the same in one value, and keys may have brackets and
dots. -/
theorem bindRoot_spread_ports :
    let b : Binder := { sources := [] }
    let m := Name.adapt "app.ports" '.'
    let target := Target.of (.map .string (.scalar (.int 0 65535)))
    let entries : Fields := [("web[0]", .string "80"), ("db.main", .string "5432")]
    let whole := (b.withSources [.entries "test" (.ofList [("app.ports", .map entries)])]).bindRoot [] m
      target false
    let spread := (b.withSources [.entries "test" (.ofList (entries.map fun e =>
      ("app.ports" ++ "[" ++ e.1 ++ "]", e.2)))]).bindRoot [] m target false
    spread.result = .ok (some (.map [("web[0]", .int 80), ("db.main", .int 5432)])) ∧
      whole.result = spread.result := by
  intro b m target entries whole spread
  have hspread : spread.result = .ok (some (.map [("web[0]", .int 80), ("db.main", .int 5432)])) := by
    rfl
  have hkeys : ∀ e ∈ entries, e.1 ≠ "" ∧ Balanced e.1.toList := by decide
  obtain ⟨pairs, -, -, -, hagree⟩ := bindRoot_spread (b := b) rfl (m := m) (.adapt _ _) rfl
    (by decide +kernel) (by decide +kernel) hkeys (by decide +kernel) "test" "test" [] hspread
  exact ⟨hspread, hagree.mpr (.inl rfl)⟩

/-- A text that a list of texts is split from stays a text in a map in one value. -/
theorem bindRoot_spread_unsplit :
    let b : Binder := { sources := [] }
    let m := Name.adapt "m" '.'
    let target := Target.of (.map .string (.list (.scalar .string)))
    let entries : Fields := [("a", .string "x,y")]
    let whole := (b.withSources [.entries "test" (.ofList [("m", .map entries)])]).bindRoot [] m target
      false
    let spread := (b.withSources [.entries "test" (.ofList (entries.map fun e =>
      ("m" ++ "[" ++ e.1 ++ "]", e.2)))]).bindRoot [] m target false
    (∀ e ∈ entries, e.1 ≠ "" ∧ Balanced e.1.toList) ∧
      b.converter.DistinctKeys .string entries ∧
      spread.result = .ok (some (.map [("a", .list [.string "x", .string "y"])])) ∧
      whole.result = .ok (some (.map [("a", .string "x,y")])) ∧ whole.result ≠ spread.result := by
  intro b m target entries whole spread
  have hspread : spread.result = .ok (some (.map [("a", .list [.string "x", .string "y"])])) := by rfl
  have hwhole : whole.result = .ok (some (.map [("a", .string "x,y")])) := by rfl
  refine ⟨by decide, List.pairwise_singleton _ _, hspread, hwhole, fun heq => ?_⟩
  rw [hwhole, hspread] at heq
  cases heq

end Binder

end TypedConfig
