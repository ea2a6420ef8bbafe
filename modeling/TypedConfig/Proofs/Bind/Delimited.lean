import TypedConfig.Proofs.Bind.ItemLoop
import TypedConfig.Proofs.Bind.Locality
import TypedConfig.Proofs.Bind.Termination
import TypedConfig.Proofs.Text.Split

/-!
# Elements in one text and at items

A collection of scalars is the same whether its elements are written in one text, with the delimiter
between them, or at one item each. An element that does not convert is refused either way.

* `Entries.HoldsText`, `Entries.HoldsTexts`: the two ways to write elements down.
* `Binder.Converts`: the elements are converted one after the other, which they are either way
  (`Binder.bindRoot_joined`, `Binder.bindRoot_apart`).
* `Binder.mapM_scalarOf_texts`: so what counts are the texts.
* `Binder.bindRoot_delimited`: a whole bind.
-/

namespace TypedConfig

/-! ## Entries -/

namespace Entries

variable {held : Entries} {root : Name} {text : String} {texts : List String}

/-- The entries hold a text at a name, and nothing at or below items. -/
structure HoldsText (held : Entries) (root : Name) (text : String) : Prop where
  built : held.Built
  value : (Keyed.find? root held).map (·.value) = some (.string text)
  items : ∀ n ∈ held.names, root.positionIn? n = none

/-- The entries hold texts at the first items, and nothing at or below others. -/
structure HoldsTexts (held : Entries) (root : Name) (texts : List String) : Prop where
  built : held.Built
  value k (h : k < texts.length) :
    (Keyed.find? (root.item (toString k)) held).map (·.value) = some (.string texts[k])
  items : ∀ n ∈ held.names, ∀ p ∈ root.positionIn? n, p < texts.length

section Listed

variable (hbuilt : held.Built) (hroot : root.WellFormed)

include hbuilt

/-- What is listed under a name has its value there. -/
theorem find?_value_of_getElem? {k : Nat} {n : Name} {v : Value} (hn : held.names[k]? = some n)
    (hv : (held.map (·.2.value))[k]? = some v) : (Keyed.find? n held).map (·.value) = some v := by
  rw [names, List.getElem?_map, Option.map_eq_some_iff] at hn
  obtain ⟨e, he, rfl⟩ := hn
  rw [List.getElem?_map, he] at hv
  rw [hbuilt.find?_name (List.mem_of_getElem? he)]
  exact hv

/-- A source with no other name than that of the text holds it. -/
theorem HoldsText.of_names (hnames : held.names = [root])
    (hvalues : held.map (·.2.value) = [.string text]) : held.HoldsText root text where
  built := hbuilt
  value := find?_value_of_getElem? hbuilt (k := 0) (by rw [hnames]; rfl) (by rw [hvalues]; rfl)
  items n hn := by
    rw [hnames, List.mem_singleton] at hn
    simp [hn, Name.positionIn?, Name.isAncestorOf]

include hroot

/-- A source with no other names than those of the items holds its texts. -/
theorem HoldsTexts.of_names
    (hnames : held.names = (List.range texts.length).map fun k => root.item (toString k))
    (hvalues : held.map (·.2.value) = texts.map .string) : held.HoldsTexts root texts where
  built := hbuilt
  value k h := by
    refine find?_value_of_getElem? hbuilt (k := k) ?_ ?_
    · simp [hnames, h]
    · simp [hvalues, h]
  items n hn p hp := by
    rw [hnames] at hn
    obtain ⟨k, hk, rfl⟩ := List.mem_map.mp hn
    rw [Name.positionIn?_of_meaning hroot (hroot.item _) rfl] at hp
    split at hp
    · cases hp
      exact List.mem_range.mp hk
    · cases hp

end Listed

end Entries

namespace Binder

open BindM

variable {b : Binder} {root : Name} {target : Target} {kind : ScalarKind} {element : Shape}
  {collection : CollectionKind} {label : String} {held : Entries} {texts : List String}

/-- A value that is held is what the property at its name has. -/
theorem exists_get?_of_find? {n : Name} {v : Value}
    (h : (Keyed.find? n held).map (·.value) = some v) :
    ∃ p, p.value = v ∧ (Source.entries label held).get? n = some p := by
  obtain ⟨e, he, hvalue⟩ := Option.map_eq_some_iff.mp h
  exact ⟨⟨n, e.value, _⟩, hvalue, by rw [Source.get?, he]; rfl⟩

/-! ## Conversion -/

/-- Properties with the same texts convert to the same scalars, or the same text is refused. -/
theorem mapM_scalarOf_texts {ps qs : List Property} (hps : ps.map (·.value) = texts.map .string)
    (hqs : qs.map (·.value) = texts.map .string) :
    (∃ values, List.Forall₂ (fun t v => b.converter.convert kind (.string t) = .ok v) texts values ∧
      ps.mapM (b.scalarOf kind) = .ok values ∧ qs.mapM (b.scalarOf kind) = .ok values) ∨
    ∃ t ∈ texts, ∃ failure, b.converter.convert kind (.string t) = .error failure ∧
      ∃ p q : Property, p.value = .string t ∧ q.value = .string t ∧
        ps.mapM (b.scalarOf kind) = .error (.conversion p kind.display (.scalar failure)) ∧
        qs.mapM (b.scalarOf kind) = .error (.conversion q kind.display (.scalar failure)) := by
  induction texts generalizing ps qs with
  | nil =>
    obtain rfl := List.map_eq_nil_iff.mp hps
    obtain rfl := List.map_eq_nil_iff.mp hqs
    exact .inl ⟨[], .nil, rfl, rfl⟩
  | cons t texts ih =>
    obtain ⟨p, ps, rfl, hp, hps⟩ := List.map_eq_cons_iff.mp hps
    obtain ⟨q, qs, rfl, hq, hqs⟩ := List.map_eq_cons_iff.mp hqs
    rw [List.mapM_cons, List.mapM_cons]
    cases hc : b.converter.convert kind (.string t) with
    | error failure =>
      rw [scalarOf_of_failure (hp ▸ hc), scalarOf_of_failure (hq ▸ hc)]
      exact .inr ⟨t, .head _, failure, hc, p, q, hp, hq, rfl, rfl⟩
    | ok v =>
      rw [scalarOf_of_convert (hp ▸ hc), scalarOf_of_convert (hq ▸ hc)]
      rcases ih hps hqs with
        ⟨values, h, hps, hqs⟩ | ⟨t', ht', failure, h, p', q', hp', hq', hps, hqs⟩
      · rw [hps, hqs]
        exact .inl ⟨v :: values, .cons hc h, rfl, rfl⟩
      · rw [hps, hqs]
        exact .inr ⟨t', .tail _ ht', failure, h, p', q', hp', hq', rfl, rfl⟩

/-! ## A whole bind -/

/-- The result is what the elements of a collection convert to, one after the other, from properties
with the texts. -/
def Converts (b : Binder) (collection : CollectionKind) (kind : ScalarKind) (root : Name)
    (texts : List String) (result : Except Failure (Option Value)) : Prop :=
  ∃ ps : List Property, ps.map (·.value) = texts.map .string ∧
    result = ((ps.mapM (b.scalarOf kind)).map fun values =>
      some (collection.collect values)).mapError (.bind root)

section Collection

variable (hh : b.handler = .default) (hsource : b.sources = [.entries label held])
  (hdepth : 1 ≤ b.options.maxDepth) (hroot : root.Built) (hne : root.isEmpty = false)
  (hcollection : (b.resolve target.shape).collection? = some (collection, element))
  (hs : b.resolve element = .scalar kind) (hnew : target.existing? = none)
  (hdirect : target.nestedOnly = false) (htexts : texts ≠ [])

include hh hsource hdepth hne hcollection hs hnew hdirect

/-- Texts that are joined by the delimiter are converted, as they are split again. -/
theorem bindRoot_joined {text : String} (hheld : held.HoldsText root text)
    (hsplit : b.options.splitText text = texts) (history : List Name) :
    b.Converts collection kind root texts (b.bindRoot history root target false).result := by
  obtain ⟨levels, hlevels⟩ := Nat.exists_eq_add_of_le' hdepth
  obtain ⟨p, hvalue, hget⟩ := @exists_get?_of_find? label held _ _ hheld.value
  have hfrom : (b.bindFrom (b.descend levels) (Scope.deeper {}) root element 0 (.entries label held)
      0).Gives (([] : List Property).mapM (b.scalarOf kind)) := by
    refine bindFrom_gives_mapM (fun _ hk => by cases hk) (fun _ hk => by cases hk) ?_
    intro n hn p hp
    rw [hheld.items n hn] at hp
    cases hp
  have hscalars : b.scalarsOf kind element p =
      (texts.map fun t => p.withValue (.string t)).mapM (b.scalarOf kind) := by
    have hpieces : b.options.pieces p.value = .ok (texts.map .string) := by
      rw [hvalue, Options.pieces, hsplit]
    rw [scalarsOf, hpieces]
    simp only [List.mapM_map, Function.comp_def]
  refine ⟨texts.map fun t => p.withValue (.string t), by simp [Property.withValue], ?_⟩
  rw [bindRoot_of_bindFrom hh hsource hlevels hne hcollection hs hnew hdirect hfrom history, hget,
    ← hscalars]
  show (((b.scalarsOf kind element p).map _).map _).mapError _ = _
  cases b.scalarsOf kind element p <;> rfl

include hroot htexts

/-- So are texts at items. They can be counted, as they are in memory. -/
theorem bindRoot_apart (hheld : held.HoldsTexts root texts)
    (hcount : texts.length ≤ UInt64.size) (history : List Name) :
    b.Converts collection kind root texts (b.bindRoot history root target false).result := by
  obtain ⟨levels, hlevels⟩ := Nat.exists_eq_add_of_le' hdepth
  choose p hvalue hget using fun k (h : k < texts.length) =>
    @exists_get?_of_find? label held _ _ (hheld.value k h)
  let items := List.ofFn fun k : Fin texts.length => p k k.isLt
  have hlength : items.length = texts.length := List.length_ofFn
  have hitem : ∀ k (hk : k < items.length), items[k] = p k (hlength ▸ hk) := fun k hk =>
    List.getElem_ofFn hk
  have hfrom : (b.bindFrom (b.descend levels) (Scope.deeper {}) root element 0 (.entries label held)
      0).Gives (items.mapM (b.scalarOf kind)) := by
    refine bindFrom_gives_mapM (fun k hk => ?_) (fun k hk => ?_) ?_
    · have := descend_item_gives hh hs (i := 0) (by rw [hsource]; rfl) levels (Scope.deeper {}) root
        (toString k) true
      rwa [hget k (hlength ▸ hk), scalarAt, ← hitem k hk] at this
    · rw [hlength] at hk
      have hholds : held.HoldsItem root k := by
        rw [Entries.HoldsItem, ← Option.isSome_map, hheld.value k hk]
        rfl
      exact hholds.exists_position hheld.built.wellFormed hroot.wellFormed (by omega)
    · rw [hlength]
      exact hheld.items
  refine ⟨items, ?_, ?_⟩
  · refine List.ext_getElem (by simp [hlength]) fun k hk _ => ?_
    simp [hitem, hvalue]
  · rw [bindRoot_of_bindFrom hh hsource hlevels hne hcollection hs hnew hdirect hfrom history]
    cases hread : items.mapM (b.scalarOf kind) with
    | error e => rfl
    | ok values =>
      -- There are items, so a single value at the root does not count.
      have hsome : values ≠ [] := by
        rw [← List.length_pos_iff, length_of_mapM hread, hlength]
        exact List.length_pos_iff.mpr htexts
      show ((b.collected collection kind element values _).map _).mapError _ = _
      unfold collected
      rw [List.isEmpty_eq_false_iff.mpr hsome]
      rfl

end Collection

/-- A collection of scalars is the same from a text that joins its elements by the delimiter as from
the elements at one item each, or an element does not convert, and that is the error either way. The
elements are texts without the delimiter, and where they are trimmed, without blanks at their ends.
What they join to is not blank. Neither bind is cut short. -/
theorem bindRoot_delimited (b : Binder) {root : Name} {target : Target} {kind : ScalarKind}
    {element : Shape} {collection : CollectionKind} {texts : List String} {joined apart : Entries}
    (hh : b.handler = .default) (hdepth : 1 ≤ b.options.maxDepth) (hroot : root.Built)
    (hne : root.isEmpty = false)
    (hcollection : (b.resolve target.shape).collection? = some (collection, element))
    (hs : b.resolve element = .scalar kind) (hnew : target.existing? = none)
    (hdirect : target.nestedOnly = false) (htexts : texts ≠ [])
    (hcount : texts.length ≤ UInt64.size) (hfree : ∀ t ∈ texts, b.options.delimiter ∉ t.toList)
    (hbare : b.options.trimElements = true → ∀ t ∈ texts, Text.Bare t.toList)
    (hwritten : ∃ c ∈ (String.intercalate (String.singleton b.options.delimiter) texts).toList,
      Text.isBlank c = false)
    (hjoined : joined.HoldsText root
      (String.intercalate (String.singleton b.options.delimiter) texts))
    (hapart : apart.HoldsTexts root texts) (labels : String × String)
    (histories : List Name × List Name) :
    let run (label : String) (held : Entries) (history : List Name) :=
      (b.withSources [.entries label held]).bindRoot history root target false
    let whole := (run labels.1 joined histories.1).result
    let parts := (run labels.2 apart histories.2).result
    (run labels.1 joined histories.1).journal.endless = none ∧
    (run labels.2 apart histories.2).journal.endless = none ∧
    ((∃ values, List.Forall₂ (fun t v => b.converter.convert kind (.string t) = .ok v) texts values ∧
      whole = .ok (some (collection.collect values)) ∧
      parts = .ok (some (collection.collect values))) ∨
    ∃ t ∈ texts, ∃ failure, b.converter.convert kind (.string t) = .error failure ∧
      ∃ p q : Property, p.value = .string t ∧ q.value = .string t ∧
        whole = .error (.bind root (.conversion p kind.display (.scalar failure))) ∧
        parts = .error (.bind root (.conversion q kind.display (.scalar failure)))) := by
  intro run whole parts
  have hends : ∀ label held history, held.Built → (run label held history).journal.endless = none :=
    fun label held history hbuilt => bindRoot_scalars_ends (b := b.withSources [.entries label held])
      hh (List.forall_mem_singleton.mpr (.entries label hbuilt)) history hroot hcollection hs false
  refine ⟨hends _ _ _ hjoined.built, hends _ _ _ hapart.built, ?_⟩
  have hsplit := b.options.splitText_intercalate htexts hfree hbare hwritten
  obtain ⟨ps, hps, hwhole⟩ : b.Converts collection kind root texts whole :=
    bindRoot_joined (b := b.withSources [.entries labels.1 joined]) hh rfl hdepth hne hcollection hs
      hnew hdirect hjoined hsplit histories.1
  obtain ⟨qs, hqs, hparts⟩ : b.Converts collection kind root texts parts :=
    bindRoot_apart (b := b.withSources [.entries labels.2 apart]) hh rfl hdepth hroot hne
      hcollection hs hnew hdirect htexts hapart hcount histories.2
  rw [hwhole, hparts]
  rcases mapM_scalarOf_texts hps hqs with
    ⟨values, hvalues, hps, hqs⟩ | ⟨t, ht, failure, hc, p, q, hp, hq, hps, hqs⟩
  · rw [hps, hqs]
    exact .inl ⟨values, hvalues, rfl, rfl⟩
  · rw [hps, hqs]
    exact .inr ⟨t, ht, failure, hc, p, q, hp, hq, rfl, rfl⟩

/-- Flags, of which one is empty and one is there twice, with a blank between them. -/
def flagsJoined : Entries := .ofList [("flags", .string "a  \tb a")]

/-- The same flags at items. -/
def flagsApart : Entries :=
  .ofList [("flags[0]", .string "a"), ("flags[1]", .string ""), ("flags[2]", .string "\tb"),
    ("flags[3]", .string "a")]

/-- The set of flags is the same, and neither bind is cut short. Where elements are not trimmed, their
blanks count. -/
theorem bindRoot_delimited_flags :
    let b : Binder := { sources := [], options := { delimiter := ' ', trimElements := false } }
    let run (held : Entries) := (b.withSources [.entries "test" held]).bindRoot []
      (Name.adapt "flags" '.') (.of (.set (.scalar .string))) false
    let bound : Value := .list [.string "a", .string "", .string "\tb"]
    (run flagsJoined).result = .ok (some bound) ∧ (run flagsApart).result = .ok (some bound) ∧
      (run flagsJoined).journal.endless = none ∧ (run flagsApart).journal.endless = none := by
  intro b run bound
  have hjoined : flagsJoined.HoldsText (Name.adapt "flags" '.') "a  \tb a" :=
    .of_names (.ofList _) rfl rfl
  have hapart : flagsApart.HoldsTexts (Name.adapt "flags" '.') ["a", "", "\tb", "a"] :=
    .of_names (.ofList _) (Name.adapt_wellFormed _ _) rfl rfl
  have hwritten : ∃ c ∈ (String.intercalate (String.singleton b.options.delimiter)
      ["a", "", "\tb", "a"]).toList, Text.isBlank c = false := ⟨'a', by decide, by decide⟩
  obtain ⟨hjoinedEnds, hapartEnds, houtcomes⟩ := @bindRoot_delimited b (.adapt "flags" '.')
    (.of (.set (.scalar .string))) _ _ _ ["a", "", "\tb", "a"] flagsJoined flagsApart rfl (by decide)
    (.adapt "flags" '.') (by decide) rfl rfl rfl rfl (by decide) (by decide) (by decide)
    (fun h => by cases h) hwritten hjoined hapart ("test", "test") ([], [])
  rcases houtcomes with ⟨values, hvalues, hwhole, hparts⟩ | ⟨t, -, failure, hfailure, -⟩
  · have hvalues : ["a", "", "\tb", "a"].map Value.string = values :=
      List.forall₂_eq_eq_eq ▸ List.forall₂_map_left_iff.mpr
        (hvalues.imp fun _ _ hv => Except.ok.inj hv)
    subst hvalues
    exact ⟨hwhole, hparts, by simpa only [run] using hjoinedEnds,
      by simpa only [run] using hapartEnds⟩
  · cases hfailure

end Binder

end TypedConfig
