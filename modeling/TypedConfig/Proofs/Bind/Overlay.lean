import TypedConfig.Proofs.Bind.Congruence
import TypedConfig.Proofs.Source.Overlay

/-!
# Layered sources and their overlay

Where a target has no collections, binding from layers comes to the same as binding from their
overlay: the same value, or the same error apart from where its properties came from. Looking up and
asking what lies below a name see no difference. The entries of a map are listed once in the overlay,
and in the layers every repeated one is passed over, because the entry that it belongs to was seen.

* `entryName_congr`: respellings of a name belong to respellings of one entry.
* `agree_bindEntries_firstSpellings`: repeated names add nothing to a map.
* `agree_bindAt_overlay`: a name agrees with itself, by induction on the levels below it.
-/

namespace TypedConfig

open BindM

namespace Binder

/-! ## Entries of maps -/

section EntryName

variable {root n k : Name} {value : Shape}

theorem cutAtPosition_wellFormed (h : n.WellFormed) (start : Nat) :
    (cutAtPosition n start).WellFormed := by
  unfold cutAtPosition
  split
  · exact h.take _
  · exact h

theorem entryName_wellFormed (h : n.WellFormed) : (entryName root n value).WellFormed := by
  unfold entryName
  cases value with
  | scalar _ => exact h
  | array _ | list _ | set _ => exact cutAtPosition_wellFormed h _
  | map _ _ | composite _ | ref _ => exact h.take _

theorem cutAtPosition_congr (hn : n.WellFormed) (hk : k.WellFormed) (h : n.meaning = k.meaning)
    (start : Nat) : (cutAtPosition n start).meaning = (cutAtPosition k start).meaning := by
  have hl : n.length = k.length := by simpa using congrArg List.length h
  have hp : n.isNumericAt = k.isNumericAt := funext fun i => Name.isNumericAt_congr hn hk h i
  unfold cutAtPosition
  rw [hl, hp]
  cases ((List.range k.length).filter (start ≤ ·)).find? k.isNumericAt with
  | none => exact h
  | some i => rw [Name.meaning_take, Name.meaning_take, h]

/-- Respellings of a name belong to respellings of one entry. -/
theorem entryName_congr (hn : n.WellFormed) (hk : k.WellFormed) (h : n.meaning = k.meaning) :
    (entryName root n value).meaning = (entryName root k value).meaning := by
  unfold entryName
  cases value with
  | scalar _ => exact h
  | array _ | list _ | set _ => exact cutAtPosition_congr hn hk h _
  | map _ _ | composite _ | ref _ => simp only [Name.meaning_take, h]

end EntryName

/-- The entries of all these names below the root were seen. -/
structure Covers (root : Name) (value : Shape) (names : List Name) (g : Gathered) : Prop where
  wellFormed : ∀ n ∈ g.seen, n.WellFormed
  seen : ∀ n ∈ names, root.isAncestorOf n = true →
    ∃ k ∈ g.seen, k.meaning = (entryName root n value).meaning

section Covers

variable {root : Name} {value : Shape} {names : List Name} {g : Gathered} {n : Name}

theorem contains_iff {seen : List Name} {entry : Name} (hs : ∀ n ∈ seen, n.WellFormed)
    (he : entry.WellFormed) :
    seen.contains entry = true ↔ ∃ k ∈ seen, k.meaning = entry.meaning := by
  rw [List.contains_iff_exists_mem_beq]
  exact exists_congr fun k => and_congr_right fun hk =>
    (Name.beq_iff he (hs k hk)).trans eq_comm

/-- A respelling of a covered name is passed over. -/
theorem Covers.contains (h : Covers root value names g) (hroot : root.WellFormed)
    (hnames : ∀ n ∈ names, n.WellFormed) (hn : n.WellFormed) (hanc : root.isAncestorOf n = true)
    (hany : names.any (· == n) = true) : g.seen.contains (entryName root n value) = true := by
  obtain ⟨k, hk, heq⟩ := List.any_eq_true.mp hany
  have hm := (Name.beq_iff (hnames k hk) hn).mp heq
  rw [← Name.isAncestorOf_congr hroot (hnames k hk) hn hm] at hanc
  obtain ⟨s, hs, hsm⟩ := h.seen k hk hanc
  exact (contains_iff h.wellFormed (entryName_wellFormed hn)).mpr
    ⟨s, hs, hsm.trans (entryName_congr (hnames k hk) hn hm)⟩

/-- A name that was passed over was covered already. -/
theorem Covers.append_of_contains (h : Covers root value names g) (hn : n.WellFormed)
    (hc : root.isAncestorOf n = true → g.seen.contains (entryName root n value) = true) :
    Covers root value (names ++ [n]) g where
  wellFormed := h.wellFormed
  seen m hm hanc := by
    rcases List.mem_append.mp hm with hm | hm
    · exact h.seen m hm hanc
    · rw [List.mem_singleton.mp hm] at hanc ⊢
      exact (contains_iff h.wellFormed (entryName_wellFormed hn)).mp (hc hanc)

/-- Seeing the entry of a name covers it. -/
theorem Covers.append_of_seen (h : Covers root value names g) (hn : n.WellFormed)
    (entries : Fields) :
    Covers root value (names ++ [n]) ⟨entryName root n value :: g.seen, entries⟩ where
  wellFormed m hm := by
    rcases List.mem_cons.mp hm with rfl | hm
    · exact entryName_wellFormed hn
    · exact h.wellFormed m hm
  seen m hm hanc := by
    rcases List.mem_append.mp hm with hm | hm
    · obtain ⟨k, hk, hkm⟩ := h.seen m hm hanc
      exact ⟨k, List.mem_cons_of_mem _ hk, hkm⟩
    · rw [List.mem_singleton.mp hm]
      exact ⟨_, .head _, rfl⟩

end Covers

variable {b c : Binder} {f f' : BindBelow} {scope : Scope} {root : Name} {key : ScalarKind}
  {value : Shape}

/-- Repeated names add nothing to a map. -/
theorem agree_bindEntries_firstSpellings {m : Comparison} (h : b.Alike c) (hroot : root.WellFormed)
    (hf : ∀ entry, entry.WellFormed → Agree m Eq (f scope entry (.of value) true)
      (f' scope entry (.of value) true))
    {before xs : List Name} (hb : ∀ n ∈ before, n.WellFormed) (hx : ∀ n ∈ xs, n.WellFormed)
    {g : Gathered} (hg : Covers root value before g) :
    Agree m (fun g g' => g = g' ∧
        Covers root value (before ++ Entries.firstSpellings before xs) g)
      (b.bindEntries f scope root key value (xs.filter root.isAncestorOf) g)
      (c.bindEntries f' scope root key value
        ((Entries.firstSpellings before xs).filter root.isAncestorOf) g) := by
  induction xs generalizing before g with
  | nil => exact .ret ⟨rfl, by simpa [Entries.firstSpellings] using hg⟩
  | cons x xs ih =>
    have hxwf := hx x (.head _)
    have hxs := fun n hn => hx n (List.mem_cons_of_mem _ hn)
    have hbx : ∀ n ∈ before ++ [x], n.WellFormed := by
      intro n hn
      rcases List.mem_append.mp hn with hn | hn
      · exact hb n hn
      · rw [List.mem_singleton.mp hn]
        exact hxwf
    unfold Entries.firstSpellings
    cases hanc : root.isAncestorOf x with
    | false =>
      rw [List.filter_cons_of_neg (by simp [hanc])]
      split
      · exact ih hb hxs hg
      · rw [List.filter_cons_of_neg (by simp [hanc]), List.append_cons]
        exact ih hbx hxs (hg.append_of_contains hxwf fun h => by rw [hanc] at h; cases h)
    | true =>
      rw [List.filter_cons_of_pos hanc]
      split
      · rename_i hany
        rw [bindEntries, if_pos (hg.contains hroot hb hxwf hanc hany)]
        exact ih hb hxs hg
      · rw [List.filter_cons_of_pos hanc, List.append_cons, bindEntries, bindEntries]
        have hseen := fun entries => ih hbx hxs (hg.append_of_seen hxwf entries)
        split
        · rename_i hc
          exact ih hbx hxs (hg.append_of_contains hxwf fun _ => hc)
        · refine (agree_convertProperty h (m.properties_refl _) key).seq fun converted => ?_
          split
          · exact hseen _
          · split
            · exact hseen _
            · exact (hf _ (entryName_wellFormed hxwf)).seq fun _ => hseen _

theorem bindEntries_append (xs ys : List Name) (g : Gathered) :
    c.bindEntries f scope root key value (xs ++ ys) g = (do
      let g ← c.bindEntries f scope root key value xs g
      c.bindEntries f scope root key value ys g) := by
  induction xs generalizing g with
  | nil => exact (pure_bind _ _).symm
  | cons x xs ih =>
    rw [List.cons_append, bindEntries, bindEntries]
    simp only
    split
    · exact ih g
    · rw [bind_assoc]
      refine bind_congr fun converted => ?_
      split
      · exact ih _
      · split
        · exact ih _
        · rw [bind_assoc]
          exact bind_congr fun bound => ih _

/-! ## Maps -/

/-- The source of a layer. -/
def layerSource (layer : String × Entries) : Source := .entries layer.1 layer.2

variable {layers : List (String × Entries)} {sources : List (Nat × Source)}

/-- Binding a map from the names that layers list is binding it from those of the overlay. -/
theorem agree_bindMapFrom_listed {m : Comparison} (h : b.Alike c) (hroot : root.WellFormed)
    (hf : ∀ entry, entry.WellFormed → Agree m Eq (f scope entry (.of value) true)
      (f' scope entry (.of value) true))
    (hs : sources.map (·.2) = layers.map layerSource) (hwf : ∀ l ∈ layers, l.2.WellFormed)
    {before : List Name} (hb : ∀ n ∈ before, n.WellFormed) {g : Gathered}
    (hg : Covers root value before g) :
    Agree m Eq (b.bindMapFrom f scope root key value false sources g) (do
      let g ← c.bindEntries f' scope root key value
        ((Entries.firstSpellings before (layers.flatMap (·.2.names))).filter root.isAncestorOf) g
      return if g.entries.isEmpty then none else some (.map g.entries)) := by
  induction layers generalizing sources before g with
  | nil =>
    cases sources with
    | nil => exact Agree.ret rfl
    | cons _ _ => cases hs
  | cons layer rest ih =>
    cases sources with
    | nil => cases hs
    | cons source sources =>
      obtain ⟨i, source⟩ := source
      simp only [List.map_cons, List.cons.injEq] at hs
      obtain ⟨rfl, hs⟩ := hs
      have hlayer : ∀ n ∈ layer.2.names, n.WellFormed := hwf layer (.head _)
      have hrest := fun l hl => hwf l (List.mem_cons_of_mem _ hl)
      rw [List.flatMap_cons, Entries.firstSpellings_append, List.filter_append, bindEntries_append,
        bind_assoc, bindMapFrom]
      simp only [Bool.false_eq_true, ↓reduceIte, pure_bind]
      refine (agree_bindEntries_firstSpellings h hroot hf hb hlayer hg).bind ?_
      rintro g _ ⟨rfl, hg⟩
      refine ih hs hrest (fun n hn => ?_) hg
      rcases List.mem_append.mp hn with hn | hn
      · exact hb n hn
      · exact hlayer n (Entries.mem_of_mem_firstSpellings hn)

/-- What the overlay holds under a name is what the layers hold, apart from where it came from. -/
theorem findSome?_layerSource {layers : List (String × Entries)} {label : String} {name : Name} :
    Option.Rel Comparison.apartFromOrigins.properties
      ((layers.map layerSource).findSome? (·.get? name))
      (((layers.map (·.2)).findSome? (Keyed.find? name)).map fun e =>
        ⟨name, e.value, some s!"{label} [{e.key}]"⟩) := by
  induction layers with
  | nil => exact .none
  | cons layer rest ih =>
    rw [List.map_cons, List.map_cons, List.findSome?_cons, List.findSome?_cons]
    simp only [layerSource, Source.get?]
    cases Keyed.find? name layer.2 with
    | none => exact ih
    | some e => exact .some rfl

/-- Binds a map from the single value at its name, if there is one. -/
def bindMapAt (b : Binder) (key : ScalarKind) (value : Shape) :
    Option Property → BindM (Option Value)
  | some p => do return some (← b.bindMapValue p key value)
  | none => return none

/-- Where layers have nothing below a map, its value in the layers is its value in the overlay. -/
theorem agree_bindMapFrom_direct (h : b.Alike c)
    (hs : sources.map (·.2) = layers.map layerSource)
    (hnone : ∀ l ∈ layers, l.2.names.any root.isAncestorOf = false) {p? : Option Property}
    (hp : Option.Rel Comparison.apartFromOrigins.properties
      ((layers.map layerSource).findSome? (·.get? root)) p?) :
    Agree .apartFromOrigins Eq (b.bindMapFrom f scope root key value true sources {})
      (c.bindMapAt key value p?) := by
  induction layers generalizing sources with
  | nil =>
    cases sources with
    | nil =>
      cases hp
      exact Agree.ret rfl
    | cons _ _ => cases hs
  | cons layer rest ih =>
    cases sources with
    | nil => cases hs
    | cons source sources =>
      obtain ⟨i, source⟩ := source
      simp only [List.map_cons, List.cons.injEq] at hs
      obtain ⟨rfl, hs⟩ := hs
      rw [List.map_cons, List.findSome?_cons] at hp
      have hcandidates : ((layerSource layer).names?.getD []).filter root.isAncestorOf = [] :=
        List.filter_eq_nil_iff.mpr fun n hn => by
          have := List.any_eq_false.mp (hnone layer (.head _)) n hn
          simpa using this
      have hget : (getFrom i (layerSource layer) root).Gives
          (.ok ((layerSource layer).get? root)) := Gives.bind (.note _) (.ret _)
      rw [bindMapFrom, hcandidates]
      refine Agree.after_left (fun _ _ _ => trivial) hget ?_
      cases hfound : (layerSource layer).get? root with
      | none =>
        rw [hfound] at hp
        exact ih hs (fun l hl => hnone l (List.mem_cons_of_mem _ hl)) hp
      | some p =>
        rw [hfound] at hp
        cases hp with
        | some hpq => exact (agree_bindMapValue h hpq key value).seq fun _ => .ret rfl

/-! ## The overlay as the only source -/

/-- The overlay of layers as a source. -/
def overlaySource (label : String) (layers : List (String × Entries)) : Source :=
  .entries label (.overlay (layers.map (·.2)))

/-- The binder with the overlay of layers as its only source. -/
def overlaid (b : Binder) (label : String) (layers : List (String × Entries)) : Binder :=
  { b with sources := [overlaySource label layers] }

/-- The sources of a binder are layers of well-formed names. -/
structure Layered (b : Binder) (layers : List (String × Entries)) : Prop where
  sources : b.sources = layers.map layerSource
  wellFormed : ∀ l ∈ layers, l.2.WellFormed

variable {label : String} {name : Name} {target : Target}

theorem alike_overlaid : b.Alike (b.overlaid label layers) := ⟨rfl, rfl, rfl⟩

/-- Some layer has something below a name. -/
def anyBelow (layers : List (String × Entries)) (name : Name) : Bool :=
  layers.any fun l => l.2.names.any name.isAncestorOf

theorem presence_layerSource (layer : String × Entries) (name : Name) :
    ((layerSource layer).presence name == .present) = layer.2.names.any name.isAncestorOf ∧
    ((layerSource layer).presence name == .absent) = !layer.2.names.any name.isAncestorOf := by
  simp only [layerSource, Source.presence, Presence.ofBool]
  cases layer.2.names.any name.isAncestorOf <;> exact ⟨rfl, rfl⟩

namespace Layered

variable (hb : b.Layered layers) (hscope : scope.only = none) (hname : name.WellFormed)

include hb

theorem wellFormed_entries : ∀ l ∈ layers.map (·.2), l.WellFormed := by
  intro l hl
  obtain ⟨layer, hlayer, rfl⟩ := List.mem_map.mp hl
  exact hb.wellFormed layer hlayer

/-- The overlay is a single layer. -/
theorem overlaid (label : String) :
    (b.overlaid label layers).Layered [(label, .overlay (layers.map (·.2)))] where
  sources := rfl
  wellFormed l hl := by
    rw [List.mem_singleton.mp hl]
    exact Entries.overlay_wellFormed hb.wellFormed_entries

include hscope

theorem map_visible : (b.visible scope).map (·.2) = layers.map layerSource := by
  rw [Binder.map_visible hscope, hb.sources]

theorem findSome?_visible : (b.visible scope).findSome? (fun (_, s) => s.get? name) =
    (layers.map layerSource).findSome? (·.get? name) := by
  rw [← hb.map_visible hscope, List.findSome?_map]
  rfl

theorem nothingBelow_gives : (b.nothingBelow scope name).Gives (.ok !anyBelow layers name) := by
  have hall : ((b.visible scope).all fun (_, s) => s.presence name == .absent) =
      !anyBelow layers name := by
    have hm : ((b.visible scope).all fun (_, s) => s.presence name == .absent) =
        ((b.visible scope).map (·.2)).all fun s => s.presence name == .absent := by
      rw [List.all_map]
      rfl
    rw [hm, hb.map_visible hscope, List.all_map, anyBelow, List.not_any_eq_all_not]
    congr 1
    funext l
    exact (presence_layerSource l name).2
  rw [← hall]
  exact Gives.bind (.note _) (.ret _)

theorem somethingBelow_gives : (b.somethingBelow scope name).Gives (.ok (anyBelow layers name)) := by
  have hany : ((b.visible scope).any fun (_, s) => s.presence name == .present) =
      anyBelow layers name := by
    have hm : ((b.visible scope).any fun (_, s) => s.presence name == .present) =
        ((b.visible scope).map (·.2)).any fun s => s.presence name == .present := by
      rw [List.any_map]
      rfl
    rw [hm, hb.map_visible hscope, List.any_map, anyBelow]
    congr 1
    funext l
    exact (presence_layerSource l name).1
  rw [← hany]
  exact Gives.bind (.note _) (.ret _)

include hname

omit hscope in
/-- The overlay has something below a name exactly if some layer does. -/
theorem anyBelow_overlaid (label : String) :
    anyBelow [(label, .overlay (layers.map (·.2)))] name = anyBelow layers name := by
  have h := Entries.any_isAncestorOf_overlay hb.wellFormed_entries hname
  rw [List.any_map] at h
  simpa [anyBelow, Function.comp_def] using h

omit hscope in
/-- The overlay and the layers have the same properties, apart from where they came from. -/
theorem findSome?_overlaySource (label : String) :
    Option.Rel Comparison.apartFromOrigins.properties
      ((layers.map layerSource).findSome? (·.get? name))
      ((overlaySource label layers).get? name) := by
  have h := @findSome?_layerSource layers label name
  rw [← Entries.find?_overlay hb.wellFormed_entries hname] at h
  exact h

theorem agree_lookUp : Agree .apartFromOrigins (Option.Rel Comparison.apartFromOrigins.properties)
    (b.lookUp scope name) ((b.overlaid label layers).lookUp scope name) := by
  refine Agree.after_both (fun _ _ => trivial) (.note _) (.note _) (.ret ?_)
  rw [hb.findSome?_visible hscope, (hb.overlaid label).findSome?_visible hscope, List.map_singleton,
    List.findSome?_singleton]
  exact hb.findSome?_overlaySource hname label

theorem agree_nothingBelow : Agree .apartFromOrigins Eq (b.nothingBelow scope name)
    ((b.overlaid label layers).nothingBelow scope name) := by
  have h := @nothingBelow_gives _ _ _ name (hb.overlaid label) hscope
  rw [hb.anyBelow_overlaid hname label] at h
  exact Agree.of_gives (fun _ _ => trivial) (hb.nothingBelow_gives hscope) h

theorem agree_somethingBelow : Agree .apartFromOrigins Eq (b.somethingBelow scope name)
    ((b.overlaid label layers).somethingBelow scope name) := by
  have h := @somethingBelow_gives _ _ _ name (hb.overlaid label) hscope
  rw [hb.anyBelow_overlaid hname label] at h
  exact Agree.of_gives (fun _ _ => trivial) (hb.somethingBelow_gives hscope) h

/-- The entries that a map takes from layers agree with those that it takes from the overlay. A single
value counts only where no layer has anything below the map. -/
theorem agree_bindMapFrom {key : ScalarKind} {value : Shape} {direct : Bool}
    (hdirect : direct = true → anyBelow layers name = false)
    (hf : ∀ entry, entry.WellFormed → Agree .apartFromOrigins Eq
      (f scope entry (.of value) true) (f' scope entry (.of value) true)) :
    Agree .apartFromOrigins Eq
      (b.bindMapFrom f scope name key value direct (b.visible scope) {})
      ((b.overlaid label layers).bindMapFrom f' scope name key value direct
        ((b.overlaid label layers).visible scope) {}) := by
  have hone : (b.overlaid label layers).visible scope = [(0, overlaySource label layers)] := by
    simp [visible, hscope, Binder.overlaid]
  have hnames : ((overlaySource label layers).names?.getD []) =
      Entries.firstSpellings [] (layers.flatMap (·.2.names)) := by
    simp [overlaySource, Source.names?, Entries.names_overlay, List.flatMap_map]
  rw [hone]
  cases direct with
  | false =>
    have hempty : Covers name value [] {} := ⟨fun n hn => (by cases hn), fun n hn => (by cases hn)⟩
    have hlisted := @agree_bindMapFrom_listed b (b.overlaid label layers) f f' scope name key value
      layers _ _ alike_overlaid hname hf (hb.map_visible hscope) hb.wellFormed []
      (fun n hn => (by cases hn)) {} hempty
    rw [← hnames] at hlisted
    exact hlisted
  | true =>
    have hbelow := hdirect rfl
    have hnone : ∀ l ∈ layers, l.2.names.any name.isAncestorOf = false := fun l hl => by
      simpa using List.any_eq_false.mp hbelow l hl
    have hcandidates : ((overlaySource label layers).names?.getD []).filter name.isAncestorOf =
        [] := by
      have h := hb.anyBelow_overlaid hname label
      rw [hbelow] at h
      have h : (Entries.overlay (layers.map (·.2))).names.any name.isAncestorOf = false := by
        simpa [anyBelow] using h
      exact List.filter_eq_nil_iff.mpr fun n hn => by simpa using List.any_eq_false.mp h n hn
    have hleft := @agree_bindMapFrom_direct b (b.overlaid label layers) f scope name key value
      layers _ alike_overlaid (hb.map_visible hscope) hnone _
      (hb.findSome?_overlaySource hname label)
    have hget : (getFrom 0 (overlaySource label layers) name).Gives
        (.ok ((overlaySource label layers).get? name)) := Gives.bind (.note _) (.ret _)
    rw [bindMapFrom, hcandidates]
    refine Agree.after_right (fun _ _ _ => trivial) hget ?_
    cases hp : (overlaySource label layers).get? name with
    | none =>
      rw [hp] at hleft
      exact hleft
    | some p =>
      rw [hp] at hleft
      exact hleft

/-- A map in the layers agrees with itself in the overlay, if its entries do. -/
theorem agree_bindMap {key : ScalarKind} {value : Shape}
    (hf : ∀ entry, entry.WellFormed → Agree .apartFromOrigins Eq
      (f scope.deeper entry (.of (b.resolve value)) true)
      (f' scope.deeper entry (.of (b.resolve value)) true)) :
    Agree .apartFromOrigins Eq (b.bindMap f scope name target key value)
      ((b.overlaid label layers).bindMap f' scope name target key value) := by
  have hdeeper : scope.deeper.only = none := hscope
  have hnested := @somethingBelow_gives _ _ _ name hb hdeeper
  have hnested' := @somethingBelow_gives _ _ _ name (hb.overlaid label) hdeeper
  rw [hb.anyBelow_overlaid hname label] at hnested'
  unfold bindMap
  refine Agree.after_both (fun _ _ => trivial) hnested hnested' ?_
  refine Agree.seq (hb.agree_bindMapFrom hdeeper hname (fun h => ?_) hf) fun bound => ?_
  · simp only [Bool.and_eq_true, Bool.not_eq_true'] at h
    exact h.1.2
  · split <;> exact .ret rfl

end Layered

/-! ## A whole bind -/

/-- No part of the shape is an array, a list or a set. -/
def NoCollections (b : Binder) (shape : Shape) : Prop :=
  ∀ part, b.definitions.Part shape part → part.element? = none

theorem NoCollections.resolve {shape : Shape} (h : b.NoCollections shape) :
    b.NoCollections (b.resolve shape) := fun part hp => h part (.resolved hp)

theorem NoCollections.collection? {shape : Shape} (h : b.NoCollections shape) :
    shape.collection? = none := by
  have := h shape (.self shape)
  cases shape <;> first | rfl | cases this

theorem NoCollections.member {type : Composite Shape} (h : b.NoCollections (.composite type))
    {id : String} {shape : Shape} (hm : type.Member id shape) : b.NoCollections shape :=
  fun part hp => h part (.member hm hp)

/-- A name without collections agrees with itself in layers and in their overlay. -/
theorem agree_bindAt_overlay (label : String) (hb : b.Layered layers) (hh : b.handler = .default)
    (levels : Nat) (scope : Scope) (hscope : scope.only = none) (name : Name) (hname : name.WellFormed)
    (target : Target) (hshape : b.NoCollections target.shape) (recursive create : Bool) :
    Agree .apartFromOrigins Eq (b.bindAt levels scope name target recursive create)
      ((b.overlaid label layers).bindAt levels scope name target recursive create) := by
  have hvisit : ∀ v v', AgreeOnVisits .apartFromOrigins b.handler
      (b.overlaid label layers).handler v v' := by
    intro v v'
    have : (b.overlaid label layers).handler = .default := hh
    rw [hh, this]
    exact .default v v'
  have hnone : ∀ target : Target, b.NoCollections target.shape → ∀ kind element,
      (b.resolve target.shape).collection? ≠ some (kind, element) := by
    intro target hshape kind element h
    rw [hshape.resolve.collection?] at h
    cases h
  induction levels generalizing scope name target recursive create with
  | zero =>
    refine agree_bindVisit alike_overlaid rfl (hvisit _ _) (agree_bindShape rfl rfl
      (hb.agree_lookUp hscope hname) (hb.agree_nothingBelow hscope hname) fun _ _ hp =>
      agree_bindForm alike_overlaid hp
        (fun kind element h => absurd h (hnone target hshape kind element))
        (fun key value _ => ?_) (fun type _ => ?_))
    · exact (agree_enter (R := fun _ _ => False) rfl (.none rfl)).bind fun _ _ h => h.elim
    · exact agree_bindComposite alike_overlaid rfl (.none rfl) (hb.agree_somethingBelow hscope hname) _
  | succ levels ih =>
    refine agree_bindVisit alike_overlaid rfl (hvisit _ _) (agree_bindShape rfl rfl
      (hb.agree_lookUp hscope hname) (hb.agree_nothingBelow hscope hname) fun _ _ hp =>
      agree_bindForm alike_overlaid hp
        (fun kind element h => absurd h (hnone target hshape kind element))
        (fun key value hmap => ?_) (fun type htype => ?_))
    · have hvalue : b.NoCollections value := by
        have := hshape.resolve
        rw [hmap] at this
        exact fun part hp => this part (.entry hp)
      refine hb.agree_bindMap hscope hname fun entry hentry => ?_
      exact ih scope.deeper hscope entry hentry _ hvalue.resolve true false
    · have hmember : ∀ inner : Scope, inner.only = none → AgreeOnMembers .apartFromOrigins
          (b.descend levels) ((b.overlaid label layers).descend levels) inner name type := by
        rintro inner hinner id shape child _ existing hm hchild rfl
        have hshape := hshape.resolve
        rw [htype] at hshape
        refine ih inner hinner child (Name.extend?_wellFormed hname hchild) _ ?_ false false
        rw [Target.withExisting_shape]
        exact hshape.member hm
      exact agree_bindComposite alike_overlaid rfl (.some ⟨hmember _ hscope, hmember _ hscope⟩)
        (hb.agree_somethingBelow hscope hname) _

end Binder

/-- The failure without the places that its properties came from. -/
def Failure.withoutOrigins : Failure → Failure
  | .bind root e => .bind root e.withoutOrigins
  | .invalidName e => .invalidName e

namespace Binder

variable {b : Binder} {layers : List (String × Entries)} {root : Name} {target : Target}

/-- Binding a target without collections from layers comes to the same as binding it from their
overlay: the same value, or the same failure apart from where its properties came from. -/
theorem bindRoot_overlay (hs : b.sources = layers.map fun l => .entries l.1 l.2)
    (hbuilt : ∀ l ∈ layers, l.2.Built) (hh : b.handler = .default) (hroot : root.Built)
    (hshape : b.NoCollections target.shape) (label : String) (history : List Name) (create : Bool) :
    let one : Binder := { b with sources := [.entries label (.overlay (layers.map (·.2)))] }
    (b.bindRoot history root target create).result.mapError Failure.withoutOrigins =
      (one.bindRoot history root target create).result.mapError Failure.withoutOrigins := by
  have hb : b.Layered layers := ⟨hs, fun l hl => (hbuilt l hl).wellFormed⟩
  intro one
  have hagree := agree_bindAt_overlay label hb hh b.options.maxDepth {} rfl root hroot.wellFormed
    target hshape false create
  exact hagree.mapError_result trivial (fun _ => id) fun he => congrArg (Failure.bind root) he

/-- A node with a name, labels, and a node below it. -/
def nodeShape : Shape :=
  .composite ⟨"Node", .bean, false, [], [⟨"name", .scalar .string, true⟩,
    ⟨"labels", .map .string (.scalar .string), true⟩, ⟨"next", .ref (.declared "Node"), true⟩], none⟩

/-- A first layer that overrides a label and a name deep inside, and a second one with the rest. -/
def nodeLayers : List (String × Entries) :=
  [("first", .ofList [("root.labels.a", .string "x"), ("root.next.name", .string "inner")]),
    ("second", .ofList [("root.name", .string "outer"), ("root.labels.A", .string "y"),
      ("root.labels.b", .string "z"), ("root.next.name", .string "hidden")])]

/-- A binder over the layers, with the shape of nodes declared. -/
def nodeBinder : Binder where
  sources := nodeLayers.map fun l => .entries l.1 l.2
  definitions := [(.declared "Node", nodeShape)]

/-- The parts of a node are nodes, labels and texts. -/
theorem nodeShape_noCollections : nodeBinder.NoCollections (.ref (.declared "Node")) := by
  intro part hpart
  have hparts := @Definitions.Part.of_closed nodeBinder.definitions
    (fun s => s = .ref (.declared "Node") ∨ s = nodeShape ∨ s = .map .string (.scalar .string) ∨
      s = .scalar .string) (fun s hs => ?_) (fun s e he hs => ?_) (fun key value hs => ?_)
    (fun type id s hm hs => ?_) _ _ hpart (.inl rfl)
  · rcases hparts with rfl | rfl | rfl | rfl <;> rfl
  · rcases hs with rfl | rfl | rfl | rfl
    · exact .inr (.inl rfl)
    · exact .inr (.inl rfl)
    · exact .inr (.inr (.inl rfl))
    · exact .inr (.inr (.inr rfl))
  · rcases hs with rfl | rfl | rfl | rfl <;> cases he
  · rcases hs with hs | hs | hs | hs <;> cases hs
    exact .inr (.inr (.inr rfl))
  · rcases hs with hs | hs | hs | hs <;> cases hs
    cases hm with
    | param hc hp => cases hc
    | field hf =>
      simp only [List.mem_cons, List.not_mem_nil, or_false] at hf
      rcases hf with rfl | rfl | rfl
      · exact .inr (.inr (.inr rfl))
      · exact .inr (.inr (.inl rfl))
      · exact .inl rfl

/-- The labels and the nested node come from both layers. -/
theorem bindRoot_overlay_nodes :
    let bind (b : Binder) := b.bindRoot [] (Name.adapt "root" '.') (.of (.ref (.declared "Node"))) false
    (bind nodeBinder).result = .ok (some (.map [("name", .string "outer"),
      ("labels", .map [("a", .string "x"), ("b", .string "z")]),
      ("next", .map [("name", .string "inner")])])) ∧
    (bind nodeBinder).result.mapError Failure.withoutOrigins =
      (bind { nodeBinder with
        sources := [.entries "overlay" (.overlay (nodeLayers.map (·.2)))] }).result.mapError
          Failure.withoutOrigins := by
  refine ⟨by rfl, ?_⟩
  refine @bindRoot_overlay nodeBinder nodeLayers _ (.of (.ref (.declared "Node"))) rfl ?_ rfl
    (.adapt "root" '.') nodeShape_noCollections "overlay" [] false
  intro l hl
  rcases List.mem_cons.mp hl with rfl | hl
  · exact .ofList _
  · rw [List.mem_singleton.mp hl]
    exact .ofList _

end Binder

end TypedConfig
