import TypedConfig.Bind.Collection
import TypedConfig.Proofs.Keyed
import TypedConfig.Proofs.Shape.Parts

/-!
# Values that fit a shape

* `ScalarKind.Admits`: null, or a value of the kind. Whatever converts to a kind is admitted by it
  (`ScalarKind.convert_admits`).
* `Fits`: a value has the form that a shape describes, all the way down.
* `Fits.of_resolve`: fitting what a reference stands for is fitting the reference.
* `CollectionKind.collect_fits`, `CollectionKind.merge_fits`: collections of fitting elements fit.
-/

namespace TypedConfig

/-! ## Scalars -/

namespace ScalarKind

/-- The value is null or of the kind. -/
def Admits (kind : ScalarKind) (v : Value) : Prop :=
  v = .null ∨ match kind, v with
    | string, .string _ | bool, .bool _ | float, .float _ => True
    | int min max, .int n => min ≤ n ∧ n ≤ max
    | char, .string s => s.length = 1
    | enum variants, .string s => s ∈ variants
    | _, _ => False

theorem checkRange_admits {min max n : Int64} {w : Value} (h : checkRange min max n = .ok w) :
    (int min max).Admits w := by
  unfold checkRange at h
  split at h
  · cases h
  · rename_i hn
    cases h
    simp only [Bool.or_eq_true, decide_eq_true_eq, not_or] at hn
    exact .inr ⟨Int64.not_lt.mp hn.1, Int64.not_lt.mp hn.2⟩

theorem checkCharacter_admits {s : String} {w : Value} (h : checkCharacter s = .ok w) :
    char.Admits w := by
  unfold checkCharacter at h
  split at h
  · rename_i hs
    cases h
    exact .inr hs
  · cases h

theorem selectVariant_admits {variants : List String} {s : String} {w : Value}
    (h : selectVariant variants s = .ok w) : (enum variants).Admits w := by
  unfold selectVariant at h
  split at h
  · rename_i variant hv
    cases h
    exact .inr (List.mem_of_find?_eq_some hv)
  · cases h

/-- What converts to a kind is of the kind. -/
theorem convert_admits {kind : ScalarKind} {v w : Value} (h : kind.convert v = .ok w) :
    kind.Admits w := by
  unfold convert at h
  split at h
  · cases h
    exact .inl rfl
  · split at h
    · cases h
    · unfold convertScalar at h
      cases kind with
      | string =>
        cases h
        exact .inr trivial
      | bool =>
        simp only at h
        split at h
        · cases h
          exact .inr trivial
        · cases h
      | int min max =>
        simp only at h
        split at h
        · exact checkRange_admits h
        · cases h
      | float =>
        simp only at h
        split at h
        · cases h
          exact .inr trivial
        · cases h
      | char => exact checkCharacter_admits h
      | enum variants => exact selectVariant_admits h

end ScalarKind

/-! ## Shapes -/

/-- No value equals one before it. -/
def Distinct (values : List Value) : Prop := values.Pairwise fun a b => (b == a) = false

/-- The value has the form that the shape describes. -/
inductive Fits (defs : Definitions) : Shape → Value → Prop
  | scalar {s : Shape} {kind : ScalarKind} {v : Value} (hs : defs.resolve s = .scalar kind)
      (hv : kind.Admits v) : Fits defs s v
  /-- A list of fitting elements. Those of a set are different. -/
  | collection {s element : Shape} {kind : CollectionKind} {values : List Value}
      (hs : (defs.resolve s).collection? = some (kind, element))
      (hv : ∀ v ∈ values, Fits defs element v) (hd : kind = .set → Distinct values) :
      Fits defs s (.list values)
  /-- A map of fitting values. -/
  | map {s value : Shape} {key : ScalarKind} {entries : Fields}
      (hs : defs.resolve s = .map key value) (hv : ∀ e ∈ entries, Fits defs value e.2) :
      Fits defs s (.map entries)
  /-- Every required parameter, and fitting values of parameters alone. -/
  | record {s : Shape} {type : Composite Shape} {ctor : Constructor Shape} {entries : Fields}
      (hs : defs.resolve s = .composite type) (hk : type.kind = .record)
      (hc : type.constructors = [ctor])
      (hr : ∀ p ∈ ctor.params, p.fallback = .required → p.name ∈ entries.map (·.1))
      (ho : ∀ e ∈ entries, e.1 ∈ ctor.params.map (·.name))
      (hv : ∀ p ∈ ctor.params, ∀ v, (p.name, v) ∈ entries → Fits defs p.shape v) :
      Fits defs s (.map entries)
  /-- Each declared field that is held is null or fits. -/
  | bean {s : Shape} {type : Composite Shape} {entries : Fields}
      (hs : defs.resolve s = .composite type) (hk : type.kind = .bean)
      (hv : ∀ f ∈ type.fields, ∀ v, Keyed.find? f.name entries = some v → v.isNull = false →
        Fits defs f.shape v) :
      Fits defs s (.map entries)

namespace Fits

variable {defs : Definitions} {s : Shape} {v : Value}

/-- Only what references stand for counts. -/
theorem of_resolve_eq {t : Shape} (h : Fits defs s v) (hr : defs.resolve s = defs.resolve t) :
    Fits defs t v := by
  cases h with
  | scalar hs hv => exact .scalar (hr ▸ hs) hv
  | collection hs hv hd => exact .collection (hr ▸ hs) hv hd
  | map hs hv => exact .map (hr ▸ hs) hv
  | record hs hk hc hreq ho hv => exact .record (hr ▸ hs) hk hc hreq ho hv
  | bean hs hk hv => exact .bean (hr ▸ hs) hk hv

/-- No value fits a reference without a meaning. -/
theorem resolve_isRef (h : Fits defs s v) : (defs.resolve s).isRef = false := by
  cases h with
  | scalar hs _ | map hs _ | record hs _ _ _ _ _ | bean hs _ _ => rw [hs]; rfl
  | collection hs _ _ =>
    revert hs
    cases defs.resolve s <;> first | exact fun _ => rfl | exact fun hs => by cases hs

/-- What fits the meaning of a reference fits the reference. -/
theorem of_resolve (h : Fits defs (defs.resolve s) v) : Fits defs s v :=
  h.of_resolve_eq (Definitions.resolve_resolve h.resolve_isRef)

/-! ### What fits a shape of a form -/

theorem of_collection {kind : CollectionKind} {element : Shape} (h : Fits defs s v)
    (hs : (defs.resolve s).collection? = some (kind, element)) :
    ∃ values, v = .list values ∧ (∀ v ∈ values, Fits defs element v) ∧
      (kind = .set → Distinct values) := by
  cases h with
  | collection hs' hv hd =>
    cases hs.symm.trans hs'
    exact ⟨_, rfl, hv, hd⟩
  | scalar hs' _ | map hs' _ | record hs' _ _ _ _ _ | bean hs' _ _ => rw [hs'] at hs; cases hs

theorem of_map {key : ScalarKind} {value : Shape} (h : Fits defs s v)
    (hs : defs.resolve s = .map key value) :
    ∃ entries, v = .map entries ∧ ∀ e ∈ entries, Fits defs value e.2 := by
  cases h with
  | map hs' hv =>
    cases hs.symm.trans hs'
    exact ⟨_, rfl, hv⟩
  | collection hs' _ _ => rw [hs] at hs'; cases hs'
  | scalar hs' _ | record hs' _ _ _ _ _ | bean hs' _ _ => rw [hs'] at hs; cases hs

end Fits

/-! ### Composites -/

/-- The composites that values can be checked against: a record has one constructor and no fields
besides, a bean has no constructor. Names do not repeat. -/
inductive Composite.Plain (type : Composite Shape) : Prop
  | record {ctor : Constructor Shape} (hk : type.kind = .record) (hc : type.constructors = [ctor])
      (hn : (ctor.params.map (·.name)).Nodup) (hf : type.fields = [])
  | bean (hk : type.kind = .bean) (hc : type.constructors = [])
      (hn : (type.fields.map (·.name)).Nodup)

variable {defs : Definitions} {s : Shape} {type : Composite Shape}

/-- A value of a composite has fitting values of its members, or null. -/
theorem Fits.of_composite {v : Value} (h : Fits defs s v) (hs : defs.resolve s = .composite type) :
    ∃ entries, v = .map entries ∧ (type.Plain → ∀ id shape, type.Member id shape →
      ∀ w, Keyed.find? id entries = some w → w.isNull = false → Fits defs shape w) := by
  cases h with
  | scalar hs' _ | map hs' _ => rw [hs'] at hs; cases hs
  | collection hs' _ _ => rw [hs] at hs'; cases hs'
  | record hs' hk hc hr ho hv =>
    cases hs.symm.trans hs'
    refine ⟨_, rfl, fun hp id shape hm w hw _ => ?_⟩
    cases hp with
    | bean hk' => rw [hk] at hk'; cases hk'
    | record _ hc' _ hf =>
      cases hm with
      | param hmem hpar =>
        rw [hc, List.mem_singleton] at hmem
        rw [hmem] at hpar
        exact hv _ hpar w (Keyed.mem_of_find?_eq_some hw)
      | field hmem => rw [hf] at hmem; cases hmem
  | bean hs' hk hv =>
    cases hs.symm.trans hs'
    refine ⟨_, rfl, fun hp id shape hm w hw hn => ?_⟩
    cases hp with
    | record hk' => rw [hk] at hk'; cases hk'
    | bean _ hc' _ =>
      cases hm with
      | param hmem _ => rw [hc'] at hmem; cases hmem
      | field hmem => exact hv _ hmem w hw hn

/-! ### Collections -/

/-- Values on top of different ones, without repeated ones, are different, and none is new. -/
theorem distinct_foldl {kept more : List Value} (hk : Distinct kept) :
    let all := more.foldl (fun kept v => if kept.contains v then kept else kept ++ [v]) kept
    Distinct all ∧ ∀ v ∈ all, v ∈ kept ∨ v ∈ more := by
  induction more generalizing kept with
  | nil => exact ⟨hk, fun v hv => .inl hv⟩
  | cons w rest ih =>
    simp only [List.foldl_cons]
    split
    · obtain ⟨hd, hm⟩ := ih hk
      exact ⟨hd, fun v hv => (hm v hv).imp_right (List.mem_cons_of_mem _)⟩
    · rename_i hw
      have happend : Distinct (kept ++ [w]) := by
        refine List.pairwise_append.mpr ⟨hk, List.pairwise_singleton _ _, fun a ha b hb => ?_⟩
        rw [List.mem_singleton.mp hb, ← Bool.not_eq_true]
        exact fun heq => hw (List.contains_iff_exists_mem_beq.mpr ⟨a, ha, heq⟩)
      obtain ⟨hd, hm⟩ := ih happend
      refine ⟨hd, fun v hv => ?_⟩
      rcases hm v hv with hv | hv
      · rcases List.mem_append.mp hv with hv | hv
        · exact .inl hv
        · exact .inr (List.mem_cons.mpr (.inl (List.mem_singleton.mp hv)))
      · exact .inr (List.mem_cons_of_mem _ hv)

namespace CollectionKind

variable {kind : CollectionKind} {element : Shape} {values : List Value}

/-- The collection of fitting elements fits. -/
theorem collect_fits (hs : (defs.resolve s).collection? = some (kind, element))
    (hv : ∀ v ∈ values, Fits defs element v) : Fits defs s (kind.collect values) := by
  cases kind with
  | array | list => exact .collection hs hv fun h => by cases h
  | set =>
    obtain ⟨hd, hm⟩ := @distinct_foldl [] values .nil
    refine .collection hs (fun v h => ?_) fun _ => hd
    rcases hm v h with h | h
    · cases h
    · exact hv v h

/-- A fitting collection on top of a fitting one fits. -/
theorem merge_fits {existing additional : Value}
    (hs : (defs.resolve s).collection? = some (kind, element)) (he : Fits defs s existing)
    (ha : Fits defs s additional) : Fits defs s (kind.merge existing additional) := by
  obtain ⟨old, rfl, hold, hdold⟩ := he.of_collection hs
  obtain ⟨new, rfl, hnew, hdnew⟩ := ha.of_collection hs
  cases kind with
  | array => exact ha
  | list =>
    refine .collection hs (fun v h => ?_) fun h => by cases h
    rcases List.mem_append.mp h with h | h
    · exact hnew v h
    · exact hold v (List.mem_of_mem_drop h)
  | set =>
    obtain ⟨hd, hm⟩ := @distinct_foldl _ new (hdold rfl)
    exact .collection hs (fun v h => (hm v h).elim (hold v) (hnew v)) fun _ => hd

end CollectionKind

end TypedConfig
