import TypedConfig.Proofs.Bind.Congruence
import TypedConfig.Proofs.Bind.Run
import TypedConfig.Proofs.Shape.Fits

/-!
# Bound values fit their shapes

* `Shape.Sound`: a shape whose composites are plain and declare fitting defaults; `Target.Sound`:
  one with a fitting value there, if any.
* `Binder.FitsBelow`: what is bound one level down fits. Each way of binding keeps this one level
  up: `Binder.bindCollection_fits`, `Binder.bindMap_fits`, `Binder.bindComposite_fits`.
* `Binder.Assembled`: an instance that holds the arguments of some parameters, as a constructor
  builds it.
* `Binder.bindRoot_fits`: a whole bind gives a value that fits its target.
-/

namespace TypedConfig

/-! ## Sound shapes -/

/-- The composite is plain, and what it declares itself fits: the state of a fresh instance, and
the fallbacks that are not converted. -/
structure Composite.Sound (defs : Definitions) (type : Composite Shape) : Prop where
  plain : type.Plain
  fresh : ∀ v, type.defaultInstance = some v → Fits defs (.composite type) v
  fallbacks : ∀ ctor ∈ type.constructors, ∀ p ∈ ctor.params, ∀ v, p.fallback = .value v →
    (defs.resolve p.shape).isScalar = false → Fits defs p.shape v

/-- All composites in the shape are sound. -/
def Shape.Sound (defs : Definitions) (shape : Shape) : Prop :=
  ∀ type, defs.Part shape (.composite type) → type.Sound defs

/-- The shape is sound, and the value that is there fits it. -/
structure Target.Sound (defs : Definitions) (target : Target) : Prop where
  shape : target.shape.Sound defs
  existing : ∀ v, target.existing? = some v → Fits defs target.shape v

/-- The source holds no map as a value. -/
def Source.HoldsNoMap (s : Source) : Prop := ∀ n p, s.get? n = some p → p.value.asFields? = none

theorem Source.holdsNoMap_entries {label : String} {held : Entries}
    (h : ∀ e ∈ held, e.2.value.asFields? = none) : (Source.entries label held).HoldsNoMap := by
  intro n p hp
  obtain ⟨entry, hentry, rfl⟩ := Option.map_eq_some_iff.mp hp
  obtain ⟨k, hk, -⟩ := Keyed.mem_of_find? hentry
  exact h _ hk

variable {defs : Definitions}

namespace Shape.Sound

variable {shape : Shape}

theorem resolve (h : shape.Sound defs) : (defs.resolve shape).Sound defs :=
  AllComposites.resolve h

theorem element {kind : CollectionKind} {element : Shape} (h : shape.Sound defs)
    (hs : (defs.resolve shape).collection? = some (kind, element)) : element.Sound defs := by
  have he : (defs.resolve shape).element? = some element := by
    cases hr : defs.resolve shape <;> rw [hr] at hs <;> cases hs <;> rfl
  exact AllComposites.element h he

theorem entry {key : ScalarKind} {value : Shape} (h : shape.Sound defs)
    (hs : defs.resolve shape = .map key value) : value.Sound defs :=
  AllComposites.entry h hs

theorem composite {type : Composite Shape} (h : shape.Sound defs)
    (hs : defs.resolve shape = .composite type) : type.Sound defs :=
  AllComposites.composite h hs

theorem member {type : Composite Shape} {id : String} {part : Shape} (h : shape.Sound defs)
    (hs : defs.resolve shape = .composite type) (hm : type.Member id part) : part.Sound defs :=
  AllComposites.member h hs hm

end Shape.Sound

namespace Target.Sound

variable {shape : Shape}

/-- A target with nothing there. -/
theorem of (h : shape.Sound defs) : (Target.of shape).Sound defs where
  shape := h
  existing := fun v hv => by cases hv

/-- A target with a value there that fits unless it is null. -/
theorem withExisting {existing : Option Value} (h : shape.Sound defs)
    (hv : ∀ v, existing = some v → v.isNull = false → Fits defs shape v) :
    ((Target.of shape).withExisting existing).Sound defs := by
  cases existing with
  | none => exact of h
  | some held =>
    refine ⟨h, fun v hheld => ?_⟩
    obtain ⟨heq, hn⟩ := Option.filter_eq_some_iff.mp hheld
    exact hv v heq (by simpa using hn)

end Target.Sound

namespace Binder

open BindM

/-- The step binds nothing, or a value that fits the shape. -/
def Fitting (defs : Definitions) (shape : Shape) (x : BindM (Option Value)) : Prop :=
  x.Yields fun r => ∀ v ∈ r, Fits defs shape v

theorem Fitting.nothing {shape : Shape} : Fitting defs shape (pure none) :=
  .ret fun v hv => by cases hv

theorem Fitting.value {shape : Shape} {v : Value} (h : Fits defs shape v) :
    Fitting defs shape (pure (some v)) := by
  refine .ret ?_
  rintro _ ⟨⟩
  exact h

/-- What is bound one level down fits, for sound targets. -/
def FitsBelow (b : Binder) (below : BindBelow) : Prop :=
  ∀ scope name target recursive, target.Sound b.definitions →
    Fitting b.definitions target.shape (below scope name target recursive)

variable {b : Binder} {below : BindBelow} {scope : Scope} {name : Name} {target : Target}

/-! ## Scalars -/

theorem convertProperty_admits (hc : b.converter = .standard) (p : Property) (kind : ScalarKind) :
    (b.convertProperty p kind).Yields kind.Admits :=
  (convertProperty_yields p kind).mono fun w hw => by
    rw [hc] at hw
    exact ScalarKind.convert_admits hw

theorem convertPieces_admits (hc : b.converter = .standard) (p : Property) (kind : ScalarKind)
    (pieces : List Value) :
    (b.convertPieces p kind pieces).Yields fun values => ∀ v ∈ values, kind.Admits v := by
  induction pieces with
  | nil => exact .ret (List.forall_mem_nil _)
  | cons piece rest ih =>
    refine (convertProperty_admits hc _ _).bind fun v hv => ih.bind fun values hvalues => ?_
    exact .ret (List.forall_mem_cons.mpr ⟨hv, hvalues⟩)

/-- The elements of a single value fit, since only scalars are made from its pieces. -/
theorem splitValue_fits (hc : b.converter = .standard) (p : Property) (element : Shape) :
    (b.splitValue p element).Yields fun values => ∀ v ∈ values, Fits b.definitions element v := by
  unfold splitValue
  split
  · rename_i kind hs
    split
    · refine (convertPieces_admits hc p kind _).mono fun values hvalues v hv => ?_
      exact .scalar hs (hvalues v hv)
    · exact .after _ fun _ => .raise _
  · exact .after _ fun _ => .raise _

/-! ## Collections -/

variable {element : Shape}

theorem bindItems_fits {bindItem : Nat → BindM (Option Value)} {worthTrying : Nat → Bool}
    (h : ∀ position, Fitting b.definitions element (bindItem position)) (steps position : Nat) :
    (bindItems bindItem worthTrying steps position).Yields fun values =>
      ∀ v ∈ values, Fits b.definitions element v := by
  induction steps generalizing position with
  | zero => exact .after _ fun _ => .ret (List.forall_mem_nil _)
  | succ steps ih =>
    unfold bindItems
    split
    · refine (h position).bind fun bound hbound => ?_
      cases bound with
      | none => exact .ret (List.forall_mem_nil _)
      | some v =>
        refine (ih (position + 1)).bind fun values hvalues => ?_
        exact .ret (List.forall_mem_cons.mpr ⟨hbound v rfl, hvalues⟩)
    · exact .ret (List.forall_mem_nil _)

theorem bindFrom_fits (hbelow : b.FitsBelow below) (he : element.Sound b.definitions) (i : Nat)
    (source : Source) (start : Nat) :
    (b.bindFrom below scope name element i source start).Yields fun values =>
      ∀ v ∈ values, Fits b.definitions element v := by
  refine (bindItems_fits (fun position => hbelow _ _ _ _ (.of he)) _ _).bind fun values hv => ?_
  simp only
  split
  · exact .ret hv
  · exact .after _ fun _ => .raise _

theorem bindFromAll_fits (hbelow : b.FitsBelow below) (he : element.Sound b.definitions)
    (direct : Bool) (sources : List (Nat × Source)) (values : List Value)
    (single : Option Property) (hv : ∀ v ∈ values, Fits b.definitions element v) :
    (b.bindFromAll below scope name element direct sources values single).Yields fun r =>
      ∀ v ∈ r.1, Fits b.definitions element v := by
  induction sources generalizing values single with
  | nil => exact .ret hv
  | cons entry rest ih =>
    obtain ⟨i, source⟩ := entry
    rw [bindFromAll]
    split
    all_goals
      refine .after _ fun single => (bindFrom_fits hbelow he i source _).bind fun more hmore => ?_
      exact ih _ _ (List.forall_mem_append.mpr ⟨hv, hmore⟩)

variable {kind : CollectionKind}

theorem bindElements_fits (hc : b.converter = .standard) (hbelow : b.FitsBelow below)
    (hsound : target.shape.Sound b.definitions)
    (hs : (b.resolve target.shape).collection? = some (kind, element)) :
    (b.bindElements kind below scope name target element).Yields fun r =>
      ∀ bound ∈ r, Fits b.definitions target.shape bound.1 := by
  refine (bindFromAll_fits hbelow (hsound.element hs) _ _ [] none (List.forall_mem_nil _)).bind
    fun (values, single) hv => ?_
  simp only
  split
  · split
    · refine (splitValue_fits hc _ element).bind fun values hv => .ret ?_
      rintro _ ⟨⟩
      exact kind.collect_fits hs hv
    · exact .ret fun bound h => by cases h
  · refine .ret ?_
    rintro _ ⟨⟩
    exact kind.collect_fits hs hv

theorem bindCollection_fits (hc : b.converter = .standard) (hbelow : b.FitsBelow below)
    (ht : target.Sound b.definitions)
    (hs : (b.resolve target.shape).collection? = some (kind, element)) :
    Fitting b.definitions target.shape
      (b.bindCollection kind below scope name target element) := by
  refine (bindElements_fits hc hbelow ht.shape hs).bind fun bound hbound => ?_
  split
  · rename_i additional existing hexisting
    exact Fitting.value (kind.merge_fits hs (ht.existing existing hexisting) (hbound _ rfl))
  · exact Fitting.value (hbound _ rfl)
  · exact .after _ fun _ => Fitting.value (hbound _ rfl)
  · exact Fitting.nothing

/-! ## Maps -/

variable {root : Name} {key : ScalarKind} {value : Shape}

theorem bindEntries_fits (hbelow : b.FitsBelow below) (hv : value.Sound b.definitions)
    (names : List Name) (g : Gathered) (hg : ∀ e ∈ g.entries, Fits b.definitions value e.2) :
    (b.bindEntries below scope root key value names g).Yields fun g' =>
      ∀ e ∈ g'.entries, Fits b.definitions value e.2 := by
  induction names generalizing g with
  | nil => exact .ret hg
  | cons candidate rest ih =>
    rw [bindEntries]
    simp only
    split
    · exact ih g hg
    · refine .after _ fun converted => ?_
      split
      · exact ih _ hg
      · split
        · exact ih _ hg
        · refine (hbelow _ _ (.of value) _ (.of hv)).bind fun bound hbound => ih _ ?_
          refine List.forall_mem_append.mpr ⟨hg, fun e he => ?_⟩
          obtain ⟨v, hbv, rfl⟩ := Option.map_eq_some_iff.mp (Option.mem_toList.mp he)
          exact hbound v hbv

/-- A single value makes no map where it is none itself. -/
theorem bindMapValue_yields {p : Property} (hp : p.value.asFields? = none) :
    (b.bindMapValue p key value).Yields fun _ => False := by
  unfold bindMapValue
  split
  · rename_i hm
    rw [hm] at hp
    cases hp
  · exact .after _ fun _ => .raise _

theorem bindMapFrom_fits (hbelow : b.FitsBelow below) (hv : value.Sound b.definitions)
    (direct : Bool) {sources : List (Nat × Source)} (hs : ∀ e ∈ sources, e.2.HoldsNoMap)
    (g : Gathered) (hg : ∀ e ∈ g.entries, Fits b.definitions value e.2) :
    Fitting b.definitions (.map key value)
      (b.bindMapFrom below scope root key value direct sources g) := by
  induction sources generalizing g with
  | nil =>
    refine .ret fun v hr => ?_
    split at hr
    · cases hr
    · cases hr
      exact .map (Definitions.follow_of_not_isRef rfl _) hg
  | cons entry rest ih =>
    obtain ⟨i, source⟩ := entry
    obtain ⟨hsource, hrest⟩ := List.forall_mem_cons.mp hs
    have hlisted : Fitting b.definitions (.map key value) (do
        let g ← b.bindEntries below scope root key value
          ((source.names?.getD []).filter root.isAncestorOf) g
        b.bindMapFrom below scope root key value direct rest g) :=
      (bindEntries_fits hbelow hv _ g hg).bind fun g' hg' => ih hrest g' hg'
    rw [bindMapFrom]
    split
    · refine (getFrom_gives i source root).yields.bind fun found hfound => ?_
      cases found with
      | some p =>
        exact (bindMapValue_yields (hsource root p hfound.symm)).bind fun _ h => h.elim
      | none => exact hlisted
    · exact hlisted

theorem bindMap_fits (hsources : ∀ s ∈ b.sources, s.HoldsNoMap) (hbelow : b.FitsBelow below)
    (ht : target.Sound b.definitions) (hs : b.resolve target.shape = .map key value) :
    Fitting b.definitions target.shape (b.bindMap below scope name target key value) := by
  have hmap : b.definitions.resolve (.map key (b.resolve value)) = .map key (b.resolve value) :=
    Definitions.follow_of_not_isRef rfl _
  refine .after _ fun nested => ?_
  refine (bindMapFrom_fits hbelow (ht.shape.entry hs).resolve _
    (fun e he => hsources _ (mem_sources_of_mem_visible he)) {} (List.forall_mem_nil _)).bind
    fun bound hbound => ?_
  split
  · rename_i additional existing hexisting
    obtain ⟨new, rfl, hnew⟩ := (hbound additional rfl).of_map hmap
    obtain ⟨old, rfl, hold⟩ := (ht.existing existing hexisting).of_map hs
    refine Fitting.value (.map hs fun e he => ?_)
    rcases Keyed.mem_insertAll he with he | ⟨n, hn, heq⟩
    · exact hold e he
    · rw [heq]
      exact (hnew n hn).of_resolve
  · refine .ret fun v hv => ?_
    obtain ⟨entries, rfl, hentries⟩ := (hbound v hv).of_map hmap
    exact .map hs fun e he => (hentries e he).of_resolve

/-! ## Constructors -/

variable {type : Composite Shape}

/-- The instance holds arguments of the parameters: those that are required, no others, and each
with a value that fits. -/
structure Assembled (defs : Definitions) (params : List (Parameter Shape)) (entries : Fields) :
    Prop where
  required : ∀ p ∈ params, p.fallback = .required → p.name ∈ entries.map (·.1)
  known : ∀ e ∈ entries, e.1 ∈ params.map (·.name)
  fits : ∀ p ∈ params, ∀ v, (p.name, v) ∈ entries → Fits defs p.shape v

namespace Assembled

variable {params : List (Parameter Shape)} {p : Parameter Shape} {entries : Fields}

theorem nil : Assembled defs [] [] where
  required := List.forall_mem_nil _
  known := List.forall_mem_nil _
  fits := List.forall_mem_nil _

/-- Another parameter may go without an argument if none is required. -/
theorem skip (h : Assembled defs params entries) (hn : p.name ∉ params.map (·.name))
    (hp : p.fallback ≠ .required) : Assembled defs (params ++ [p]) entries where
  required := List.forall_mem_append.mpr
    ⟨h.required, List.forall_mem_singleton.mpr fun hreq => absurd hreq hp⟩
  known := fun e he => by
    rw [List.map_append]
    exact List.mem_append_left _ (h.known e he)
  fits := List.forall_mem_append.mpr
    ⟨h.fits, List.forall_mem_singleton.mpr fun v hv => absurd (h.known _ hv) hn⟩

/-- The argument of another parameter comes last. -/
theorem push {v : Value} (h : Assembled defs params entries) (hn : p.name ∉ params.map (·.name))
    (hv : Fits defs p.shape v) : Assembled defs (params ++ [p]) (Keyed.insert p.name v entries) := by
  have hnew : Keyed.find? p.name entries = none := by
    refine Option.not_isSome_iff_eq_none.mp fun hsome => hn ?_
    obtain ⟨k, hk, heq⟩ := Keyed.find?_isSome.mp hsome
    obtain ⟨e, he, rfl⟩ := List.mem_map.mp hk
    rw [← beq_iff_eq.mp heq]
    exact h.known e he
  rw [Keyed.insert_of_find?_eq_none v hnew]
  refine ⟨fun q hq hreq => ?_, fun e he => ?_, fun q hq w hw => ?_⟩
  · rw [List.map_append, List.mem_append]
    rcases List.mem_append.mp hq with hq | hq
    · exact .inl (h.required q hq hreq)
    · rw [List.mem_singleton.mp hq]
      exact .inr (.head _)
  · rw [List.map_append, List.mem_append]
    rcases List.mem_append.mp he with he | he
    · exact .inl (h.known e he)
    · rw [List.mem_singleton.mp he]
      exact .inr (.head _)
  · rcases List.mem_append.mp hq with hq | hq <;> rcases List.mem_append.mp hw with hw | hw
    · exact h.fits q hq w hw
    · obtain ⟨heq, -⟩ := Prod.mk.inj (List.mem_singleton.mp hw)
      exact absurd (heq ▸ List.mem_map_of_mem hq) hn
    · rw [List.mem_singleton.mp hq] at hw
      exact absurd (h.known _ hw) hn
    · rw [List.mem_singleton.mp hq] at hw ⊢
      cases List.mem_singleton.mp hw
      exact hv

end Assembled

/-- A member of a sound composite is bound to a value that fits it. -/
theorem FitsBelow.member (hbelow : b.FitsBelow below) {shape : Shape} {current : Option Value}
    (h : shape.Sound b.definitions)
    (hcurrent : ∀ v, current = some v → v.isNull = false → Fits b.definitions shape v)
    (child : Name) (recursive : Bool) :
    Fitting b.definitions shape
      (below scope child ((Target.of shape).withExisting current) recursive) := by
  have := hbelow scope child _ recursive (Target.Sound.withExisting h hcurrent)
  cases current <;> exact this

/-- A field of the value that is there fits the member of its name. -/
theorem existingField?_fits (ht : target.Sound b.definitions)
    (hs : b.resolve target.shape = .composite type) {id : String} {shape : Shape}
    (hm : type.Member id shape) {v : Value} (hv : target.existingField? id = some v) :
    Fits b.definitions shape v := by
  unfold Target.existingField? at hv
  obtain ⟨hv, hn⟩ := Option.filter_eq_some_iff.mp hv
  obtain ⟨fields, hfields, hv⟩ := Option.bind_eq_some_iff.mp hv
  obtain ⟨existing, hexisting, hfields⟩ := Option.bind_eq_some_iff.mp hfields
  obtain ⟨entries, rfl, hentries⟩ := (ht.existing existing hexisting).of_composite hs
  cases hfields
  exact hentries (ht.shape.composite hs).plain id shape hm v hv (by simpa using hn)

theorem bindParameters_fits (hbelow : b.FitsBelow below) (ht : target.Sound b.definitions)
    (hs : b.resolve target.shape = .composite type) {params : List (Parameter Shape)}
    (hparams : ∀ p ∈ params, type.Member p.name p.shape) :
    (bindParameters below scope name target params).Yields fun arguments =>
      arguments.map (·.param) = params ∧ ∀ arg ∈ arguments, ∀ v ∈ arg.bound.or arg.current,
        Fits b.definitions arg.param.shape v := by
  induction params with
  | nil => exact .ret ⟨rfl, List.forall_mem_nil _⟩
  | cons p rest ih =>
    obtain ⟨hp, hrest⟩ := List.forall_mem_cons.mp hparams
    have hcurrent : ∀ v, target.existingField? p.name = some v → Fits b.definitions p.shape v :=
      fun v hv => existingField?_fits ht hs hp hv
    rw [bindParameters]
    refine .after _ fun child => ?_
    refine (hbelow.member (ht.shape.member hs hp) (fun v hv _ => hcurrent v hv) child _).bind
      fun bound hbound => (ih hrest).bind fun arguments ⟨hmap, hfit⟩ => .ret ⟨?_, ?_⟩
    · rw [List.map_cons, hmap]
    · refine List.forall_mem_cons.mpr ⟨fun v hv => ?_, hfit⟩
      rcases Option.or_eq_some_iff.mp hv with hv | ⟨-, hv⟩
      · exact hbound v hv
      · exact hcurrent v hv

theorem convertDefault_fits (hc : b.converter = .standard) (name : Name) {v : Value}
    {shape : Shape} (h : (b.resolve shape).isScalar = false → Fits b.definitions shape v) :
    (b.convertDefault name v shape).Yields (Fits b.definitions shape) := by
  unfold convertDefault
  split
  · rename_i kind hs
    split
    · rename_i w hw
      rw [hc] at hw
      exact .ret (.scalar hs (ScalarKind.convert_admits hw))
    · exact .raise _
  · rename_i hs
    refine .ret (h ?_)
    cases hr : b.resolve shape with
    | scalar kind => exact absurd hr (hs kind)
    | _ => rfl

/-- By induction on the arguments: those of the parameters `done` are put in already. -/
theorem buildInstance_assembled (hc : b.converter = .standard) {typeName : String}
    {arguments : List Argument} {done : List (Parameter Shape)} {built : Fields}
    (hn : ((done ++ arguments.map (·.param)).map (·.name)).Nodup)
    (hvalues : ∀ arg ∈ arguments, ∀ v ∈ arg.bound.or arg.current,
      Fits b.definitions arg.param.shape v)
    (hfallbacks : ∀ arg ∈ arguments, ∀ v, arg.param.fallback = .value v →
      (b.resolve arg.param.shape).isScalar = false → Fits b.definitions arg.param.shape v)
    (h : Assembled b.definitions done built) :
    (b.buildInstance name typeName arguments built).Yields
      (Assembled b.definitions (done ++ arguments.map (·.param))) := by
  induction arguments generalizing done built with
  | nil =>
    rw [List.map_nil, List.append_nil]
    exact .ret h
  | cons arg rest ih =>
    obtain ⟨hvalue, hvalues⟩ := List.forall_mem_cons.mp hvalues
    obtain ⟨hfallback, hfallbacks⟩ := List.forall_mem_cons.mp hfallbacks
    have hnew : arg.param.name ∉ done.map (·.name) := by
      rw [List.map_append] at hn
      exact fun hmem => List.disjoint_of_nodup_append hn hmem (.head _)
    rw [List.map_cons, List.append_cons] at hn ⊢
    have ih := fun built h => @ih (done ++ [arg.param]) built hn hvalues hfallbacks h
    rw [buildInstance]
    split
    · rename_i v hv
      exact ih _ (h.push hnew (hvalue v hv))
    · exact .raise _
    · rename_i hoptional
      exact ih _ (h.skip hnew (by rw [hoptional]; exact fun h => by cases h))
    · rename_i v _ hv
      refine .after _ fun child => (convertDefault_fits hc child (hfallback v hv)).bind
        fun w hw => ih _ (h.push hnew hw)

theorem bindThrough_fits (hc : b.converter = .standard) (hbelow : b.FitsBelow below)
    (ht : target.Sound b.definitions) (hs : b.resolve target.shape = .composite type)
    {ctor : Constructor Shape} (hk : type.kind = .record) (hctor : type.constructors = [ctor])
    (hn : (ctor.params.map (·.name)).Nodup) (typeName : String) :
    Fitting b.definitions target.shape
      (b.bindThrough ctor below scope name target typeName) := by
  have hmem : ctor ∈ type.constructors := by rw [hctor]; exact .head _
  refine (bindParameters_fits hbelow ht hs fun p hp => .param hmem hp).bind
    fun arguments ⟨hmap, hvalues⟩ => ?_
  split
  · have hfallbacks : ∀ arg ∈ arguments, ∀ v, arg.param.fallback = .value v →
        (b.resolve arg.param.shape).isScalar = false →
          Fits b.definitions arg.param.shape v := by
      intro arg harg
      refine (ht.shape.composite hs).fallbacks ctor hmem arg.param ?_
      rw [← hmap]
      exact List.mem_map_of_mem harg
    have hnames : ((([] : List (Parameter Shape)) ++ arguments.map (·.param)).map
        (·.name)).Nodup := by
      rw [List.nil_append, hmap]
      exact hn
    refine (buildInstance_assembled hc hnames hvalues hfallbacks .nil).bind
      fun entries hentries => ?_
    rw [List.nil_append, hmap] at hentries
    exact Fitting.value (.record hs hk hctor hentries.required hentries.known hentries.fits)
  · exact Fitting.nothing

theorem bindConstructed_fits (hc : b.converter = .standard) (hbelow : b.FitsBelow below)
    (ht : target.Sound b.definitions) (hs : b.resolve target.shape = .composite type) :
    Fitting b.definitions target.shape (b.bindConstructed below scope name target type) := by
  unfold bindConstructed
  refine (liftExcept_yields _).bind fun choice hchoice => ?_
  cases choice with
  | none => exact Fitting.nothing
  | some ctor =>
    obtain ⟨hmem, -⟩ := Composite.bindingConstructor_mem hchoice
    cases (ht.shape.composite hs).plain with
    | @record only hk hctor hn _ =>
      rw [hctor, List.mem_singleton] at hmem
      subst hmem
      exact (bindThrough_fits hc hbelow ht hs hk hctor hn _).andFinally _
    | bean _ hctor _ =>
      rw [hctor] at hmem
      cases hmem

/-! ## Fields -/

/-- Each field that is held is null or fits. -/
def FieldsFit (defs : Definitions) (fields : List (Field Shape)) (entries : Fields) : Prop :=
  ∀ f ∈ fields, ∀ v, Keyed.find? f.name entries = some v → v.isNull = false → Fits defs f.shape v

theorem FieldsFit.insert {fields : List (Field Shape)} {entries : Fields} {field : Field Shape}
    {v : Value} (h : FieldsFit defs fields entries) (hn : (fields.map (·.name)).Nodup)
    (hfield : field ∈ fields) (hv : Fits defs field.shape v) :
    FieldsFit defs fields (Keyed.insert field.name v entries) := by
  intro f hf w hw hnull
  cases hname : field.name == f.name with
  | false =>
    rw [Keyed.find?_insert_ne v entries hname] at hw
    exact h f hf w hw hnull
  | true =>
    obtain rfl := List.inj_on_of_nodup_map hn hfield hf (beq_iff_eq.mp hname)
    rw [Keyed.find?_insert_self] at hw
    cases hw
    exact hv

theorem bindFields_fits (hbelow : b.FitsBelow below) {typeName : String}
    {fields rest : List (Field Shape)} (hn : (fields.map (·.name)).Nodup)
    (hsound : ∀ f ∈ fields, f.shape.Sound b.definitions) (hrest : ∀ f ∈ rest, f ∈ fields)
    {built : Fields} {any : Bool} (hbuilt : FieldsFit b.definitions fields built) :
    (b.bindFields below scope name typeName rest built any).Yields fun r =>
      FieldsFit b.definitions fields r.1 := by
  induction rest generalizing built any with
  | nil => exact .ret hbuilt
  | cons field rest ih =>
    obtain ⟨hfield, hrest⟩ := List.forall_mem_cons.mp hrest
    have ih := fun built any h => @ih hrest built any h
    rw [bindFields]
    refine .after _ fun child => ?_
    refine (hbelow.member (hsound field hfield) (fun v hv hnull => ?_) child _).bind
      fun bound hbound => ?_
    · exact hbuilt field hfield v (Option.filter_eq_some_iff.mp hv).1 hnull
    · cases bound with
      | none => exact ih _ _ hbuilt
      | some v =>
        simp only
        split
        · refine ih _ _ ?_
          split
          · exact hbuilt
          · exact hbuilt.insert hn hfield (hbound v rfl)
        · exact .raise _

/-- The fields of a value that fits a bean or a record. -/
theorem FieldsFit.of_fits {s : Shape} {entries : Fields} (h : Fits defs s (.map entries))
    (hs : defs.resolve s = .composite type) (hplain : type.Plain) :
    FieldsFit defs type.fields entries := by
  obtain ⟨_, heq, hfits⟩ := h.of_composite hs
  cases heq
  exact fun f hf => hfits hplain _ _ (.field hf)

/-- The instance that fields are set on has fitting ones. -/
theorem baseInstance_fits (ht : target.Sound b.definitions)
    (hs : b.resolve target.shape = .composite type) {base : Fields}
    (h : type.baseInstance target = some base) : FieldsFit b.definitions type.fields base := by
  have hsound := ht.shape.composite hs
  unfold Composite.baseInstance at h
  split at h
  · rename_i existing hexisting
    cases h
    exact .of_fits (ht.existing _ hexisting) hs hsound.plain
  · rename_i fresh hfresh _
    cases h
    exact .of_fits (hsound.fresh _ hfresh) (Definitions.follow_of_not_isRef rfl _) hsound.plain
  · split at h
    · cases h
      exact fun f _ v hv => by cases hv
    · cases h

theorem bindOnInstance_fits (hbelow : b.FitsBelow below) (ht : target.Sound b.definitions)
    (hs : b.resolve target.shape = .composite type) :
    Fitting b.definitions target.shape (b.bindOnInstance below scope name target type) := by
  unfold bindOnInstance
  split
  · rename_i base hbase
    cases (ht.shape.composite hs).plain with
    | record _ _ _ hf =>
      -- A record has no fields, so none is bound.
      rw [hf]
      exact Fitting.nothing
    | bean hk _ hn =>
      refine (bindFields_fits hbelow hn (fun f hf => ht.shape.member hs (.field hf))
        (fun f hf => hf) (baseInstance_fits ht hs hbase)).bind fun (built, any) hbuilt => ?_
      cases any with
      | true => exact Fitting.value (.bean hs hk hbuilt)
      | false => exact Fitting.nothing
  · exact Fitting.nothing

/-! ## Composites -/

theorem assemble_fits (hc : b.converter = .standard) (hbelow : b.FitsBelow below)
    (ht : target.Sound b.definitions) (hs : b.resolve target.shape = .composite type) :
    Fitting b.definitions target.shape (b.assemble below scope name target type) := by
  unfold assemble
  split
  · exact bindConstructed_fits hc hbelow ht hs
  · exact bindOnInstance_fits hbelow ht hs
  · refine (bindConstructed_fits hc hbelow ht hs).bind fun built hbuilt => ?_
    cases built with
    | some v => exact .ret hbuilt
    | none => exact bindOnInstance_fits hbelow ht hs

variable {level : Option BindBelow}

theorem bindComposite_fits (hc : b.converter = .standard)
    (hlevel : ∀ below, level = some below → b.FitsBelow below) (ht : target.Sound b.definitions)
    (hs : b.resolve target.shape = .composite type) (recursive : Bool) :
    Fitting b.definitions target.shape
      (b.bindComposite level scope name target type recursive) := by
  have hassemble : Fitting b.definitions target.shape (do
      b.assemble (← b.enter level name) (scope.within type.typeName) name target type) :=
    (enter_yields name).bind fun below h => assemble_fits hc (hlevel below h) ht hs
  unfold bindComposite
  simp only
  split
  · refine .after _ fun known => ?_
    split
    · exact hassemble
    · exact Fitting.nothing
  · exact hassemble

theorem bindCompositeOver_fits (hc : b.converter = .standard)
    (hlevel : ∀ below, level = some below → b.FitsBelow below) (ht : target.Sound b.definitions)
    (hs : b.resolve target.shape = .composite type) (recursive : Bool)
    (property : Option Property) :
    Fitting b.definitions target.shape
      (b.bindCompositeOver level scope name target type recursive property) := by
  refine (bindComposite_fits hc hlevel ht hs recursive).bind fun bound hbound => ?_
  split
  · exact .ret hbound
  · exact .raise _
  · exact .ret hbound

/-! ## One name -/

theorem bindShape_fits (hc : b.converter = .standard) (hsources : ∀ s ∈ b.sources, s.HoldsNoMap)
    (hlevel : ∀ below, level = some below → b.FitsBelow below) (ht : target.Sound b.definitions)
    (recursive : Bool) :
    Fitting b.definitions target.shape (b.bindShape level scope name target recursive) := by
  have hcollection : ∀ kind element,
      (b.resolve target.shape).collection? = some (kind, element) →
        Fitting b.definitions target.shape (do
          b.bindCollection kind (← b.enter level name) scope name target element) :=
    fun kind element hs => (enter_yields name).bind fun below h =>
      bindCollection_fits hc (hlevel below h) ht hs
  unfold bindShape
  refine .after _ fun property => .after _ fun pruned => ?_
  split
  · exact Fitting.nothing
  · split
    · rename_i kind hs
      split
      · exact (convertProperty_admits hc _ kind).bind fun v hv => Fitting.value (.scalar hs hv)
      · exact Fitting.nothing
    · rename_i element hs
      exact hcollection .array element (by rw [hs]; rfl)
    · rename_i element hs
      exact hcollection .list element (by rw [hs]; rfl)
    · rename_i element hs
      exact hcollection .set element (by rw [hs]; rfl)
    · rename_i key value hs
      exact (enter_yields name).bind fun below h => bindMap_fits hsources (hlevel below h) ht hs
    · rename_i type hs
      exact bindCompositeOver_fits hc hlevel ht hs recursive property
    · exact Fitting.nothing

/-! ## A whole bind -/

/-- By induction on the levels: each way of binding keeps what holds one level down. -/
theorem bindAt_fits (hc : b.converter = .standard) (hh : b.handler = .default)
    (hsources : ∀ s ∈ b.sources, s.HoldsNoMap) (levels : Nat) :
    b.FitsBelow (b.descend levels) := by
  induction levels with
  | zero =>
    exact fun scope name target recursive ht =>
      bindVisit_yields hh (bindShape_fits hc hsources (fun below h => by cases h) ht recursive)
  | succ levels ih =>
    intro scope name target recursive ht
    refine bindVisit_yields hh (bindShape_fits hc hsources (fun below h => ?_) ht recursive)
    cases h
    exact ih

variable {root : Name}

/-- What a bind gives fits its target, if the target is sound, conversion is the standard one and
no source holds maps as values. -/
theorem bindRoot_fits (hc : b.converter = .standard) (hh : b.handler = .default)
    (hsources : ∀ s ∈ b.sources, s.HoldsNoMap) (ht : target.Sound b.definitions)
    (history : List Name) {v : Value}
    (h : (b.bindRoot history root target false).result = .ok (some v)) :
    Fits b.definitions target.shape v := by
  have hfits := bindAt_fits hc hh hsources b.options.maxDepth {} root target false ht
    { bound := history }
  unfold bindRoot Report.ofRun at h
  rcases hrun : (b.bindAt b.options.maxDepth {} root target false false).runFrom
    { bound := history } with ⟨result, journal⟩
  rw [hrun] at h
  cases result with
  | ok r =>
    cases h
    exact hfits _ _ hrun v rfl
  | error e => cases h

/-- A record with a line that is required and notes that are not. -/
def markShape : Shape :=
  .composite ⟨"Mark", .record, false, [⟨[⟨"line", .scalar (.int 1 99), .required⟩,
    ⟨"notes", .list (.scalar .string), .value (.list [])⟩], false⟩], [], none⟩

/-- The state of a fresh step. -/
def freshStep : Value := .map [("tags", .list [.string "new"])]

/-- A bean with a set of tags, a mark, and a step after it. -/
def stepShape : Shape :=
  .composite ⟨"Step", .bean, false, [], [⟨"tags", .set (.scalar .string), true⟩,
    ⟨"mark", markShape, true⟩, ⟨"next", .ref (.declared "Step"), true⟩], some freshStep⟩

/-- A step with tags item by item, one of which is there already, and a next one with all tags in
one text. -/
def stepEntries : Entries :=
  .ofList [("step.tags[0]", .string "new"), ("step.tags[1]", .string "old"),
    ("step.mark.line", .string "7"), ("step.next.tags", .string "a,b,a")]

/-- A binder over the entries, with the shape of steps declared. -/
def stepBinder : Binder where
  sources := [.entries "steps" stepEntries]
  definitions := [(.declared "Step", stepShape)]

theorem freshStep_fits {s : Shape} (hs : stepBinder.definitions.resolve s = stepShape) :
    Fits stepBinder.definitions s freshStep := by
  refine .bean hs rfl fun f hf v hv _ => ?_
  simp only [List.mem_cons, List.not_mem_nil, or_false] at hf
  rcases hf with rfl | rfl | rfl <;> cases hv
  refine .collection rfl (List.forall_mem_singleton.mpr (.scalar rfl (.inr trivial))) fun _ => ?_
  exact List.pairwise_singleton _ _

/-- The record of marks is sound. -/
theorem markShape_sound {type : Composite Shape} (h : .composite type = markShape) :
    type.Sound stepBinder.definitions := by
  cases h
  refine ⟨.record rfl rfl (by decide) rfl, fun v hv => ?_, fun ctor hctor p hp v hv _ => ?_⟩
  · cases hv
  · rw [List.mem_singleton.mp hctor] at hp
    simp only [List.mem_cons, List.not_mem_nil, or_false] at hp
    rcases hp with rfl | rfl <;> cases hv
    exact .collection rfl (List.forall_mem_nil _) fun h => by cases h

/-- A bean of steps is sound. -/
theorem stepShape_sound {type : Composite Shape} (h : .composite type = stepShape) :
    type.Sound stepBinder.definitions := by
  cases h
  refine ⟨.bean rfl rfl (by decide), fun v hv => ?_, List.forall_mem_nil _⟩
  cases hv
  exact freshStep_fits rfl

/-- The parts of a step are steps, marks, collections of texts, and scalars. -/
theorem stepTarget_sound : (Shape.ref (.declared "Step")).Sound stepBinder.definitions := by
  intro type hpart
  have hparts := @Definitions.Part.of_closed stepBinder.definitions
    (fun s => s = .ref (.declared "Step") ∨ s = stepShape ∨ s = markShape ∨
      s = .set (.scalar .string) ∨ s = .list (.scalar .string) ∨ ∃ kind, s = .scalar kind)
    (fun s hs => ?_) (fun s e he hs => ?_) (fun key value hs => ?_) (fun type id s hm hs => ?_)
    _ _ hpart (.inl rfl)
  · rcases hparts with h | h | h | h | h | ⟨kind, h⟩
    · cases h
    · exact stepShape_sound h
    · exact markShape_sound h
    all_goals cases h
  · rcases hs with rfl | hs
    · exact .inr (.inl rfl)
    · have href : s.isRef = false := by rcases hs with rfl | rfl | rfl | rfl | ⟨kind, rfl⟩ <;> rfl
      rw [Definitions.resolve, Definitions.follow_of_not_isRef href]
      exact .inr hs
  · rcases hs with rfl | rfl | rfl | rfl | rfl | ⟨kind, rfl⟩ <;> cases he
    all_goals exact .inr (.inr (.inr (.inr (.inr ⟨_, rfl⟩))))
  · rcases hs with h | h | h | h | h | ⟨kind, h⟩ <;> cases h
  · rcases hs with h | h | h | h | h | ⟨kind, h⟩ <;> cases h
    · cases hm with
      | param hc hp => cases hc
      | field hf =>
        simp only [List.mem_cons, List.not_mem_nil, or_false] at hf
        rcases hf with rfl | rfl | rfl
        · exact .inr (.inr (.inr (.inl rfl)))
        · exact .inr (.inr (.inl rfl))
        · exact .inl rfl
    · cases hm with
      | field hf => cases hf
      | param hc hp =>
        rw [List.mem_singleton.mp hc] at hp
        simp only [List.mem_cons, List.not_mem_nil, or_false] at hp
        rcases hp with rfl | rfl
        · exact .inr (.inr (.inr (.inr (.inr ⟨_, rfl⟩))))
        · exact .inr (.inr (.inr (.inr (.inl rfl))))

/-- New tags join those that are there, notes fall back, and repeated tags of the next step are
dropped. -/
theorem bindRoot_fits_steps :
    let target : Target := { shape := .ref (.declared "Step"), held := some freshStep }
    let bound : Value := .map [("tags", .list [.string "new", .string "old"]),
      ("mark", .map [("line", .int 7), ("notes", .list [])]),
      ("next", .map [("tags", .list [.string "a", .string "b"])])]
    (stepBinder.bindRoot [] (Name.adapt "step" '.') target false).result = .ok (some bound) ∧
      Fits stepBinder.definitions target.shape bound := by
  intro target bound
  have hresult : (stepBinder.bindRoot [] (Name.adapt "step" '.') target false).result =
      .ok (some bound) := by rfl
  refine ⟨hresult, bindRoot_fits rfl rfl (fun s hs n p hp => ?_)
    ⟨stepTarget_sound, fun v hv => ?_⟩ [] hresult⟩
  · rw [List.mem_singleton.mp hs] at hp
    refine Source.holdsNoMap_entries (fun e he => ?_) n p hp
    have hall : stepEntries.all (fun e => e.2.value.asFields?.isNone) = true := by rfl
    exact Option.isNone_iff_eq_none.mp (List.all_eq_true.mp hall e he)
  · cases hv
    exact freshStep_fits rfl

end Binder

end TypedConfig
