import TypedConfig.Proofs.Bind.Barren
import TypedConfig.Proofs.Shape.Parts

/-!
# What a bind leaves alone

Binding a bean onto an instance that is there changes only what the sources mention. Each level of
beans starts from the fields that are there, and a field that no source mentions binds nothing
(`Binder.bindAt_barren`), whatever its shape.

* `Binder.FieldPath`: a path of fields through nested beans; `Binder.pathName`: the name it is bound
  at.
* `Binder.Frames`: an instance keeps what another holds at unmentioned paths, and its undeclared keys.
  Setting a field keeps that (`Binder.Frames.insert`), and so does setting all (`Binder.bindFields_frames`).
* `Binder.bindRoot_frame`: a whole bind.
-/

namespace TypedConfig

/-! ## Paths -/

namespace Value

/-- The value at a path of keys. -/
def at? (v : Value) : List String → Option Value
  | [] => some v
  | key :: rest =>
    match v with
    | map entries => (Keyed.find? key entries).bind fun w => w.at? rest
    | _ => none

variable {entries : Fields} {key : String} {rest : List String} {v w : Value}

@[simp] theorem at?_map_cons :
    (map entries).at? (key :: rest) = (Keyed.find? key entries).bind fun w => w.at? rest := rfl

/-- Only a map has something at a path with keys. -/
theorem eq_map_of_at? (h : v.at? (key :: rest) = some w) : ∃ entries, v = map entries := by
  cases v with
  | map entries => exact ⟨entries, rfl⟩
  | _ => cases h

end Value

/-- A bean that is filled field by field. -/
structure Composite.FilledBean (type : Composite Shape) : Prop where
  kind : type.kind = .bean
  constructors : type.constructors = []
  names : (type.fields.map (·.name)).Nodup

/-- A bean without constructors is not bound through one. -/
theorem Composite.bindingConstructor_of_nil {type : Composite Shape}
    (h : type.constructors = []) (target : Target) (inConstructor : Bool) :
    type.bindingConstructor target inConstructor = .ok none := by
  unfold bindingConstructor
  simp [h]

namespace Binder

open BindM

variable {b : Binder} {scope : Scope} {name child : Name} {target : Target} {below : BindBelow}
  {shape : Shape} {type : Composite Shape} {e built : Fields} {v : Value}

/-- The path leads from a bean through fields that are beans to a field. -/
inductive FieldPath (b : Binder) : Shape → List String → Prop
  | last {shape : Shape} {type : Composite Shape} {field : Field Shape}
      (hs : b.resolve shape = .composite type) (hb : type.FilledBean) (hf : field ∈ type.fields) :
      FieldPath b shape [field.name]
  | through {shape : Shape} {type : Composite Shape} {field : Field Shape} {rest : List String}
      (hs : b.resolve shape = .composite type) (hb : type.FilledBean) (hf : field ∈ type.fields)
      (h : FieldPath b field.shape rest) : FieldPath b shape (field.name :: rest)

/-- The name that the field at a path is bound at. -/
def pathName (name : Name) : List String → Except InvalidName Name
  | [] => .ok name
  | id :: rest =>
    match name.extend? (Name.dashed id) with
    | .ok child => pathName child rest
    | .error e => .error e

/-- No source has anything at the name or below it. -/
def Unmentioned (b : Binder) (name : Name) : Prop := ∀ s ∈ b.sources, s.BarrenAt name

/-- The value keeps what the entries hold at paths that no source mentions, and under keys that are
no fields. -/
structure Frames (b : Binder) (shape : Shape) (name : Name) (e : Fields) (v : Value) : Prop where
  paths : ∀ path n w, b.FieldPath shape path → pathName name path = .ok n → b.Unmentioned n →
    (Value.map e).at? path = some w → v.at? path = some w
  undeclared : ∀ type, b.resolve shape = .composite type → type.FilledBean →
    ∀ key ∉ type.fields.map (·.name), v.at? [key] = (Value.map e).at? [key]

namespace Frames

theorem refl : b.Frames shape name e (.map e) where
  paths _ _ _ _ _ _ h := h
  undeclared _ _ _ _ _ := rfl

/-- There are no paths through other shapes than beans. -/
theorem of_not_bean (h : ∀ type, b.resolve shape = .composite type → ¬type.FilledBean) :
    b.Frames shape name e v where
  paths path n w hpath := by
    cases hpath with
    | last hs hb _ | through hs hb _ _ => exact absurd hb (h _ hs)
  undeclared type hs hb := absurd hb (h type hs)

/-- A field keeps the frame if it is mentioned and what it takes keeps the frame of what it held. -/
theorem insert (h : b.Frames shape name e (.map built)) (hs : b.resolve shape = .composite type)
    (hb : type.FilledBean) {field : Field Shape} (hf : field ∈ type.fields)
    (hchild : name.extend? (Name.dashed field.name) = .ok child) (hm : ¬b.Unmentioned child)
    (hv : ∀ m, Keyed.find? field.name e = some (.map m) → b.Frames field.shape child m v) :
    b.Frames shape name e (.map (Keyed.insert field.name v built)) := by
  have hother : ∀ key rest, (field.name == key) = false →
      (Value.map (Keyed.insert field.name v built)).at? (key :: rest) =
        (Value.map built).at? (key :: rest) := fun key rest hne => by
    rw [Value.at?_map_cons, Value.at?_map_cons, Keyed.find?_insert_ne v built hne]
  refine ⟨fun path n w hpath hname hn hw => ?_, fun type' hs' hb' key hkey => ?_⟩
  · have hold := h.paths path n w hpath hname hn hw
    cases hpath with
    | @last _ _ g hs' _ hg =>
      cases hs.symm.trans hs'
      cases hne : field.name == g.name with
      | false => rw [hother _ _ hne]; exact hold
      | true =>
        -- The field itself is mentioned, so the path does not end at it.
        rw [← beq_iff_eq.mp hne] at hname
        simp only [pathName, hchild] at hname
        cases hname
        exact absurd hn hm
    | @through _ _ g rest hs' _ hg hrest =>
      cases hs.symm.trans hs'
      cases hne : field.name == g.name with
      | false => rw [hother _ _ hne]; exact hold
      | true =>
        obtain rfl := List.inj_on_of_nodup_map hb.names hf hg (beq_iff_eq.mp hne)
        obtain ⟨held, hheld, hw⟩ := Option.bind_eq_some_iff.mp hw
        simp only [pathName, hchild] at hname
        have hinner : v.at? rest = some w := by
          cases hrest with
          | last hs hb hf | through hs hb hf hrest =>
            obtain ⟨m, rfl⟩ := Value.eq_map_of_at? hw
            exact (hv m hheld).paths _ n w (by constructor <;> assumption) hname hn hw
        rw [Value.at?_map_cons, Keyed.find?_insert_self]
        exact hinner
  · cases hs.symm.trans hs'
    have hne : (field.name == key) = false := by
      rw [beq_eq_false_iff_ne]
      rintro rfl
      exact hkey (List.mem_map_of_mem hf)
    rw [hother _ _ hne]
    exact h.undeclared type hs hb' key hkey

end Frames

/-! ## Binding beans -/

/-- What is bound one level down onto a map keeps its frame. -/
def FramesBelow (b : Binder) (below : BindBelow) : Prop :=
  ∀ scope name target recursive e, name.Built → target.existing? = some (.map e) →
    (below scope name target recursive).Yields fun r =>
      ∀ v, r = some v → b.Frames target.shape name e v

/-- What is bound on top of a member keeps the frame of the map that the member holds. -/
theorem FramesBelow.onHeld (hbelow : b.FramesBelow below) (scope : Scope) (hn : name.Built)
    (held : Option Value) :
    (below scope name ((Target.of shape).withExisting
      (held.filter fun v => !v.isNull)) false).Yields fun r =>
        ∀ v, r = some v → ∀ m, held = some (.map m) → b.Frames shape name m v := by
  by_cases hm : ∃ m, held = some (.map m)
  · obtain ⟨m, rfl⟩ := hm
    refine (hbelow scope name _ false m hn rfl).mono fun r hr v hv m' hm' => ?_
    cases hm'
    exact hr v hv
  · exact (Yields.any _).mono fun _ _ _ _ m hheld => absurd ⟨m, hheld⟩ hm

theorem barrenAt_of_unmentioned (hn : name.Built) (h : b.Unmentioned name) :
    b.BarrenAt scope name :=
  ⟨hn, fun _ he => h _ (mem_sources_of_mem_visible he)⟩

/-- By induction on the fields. Those that are left hold what they held at first. -/
theorem bindFields_frames (hbelow : b.FramesBelow below) (hbarren : b.SparesBarren below)
    (hn : name.Built) (hs : b.resolve shape = .composite type) (hb : type.FilledBean)
    (typeName : String) {fields : List (Field Shape)} (hfields : ∀ f ∈ fields, f ∈ type.fields)
    (hnodup : (fields.map (·.name)).Nodup)
    (hleft : ∀ f ∈ fields, Keyed.find? f.name built = Keyed.find? f.name e) (any : Bool)
    (h : b.Frames shape name e (.map built)) :
    (b.bindFields below scope name typeName fields built any).Yields fun r =>
      b.Frames shape name e (.map r.1) := by
  induction fields generalizing built any with
  | nil => exact .ret h
  | cons field rest ih =>
    obtain ⟨hfield, hrest⟩ := List.forall_mem_cons.mp hfields
    obtain ⟨hheld, hleft⟩ := List.forall_mem_cons.mp hleft
    obtain ⟨hnew, hnodup⟩ := List.nodup_cons.mp hnodup
    unfold bindFields
    refine (childName_yields name field.name).bind fun child hchild => ?_
    have hc : child.Built := hn.extend? hchild
    by_cases hm : b.Unmentioned child
    · refine (hbarren scope child _ false (barrenAt_of_unmentioned hc hm)).bind fun bound hbound => ?_
      subst hbound
      exact ih hrest hnodup hleft any h
    · refine (hbelow.onHeld scope hc _).bind fun bound hbound => ?_
      cases bound with
      | none => exact ih hrest hnodup hleft any h
      | some v =>
        have hinsert := h.insert hs hb hfield hchild hm fun m he => hbound v rfl m (hheld.trans he)
        have hleft' : ∀ f ∈ rest, Keyed.find? f.name (Keyed.insert field.name v built) =
            Keyed.find? f.name e := fun f hf => by
          have hne : field.name ≠ f.name := fun heq => hnew (List.mem_map.mpr ⟨f, hf, heq.symm⟩)
          rw [Keyed.find?_insert_of_ne hne]
          exact hleft f hf
        simp only
        split
        · split
          · exact ih hrest hnodup hleft true h
          · exact ih hrest hnodup hleft' true hinsert
        · exact .raise _

/-- A bean that is there is filled, and not built anew. -/
theorem bindOnInstance_frames (hbelow : b.FramesBelow below) (hbarren : b.SparesBarren below)
    (hn : name.Built) (hs : b.resolve shape = .composite type) (hb : type.FilledBean)
    (he : target.existing? = some (.map e)) :
    (b.bindOnInstance below scope name target type).Yields fun r =>
      ∀ v, r = some v → b.Frames shape name e v := by
  have hbase : type.baseInstance target = some e := by
    unfold Composite.baseInstance
    rw [he]
  unfold bindOnInstance
  rw [hbase]
  refine (bindFields_frames hbelow hbarren hn hs hb type.typeName (fun f hf => hf) hb.names
    (fun f _ => rfl) false .refl).bind fun (built, any) hbuilt => ?_
  cases any with
  | false => exact .ret fun v hv => by cases hv
  | true =>
    refine .ret ?_
    rintro _ ⟨⟩
    exact hbuilt

theorem assemble_frames (hbelow : b.FramesBelow below) (hbarren : b.SparesBarren below)
    (hn : name.Built) (hs : b.resolve shape = .composite type) (hb : type.FilledBean)
    (he : target.existing? = some (.map e)) :
    (b.assemble below scope name target type).Yields fun r =>
      ∀ v, r = some v → b.Frames shape name e v := by
  have hnothing : (b.bindConstructed below scope name target type).Yields (· = none) := by
    unfold bindConstructed
    rw [Composite.bindingConstructor_of_nil hb.constructors]
    exact .ret rfl
  have hfill := @bindOnInstance_frames _ scope _ _ _ _ _ _ hbelow hbarren hn hs hb he
  unfold assemble
  split
  · exact hnothing.mono fun r hr v hv => by rw [hr] at hv; cases hv
  · exact hfill
  · refine hnothing.bind fun built hbuilt => ?_
    subst hbuilt
    exact hfill

variable {level : Option BindBelow} {recursive : Bool}

theorem bindShape_frames
    (hlevel : ∀ below, level = some below → b.FramesBelow below ∧ b.SparesBarren below)
    (hn : name.Built) (he : target.existing? = some (.map e)) :
    (b.bindShape level scope name target recursive).Yields fun r =>
      ∀ v, r = some v → b.Frames target.shape name e v := by
  by_cases hbean : ∃ type, b.resolve target.shape = .composite type ∧ type.FilledBean
  · obtain ⟨type, hs, hb⟩ := hbean
    rw [bindShape_eq]
    refine .after _ fun property => .after _ fun passed => ?_
    split
    · exact .ret fun v hv => by cases hv
    · unfold bindForm
      rw [hs]
      refine Yields.bind (Q := fun r => ∀ v, r = some v → b.Frames target.shape name e v) ?_
        fun bound hbound => ?_
      · refine .after _ fun goesOn => ?_
        split
        · refine (enter_yields name).bind fun below hbelow => ?_
          obtain ⟨hframes, hbarren⟩ := hlevel below hbelow
          exact assemble_frames hframes hbarren hn hs hb he
        · exact .ret fun v hv => by cases hv
      · split
        · exact .ret hbound
        · exact .raise _
        · exact .ret hbound
  · have hno : ∀ type, b.resolve target.shape = .composite type → ¬type.FilledBean :=
      fun type hs hb => hbean ⟨type, hs, hb⟩
    exact (Yields.any _).mono fun r _ v _ => .of_not_bean hno

/-- By induction on the levels. -/
theorem bindAt_frames (hh : b.handler = .default) (levels : Nat) :
    b.FramesBelow (b.descend levels) := by
  induction levels with
  | zero =>
    exact fun scope name target recursive e hn he =>
      bindVisit_yields hh (bindShape_frames (fun below hb => by cases hb) hn he)
  | succ levels ih =>
    intro scope name target recursive e hn he
    refine bindVisit_yields hh (bindShape_frames (fun below hb => ?_) hn he)
    cases hb
    exact ⟨ih, bindAt_barren hh levels⟩

theorem pathName_built {path : List String} {n : Name} (hn : name.Built)
    (h : pathName name path = .ok n) : n.Built := by
  induction path generalizing name with
  | nil =>
    cases h
    exact hn
  | cons id rest ih =>
    simp only [pathName] at h
    split at h
    · rename_i child hchild
      exact ih (hn.extend? hchild) h
    · cases h

variable {layers : List (String × Entries)} {root : Name} {r : Value}

/-- Binding onto a map keeps what it holds at every path of fields through nested beans that no layer
mentions, at the name of the path or below it, and all keys that are no fields. -/
theorem bindRoot_frame (hs : b.sources = layers.map fun l => .entries l.1 l.2)
    (hl : ∀ l ∈ layers, l.2.Built) (hh : b.handler = .default) (history : List Name)
    (hroot : root.Built) (he : target.existing? = some (.map e))
    (h : (b.bindRoot history root target false).result = .ok (some r)) :
    (∀ path n v, b.FieldPath target.shape path → pathName root path = .ok n →
      (∀ l ∈ layers, ∀ k ∈ l.2.names, (k == n) = false ∧ n.isAncestorOf k = false) →
        (Value.map e).at? path = some v → r.at? path = some v) ∧
    ∀ type, b.resolve target.shape = .composite type → type.FilledBean →
      ∀ key ∉ type.fields.map (·.name), r.at? [key] = (Value.map e).at? [key] := by
  have hframes : b.Frames target.shape root e r :=
    bindRoot_yields (bindAt_frames hh b.options.maxDepth {} root target false e hroot he) h r rfl
  refine ⟨fun path n v hpath hname hn hv => ?_, hframes.undeclared⟩
  have hunmentioned : b.Unmentioned n := by
    intro s hmem
    rw [hs] at hmem
    obtain ⟨l, hlmem, rfl⟩ := List.mem_map.mp hmem
    exact Source.barrenAt_entries (hl l hlmem).wellFormed (pathName_built hroot hname) (hn l hlmem)
  exact hframes.paths path n v hpath hname hunmentioned hv

/-- A bean of a server, with a host of its own. -/
def serverBean : Composite Shape :=
  ⟨"Server", .bean, false, [], [⟨"host", .scalar .string, true⟩, ⟨"maxPort", .scalar .string, true⟩],
    some (.map [("host", .string "localhost")])⟩

/-- A bean of an app with a server inside. -/
def appBean : Composite Shape :=
  ⟨"App", .bean, false, [], [⟨"name", .scalar .string, true⟩,
    ⟨"server", .composite serverBean, true⟩], none⟩

theorem serverBean_filled : serverBean.FilledBean := ⟨rfl, rfl, by decide⟩

theorem appBean_filled : appBean.FilledBean := ⟨rfl, rfl, by decide⟩

/-- An app that is there, with a key that is no field. -/
def appHeld : Fields :=
  [("server", .map [("host", .string "example"), ("maxPort", .string "80")]),
    ("name", .string "first"), ("owner", .string "me")]

/-- Binding the port of the server keeps its host, the name of the app, and its owner. -/
theorem bindRoot_frame_app :
    let layers := [("test", Entries.ofList [("app.server.max-port", .string "81")])]
    let b : Binder := { sources := layers.map fun l => .entries l.1 l.2 }
    let target := (Target.of (.composite appBean)).withExisting (some (.map appHeld))
    ∃ r, (b.bindRoot [] (Name.adapt "app" '.') target false).result = .ok (some r) ∧
      r.at? ["server", "maxPort"] = some (.string "81") ∧
      r.at? ["server", "host"] = some (.string "example") ∧ r.at? ["name"] = some (.string "first") ∧
      r.at? ["owner"] = some (.string "me") := by
  intro layers b target
  have hrun : (b.bindRoot [] (Name.adapt "app" '.') target false).result = .ok (some (.map
      [("server", .map [("host", .string "example"), ("maxPort", .string "81")]),
        ("name", .string "first"), ("owner", .string "me")])) := by rfl
  obtain ⟨hpaths, hundeclared⟩ := @bindRoot_frame b target appHeld layers _ _ rfl
    (List.forall_mem_singleton.mpr (.ofList _)) rfl [] (.adapt "app" '.') rfl hrun
  refine ⟨_, hrun, rfl, ?_, ?_, ?_⟩
  · have hpath : b.FieldPath target.shape ["server", "host"] :=
      .through rfl appBean_filled (.tail _ (.head _)) (.last rfl serverBean_filled (.head _))
    exact hpaths _ (Name.adapt "app.server.host" '.') _ hpath rfl
      (List.forall_mem_singleton.mpr (by decide)) rfl
  · have hpath : b.FieldPath target.shape ["name"] := .last rfl appBean_filled (.head _)
    exact hpaths _ (Name.adapt "app.name" '.') _ hpath rfl
      (List.forall_mem_singleton.mpr (by decide)) rfl
  · exact hundeclared appBean rfl appBean_filled "owner" (by decide)

end Binder

end TypedConfig
