import TypedConfig.Proofs.Bind.Locality
import TypedConfig.Proofs.Bind.Relocation

/-!
# Respelled keys

How keys are spelled does not matter to what is bound, but for the keys of maps. Two runs whose sources
hold the same values under names of the same meaning, in the same order, stand at synonyms all the way
down.

* `Name.Synonyms`: two names mean the same. Whatever binding works out from names other than the keys
  of maps, it works out alike for synonyms.
* `Source.Respelled`: two sources answer alike under synonyms, and list synonyms. Entries do so
  (`Source.respelled_entries`).
* `Comparison.respelled`: the comparison of the two runs.
* `Binder.NoMaps`: no part of a shape is a map.
* `Binder.bindRoot_respelled`: binding from respelled entries at a respelled name.
-/

namespace TypedConfig

open BindM

/-! ## Names -/

/-- The items of elements of one meaning count at the same position. -/
theorem Element.position?_congr {a b : Element} (ha : a.WellFormed) (hb : b.WellFormed)
    (h : a.meaning = b.meaning) : a.position? = b.position? := by
  have hkind := numeric_of_meaning_eq ha hb h
  unfold position?
  by_cases hnum : a.kind = .numeric
  · have hnum' : b.kind = .numeric := by simpa [hnum] using hkind.symm
    have htext : a.text.toList = b.text.toList := by
      simpa [meaning, isIndex, hnum, hnum', Kind.isIndex] using h
    simp only [hnum, hnum', htext]
  · have hnum' : b.kind ≠ .numeric := by simpa [hnum] using hkind.symm
    simp only [hnum, hnum', false_and, if_false]

namespace Name

/-- The two names mean the same. -/
structure Synonyms (n n' : Name) : Prop where
  built : n.Built
  built' : n'.Built
  meaning : n.meaning = n'.meaning

namespace Synonyms

variable {k l m n n' x x' : Name}

theorem of_beq (hn : n.Built) (hn' : n'.Built) (h : (n == n') = true) : n.Synonyms n' :=
  ⟨hn, hn', (beq_iff hn.wellFormed hn'.wellFormed).mp h⟩

theorem length (h : n.Synonyms n') : n.length = n'.length := by
  simpa using congrArg List.length h.meaning

theorem append (h : n.Synonyms n') (hk : k.Built) : (n ++ k).Synonyms (n' ++ k) :=
  ⟨.append h.built hk, .append h.built' hk, by rw [meaning_append, meaning_append, h.meaning]⟩

theorem beq (h : k.Synonyms l) (h' : m.Synonyms n) : (k == m) = (l == n) := by
  rw [Bool.eq_iff_iff, beq_iff h.built.wellFormed h'.built.wellFormed,
    beq_iff h.built'.wellFormed h'.built'.wellFormed, h.meaning, h'.meaning]

theorem isAncestorOf (h : n.Synonyms n') (h' : x.Synonyms x') :
    n.isAncestorOf x = n'.isAncestorOf x' := by
  rw [Bool.eq_iff_iff, isAncestorOf_iff h.built.wellFormed h'.built.wellFormed,
    isAncestorOf_iff h.built'.wellFormed h'.built'.wellFormed, h.meaning, h'.meaning, h.length,
    h'.length]

/-- An item counts at the same position, in the same collection. -/
theorem positionIn? (h : n.Synonyms n') (h' : x.Synonyms x') :
    n.positionIn? x = n'.positionIn? x' := by
  have helement : (x.elements[n.length]?).map Element.meaning =
      (x'.elements[n.length]?).map Element.meaning := by
    rw [← List.getElem?_map, ← List.getElem?_map]
    exact congrArg (·[n.length]?) h'.meaning
  have hposition : (x.element? n.length).bind Element.position? =
      (x'.element? n.length).bind Element.position? := by
    unfold Name.element?
    cases he : x.elements[n.length]? with
    | none => cases he' : x'.elements[n.length]? <;> simp_all
    | some e =>
      cases he' : x'.elements[n.length]? with
      | none => simp_all
      | some e' =>
        rw [he, he'] at helement
        exact Element.position?_congr (h'.built.wellFormed e (List.mem_of_getElem? he))
          (h'.built'.wellFormed e' (List.mem_of_getElem? he')) (Option.some.inj helement)
  unfold Name.positionIn?
  rw [h.isAncestorOf h', hposition, h.length]

end Synonyms

end Name

/-! ## Sources -/

/-- The entries have the same values in the same order, under names of the same meaning. -/
def Entries.Respelled (held held' : Entries) : Prop :=
  List.Forall₂ (fun entry entry' => (entry.1 == entry'.1) = true ∧ entry.2.value = entry'.2.value)
    held held'

namespace Source

/-- The two sources answer alike under synonyms, and list synonyms in the same order. -/
structure Respelled (s s' : Source) : Prop where
  value : ∀ n n', n.Synonyms n' → (s.get? n).map Property.value = (s'.get? n').map Property.value
  presence : ∀ n n', n.Synonyms n' → s.presence n = s'.presence n'
  iterable : s.isIterable = s'.isIterable
  reach : s.names? = none → s.reach = s'.reach
  names : Option.Rel (List.Forall₂ Name.Synonyms) s.names? s'.names?

variable {held held' : TypedConfig.Entries} {n n' : Name}

theorem synonyms_names (h : held.Built) (h' : held'.Built) (hsame : held.Respelled held') :
    List.Forall₂ Name.Synonyms held.names held'.names := by
  have hnames := h.names
  have hnames' := h'.names
  unfold Entries.names at hnames hnames' ⊢
  clear h h'
  induction hsame with
  | nil => exact .nil
  | cons hentry _ ih =>
    obtain ⟨hn, hrest⟩ := List.forall_mem_cons.mp hnames
    obtain ⟨hn', hrest'⟩ := List.forall_mem_cons.mp hnames'
    exact .cons (.of_beq hn hn' hentry.1) (ih hrest hrest')

/-- A name and its synonym find the same value. -/
theorem find?_respelled (h : held.Built) (h' : held'.Built) (hsame : held.Respelled held')
    (hn : n.Synonyms n') :
    (Keyed.find? n held).map Entry.value = (Keyed.find? n' held').map Entry.value := by
  have hnames := synonyms_names h h' hsame
  unfold Entries.names at hnames
  clear h h'
  induction hsame with
  | nil => rfl
  | @cons entry entry' _ _ hentry _ ih =>
    obtain ⟨k, e⟩ := entry
    obtain ⟨k', e'⟩ := entry'
    cases hnames with
    | cons hk hrest =>
      rw [Keyed.find?, Keyed.find?, hk.beq hn]
      cases k' == n' with
      | true => exact congrArg some hentry.2
      | false => exact ih hrest

theorem any_isAncestorOf_respelled {names names' : List Name}
    (h : List.Forall₂ Name.Synonyms names names') (hn : n.Synonyms n') :
    names.any n.isAncestorOf = names'.any n'.isAncestorOf := by
  have hsame := map_eq_of_forall₂ h fun x x' hx => hn.isAncestorOf hx
  have hany := congrArg (List.any · id) hsame
  simpa only [List.any_map, Function.id_comp] using hany

theorem respelled_entries (label label' : String) (h : held.Built) (h' : held'.Built)
    (hsame : held.Respelled held') : (entries label held).Respelled (entries label' held') where
  value n n' hn := by
    have hfound := find?_respelled h h' hsame hn
    simp only [get?, Option.map_map]
    exact hfound
  presence n n' hn := by
    unfold Source.presence
    rw [any_isAncestorOf_respelled (synonyms_names h h' hsame) hn]
  iterable := rfl
  reach hnone := by cases hnone
  names := .some (synonyms_names h h' hsame)

end Source

/-! ## What the binders see -/

/-- The second run stands at synonyms. As below a prefix, it finds the same values and fails in the same
way, and it is cut short where the first is. -/
def Comparison.respelled : Comparison :=
  { Comparison.below .empty with
    names := Name.Synonyms
    journals := fun j k => j.endless = k.endless
    names_isEmpty := fun h => Name.isEmpty_congr h.meaning
    names_beq := fun h h' => h.beq h'
    names_append := fun h hk => h.append hk
    properties_at := fun _ _ => rfl
    errors_like := fun h => by cases h <;> rfl
    asked := fun _ h => h
    bound := fun _ h => h
    whole := fun _ h => h
    converted := fun _ h => h
    endless := fun _ h => by rw [h] }

namespace Binder

variable {b : Binder} {sources sources' : List Source} {n n' : Name} {scope : Scope}

section See

variable (h : List.Forall₂ Source.Respelled sources sources') (hn : n.Synonyms n')

include hn

theorem listItemsAlike_respelled {s s' : Source} (h : s.Respelled s') (i : Nat) :
    ListItemsAlike .respelled i s s' n n' where
  get := Agree.seq (.note fun h => h) fun _ => .ret (Source.rel_of_value_eq (h.value n n' hn))
  iterable := h.iterable
  reach := h.reach
  positions := by
    have hrel := h.names
    revert hrel
    generalize s.names? = names
    generalize s'.names? = names'
    intro hrel
    cases hrel with
    | none => rfl
    | some hnames =>
      have hsame := map_eq_of_forall₂ hnames fun x x' hx => hn.positionIn? hx
      have hfound := congrArg (List.filterMap id) hsame
      rw [List.filterMap_map, List.filterMap_map] at hfound
      exact congrArg some hfound
  refused _ := Agree.seq (.note fun h => h) fun _ => .raise rfl

include h

theorem agree_lookUp_respelled : Agree .respelled (Option.Rel Comparison.respelled.properties)
    ((b.withSources sources).lookUp scope n) ((b.withSources sources').lookUp scope n') :=
  Agree.seq (.note fun h => h) fun _ => .ret (rel_findSome? ((forall₂_visible h scope).imp
    fun _ _ he => Source.rel_of_value_eq (he.2.value n n' hn)))

theorem agree_nothingBelow_respelled : Agree .respelled Eq
    ((b.withSources sources).nothingBelow scope n) ((b.withSources sources').nothingBelow scope n') := by
  have hsame := map_eq_of_forall₂ (forall₂_visible (b := b) h scope)
    fun e e' he => he.2.presence n n' hn
  refine Agree.seq (.note fun h => h) fun _ => .ret ?_
  have hall := congrArg (List.all · (· == .absent)) hsame
  rw [List.all_map, List.all_map] at hall
  exact hall

theorem agree_somethingBelow_respelled : Agree .respelled Eq
    ((b.withSources sources).somethingBelow scope n)
    ((b.withSources sources').somethingBelow scope n') := by
  have hsame := map_eq_of_forall₂ (forall₂_visible (b := b) h scope)
    fun e e' he => he.2.presence n n' hn
  refine Agree.seq (.note fun h => h) fun _ => .ret ?_
  have hany := congrArg (List.any · (· == .present)) hsame
  rw [List.any_map, List.any_map] at hany
  exact hany

end See

/-! ## Shapes without maps -/

/-- No part of the shape is a map. -/
def NoMaps (b : Binder) (shape : Shape) : Prop :=
  ∀ key value, ¬b.definitions.Part shape (.map key value)

namespace NoMaps

variable {shape item : Shape}

theorem resolve (h : b.NoMaps shape) : b.NoMaps (b.resolve shape) :=
  fun key value hp => h key value (.resolved hp)

theorem ne_map (h : b.NoMaps shape) (key : ScalarKind) (value : Shape) : shape ≠ .map key value := by
  rintro rfl
  exact h key value (.self _)

theorem element {kind : CollectionKind} (h : b.NoMaps shape)
    (hs : shape.collection? = some (kind, item)) : b.NoMaps item := by
  have helement : shape.element? = some item := by
    cases shape <;> first | cases hs; rfl | cases hs
  exact fun key value hp => h key value (.element helement hp)

theorem member {type : Composite Shape} (h : b.NoMaps (.composite type)) {id : String}
    {shape : Shape} (hm : type.Member id shape) : b.NoMaps shape :=
  fun key value hp => h key value (.member hm hp)

end NoMaps

/-! ## All levels -/

variable {below below' : Option BindBelow} {target : Target}

/-- The two ways down agree at synonyms, for targets without maps. -/
def AgreeOnSynonyms (b : Binder) (f g : BindBelow) : Prop :=
  ∀ scope n n' target recursive, n.Synonyms n' → b.NoMaps target.shape →
    Agree .respelled Eq (f scope n target recursive) (g scope n' target recursive)

/-- A name without maps agrees with its synonym, if the levels below do. -/
theorem agree_bindShape_respelled (h : List.Forall₂ Source.Respelled sources sources')
    (hn : n.Synonyms n') (hshape : b.NoMaps target.shape)
    (hb : Descent .respelled (b.withSources sources) (b.withSources sources') b.AgreeOnSynonyms
      below below') (recursive : Bool) :
    Agree .respelled Eq ((b.withSources sources).bindShape below scope n target recursive)
      ((b.withSources sources').bindShape below' scope n' target recursive) := by
  have halike := alike_withSources b sources sources'
  refine agree_bindShape hn rfl (agree_lookUp_respelled h hn) (agree_nothingBelow_respelled h hn)
    fun _ _ hp => agree_bindForm halike hp (fun kind element hs => ?_) (fun key value hs => ?_)
      (fun type hs => ?_)
  · refine (agree_enter hn hb).bind fun f g hfg => agree_bindCollection halike hn rfl kind ?_ ?_
    · exact (forall₂_visible h _).imp fun e e' he =>
        ⟨he.1, he.1 ▸ listItemsAlike_respelled hn he.2 e.1⟩
    · exact fun i position recursive =>
        hfg _ _ _ _ recursive (Comparison.respelled.names_item hn _) (hshape.resolve.element hs)
  · exact absurd hs (hshape.resolve.ne_map key value)
  · have hmembers := hshape.resolve
    rw [show b.resolve target.shape = .composite type from hs] at hmembers
    have hmember : ∀ f g, b.AgreeOnSynonyms f g → ∀ inner,
        AgreeOnMembers .respelled f g inner n type := by
      intro f g hfg inner id shape child child' existing hm _ hc
      refine hfg inner child child' _ false hc ?_
      rw [Target.withExisting_shape]
      exact hmembers.member hm
    exact agree_bindComposite halike hn (hb.mono fun f g hfg => ⟨hmember f g hfg _, hmember f g hfg _⟩)
      (agree_somethingBelow_respelled h hn) recursive

/-- A name without maps agrees with its synonym, by induction on the levels below. -/
theorem agree_bindAt_respelled (h : List.Forall₂ Source.Respelled sources sources')
    (hh : b.handler = .default) (levels : Nat) (scope : Scope) (hn : n.Synonyms n') (target : Target)
    (hshape : b.NoMaps target.shape) (recursive create : Bool) :
    Agree .respelled Eq ((b.withSources sources).bindAt levels scope n target recursive create)
      ((b.withSources sources').bindAt levels scope n' target recursive create) := by
  have hvisit : ∀ v v', AgreeOnVisits .respelled (b.withSources sources).handler
      (b.withSources sources').handler v v' := by
    intro v v'
    show AgreeOnVisits .respelled b.handler b.handler v v'
    rw [hh]
    exact .default v v'
  have halike := alike_withSources b sources sources'
  induction levels generalizing scope n n' target recursive create with
  | zero =>
    exact agree_bindVisit halike hn (hvisit _ _)
      (agree_bindShape_respelled h hn hshape (.none rfl) recursive)
  | succ levels ih =>
    refine agree_bindVisit halike hn (hvisit _ _)
      (agree_bindShape_respelled h hn hshape (.some ?_) recursive)
    exact fun inner n n' target recursive hn hshape => ih inner hn target hshape recursive false

/-- Binding a target without maps from layers of entries comes to the same as binding it at a synonym
from layers with the same values under synonyms, in the same order: the same value, or a failure of the
same kind. It is cut short if the other is. -/
theorem bindRoot_respelled {layers layers' : List (String × Entries)} (hh : b.handler = .default)
    (hlayers : List.Forall₂ (fun l l' => l.2.Built ∧ l'.2.Built ∧ l.2.Respelled l'.2) layers layers')
    (hn : n.Built) (hn' : n'.Built) (heq : (n == n') = true) (hshape : b.NoMaps target.shape)
    (history history' : List Name) (create : Bool) :
    let run := (b.withSources (layers.map fun l => .entries l.1 l.2)).bindRoot history n target create
    let run' := (b.withSources (layers'.map fun l => .entries l.1 l.2)).bindRoot history' n' target
      create
    run.result.mapError Failure.kind = run'.result.mapError Failure.kind ∧
      run.journal.endless = run'.journal.endless := by
  have hsources : List.Forall₂ Source.Respelled
      (layers.map fun l : String × Entries => .entries l.1 l.2)
      (layers'.map fun l : String × Entries => .entries l.1 l.2) := by
    rw [List.forall₂_map_left_iff, List.forall₂_map_right_iff]
    exact hlayers.imp fun l l' hl => Source.respelled_entries l.1 l'.1 hl.1 hl.2.1 hl.2.2
  have hagree := agree_bindAt_respelled hsources hh b.options.maxDepth {} (.of_beq hn hn' heq) target
    hshape false create
  refine ⟨hagree.mapError_result rfl (fun _ => id) id, ?_⟩
  exact (hagree { bound := history } { bound := history' } rfl).journals fun _ => id

/-- A server with a number and a list. -/
def poolShape : Shape :=
  .composite ⟨"Pool", .bean, false, [], [⟨"max_threads", .scalar (.int 0 64), true⟩,
    ⟨"ports", .list (.scalar .string), true⟩], none⟩

theorem poolShape_noMaps (b : Binder) (hb : b.definitions = []) : b.NoMaps poolShape := by
  intro key value hpart
  rw [hb] at hpart
  have hparts := @Definitions.Part.of_closed []
    (fun s => s = poolShape ∨ s = .scalar (.int 0 64) ∨ s = .list (.scalar .string) ∨ s = .scalar .string)
    (fun s hs => ?_) (fun s e he hs => ?_) (fun key value hs => ?_) (fun type id s hm hs => ?_) _ _
    hpart (.inl rfl)
  · rcases hparts with h | h | h | h <;> cases h
  · rcases hs with rfl | rfl | rfl | rfl
    · exact .inl rfl
    · exact .inr (.inl rfl)
    · exact .inr (.inr (.inl rfl))
    · exact .inr (.inr (.inr rfl))
  · rcases hs with rfl | rfl | rfl | rfl <;> cases he
    exact .inr (.inr (.inr rfl))
  · rcases hs with hs | hs | hs | hs <;> cases hs
  · rcases hs with hs | hs | hs | hs <;> cases hs
    cases hm with
    | param hc hp => cases hc
    | field hf =>
      simp only [List.mem_cons, List.not_mem_nil, or_false] at hf
      rcases hf with rfl | rfl
      · exact .inr (.inl rfl)
      · exact .inr (.inr (.inl rfl))

/-- The same pool from two layers, with words cut by case, dashes and underscores. -/
theorem bindRoot_respelled_pool :
    let layers : List (String × Entries) := [("env", .ofList [("MY_APP.pool.ports[0]", .string "80")]),
      ("file", .ofList [("MyApp.Pool.max-threads", .string "8")])]
    let layers' : List (String × Entries) := [("a", .ofList [("my-app.POOL.ports[0]", .string "80")]),
      ("b", .ofList [("my_app.pool.MAX_THREADS", .string "8")])]
    let b : Binder := { sources := [] }
    let run (layers : List (String × Entries)) (root : String) :=
      (b.withSources (layers.map fun l => .entries l.1 l.2)).bindRoot [] (.adapt root '.')
        (.of poolShape) false
    (run layers "myApp.pool").result = .ok (some (.map [("max_threads", .int 8),
      ("ports", .list [.string "80"])])) ∧
    (run layers "myApp.pool").result.mapError Failure.kind =
      (run layers' "MY-APP.pool").result.mapError Failure.kind := by
  intro layers layers' b run
  have hlayers : List.Forall₂ (fun l l' : String × Entries => l.2.Built ∧ l'.2.Built ∧
      l.2.Respelled l'.2) layers layers' :=
    .cons ⟨.ofList _, .ofList _, .cons ⟨by decide +kernel, rfl⟩ .nil⟩
      (.cons ⟨.ofList _, .ofList _, .cons ⟨by decide +kernel, rfl⟩ .nil⟩ .nil)
  exact ⟨by rfl, (@bindRoot_respelled b _ _ (.of poolShape) layers layers' rfl hlayers
    (.adapt "myApp.pool" '.') (.adapt "MY-APP.pool" '.') (by decide +kernel)
    (poolShape_noMaps b rfl) [] [] false).1⟩

end Binder

end TypedConfig
