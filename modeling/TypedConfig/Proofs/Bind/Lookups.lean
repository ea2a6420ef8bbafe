import TypedConfig.Proofs.Bind.Invariants
import TypedConfig.Proofs.Bind.Pruning
import TypedConfig.Proofs.Bind.Shifted

/-!
# Names that are never looked up

Where all sources deny that there is anything below a name and none holds the name itself, binding
passes over it. Every way to a name below leads through that name, or starts from a name that a source
lists, and truthful sources list nothing there. So no source is ever asked for a name below.

* `Binder.AbsentAt`: no source has anything at a name, or claims to have something below it.
* `Journal.Invariant.spares`: the invariant that no name below has been looked up.
* `Binder.keeps_bindShape_absent`: one name. At the absent name itself nothing goes on.
* `Binder.lookups_spare_absent`: a whole bind.
-/

namespace TypedConfig

/-- The name of each parameter and field is one element, as far as it is a name. -/
def Composite.OneElementMembers (type : Composite Shape) : Prop :=
  ∀ id shape, type.Member id shape → ∀ k, Name.parse (Name.dashed id) = .ok k → k.length = 1

/-- No name below `n` has been looked up. -/
def Journal.Invariant.spares (n : Name) : Journal.Invariant where
  holds j := ∀ i m, (i, Query.get m) ∈ j.queries → n.isAncestorOf m = false
  allows query := ∀ m, query = .get m → n.isAncestorOf m = false
  tolerates _ := True
  allows_presence _ _ h := by cases h
  asked queries hq hj i m h := by
    rcases List.mem_append.mp h with h | h
    · exact hq _ h m rfl
    · exact hj i m h
  converted _ h := h
  bound _ h := h
  whole _ h := h
  endless _ h := h

namespace Binder

open BindM

/-- No source has anything at the name, however it is spelled, and each denies that there is anything
below it. -/
def AbsentAt (b : Binder) (n : Name) : Prop :=
  ∀ s ∈ b.sources, ∀ m : Name, m.Built → (m == n) = true →
    s.presence m = .absent ∧ s.get? m = none

variable {b : Binder} {n name : Name} {scope : Scope} {target : Target} {below : Option BindBelow}
  {recursive : Bool}

theorem allows_get (h : n.isAncestorOf name = false) :
    (Journal.Invariant.spares n).allows (.get name) := by
  intro m hm
  cases hm
  exact h

/-- The way down looks nothing up below `n`, from names that do not lie there. -/
def SparesBelow (b : Binder) (n : Name) (f : BindBelow) : Prop :=
  ∀ scope name target recursive, scope.depth ≠ 0 → name.Built → n.isAncestorOf name = false →
    target.shape.AllComposites b.definitions Composite.OneElementMembers →
    Keeps (.spares n) (f scope name target recursive)

/-- At the absent name no property is found, and it is passed over. -/
theorem passesOver_absent (ha : b.AbsentAt n) (hp : b.prunes = true) (hname : name.Built)
    (target : Target) (hd : scope.depth ≠ 0) (heq : (name == n) = true) :
    (b.directProperty scope name target).Yields (· = none) ∧
      (b.passesOver scope name none).Yields (· = true) := by
  have hsource : ∀ e ∈ b.visible scope, e.2.presence name = .absent ∧ e.2.get? name = none :=
    fun e he => ha e.2 (mem_sources_of_mem_visible he) name hname heq
  exact ⟨(directProperty_none fun _ e he => (hsource e he).2).yields,
    (passesOver_denied hp hd fun e he => (hsource e he).1).yields⟩

section Steps

variable (hb : ∀ s ∈ b.sources, s.ListsBuilt) (hs : ∀ s ∈ b.sources, s.Truthful) (hn : n.Built)
  (ha : b.AbsentAt n)

include hb hs hn ha

/-- No source lists a name below the absent one. -/
theorem not_listed_below {e : Nat × Source} (he : e ∈ b.visible scope) :
    ∀ m ∈ e.2.names?.getD [], m.Built ∧ n.isAncestorOf m = false := by
  have hmem := mem_sources_of_mem_visible he
  have hself : (n == n) = true := (Name.beq_iff hn.wellFormed hn.wellFormed).mpr rfl
  exact fun m hm => ⟨hb e.2 hmem m hm,
    (hs e.2 hmem).listed n hn (ha e.2 hmem n hn hself).1 m hm⟩

/-- From a name that is not the absent one or below it, nothing below that is reached. -/
theorem keptBelow_absent {f : BindBelow} (hf : b.SparesBelow n f) (hname : name.Built)
    (hout : n.covers name = false)
    (hshape : target.shape.AllComposites b.definitions Composite.OneElementMembers) :
    KeptBelow (.spares n) b f scope name target.shape := by
  have hnext : ∀ k : Name, k.Built → k.length = 1 → n.isAncestorOf (name ++ k) = false := by
    intro k hk hlength
    rw [Name.isAncestorOf_append_one hn.wellFormed hname.wellFormed hk.wellFormed hlength, hout]
  refine ⟨fun kind element hs' e he start => ?_, fun key value hs' e he m hm hanc => ?_,
    fun type hs' => ?_⟩
  · have hitem : ∀ position : Nat, Keeps (.spares n) (f (scope.deeper.restrictedTo e.1)
        (name.item (toString position)) (.of element) e.2.isIterable) := by
      intro position
      exact hf _ _ _ _ (Nat.succ_ne_zero _) (.item hname _)
        (hnext _ (.index (toString position)) rfl)
        (hshape.element (element?_of_collection? hs'))
    exact keeps_bindFrom (keeps_bindItems trivial hitem _ _ _) fun m hm _ =>
      allows_get (not_listed_below hb hs hn ha he m hm).2
  · obtain ⟨hbuilt, hfree⟩ := not_listed_below hb hs hn ha he m hm
    refine hf _ _ _ _ (Nat.succ_ne_zero _) (entryName_built hbuilt _ _) ?_
      (hshape.entry hs').resolve
    have hlt := ((Name.isAncestorOf_iff hname.wellFormed hbuilt.wellFormed).mp hanc).1
    obtain ⟨i, -, htake⟩ := entryName_eq_take hlt (b.resolve value)
    rw [htake, ← Bool.not_eq_true]
    intro hbelow
    rw [Name.isAncestorOf_of_take hn.wellFormed hbuilt.wellFormed hbelow] at hfree
    cases hfree
  · have hmember : ∀ inner : Scope, inner.depth ≠ 0 →
        KeptOnMembers (.spares n) f inner name type := by
      intro inner hd id shape child existing hm hchild
      obtain ⟨k, hk, rfl⟩ := Name.exists_of_extend? hchild
      have hlength := hshape.composite hs' id shape hm k hk
      refine hf _ _ _ _ hd (.append hname (.parse hk)) (hnext k (.parse hk) hlength) ?_
      rw [Target.withExisting_shape]
      exact hshape.member hs' hm
    exact ⟨hmember _ (Nat.succ_ne_zero _), hmember _ (Nat.succ_ne_zero _)⟩

/-- A name that does not lie below the absent one looks nothing up there. -/
theorem keeps_bindShape_absent (hp : b.prunes = true) (hname : name.Built)
    (hfree : n.isAncestorOf name = false) (hroot : scope.depth = 0 → n.covers name = false)
    (hshape : target.shape.AllComposites b.definitions Composite.OneElementMembers)
    (hf : ∀ f, below = some f → b.SparesBelow n f) :
    Keeps (.spares n) (b.bindShape below scope name target recursive) := by
  have hget := allows_get hfree
  rw [bindShape_eq]
  cases hout : n.covers name with
  | false =>
    refine (keeps_directProperty hget).seq fun property => ?_
    refine (keeps_passesOver property).seq fun passed => ?_
    split
    · exact .ret _
    · exact keeps_bindForm hget (.inl trivial) (fun f hf' =>
        keptBelow_absent hb hs hn ha (hf f hf') hname hout hshape) property
  | true =>
    have hd : scope.depth ≠ 0 := fun hd => by rw [hroot hd] at hout; cases hout
    have heq : (name == n) = true := by
      rw [Name.covers, hfree, Bool.or_false] at hout
      rw [Name.beq_comm, hout]
    obtain ⟨hnone, hpassed⟩ := passesOver_absent ha hp hname target hd heq
    refine (keeps_directProperty hget).bind hnone fun property hproperty => ?_
    subst hproperty
    refine (keeps_passesOver none).bind hpassed fun passed htrue => ?_
    rw [if_pos htrue]
    exact .ret _

/-- No name below the absent one is looked up, by induction on the levels. -/
theorem keeps_bindAt_absent (hh : b.handler.Builtin) (hp : b.prunes = true) (levels : Nat)
    (scope : Scope) (hname : name.Built) (hfree : n.isAncestorOf name = false)
    (hroot : scope.depth = 0 → n.covers name = false)
    (hshape : target.shape.AllComposites b.definitions Composite.OneElementMembers)
    (recursive create : Bool) :
    Keeps (.spares n) (b.bindAt levels scope name target recursive create) := by
  have hv : ∀ scope name target,
      KeptByHandler (.spares n) b.handler (b.visit scope name target) := fun scope name target =>
    hh.keeps fun _ => Handler.keeps_refuseLeftovers [] fun e he m hm _ =>
      allows_get (not_listed_below hb hs hn ha he m hm).2
  induction levels generalizing scope name target recursive create with
  | zero =>
    exact keeps_bindVisit (hv _ _ _) (keeps_bindShape_absent hb hs hn ha hp hname hfree hroot hshape
      fun f hf => by cases hf)
  | succ levels ih =>
    refine keeps_bindVisit (hv _ _ _) (keeps_bindShape_absent hb hs hn ha hp hname hfree hroot hshape
      fun f hf => ?_)
    cases hf
    exact fun inner child target recursive hd hchild hfree hshape =>
      ih inner hchild hfree (fun h => absurd h hd) hshape recursive false

end Steps

/-- Nothing below an absent name is ever looked up: if truthful sources have nothing at a name below the
root and deny that there is anything below it, no source is asked for a property below that name. -/
theorem lookups_spare_absent (hh : b.handler.Builtin) (hp : b.prunes = true)
    (hb : ∀ s ∈ b.sources, s.ListsBuilt) (hs : ∀ s ∈ b.sources, s.Truthful) {root : Name}
    (hroot : root.Built) (hn : n.Built) (hbelow : root.isAncestorOf n = true) (ha : b.AbsentAt n)
    (hshape : target.shape.AllComposites b.definitions Composite.OneElementMembers)
    (history : List Name) (create : Bool) (i : Nat) (m : Name)
    (hasked : (i, Query.get m) ∈ (b.bindRoot history root target create).journal.queries) :
    n.isAncestorOf m = false := by
  have houtside : n.covers root = false := by
    rw [← Bool.not_eq_true, Name.covers_iff hn.wellFormed hroot.wellFormed]
    intro hprefix
    have hlt := ((Name.isAncestorOf_iff hroot.wellFormed hn.wellFormed).mp hbelow).1
    have hle := hprefix.length_le
    rw [Name.length_meaning, Name.length_meaning] at hle
    omega
  have hfree : n.isAncestorOf root = false := by
    rw [Name.covers, Bool.or_eq_false_iff] at houtside
    exact houtside.2
  have hkept : Keeps (.spares n) (b.bindAt b.options.maxDepth {} root target false create) :=
    keeps_bindAt_absent hb hs hn ha hh hp _ {} hroot hfree (fun _ => houtside) hshape false create
  exact hkept { bound := history } (fun _ _ h => by cases h) i m hasked

/-- Entries have nothing at a name that covers none of theirs, and deny that there is anything below. -/
theorem absentAt_entries {label : String} {held : Entries} (hwf : held.WellFormed) (hn : n.Built)
    (hout : ∀ k ∈ held.names, n.covers k = false) (hs : b.sources = [.entries label held]) :
    b.AbsentAt n := by
  unfold AbsentAt
  rw [hs]
  refine List.forall_mem_singleton.mpr fun m hm heq => ?_
  have hmeaning := (Name.beq_iff hm.wellFormed hn.wellFormed).mp heq
  have hnone : ∀ k ∈ held.names, (m == k) = false ∧ m.isAncestorOf k = false := by
    intro k hk
    have hcovers : m.covers k = n.covers k := by
      rw [Bool.eq_iff_iff, Name.covers_iff hm.wellFormed (hwf k hk),
        Name.covers_iff hn.wellFormed (hwf k hk), hmeaning]
    rw [hout k hk, Name.covers, Bool.or_eq_false_iff] at hcovers
    exact hcovers
  constructor
  · have hany : held.names.any m.isAncestorOf = false :=
      List.any_eq_false.mpr fun k hk => by simp [(hnone k hk).2]
    simp only [Source.presence, hany]
    rfl
  · refine Source.get?_entries_eq_none fun k hk => ?_
    rw [Name.beq_comm]
    exact (hnone k hk).1

/-- The members of a type without constructors are its fields. -/
theorem oneElementMembers_of_fields {type : Composite Shape} (hc : type.constructors = [])
    (h : ∀ field ∈ type.fields, (Name.parse (Name.dashed field.name)).map Name.length = .ok 1) :
    type.OneElementMembers := by
  intro id shape hm k hk
  cases hm with
  | param hctor _ =>
    rw [hc] at hctor
    cases hctor
  | field hf =>
    have hlength := h _ hf
    rw [hk] at hlength
    exact Except.ok.inj hlength

/-- A cache with a size and the hosts that share it. -/
def cacheType : Composite Shape :=
  ⟨"Cache", .bean, false, [], [⟨"maxSize", .scalar .string, true⟩,
    ⟨"hosts", .list (.scalar .string), true⟩], none⟩

/-- An application with a name and a cache. -/
def cachedTarget : Target :=
  .of (.composite ⟨"App", .bean, false, [], [⟨"name", .scalar .string, true⟩,
    ⟨"cache", .composite cacheType, true⟩], none⟩)

/-- Nothing is held at the cache of an application, and neither its size nor its hosts are looked up. -/
theorem lookups_spare_absent_cache :
    let held := Entries.ofList [("app.name", .string "x"), ("cache.hosts[0]", .string "y")]
    let b : Binder := { sources := [.entries "test" held] }
    let run := b.bindRoot [] (Name.adapt "app" '.') cachedTarget false
    run.result = .ok (some (.map [("name", .string "x")])) ∧
      ∀ i m, (i, Query.get m) ∈ run.journal.queries →
        (Name.adapt "app.cache" '.').isAncestorOf m = false := by
  intro held b run
  have hbuilt : held.Built := .ofList _
  have habsent : b.AbsentAt (Name.adapt "app.cache" '.') :=
    absentAt_entries hbuilt.wellFormed (.adapt "app.cache" '.') (by decide +kernel) rfl
  have hcache : (Shape.composite cacheType).AllComposites b.definitions
      Composite.OneElementMembers := by
    refine .of_composite (oneElementMembers_of_fields rfl ?_) (List.forall_mem_nil _) ?_
    · exact List.forall_mem_cons.mpr ⟨rfl, List.forall_mem_singleton.mpr rfl⟩
    · exact List.forall_mem_cons.mpr
        ⟨.scalar _, List.forall_mem_singleton.mpr (.of_element rfl (.scalar _))⟩
  have hshape : cachedTarget.shape.AllComposites b.definitions Composite.OneElementMembers := by
    refine .of_composite (oneElementMembers_of_fields rfl ?_) (List.forall_mem_nil _) ?_
    · exact List.forall_mem_cons.mpr ⟨rfl, List.forall_mem_singleton.mpr rfl⟩
    · exact List.forall_mem_cons.mpr ⟨.scalar _, List.forall_mem_singleton.mpr hcache⟩
  refine ⟨by rfl, fun i m => ?_⟩
  exact lookups_spare_absent .default rfl
    (List.forall_mem_singleton.mpr (Source.listsBuilt_entries hbuilt))
    (List.forall_mem_singleton.mpr (Source.truthful_entries hbuilt.wellFormed)) (.adapt "app" '.')
    (.adapt "app.cache" '.') (by decide +kernel) habsent hshape [] false i m

end Binder

end TypedConfig
