import TypedConfig.Proofs.Bind.Builtin
import TypedConfig.Proofs.Bind.Leftovers
import TypedConfig.Proofs.Bind.Shifted
import TypedConfig.Proofs.Name.Trimmed
import TypedConfig.Proofs.Source.Barren

/-!
# Relocated sources

Binding at a name from sources that are relocated to a prefix comes to the same as binding below the
prefix from the sources themselves: the same value, or a failure of the same kind. The two runs stand
at shifted names (`Name.Shifted`) all the way down.

* `Source.RespectsMeaning`: names that mean the same find the same. Entries do so
  (`Source.respectsMeaning_entries`).
* `Comparison.below`: the comparison of the two runs. The names that they bind are shifted.
* `Binder.seeAlike_relocated`: the two binders see the same at shifted names.
* `Handler.agree_refuseLeftovers`: the check for leftovers decides alike. Of the handlers that come with
  binding it is the only one that looks at names (`Handler.isLeftover_shifted`).
* `Binder.relocated_agrees`: the two runs of a whole bind, at shifted names.
* `Binder.bindRoot_relocated`: binding from the sources that `Source.relocate` gives for a text.
-/

namespace TypedConfig

open BindM

/-! ## Sources -/

/-- Names that mean the same find the same. -/
structure Source.RespectsMeaning (s : Source) : Prop where
  value : ∀ m n, m.Built → n.Built → (m == n) = true →
    (s.get? m).map Property.value = (s.get? n).map Property.value
  presence : ∀ m n, m.Built → n.Built → (m == n) = true → s.presence m = s.presence n

namespace Source

variable {s : Source} {p n n' : Name}

theorem rel_of_value_eq {q q' : Option Property}
    (h : q.map Property.value = q'.map Property.value) :
    Option.Rel (fun q q' => q.value = q'.value) q q' := by
  cases q with
  | none =>
    cases q' with
    | none => exact .none
    | some q' => cases h
  | some q =>
    cases q' with
    | none => cases h
    | some q' => exact .some (Option.some.inj h)

/-- A relocated source finds at a name what the source finds at the shifted name. -/
theorem RespectsMeaning.get?_relocated (hs : s.RespectsMeaning) (hp : p.Built)
    (h : Name.Shifted p n n') :
    Option.Rel (fun q q' => q.value = q'.value) ((relocated s p).get? n) (s.get? n') := by
  have hbeq : (p ++ n == n') = true :=
    (Name.beq_iff (hp.wellFormed.append h.built.wellFormed) h.built'.wellFormed).mpr
      (by rw [Name.meaning_append, h.meaning])
  refine rel_of_value_eq ?_
  rw [← hs.value _ _ (.append hp h.built) h.built' hbeq]
  simp only [get?, Option.map_map]
  rfl

theorem names?_relocated : (relocated s p).names?.getD [] =
    ((s.names?.getD []).filter p.isAncestorOf).map (·.drop p.length) := by
  simp only [names?]
  cases s.names? <;> rfl

/-- It has below a name what the source has below the shifted name. -/
theorem RespectsMeaning.presence_relocated (hs : s.RespectsMeaning) (hp : p.Built)
    (h : Name.Shifted p n n') : (relocated s p).presence n = s.presence n' := by
  have hbeq : (p ++ n == n') = true :=
    (Name.beq_iff (hp.wellFormed.append h.built.wellFormed) h.built'.wellFormed).mpr
      (by rw [Name.meaning_append, h.meaning])
  exact hs.presence _ _ (.append hp h.built) h.built' hbeq

/-- Entries find the same under names that mean the same. -/
theorem respectsMeaning_entries {label : String} {held : TypedConfig.Entries}
    (hwf : held.WellFormed) : (entries label held).RespectsMeaning where
  value m n hm hn heq := by
    have hmeaning := (Name.beq_iff hm.wellFormed hn.wellFormed).mp heq
    have hfind : Keyed.find? m held = Keyed.find? n held := by
      refine Keyed.find?_congr fun k hk => ?_
      rw [Bool.eq_iff_iff, Name.beq_iff (hwf k hk) hm.wellFormed,
        Name.beq_iff (hwf k hk) hn.wellFormed, hmeaning]
    simp only [get?, hfind, Option.map_map]
    rfl
  presence m n hm hn heq := by
    have hmeaning := (Name.beq_iff hm.wellFormed hn.wellFormed).mp heq
    have hlength : m.length = n.length := by simpa using congrArg List.length hmeaning
    have hany : held.names.any m.isAncestorOf = held.names.any n.isAncestorOf := by
      rw [Bool.eq_iff_iff, List.any_eq_true, List.any_eq_true]
      refine exists_congr fun k => and_congr_right fun hk => ?_
      rw [Name.isAncestorOf_iff hm.wellFormed (hwf k hk),
        Name.isAncestorOf_iff hn.wellFormed (hwf k hk), hmeaning, hlength]
    simp only [presence, hany]

/-- A text that is read as a name, not the root, relocates to that name. -/
theorem relocate_of_parse {text : String} (h : Name.parse text = .ok p) (hne : p.isEmpty = false)
    (s : Source) : s.relocate text = .ok (relocated s p) := by
  have htext : text.isEmpty = false := by
    rw [← Bool.not_eq_true]
    intro hempty
    unfold Name.parse at h
    rw [if_pos hempty] at h
    cases h
    cases hne
  unfold relocate
  simp only [Name.trim_of_parse h, htext, h]
  rfl

end Source

/-! ## Failures -/

/-- What a failure is about. -/
inductive FailureKind where
  | invalidName
  | conversion
  | missingParameter
  | ambiguousConstructor
  | invalidConstructor
  | depthExceeded
  | unboundProperties
  | readOnlyProperty
  | uncreatable
  | typeMismatch
  deriving DecidableEq, Repr

/-- What the failure is about. -/
def BindError.kind : BindError → FailureKind
  | conversion _ _ _ => .conversion
  | missingParameter _ _ _ => .missingParameter
  | ambiguousConstructor _ => .ambiguousConstructor
  | invalidConstructor _ => .invalidConstructor
  | depthExceeded _ _ => .depthExceeded
  | unboundProperties _ => .unboundProperties
  | readOnlyProperty _ _ _ => .readOnlyProperty
  | uncreatable _ => .uncreatable
  | typeMismatch => .typeMismatch
  | invalidName _ => .invalidName

/-- What the failure is about, wherever it happened. -/
def Failure.kind : Failure → FailureKind
  | invalidName _ => .invalidName
  | bind _ e => e.kind

/-- The second run stands at shifted names. It finds the same values and fails in the same way. -/
def Comparison.below (p : Name) : Comparison where
  names := Name.Shifted p
  properties q q' := q.value = q'.value
  errors e e' := e.kind = e'.kind
  journals j k := List.Forall₂ (Name.Shifted p) j.bound k.bound
  excuses _ := False
  names_isEmpty h := by rw [h.nonempty, h.nonempty']
  names_beq h h' := h.beq h'
  names_append h hk := h.append hk
  properties_refl _ := rfl
  properties_at _ _ := rfl
  properties_value h := h
  properties_withValue _ _ := rfl
  errors_like h := by cases h <;> rfl
  asked _ h := h
  bound hn h := .cons hn h
  whole _ h := h
  converted _ h := h
  endless _ h := h

namespace Binder

/-- The binder with its sources relocated. -/
def relocated (b : Binder) (p : Name) : Binder :=
  { b with sources := b.sources.map (.relocated · p) }

variable {b : Binder} {p n n' : Name} {scope : Scope}

theorem alike_relocated (b : Binder) (p : Name) : (b.relocated p).Alike b := ⟨rfl, rfl, rfl⟩

/-- The same sources are in sight, relocated. -/
theorem visible_relocated : (b.relocated p).visible scope =
    (b.visible scope).map fun (i, s) => (i, .relocated s p) := by
  have hall : ((b.relocated p).sources.mapIdx fun i s => (i, s)) =
      (b.sources.mapIdx fun i s => (i, s)).map fun (i, s) => (i, Source.relocated s p) := by
    refine List.ext_getElem? fun i => ?_
    simp [relocated, Function.comp_def]
  unfold visible
  rw [hall]
  split
  · rw [List.filter_map]
    rfl
  · rfl

/-! ## What the binders see -/

theorem rel_findSome? {α α' β : Type} {R : β → β → Prop} {f : α → Option β} {g : α' → Option β}
    {l : List α} {l' : List α'} (h : List.Forall₂ (fun a a' => Option.Rel R (f a) (g a')) l l') :
    Option.Rel R (l.findSome? f) (l'.findSome? g) := by
  induction h with
  | nil => exact .none
  | @cons a a' _ _ ha _ ih =>
    rw [List.findSome?_cons, List.findSome?_cons]
    revert ha
    cases f a <;> cases g a' <;> intro ha <;> cases ha
    · exact ih
    · rename_i hr
      exact .some hr

/-- The items that are listed below a prefix, and those of names without it. -/
theorem filterMap_positionIn?_shifted (hp : p.Built) (h : Name.Shifted p n n') {names : List Name}
    (hb : ∀ x ∈ names, x.Built) :
    (names.filter p.isAncestorOf).filterMap (n.positionIn? ∘ (·.drop p.length)) =
      names.filterMap n'.positionIn? := by
  induction names with
  | nil => rfl
  | cons x rest ih =>
    obtain ⟨hx, hrest⟩ := List.forall_mem_cons.mp hb
    cases ha : p.isAncestorOf x with
    | true =>
      rw [List.filter_cons_of_pos ha, List.filterMap_cons, List.filterMap_cons, ih hrest,
        Function.comp_apply, h.positionIn? hp hx ha]
    | false =>
      rw [List.filter_cons_of_neg (by simp [ha]), List.filterMap_cons,
        h.positionIn?_eq_none hp hx ha]
      exact ih hrest

/-- The entries that are listed below a prefix, and those of names without it. -/
theorem entriesAlike_shifted (hp : p.Built) (h : Name.Shifted p n n') {names : List Name}
    (hb : ∀ x ∈ names, x.Built) (value : Shape) :
    List.Forall₂ (EntriesAlike (.below p) n n' value)
      (((names.filter p.isAncestorOf).map (·.drop p.length)).filter n.isAncestorOf)
      (names.filter n'.isAncestorOf) := by
  induction names with
  | nil => exact .nil
  | cons x rest ih =>
    obtain ⟨hx, hrest⟩ := List.forall_mem_cons.mp hb
    cases ha : n'.isAncestorOf x with
    | false =>
      have hskip : (x :: rest).filter n'.isAncestorOf = rest.filter n'.isAncestorOf :=
        List.filter_cons_of_neg (by simp [ha])
      rw [hskip]
      cases hpa : p.isAncestorOf x with
      | false =>
        rw [List.filter_cons_of_neg (by simp [hpa])]
        exact ih hrest
      | true =>
        have hdrop : n.isAncestorOf (x.drop p.length) = false := by
          rw [h.isAncestorOf (.of_drop hp hx hpa), ha]
        rw [List.filter_cons_of_pos hpa, List.map_cons, List.filter_cons_of_neg (by simp [hdrop])]
        exact ih hrest
    | true =>
      have hpa := h.isAncestorOf_of_shifted hp hx ha
      have hshifted := Name.Shifted.of_drop hp hx hpa
      have hdrop : n.isAncestorOf (x.drop p.length) = true := by
        rw [h.isAncestorOf hshifted, ha]
      have hlength : n'.length < x.length :=
        ((Name.isAncestorOf_iff h.built'.wellFormed hx.wellFormed).mp ha).1
      have hprefix : p.length ≤ x.length := by
        have := h.length
        omega
      rw [List.filter_cons_of_pos hpa, List.map_cons, List.filter_cons_of_pos hdrop,
        List.filter_cons_of_pos ha]
      refine .cons ⟨shifted_entryName h hshifted hlength value, ?_⟩ (ih hrest)
      rw [entryName_drop h.length hprefix, entryKey_drop h.length]

section See

variable (hp : p.Built) (hb : ∀ s ∈ b.sources, s.ListsBuilt)
  (hs : ∀ s ∈ b.sources, s.RespectsMeaning) (h : Name.Shifted p n n')

include hp hs h

theorem agreeOnSources_relocated {i : Nat} {s : Source} (hmem : s ∈ b.sources)
    (hb : s.ListsBuilt) : AgreeOnSources (.below p) i (.relocated s p) s n n' where
  get := Agree.seq (.note fun h => h) fun _ => .ret ((hs s hmem).get?_relocated hp h)
  iterable := rfl
  reach _ := rfl
  positions := by
    unfold Source.ListsBuilt at hb
    simp only [Source.names?]
    cases hnames : s.names? with
    | none => rfl
    | some names =>
      rw [hnames] at hb
      simp only [Option.map_some, Option.some.injEq]
      rw [List.filterMap_map]
      exact filterMap_positionIn?_shifted hp h hb
  refused _ := Agree.seq (.note fun h => h) fun _ => .raise rfl
  listed value := by
    unfold Source.ListsBuilt at hb
    rw [Source.names?_relocated]
    exact entriesAlike_shifted hp h hb value

include hb in
/-- The binders see the same at shifted names. -/
theorem seeAlike_relocated : SeeAlike (.below p) (b.relocated p) b n n' where
  lookUp scope := by
    refine Agree.seq (.note fun h => h) fun _ => .ret ?_
    rw [visible_relocated, List.findSome?_map]
    refine rel_findSome? (List.forall₂_same.mpr fun e he => ?_)
    exact (hs e.2 (mem_sources_of_mem_visible he)).get?_relocated hp h
  nothingBelow scope := by
    refine Agree.seq (.note fun h => h) fun _ => .ret ?_
    rw [visible_relocated, List.all_map, Bool.eq_iff_iff, List.all_eq_true, List.all_eq_true]
    refine forall₂_congr fun e he => ?_
    have hpresence := (hs e.2 (mem_sources_of_mem_visible he)).presence_relocated hp h
    simp only [Function.comp_apply, hpresence]
  somethingBelow scope := by
    refine Agree.seq (.note fun h => h) fun _ => .ret ?_
    rw [visible_relocated, List.any_map, Bool.eq_iff_iff, List.any_eq_true, List.any_eq_true]
    refine exists_congr fun e => and_congr_right fun he => ?_
    have hpresence := (hs e.2 (mem_sources_of_mem_visible he)).presence_relocated hp h
    simp only [Function.comp_apply, hpresence]
  sources scope := by
    rw [visible_relocated, List.forall₂_map_left_iff]
    refine List.forall₂_same.mpr fun e he => ⟨rfl, ?_⟩
    have hmem := mem_sources_of_mem_visible he
    exact agreeOnSources_relocated hp hs h hmem (hb e.2 hmem)

end See

end Binder

/-! ## Handlers -/

theorem Name.length_eq_of_beq {m n : Name} (h : (m == n) = true) : m.length = n.length := by
  have h : m.same n = true := h
  unfold Name.same at h
  simp only [Bool.and_eq_true, beq_iff_eq] at h
  exact h.1

/-- No name of another length is among names. -/
theorem Name.contains_eq_false {bound : List Name} {m : Name}
    (h : ∀ n ∈ bound, n.length ≠ m.length) : bound.contains m = false := by
  rw [← Bool.not_eq_true, List.contains_iff_exists_mem_beq]
  rintro ⟨n, hn, heq⟩
  exact h n hn (Name.length_eq_of_beq heq).symm

namespace Handler

open Binder

section Leftovers

variable {p n n' x y : Name} {bound bound' : List Name}
  (hbound : List.Forall₂ (Name.Shifted p) bound bound')

include hbound

theorem length_lt_of_shifted : (∀ m ∈ bound, 0 < m.length) ∧ ∀ m ∈ bound', p.length < m.length := by
  induction hbound with
  | nil => exact ⟨List.forall_mem_nil _, List.forall_mem_nil _⟩
  | cons h _ ih =>
    have hl := h.length
    have hpos := h.length_pos
    exact ⟨List.forall_mem_cons.mpr ⟨hpos, ih.1⟩, List.forall_mem_cons.mpr ⟨by omega, ih.2⟩⟩

/-- An item lies where it lies, shifted: no bound name is as short as the prefix. -/
theorem isOverriddenItem_shifted (hx : Name.Shifted p (x.drop p.length) x) :
    isOverriddenItem bound (x.drop p.length) = isOverriddenItem bound' x := by
  obtain ⟨hnonempty, hlong⟩ := length_lt_of_shifted hbound
  have hlength : ∀ i, i ≤ x.length → (x.take i).length = i := fun i hi => by
    simpa [Name.length] using hi
  have hbefore : ((List.range p.length).any fun i =>
      x.isNumericAt i && bound'.contains (x.take i)) = false := by
    refine List.any_eq_false.mpr fun i hi => ?_
    have hi := List.mem_range.mp hi
    have hl := hlength i (by have := hx.length; omega)
    have hnone : bound'.contains (x.take i) = false := Name.contains_eq_false fun m hm => by
      have := hlong m hm
      omega
    simp [hnone]
  have hafter : ∀ i ∈ List.range (x.drop p.length).length,
      ((x.drop p.length).isNumericAt i && bound.contains ((x.drop p.length).take i)) =
        (x.isNumericAt (p.length + i) && bound'.contains (x.take (p.length + i))) := by
    intro i hi
    rw [isNumericAt_drop]
    congr 1
    cases i with
    | zero =>
      have hl := hlength p.length (by have := hx.length; omega)
      have hroot : bound.contains ((x.drop p.length).take 0) = false :=
        Name.contains_eq_false fun m hm => by
          have hpos := hnonempty m hm
          have hzero : ((x.drop p.length).take 0).length = 0 := rfl
          omega
      have hprefix : bound'.contains (x.take (p.length + 0)) = false :=
        Name.contains_eq_false fun m hm => by
          have := hlong m hm
          rw [Nat.add_zero]
          omega
      rw [hroot, hprefix]
    | succ i => exact contains_eq (m := .below p) hbound (hx.take (Nat.succ_pos i))
  unfold isOverriddenItem
  rw [hx.length, List.range_add, List.any_append, hbefore, Bool.false_or, List.any_map,
    Bool.eq_iff_iff, List.any_eq_true, List.any_eq_true]
  refine exists_congr fun i => and_congr_right fun hi => ?_
  rw [hafter i hi]
  rfl

theorem isLeftover_shifted (h : Name.Shifted p n n') (hx : Name.Shifted p (x.drop p.length) x) :
    isLeftover n bound (x.drop p.length) = isLeftover n' bound' x := by
  unfold isLeftover
  rw [h.isAncestorOf hx, contains_eq (m := .below p) hbound hx, isOverriddenItem_shifted hbound hx]

end Leftovers

variable {b : Binder} {p n n' : Name} {scope : Scope} {target : Target}

/-- There are leftovers in relocated sources exactly if there are in the sources. -/
theorem gatherLeftovers_relocated (hp : p.Built) (hb : ∀ s ∈ b.sources, s.ListsBuilt)
    (hs : ∀ s ∈ b.sources, s.RespectsMeaning) (h : Name.Shifted p n n') {bound bound' : List Name}
    (hbound : List.Forall₂ (Name.Shifted p) bound bound') :
    (gatherLeftovers [] (leftoverNames n bound ((b.relocated p).visible scope))).1 = [] ↔
      (gatherLeftovers [] (leftoverNames n' bound' (b.visible scope))).1 = [] := by
  rw [gatherLeftovers_leftoverNames, gatherLeftovers_leftoverNames, visible_relocated,
    List.forall_mem_map]
  refine forall₂_congr fun e he => ?_
  have hmem := mem_sources_of_mem_visible he
  have hget : ∀ x, p.isAncestorOf x = true → x.Built →
      ((Source.relocated e.2 p).get? (x.drop p.length) = none ↔ e.2.get? x = none) := by
    intro x hpx hx
    have hrel := (hs e.2 hmem).get?_relocated hp (.of_drop hp hx hpx)
    rw [← Option.isNone_iff_eq_none, ← Option.isNone_iff_eq_none, isNone_eq_of_rel hrel]
  have hlisted : ∀ y, y ∈ (Source.relocated e.2 p).names?.getD [] ↔
      ∃ x ∈ e.2.names?.getD [], p.isAncestorOf x = true ∧ x.drop p.length = y := by
    intro y
    rw [Source.names?_relocated, List.mem_map]
    simp only [List.mem_filter, and_assoc]
  constructor
  · intro hall x hx hl
    have hbuilt := hb e.2 hmem x hx
    have hpx : p.isAncestorOf x = true := by
      have hanc : n'.isAncestorOf x = true := by
        simp only [isLeftover, Bool.and_eq_true] at hl
        exact hl.1.1
      exact h.isAncestorOf_of_shifted hp hbuilt hanc
    rw [← isLeftover_shifted hbound h (.of_drop hp hbuilt hpx)] at hl
    exact (hget x hpx hbuilt).mp (hall _ ((hlisted _).mpr ⟨x, hx, hpx, rfl⟩) hl)
  · intro hall y hy hl
    obtain ⟨x, hx, hpx, rfl⟩ := (hlisted y).mp hy
    have hbuilt := hb e.2 hmem x hx
    rw [isLeftover_shifted hbound h (.of_drop hp hbuilt hpx)] at hl
    exact (hget x hpx hbuilt).mpr (hall x hx hl)

/-- The check for leftovers decides alike. -/
theorem agree_refuseLeftovers (hp : p.Built) (hb : ∀ s ∈ b.sources, s.ListsBuilt)
    (hs : ∀ s ∈ b.sources, s.RespectsMeaning) (h : Name.Shifted p n n') :
    Agree (.below p) Eq (refuseLeftovers ((b.relocated p).visit scope n target) [])
      (refuseLeftovers (b.visit scope n' target) []) := by
  have hall : ∀ bound : List Name, (bound.filter fun n => !([] : List Name).contains n) = bound :=
    fun bound => by simp
  generalize hv : (b.relocated p).visit scope n target = v
  generalize hv' : b.visit scope n' target = v'
  unfold refuseLeftovers
  refine Agree.journal.bind fun j k hj => ?_
  simp only [hall]
  refine Agree.seq (.note fun h => h) fun _ => ?_
  have hsame : (gatherLeftovers [] (leftoverNames v.name j.bound v.sources)).1.isEmpty = true ↔
      (gatherLeftovers [] (leftoverNames v'.name k.bound v'.sources)).1.isEmpty = true := by
    rw [List.isEmpty_iff, List.isEmpty_iff, ← hv, ← hv']
    exact gatherLeftovers_relocated hp hb hs h hj
  by_cases hnone : (gatherLeftovers [] (leftoverNames v'.name k.bound v'.sources)).1.isEmpty = true
  · rw [if_pos hnone, if_pos (hsame.mpr hnone)]
    exact .ret rfl
  · rw [if_neg hnone, if_neg (mt hsame.mp hnone)]
    exact .raise rfl

end Handler

namespace Binder

variable {b : Binder} {p root root' : Name}

/-- Binding from relocated sources at a name, and from the sources at the shifted name. -/
theorem relocated_agrees (hh : b.handler.Builtin) (hb : ∀ s ∈ b.sources, s.ListsBuilt)
    (hs : ∀ s ∈ b.sources, s.RespectsMeaning) (hp : p.Built) (h : Name.Shifted p root root')
    (target : Target) (create : Bool) :
    ((b.relocated p).bindRoot [] root target create).result.mapError Failure.kind =
      (b.bindRoot [] root' target create).result.mapError Failure.kind := by
  have hagree : Agree (.below p) Eq
      ((b.relocated p).bindAt b.options.maxDepth {} root target false create)
      (b.bindAt b.options.maxDepth {} root' target false create) :=
    agree_bindAt (alike_relocated b p) rfl rfl rfl (fun hn => seeAlike_relocated hp hb hs hn)
      (fun _ _ _ _ hn => hh.agree (fun _ => id) rfl rfl fun _ =>
        Handler.agree_refuseLeftovers hp hb hs hn) _ {} h target false create
  exact hagree.mapError_result .nil (fun _ => id) id

/-- Binding at a name from sources that are relocated to a prefix is binding at the prefix followed
by the name: it comes to the same value, or to a failure of the same kind. -/
theorem bindRoot_relocated (hh : b.handler.Builtin) (hb : ∀ s ∈ b.sources, s.ListsBuilt)
    (hs : ∀ s ∈ b.sources, s.RespectsMeaning) {text : String} (hp : Name.parse text = .ok p)
    (hne : p.isEmpty = false) (hroot : root.Built) (hempty : root.isEmpty = false)
    (target : Target) (create : Bool) :
    ∃ sources, b.sources.mapM (Source.relocate · text) = .ok sources ∧
      ({ b with sources }.bindRoot [] root target create).result.mapError Failure.kind =
        (b.bindRoot [] (p ++ root) target create).result.mapError Failure.kind := by
  have hsources : b.sources.mapM (Source.relocate · text) =
      .ok (b.sources.map (.relocated · p)) := by
    have hall : (Source.relocate · text) = fun s => .ok (Source.relocated s p) :=
      funext (Source.relocate_of_parse hp hne)
    rw [hall]
    exact List.mapM_pure
  have hshifted : Name.Shifted p root (p ++ root) :=
    ⟨hroot, .append (.parse hp) hroot, hempty, Name.meaning_append p root⟩
  exact ⟨_, hsources, relocated_agrees hh hb hs (.parse hp) hshifted target create⟩

/-- The ports of servers below a prefix, listed by host. The check for leftovers does not look above
the prefix. -/
theorem bindRoot_relocated_servers :
    let held := Entries.ofList [("myApp.servers.main[0]", .string "80"),
      ("myApp.name", .string "first"), ("MY_APP.servers.Main[1]", .string "81")]
    let b : Binder := { sources := [.entries "test" held], handler := .noUnbound .default }
    let target := Target.of (.map .string (.list (.scalar .string)))
    ∃ sources, b.sources.mapM (Source.relocate · "my-app") = .ok sources ∧
      ({ b with sources }.bindRoot [] (Name.adapt "servers" '.') target false).result.mapError
        Failure.kind = .ok (some (.map [("main", .list [.string "80", .string "81"])])) := by
  intro held b target
  have hbuilt : held.Built := .ofList _
  obtain ⟨sources, hsources, hsame⟩ := @bindRoot_relocated b ⟨[⟨.dashed, "my-app"⟩]⟩
    (Name.adapt "servers" '.') (.noUnbound .default)
    (List.forall_mem_singleton.mpr (Source.listsBuilt_entries hbuilt))
    (List.forall_mem_singleton.mpr (Source.respectsMeaning_entries hbuilt.wellFormed))
    "my-app" rfl rfl (.adapt "servers" '.') rfl target false
  exact ⟨sources, hsources, hsame.trans (by rfl)⟩

end Binder

end TypedConfig
