import TypedConfig.Proofs.Bind.Builtin
import TypedConfig.Proofs.Bind.Pruning
import TypedConfig.Proofs.Bind.Shifted
import TypedConfig.Proofs.Source.Within

/-!
# What binding reads

Binding at a root looks only at what lies at the root or below it: every name that it comes to is one
that the root covers (`Name.covers`), and of such a name a source tells only what it has at and below
that. So sources that are alike there give the same result, and the same journal.

* `Comparison.within`: the comparison of the two runs, at names that the root covers.
* `Binder.seeAlike_within`: binders over such sources see the same at these names.
* `Handler.refuseLeftovers_within`: the check for leftovers finds the same.
* `Binder.bindRoot_within`: a whole bind, from sources that are alike at the root and below it.
* `Binder.bindRoot_local`: a whole bind from entries.
-/

namespace TypedConfig

open BindM

/-- The two runs are the same, and stand at names that the root covers. -/
def Comparison.within {root : Name} (hr : root.Built) : Comparison :=
  { Comparison.equal with
    names m n := m = n ∧ m.Built ∧ root.covers m = true
    names_isEmpty h := by rw [h.1]
    names_beq h h' := by rw [h.1, h'.1]
    names_append h hk := ⟨by rw [h.1], .append h.2.1 hk,
      Name.covers_append hr.wellFormed h.2.1.wellFormed hk.wellFormed h.2.2⟩
    properties_at v h := Comparison.equal.properties_at v h.1
    errors_like h := (h.mono fun h => h.1).eq
    bound hn h := Comparison.equal.bound hn.1 h
    whole hn h := Comparison.equal.whole hn.1 h }

section Lists

variable {α β γ : Type} {R : α → β → Prop} {p : α → Bool} {q : β → Bool} {f : α → γ} {g : β → γ}
  {xs : List α} {ys : List β}

theorem map_eq_of_forall₂ (h : List.Forall₂ R xs ys) (hfg : ∀ x y, R x y → f x = g y) :
    xs.map f = ys.map g := by
  rw [← List.forall₂_eq_eq_eq]
  exact List.rel_map (fun x y hxy => hfg x y hxy) h

theorem forall₂_mapIdx (h : List.Forall₂ R xs ys) :
    List.Forall₂ (fun e e' => e.1 = e'.1 ∧ R e.2 e'.2) (xs.mapIdx fun i x => (i, x))
      (ys.mapIdx fun i y => (i, y)) := by
  rw [List.forall₂_iff_get] at h ⊢
  obtain ⟨hlength, hget⟩ := h
  refine ⟨by simp [hlength], fun i hi hi' => ?_⟩
  rw [List.length_mapIdx] at hi hi'
  simp only [List.get_eq_getElem, List.getElem_mapIdx]
  exact ⟨trivial, hget i hi hi'⟩

/-- Lists of elements that are tested alike reach as far as each other. -/
theorem forall₂_through (h : List.Forall₂ R xs ys) (hpq : ∀ x y, R x y → p x = q y) :
    List.Forall₂ R (Binder.through p xs) (Binder.through q ys) := by
  unfold Binder.through
  induction h with
  | nil => exact .nil
  | @cons x y _ _ hxy _ ih =>
    rw [List.takeWhile_cons, List.takeWhile_cons, List.find?_cons, List.find?_cons, hpq _ _ hxy]
    cases q y with
    | true => exact .cons hxy .nil
    | false => exact .cons hxy ih

end Lists

namespace Binder

variable {b : Binder} {sources sources' : List Source} {root n : Name} {scope : Scope}
  {R : Source → Source → Prop}

/-- The binder with other sources. -/
def withSources (b : Binder) (sources : List Source) : Binder := { b with sources }

theorem alike_withSources (b : Binder) (sources sources' : List Source) :
    (b.withSources sources).Alike (b.withSources sources') where
  definitions := rfl
  converter := rfl
  pieces := rfl

/-- Of related sources, the same are in sight of both binders. -/
theorem forall₂_visible (h : List.Forall₂ R sources sources') (scope : Scope) :
    List.Forall₂ (fun e e' => e.1 = e'.1 ∧ R e.2 e'.2)
      ((b.withSources sources).visible scope) ((b.withSources sources').visible scope) := by
  unfold visible
  simp only [withSources]
  split
  · exact List.rel_filter (fun e e' he => by simp only [he.1]) (forall₂_mapIdx h)
  · exact forall₂_mapIdx h

/-! ## What the binders see -/

/-- A step agrees with itself. -/
theorem agree_same (hr : root.Built) {α : Type} {V : α → α → Prop} (hV : ∀ a, V a a)
    {x y : BindM α} (h : x = y) : Agree (.within hr) V x y := by
  subst h
  rintro j _ rfl
  rcases x.runFrom j with ⟨r, k⟩
  cases r with
  | ok a => exact .ok (hV a) rfl
  | error e => exact .error rfl rfl

theorem positionIn?_eq_none (hr : root.Built) (hn : n.Built) (hc : root.covers n = true) {x : Name}
    (hx : x.Built) (hout : root.covers x = false) : n.positionIn? x = none := by
  have hbelow : n.isAncestorOf x = false := by
    rw [← Bool.not_eq_true]
    intro hanc
    rw [Name.covers_of_isAncestorOf hr.wellFormed hn.wellFormed hx.wellFormed hc hanc] at hout
    cases hout
  unfold Name.positionIn?
  rw [hbelow]
  rfl

section See

variable (hr : root.Built) (hn : n.Built) (hc : root.covers n = true)

include hr hn hc

/-- A source refuses the same items. -/
theorem refuseItems_within {s s' : Source} (h : s.AlikeWithin root s') (i : Nat)
    (positions : List Nat) : refuseItems i s n positions = refuseItems i s' n positions := by
  have hpasses : ∀ x, x.Built → (n.positionIn? x).any positions.contains = true →
      root.covers x = true := by
    intro x hx hany
    by_contra hout
    rw [positionIn?_eq_none hr hn hc hx (Bool.eq_false_iff.mpr hout)] at hany
    cases hany
  have hnames := h.filter_names hpasses
  have hfound : ((s'.names?.getD []).filter fun x => (n.positionIn? x).any positions.contains).filterMap
      s.get? = ((s'.names?.getD []).filter fun x => (n.positionIn? x).any positions.contains).filterMap
      s'.get? := by
    refine List.filterMap_congr fun x hx => ?_
    obtain ⟨hlisted, hpass⟩ := List.mem_filter.mp hx
    have hbuilt := h.built' x hlisted
    exact h.get? x hbuilt (hpasses x hbuilt hpass)
  unfold refuseItems
  simp only [hnames, hfound]

/-- The sources say the same of the items and entries at a covered name. -/
theorem agreeOnSources_within {s s' : Source} (h : s.AlikeWithin root s') (i : Nat) :
    AgreeOnSources (.within hr) i s s' n n where
  get := by
    refine agree_same hr rel_refl ?_
    unfold getFrom
    rw [h.get? n hn hc]
  iterable := h.iterable
  reach := h.reach
  positions := h.filterMap_names fun _ hx hout => positionIn?_eq_none hr hn hc hx hout
  refused positions := agree_same hr (fun _ => rfl) (refuseItems_within hr hn hc h i positions)
  listed value := by
    have hbelow : ∀ x, x.Built → n.isAncestorOf x = true → root.covers x = true := fun x hx =>
      Name.covers_of_isAncestorOf hr.wellFormed hn.wellFormed hx.wellFormed hc
    rw [h.filter_names hbelow]
    refine List.forall₂_same.mpr fun x hx => ?_
    obtain ⟨hlisted, hanc⟩ := List.mem_filter.mp hx
    have hx := h.built' x hlisted
    have hlt := ((Name.isAncestorOf_iff hn.wellFormed hx.wellFormed).mp hanc).1
    obtain ⟨k, hk, htake⟩ := entryName_eq_take hlt value
    refine ⟨⟨rfl, entryName_built hx n value, ?_⟩, rfl⟩
    rw [htake]
    exact Name.covers_take hr.wellFormed hn.wellFormed hx.wellFormed hc hanc (Nat.le_of_lt hk)

omit hr hn hc in
/-- The sources that a question goes to are the same, if the answers are. -/
theorem asked_within (h : List.Forall₂ (Source.AlikeWithin root) sources sources')
    (test : Source → Bool) (ht : ∀ s s', Source.AlikeWithin root s s' → test s = test s')
    (scope : Scope) (query : Query) :
    ((through (fun (_, s) => test s) ((b.withSources sources).visible scope)).map
        fun (i, _) => (i, query)) =
      (through (fun (_, s) => test s) ((b.withSources sources').visible scope)).map
        fun (i, _) => (i, query) :=
  map_eq_of_forall₂ (forall₂_through (forall₂_visible h scope) fun e e' he => ht _ _ he.2)
    fun e e' he => by simp only [he.1]

/-- The binders see the same at a covered name. -/
theorem seeAlike_within (h : List.Forall₂ (Source.AlikeWithin root) sources sources') :
    SeeAlike (.within hr) (b.withSources sources) (b.withSources sources') n n where
  lookUp scope := by
    have hasked := asked_within (b := b) h (fun s => (s.get? n).isSome)
      (fun s s' hs => by rw [hs.get? n hn hc]) scope (.get n)
    refine Agree.seq (agree_same hr (fun _ => rfl) (congrArg Journal.ask hasked)) fun _ => .ret ?_
    have hget := map_eq_of_forall₂ (forall₂_visible (b := b) h scope)
      fun e e' he => he.2.get? n hn hc
    have hfound := congrArg (List.findSome? id) hget
    rw [List.findSome?_map, List.findSome?_map] at hfound
    exact hfound ▸ rel_refl _
  nothingBelow scope := by
    have hasked := asked_within (b := b) h (fun s => s.presence n != .absent)
      (fun s s' hs => by rw [hs.presence n hn hc]) scope (.presence n)
    refine Agree.seq (agree_same hr (fun _ => rfl) (congrArg Journal.ask hasked)) fun _ => .ret ?_
    have hpresence := map_eq_of_forall₂ (forall₂_visible (b := b) h scope)
      fun e e' he => he.2.presence n hn hc
    have hall := congrArg (List.all · (· == .absent)) hpresence
    simp only [List.all_map] at hall
    exact hall
  somethingBelow scope := by
    have hasked := asked_within (b := b) h (fun s => s.presence n == .present)
      (fun s s' hs => by rw [hs.presence n hn hc]) scope (.presence n)
    refine Agree.seq (agree_same hr (fun _ => rfl) (congrArg Journal.ask hasked)) fun _ => .ret ?_
    have hpresence := map_eq_of_forall₂ (forall₂_visible (b := b) h scope)
      fun e e' he => he.2.presence n hn hc
    have hany := congrArg (List.any · (· == .present)) hpresence
    simp only [List.any_map] at hany
    exact hany
  sources scope := by
    refine (forall₂_visible h scope).imp fun e e' he => ?_
    obtain ⟨hi, hs⟩ := he
    exact ⟨hi, agreeOnSources_within hr hn hc hs e.1⟩

end See

end Binder

/-! ## Leftovers -/

namespace Handler

open Binder

/-- Leftovers of two sources that are alike at the root and below it. -/
structure LeftoversAlike (root : Name) (x x' : Nat × Source × Name) : Prop where
  position : x.1 = x'.1
  source : x.2.1.AlikeWithin root x'.2.1
  name : x.2.2 = x'.2.2
  built : x.2.2.Built
  covered : root.covers x.2.2 = true

variable {b : Binder} {sources sources' : List Source} {root n : Name} {scope : Scope}
  {R : Source → Source → Prop}
  {target : Target}

/-- The same properties of leftovers are gathered, with the same questions. -/
theorem gatherLeftovers_within {xs ys : List (Nat × Source × Name)}
    (h : List.Forall₂ (LeftoversAlike root) xs ys) (found : List Property) :
    gatherLeftovers found xs = gatherLeftovers found ys := by
  induction h generalizing found with
  | nil => rfl
  | @cons x y _ _ hxy _ ih =>
    obtain ⟨i, source, candidate⟩ := x
    obtain ⟨i', source', candidate'⟩ := y
    obtain ⟨hi, hsource, hname, hbuilt, hcovered⟩ := hxy
    simp only at hi hsource hname hbuilt hcovered
    subst hi hname
    unfold gatherLeftovers
    simp only [hsource.get? _ hbuilt hcovered, ih]

variable (hr : root.Built) (hn : n.Built) (hc : root.covers n = true)
  (h : List.Forall₂ (Source.AlikeWithin root) sources sources')

include hr hn hc h

/-- The same names are left over. -/
theorem leftoverNames_within (bound : List Name) :
    List.Forall₂ (LeftoversAlike root) (leftoverNames n bound ((b.withSources sources).visible scope))
      (leftoverNames n bound ((b.withSources sources').visible scope)) := by
  have hbelow : ∀ x, x.Built → isLeftover n bound x = true → root.covers x = true := by
    intro x hx hleft
    simp only [isLeftover, Bool.and_eq_true] at hleft
    exact Name.covers_of_isAncestorOf hr.wellFormed hn.wellFormed hx.wellFormed hc hleft.1.1
  unfold leftoverNames
  refine List.rel_flatMap (forall₂_visible h scope) fun e e' he => ?_
  obtain ⟨hi, hs⟩ := he
  simp only [hs.filter_names hbelow]
  rw [List.forall₂_map_left_iff, List.forall₂_map_right_iff]
  refine List.forall₂_same.mpr fun x hx => ?_
  obtain ⟨hlisted, hleft⟩ := List.mem_filter.mp hx
  have hbuilt := hs.built' x hlisted
  exact ⟨hi, hs, rfl, hbuilt, hbelow x hbuilt hleft⟩

/-- The check for leftovers is the same. -/
theorem refuseLeftovers_within (unseen : List Name) :
    refuseLeftovers ((b.withSources sources).visit scope n target) unseen =
      refuseLeftovers ((b.withSources sources').visit scope n target) unseen := by
  have hgathered : ∀ bound,
      gatherLeftovers [] (leftoverNames n bound ((b.withSources sources).visible scope)) =
        gatherLeftovers [] (leftoverNames n bound ((b.withSources sources').visible scope)) :=
    fun bound => gatherLeftovers_within (leftoverNames_within hr hn hc h bound) []
  unfold refuseLeftovers
  simp only [visit, hgathered]
  rfl

end Handler

/-! ## A whole bind -/

namespace Binder

variable {b : Binder} {root : Name}

/-- Sources that are alike at the root and below it give the same report: the same value or the same
error, and the same journal. -/
theorem bindRoot_within (hh : b.handler.Builtin) (hr : root.Built) {sources sources' : List Source}
    (h : List.Forall₂ (Source.AlikeWithin root) sources sources') (history : List Name)
    (target : Target) (create : Bool) :
    (b.withSources sources).bindRoot history root target create =
      (b.withSources sources').bindRoot history root target create := by
  have hagree : Agree (.within hr) Eq
      ((b.withSources sources).bindAt b.options.maxDepth {} root target false create)
      ((b.withSources sources').bindAt b.options.maxDepth {} root target false create) := by
    have hroot : (Comparison.within hr).names root root := ⟨rfl, hr, Name.covers_self hr.wellFormed⟩
    refine agree_bindAt (b.alike_withSources sources sources') rfl rfl rfl ?_ ?_ _ {} hroot target false
      create
    · rintro n _ ⟨rfl, hn, hc⟩
      exact seeAlike_within hr hn hc h
    · rintro scope n _ target ⟨rfl, hn, hc⟩
      exact hh.agree (fun _ => id) rfl rfl fun _ =>
        agree_same hr (fun _ => rfl) (Handler.refuseLeftovers_within hr hn hc h [])
  have hrun := (hagree { bound := history } { bound := history } rfl).eq id (fun _ => id) id
  have hdepth : ∀ sources, (b.withSources sources).options.maxDepth = b.options.maxDepth := fun _ => rfl
  unfold bindRoot Report.ofRun
  rw [hdepth, hdepth, hrun]

/-- Entries that are the same at a root and below it, layer by layer. -/
def LayersWithin (root : Name) : List (String × Entries) → List (String × Entries) → Prop :=
  List.Forall₂ fun l l' => l.1 = l'.1 ∧ l.2.within root = l'.2.within root

theorem forall₂_entries (hr : root.Built) {layers layers' : List (String × Entries)}
    (h : LayersWithin root layers layers') (hb : ∀ l ∈ layers, l.2.Built)
    (hb' : ∀ l ∈ layers', l.2.Built) :
    List.Forall₂ (Source.AlikeWithin root) (layers.map fun l => .entries l.1 l.2)
      (layers'.map fun l => .entries l.1 l.2) := by
  unfold LayersWithin at h
  induction h with
  | nil => exact .nil
  | @cons l l' _ _ hl _ ih =>
    rw [List.forall_mem_cons] at hb hb'
    obtain ⟨hlabel, hsame⟩ := hl
    rw [List.map_cons, List.map_cons, hlabel]
    exact .cons (Source.alikeWithin_entries hr hb.1 hb'.1 hsame) (ih hb.2 hb'.2)

/-- Binding is local to its subtree: layers of entries that are the same at the root and below it give
the same report, with the same error where it fails. -/
theorem bindRoot_local (hh : b.handler.Builtin) (hr : root.Built)
    {layers layers' : List (String × Entries)} (hb : ∀ l ∈ layers, l.2.Built)
    (hb' : ∀ l ∈ layers', l.2.Built) (hsame : LayersWithin root layers layers')
    (history : List Name) (target : Target) (create : Bool) :
    (b.withSources (layers.map fun l => .entries l.1 l.2)).bindRoot history root target create =
      (b.withSources (layers'.map fun l => .entries l.1 l.2)).bindRoot history root target create :=
  bindRoot_within hh hr (forall₂_entries hr hsame hb hb') history target create

/-- A bean with a port. -/
def portTarget : Target :=
  .of (.composite ⟨"App", .bean, false, [], [⟨"port", .scalar .string, true⟩], none⟩)

/-- A text stands where an application is asked for, whatever is held elsewhere. The error tells where
it came from. -/
theorem bindRoot_local_text :
    let layers := [("test", Entries.ofList [("web.port", .string "1"), ("APP", .string "local")])]
    let layers' := [("test", Entries.ofList [("APP", .string "local"), ("apps.port", .null)])]
    let root := Name.adapt "app" '.'
    let b : Binder := { sources := [], handler := .noUnbound .default }
    let run (layers : List (String × Entries)) :=
      (b.withSources (layers.map fun l => .entries l.1 l.2)).bindRoot [] root portTarget false
    LayersWithin root layers layers' ∧ run layers = run layers' ∧
      (run layers').result =
        .error (.bind root (.conversion ⟨root, .string "local", some "test [APP]"⟩ "App"
          .singleValue)) := by
  intro layers layers' root b run
  have hsame : LayersWithin root layers layers' := .cons ⟨rfl, by rfl⟩ .nil
  refine ⟨hsame, ?_, by rfl⟩
  exact bindRoot_local (b := b) (.noUnbound .default) (.adapt "app" '.')
    (List.forall_mem_singleton.mpr (.ofList _)) (List.forall_mem_singleton.mpr (.ofList _)) hsame []
    portTarget false

end Binder

end TypedConfig
