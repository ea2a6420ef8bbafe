import TypedConfig.Bind.Typed
import TypedConfig.Proofs.Bind.Leftovers
import TypedConfig.Proofs.Bind.Tolerant

/-!
# Ignored failures are left over

A value that does not convert may be ignored, but its name is not noted as bound: failures do not get as
far as that. So where failures are ignored and leftovers refused, the name of such a field is refused
as if nothing knew it.

* `BindM.Notes`: the names that a step notes if it ends well.
* `Binder.notes_bindFields`: the fields of a bean note the names of those that convert.
* `Binder.Finishes`: the root comes to its end, where leftovers are looked for.
* `Binder.bindRoot_refuses_ignored`: a whole bind refuses what does not convert.
-/

namespace TypedConfig

/-! ## What a step notes -/

namespace BindM

variable {α β : Type}

/-- The names that `x` notes as bound if it ends well, the latest first. -/
def Notes (x : BindM α) (names : List Name) : Prop :=
  ∀ j a k, x.runFrom j = (.ok a, k) → k.bound = names ++ j.bound

namespace Notes

variable {x : BindM α} {f : α → BindM β} {names more : List Name}

theorem ret (a : α) : (pure a : BindM α).Notes [] := by
  intro j a' k h
  cases h
  rfl

theorem raise (e : BindError) (names : List Name) : (throw e : BindM α).Notes names := by
  intro j a k h
  cases h

/-- After a failure there is nothing more. -/
theorem raise_bind (e : BindError) (f : α → BindM β) (names : List Name) :
    ((throw e : BindM α) >>= f).Notes names := by
  intro j b k h
  have hraise : (throw e : BindM α).runFrom j = (.error e, j) := rfl
  rw [runFrom_bind_error hraise] at h
  cases h

theorem of_gives {r : Except BindError α} (h : x.GivesNoting r names) : x.Notes names := by
  intro j a k hrun
  have hbound := (h j).2
  rw [hrun] at hbound
  exact hbound

theorem bind (hx : x.Notes names) (hf : ∀ a, (f a).Notes more) : (x >>= f).Notes (more ++ names) := by
  intro j b l h
  obtain ⟨a, k, hrun, hrest⟩ := bind_ok h
  rw [hf a k b l hrest, hx j a k hrun, List.append_assoc]

/-- A first step that notes nothing. -/
theorem after (hx : x.Notes []) (hf : ∀ a, (f a).Notes names) : (x >>= f).Notes names := by
  simpa using hx.bind hf

/-- A second step that notes nothing. -/
theorem before (hx : x.Notes names) (hf : ∀ a, (f a).Notes []) : (x >>= f).Notes names :=
  hx.bind hf

end Notes

end BindM

/-- The check for leftovers fails of nothing else. -/
theorem Handler.error_of_refuseLeftovers {v : Visit} {unseen : List Name} {j k : Journal}
    {e : BindError} (h : (refuseLeftovers v unseen).runFrom j = (.error e, k)) :
    ∃ ps, e = .unboundProperties ps := by
  unfold refuseLeftovers Journal.ask at h
  rw [BindM.runFrom_bind, BindM.runFrom_get] at h
  simp only at h
  rw [BindM.runFrom_bind, BindM.runFrom_modify] at h
  simp only at h
  split at h
  · cases h
  · cases h
    exact ⟨_, rfl⟩

namespace Binder

open BindM Keyed

variable {b : Binder} {scope : Scope} {name root : Name} {target : Target} {field : Field Shape}
  {fields : List (Field Shape)} {type : Composite Shape} {typeName : String} {built : Fields}
  {any : Bool}

/-! ## Fields -/

/-- The name of a field, if it has a value. -/
def namesBoundFor (b : Binder) (name : Name) (field : Field Shape) : List Name :=
  match name.extend? (Name.dashed field.name) with
  | .ok child => if (b.fieldValue? name field).isSome then [child] else []
  | .error _ => []

theorem notes_bindField (hh : b.handler.Tolerant) (hd : scope.depth ≠ 0)
    (ho : scope.only = none) (hname : name.isEmpty = false)
    (hs : (b.resolve field.shape).isScalar = true) (current : Option Value) (levels : Nat) :
    (b.bindField (b.descend levels) scope name typeName field current).Notes
      (b.namesBoundFor name field) := by
  unfold bindField childName
  simp only [descend_eq_bindVisit]
  cases hchild : name.extend? (Name.dashed field.name) with
  | error e => exact .raise_bind _ _ _
  | ok child =>
    cases hkind : b.resolve field.shape with
    | scalar kind =>
      obtain ⟨k, -, hk⟩ := Name.exists_of_extend? hchild
      have hchildname : child.isEmpty = false := by
        rw [hk]
        simp_all [Name.isEmpty]
      have hvisit := @bindVisit_scalar b (b.way levels) scope child
        ((Target.of field.shape).withExisting current) kind hh (by simpa using hkind) hd ho (by simp)
        fun hempty => by rw [hchildname] at hempty; cases hempty
      have hnames : b.namesBoundFor name field =
          if (b.converted? kind child).isSome then [child] else [] := by
        simp [namesBoundFor, fieldValue?, hchild, hkind]
      rw [hnames, pure_bind]
      refine (Notes.of_gives hvisit).before fun bound => ?_
      cases bound with
      | none => exact .ret none
      | some v =>
        simp only
        split
        · exact .ret _
        · exact .raise _ _
    | _ =>
      rw [hkind] at hs
      cases hs

/-- The fields of a bean note the names of those that have a value, whether they can be set or not. -/
theorem notes_bindFields (hh : b.handler.Tolerant) (hd : scope.depth ≠ 0)
    (ho : scope.only = none) (hname : name.isEmpty = false)
    (hs : ∀ f ∈ fields, (b.resolve f.shape).isScalar = true) (levels : Nat) :
    (b.bindFields (b.descend levels) scope name typeName fields built any).Notes
      (fields.reverse.flatMap (b.namesBoundFor name)) := by
  induction fields generalizing built any with
  | nil => exact .ret _
  | cons field rest ih =>
    obtain ⟨hfield, hrest⟩ := List.forall_mem_cons.mp hs
    rw [bindFields_cons, List.reverse_cons, List.flatMap_append, List.flatMap_singleton]
    exact (notes_bindField hh hd ho hname hfield _ levels).bind fun change => ih hrest

/-- No field at the name has a value. -/
def NoValueAt (b : Binder) (root : Name) (fields : List (Field Shape)) (n : Name) : Prop :=
  ∀ f ∈ fields, ∀ child, root.extend? (Name.dashed f.name) = .ok child → (n == child) = true →
    b.fieldValue? root f = none

/-- The fields note none but the names at which one has a value. -/
theorem contains_namesBoundFor {n : Name} :
    (fields.reverse.flatMap (b.namesBoundFor root)).contains n = false ↔
      b.NoValueAt root fields n := by
  have hone : ∀ f : Field Shape, (b.namesBoundFor root f).contains n = false ↔
      ∀ child, root.extend? (Name.dashed f.name) = .ok child → (n == child) = true →
        b.fieldValue? root f = none := by
    intro f
    unfold namesBoundFor
    cases hchild : root.extend? (Name.dashed f.name) with
    | error e => simp
    | ok child =>
      cases hv : b.fieldValue? root f <;> simp
  simp only [List.contains_eq_any_beq, List.any_flatMap, List.any_reverse, List.any_eq_false,
    Bool.not_eq_true] at hone ⊢
  exact forall₂_congr fun f _ => by rw [← hone f]

/-! ## The root -/

/-- At a root, a bean is assembled, unless that is too deep. -/
theorem bindComposite_at_root (b : Binder) (levels : Nat) (root : Name) (target : Target)
    (type : Composite Shape) : b.bindComposite (b.way levels) {} root target type false = (do
      let below ← b.enter (b.way levels) root
      b.assemble below (Scope.within {} type.typeName) root target type) := by
  simp [bindComposite]

/-- The root comes to its end, where leftovers are looked for: it does not fail before. -/
def Finishes (b : Binder) (root : Name) (target : Target) (create : Bool) : Prop :=
  ∃ r k, (b.bindHandled (b.way b.options.maxDepth) {} root target false create).runFrom {} = (.ok r, k)

/-- A name below the root is not the root. -/
theorem ne_of_isAncestorOf {n : Name} (h : root.isAncestorOf n = true) : (n == root) = false := by
  have hlength : root.length < n.length := by
    simp only [Name.isAncestorOf, Bool.and_eq_true, decide_eq_true_eq] at h
    exact h.1
  have hsame : (n == root) = (n.length == root.length && Name.sameElements n.elements root.elements) :=
    rfl
  rw [hsame, beq_eq_false_iff_ne.mpr (by omega), Bool.false_and]

theorem onFinish_refusing (hh : b.handler = .noUnbound (.ignoreErrors .default)) (root : Name)
    (target : Target) (r : Option Value) : b.handler.onFinish (b.visit {} root target) r [] =
      Handler.refuseLeftovers (b.visit {} root target) [] := by
  rw [hh]
  rfl

/-- At the end of a root that comes to it, leftovers are refused, and nothing else is. -/
theorem bindVisit_refuses_iff (hh : b.handler = .noUnbound (.ignoreErrors .default))
    (level : Option BindBelow) (create : Bool) (j : Journal) :
    (∃ ps, ((b.bindVisit level {} root target false create).runFrom j).1 =
        .error (.unboundProperties ps)) ↔
      ∃ r k, (b.bindHandled level {} root target false create).runFrom j = (.ok r, k) ∧
        ∃ n, b.HoldsBelow root n ∧ k.bound.contains n = false ∧
          Handler.isOverriddenItem k.bound n = false := by
  unfold bindVisit
  rw [runFrom_bind, runFrom_attempt]
  rcases hrun : (b.bindHandled level {} root target false create).runFrom j with ⟨outcome, k⟩
  cases outcome with
  | error e =>
    have hrecovered : ((do
        Journal.setProperty none
        b.handler.onFailure (b.visit {} root target) e : BindM (Option Value)).runFrom k).1 =
          .ok target.existing? := by
      rw [hh]
      rfl
    constructor
    · rintro ⟨ps, h⟩
      cases hrecovered.symm.trans h
    · rintro ⟨r, k', h, -⟩
      cases h
  | ok r =>
    obtain ⟨hall, -⟩ := refuseLeftovers_at_root b root target k
    simp only [onFinish_refusing hh]
    rw [runFrom_bind]
    rcases hcheck : (Handler.refuseLeftovers (b.visit {} root target) []).runFrom k with ⟨check, l⟩
    rw [hcheck] at hall
    cases check with
    | ok _ =>
      constructor
      · rintro ⟨ps, h⟩
        cases h
      · rintro ⟨r', k', h, n, hn, hunbound, hspared⟩
        cases h
        rcases hall.mp rfl n hn with hbound | hoverridden
        · rw [hunbound] at hbound
          cases hbound
        · rw [hspared] at hoverridden
          cases hoverridden
    | error e =>
      obtain ⟨ps, rfl⟩ := Handler.error_of_refuseLeftovers hcheck
      refine ⟨fun _ => ⟨r, k, rfl, ?_⟩, fun _ => ⟨ps, rfl⟩⟩
      by_contra hnone
      have hok : Except.error (BindError.unboundProperties ps) = .ok () := hall.mpr fun n hn => by
        by_contra hleft
        exact hnone ⟨n, hn, by simpa using hleft⟩
      cases hok

/-- The check for leftovers notes nothing as bound. -/
theorem bound_of_bindVisit (hh : b.handler = .noUnbound (.ignoreErrors .default))
    {level : Option BindBelow} {create : Bool} {j k : Journal} {r : Option Value}
    (h : (b.bindHandled level {} root target false create).runFrom j = (.ok r, k)) :
    ((b.bindVisit level {} root target false create).runFrom j).2.bound = k.bound := by
  obtain ⟨-, hbound, -⟩ := refuseLeftovers_at_root b root target k
  unfold bindVisit
  rw [runFrom_bind, runFrom_attempt, h]
  simp only [onFinish_refusing hh]
  rw [runFrom_bind]
  rcases hcheck : (Handler.refuseLeftovers (b.visit {} root target) []).runFrom k with ⟨check, l⟩
  rw [hcheck] at hbound
  cases check <;> exact hbound

section

variable (hh : b.handler.Tolerant) (hroot : root.isEmpty = false) (hk : type.kind = .bean)
  (hc : type.constructors = []) (hm : target.method ≠ some .constructor)
  (hscalar : ∀ f ∈ type.fields, (b.resolve f.shape).isScalar = true)

include hh hroot hk hc hm hscalar

theorem notes_bindComposite (levels : Nat) :
    (b.bindComposite (b.way levels) {} root target type false).Notes
      (type.fields.reverse.flatMap (b.namesBoundFor root)) := by
  rw [bindComposite_at_root]
  cases levels with
  | zero => exact .raise_bind _ _ _
  | succ levels =>
    unfold way enter
    rw [pure_bind, assemble_of_nil hc, if_neg hm]
    unfold bindOnInstance
    rw [type.baseInstance_of_bean hk]
    refine (notes_bindFields hh (Nat.succ_ne_zero 0) rfl hroot hscalar levels).before fun so => ?_
    exact .ret _

/-- At a root, a bean notes the names of its fields that have a value. -/
theorem notes_bindShape (hs : b.resolve target.shape = .composite type) (levels : Nat) :
    (b.bindShape (b.way levels) {} root target false).Notes
      (type.fields.reverse.flatMap (b.namesBoundFor root)) := by
  have hdirect : (b.directProperty {} root target).Notes [] := by
    unfold directProperty
    split
    · exact .ret none
    · exact .of_gives (lookUp_givesNoting rfl)
  rw [bindShape_eq]
  refine hdirect.after fun property => ?_
  simp only [passesOver, bne_self_eq_false, Bool.and_false, Bool.false_eq_true, if_false, pure_bind]
  unfold bindForm bindCompositeOver
  rw [hs]
  refine (notes_bindComposite hh hroot hk hc hm hscalar levels).before fun bound => ?_
  cases bound with
  | some v => exact .ret _
  | none =>
    cases property with
    | none => exact .ret none
    | some p => exact .raise _ _

/-- What the root notes besides is its own name at most. -/
theorem bound_of_bindHandled (hs : b.resolve target.shape = .composite type) (levels : Nat)
    {create : Bool} {j k : Journal} {r : Option Value}
    (h : (b.bindHandled (b.way levels) {} root target false create).runFrom j = (.ok r, k)) :
    k.bound = type.fields.reverse.flatMap (b.namesBoundFor root) ++ j.bound ∨
      k.bound = root :: (type.fields.reverse.flatMap (b.namesBoundFor root) ++ j.bound) := by
  unfold bindHandled at h
  simp only [hh.builtin.onStart, hh.builtin.onSuccess, hh.builtin.onCreate, pure_bind, if_true] at h
  obtain ⟨bound, l, hrun, hrest⟩ := bind_ok h
  have hnotes := notes_bindShape hh hroot hk hc hm hscalar hs levels j bound l hrun
  cases bound with
  | some v =>
    right
    rw [← hnotes]
    cases hrest
    rfl
  | none =>
    left
    have hcreate : (b.create {} target).Notes [] := by
      rw [create_of_nil hs hc]
      split
      · exact .ret _
      · exact .ret _
      · exact .raise _ _
    have hnothing : (if create = true then do return some (← b.create {} target)
        else pure none : BindM (Option Value)).Notes [] := by
      split
      · exact hcreate.after fun v => .ret _
      · exact .ret none
    rw [← hnotes]
    exact hnothing l r k hrest

omit hroot hscalar in
/-- A root comes to its end if its fields can be set and no source holds its own name. -/
theorem finishes_of_settable (hs : b.resolve target.shape = .composite type)
    (hdepth : 1 ≤ b.options.maxDepth) (hget : ∀ src ∈ b.sources, src.get? root = none)
    (hf : ∀ f ∈ type.fields, b.Settable root f) (create : Bool) : b.Finishes root target create := by
  obtain ⟨levels, hlevels⟩ := Nat.exists_eq_add_of_le' hdepth
  have hshape : (b.bindShape (b.way b.options.maxDepth) {} root target false).Gives
      (.ok (b.tolerated root target type)) := by
    rw [hlevels]
    exact (bindShape_leadsTo_assemble hs hget).gives
      (assemble_tolerant hh (Nat.succ_ne_zero 0) rfl hget hk hc hf levels)
  have hcreate : ∃ v, (b.create {} target).Gives (.ok v) := by
    rw [create_of_nil hs hc, if_neg hm, type.baseInstance_of_bean hk]
    cases target.existing? with
    | some v => exact ⟨v, .ret v⟩
    | none => exact ⟨_, .ret (Value.map (type.base target))⟩
  have hhandled : ∃ r, (b.bindHandled (b.way b.options.maxDepth) {} root target false create).Gives
      (.ok r) := by
    unfold bindHandled
    simp only [hh.builtin.onStart, hh.builtin.onSuccess, hh.builtin.onCreate, pure_bind, if_true]
    cases hr : b.tolerated root target type with
    | some v => exact ⟨some v, (hr ▸ hshape).bind (Gives.bind (.note _) (.ret _))⟩
    | none =>
      cases create with
      | false => exact ⟨none, (hr ▸ hshape).bind (.ret none)⟩
      | true =>
        obtain ⟨v, hv⟩ := hcreate
        exact ⟨some v, (hr ▸ hshape).bind (hv.bind (.ret _))⟩
  obtain ⟨r, hr⟩ := hhandled
  exact ⟨r, _, Prod.ext (hr {}) rfl⟩

end

/-! ## A whole bind -/

/-- Where failures are ignored and leftovers refused, a bean of scalars is refused exactly if its root
comes to its end and some held name below it has no value: a field that does not convert is a leftover,
like a name that is no field at all. Only what lies below an index of a bound name is spared. The root
comes to its end if the fields can be set and no source holds its own name. -/
theorem bindRoot_refuses_ignored {s : Section} (hi : s.ignoreInvalid = true)
    (hu : s.ignoreUnknown = false) (hh : b.handler = s.handler) (hroot : root.isEmpty = false)
    (hs : b.resolve target.shape = .composite type) (hk : type.kind = .bean)
    (hc : type.constructors = []) (hm : target.method ≠ some .constructor)
    (hscalar : ∀ f ∈ type.fields, (b.resolve f.shape).isScalar = true) (create : Bool) :
    let run := b.bindRoot [] root target create
    ((∃ ps, run.result = .error (.bind root (.unboundProperties ps))) ↔
      b.Finishes root target create ∧ ∃ n, b.HoldsBelow root n ∧ b.NoValueAt root type.fields n ∧
        Handler.isOverriddenItem run.journal.bound n = false) ∧
    (1 ≤ b.options.maxDepth → (∀ src ∈ b.sources, src.get? root = none) →
      (∀ f ∈ type.fields, b.Settable root f) → b.Finishes root target create) := by
  have hrefuses : b.handler = .noUnbound (.ignoreErrors .default) := by
    rw [hh, Section.handler, hi, hu]
    rfl
  have htolerant : b.handler.Tolerant := hrefuses ▸ .noUnbound .ignoreErrors
  refine ⟨?_, ?_⟩
  · simp only [bindRoot_error_iff, bindAt_eq_bindVisit, bindVisit_refuses_iff hrefuses]
    have hbound : (b.bindRoot [] root target create).journal.bound =
        ((b.bindVisit (b.way b.options.maxDepth) {} root target false create).runFrom {}).2.bound := by
      rw [← bindAt_eq_bindVisit]
      rfl
    -- Of the names below the root, those are noted at which a field has a value.
    have hnames : ∀ r k, (b.bindHandled (b.way b.options.maxDepth) {} root target false create).runFrom
        {} = (.ok r, k) → ∀ n, b.HoldsBelow root n →
          (k.bound.contains n = false ↔ b.NoValueAt root type.fields n) := by
      intro r k hrun n hn
      rw [← contains_namesBoundFor]
      rcases bound_of_bindHandled htolerant hroot hk hc hm hscalar hs _ hrun with hk' | hk'
      · rw [hk', List.append_nil]
      · rw [hk', List.append_nil, List.contains_cons, ne_of_isAncestorOf hn.1, Bool.false_or]
    constructor
    · rintro ⟨r, k, hrun, n, hn, hunbound, hspared⟩
      refine ⟨⟨r, k, hrun⟩, n, hn, (hnames r k hrun n hn).mp hunbound, ?_⟩
      rw [hbound, bound_of_bindVisit hrefuses hrun]
      exact hspared
    · rintro ⟨⟨r, k, hrun⟩, n, hn, hunbound, hspared⟩
      refine ⟨r, k, hrun, n, hn, (hnames r k hrun n hn).mpr hunbound, ?_⟩
      rw [hbound, bound_of_bindVisit hrefuses hrun] at hspared
      exact hspared
  · exact fun hdepth hget hf => finishes_of_settable htolerant hk hc hm hs hdepth hget hf create

/-- A client with a number of retries that does not convert, and a timeout. -/
def clientEntries : Entries :=
  .ofList [("client.retries", .string "many"), ("client.timeout", .string "30")]

/-- A part of the configuration of which invalid values are ignored and unknown names are not. -/
def clientSection : Section := { root := "client", ignoreInvalid := true, ignoreUnknown := false }

/-- The client is refused: its root comes to its end, and the retries have no value. -/
theorem bindRoot_refuses_ignored_client :
    let b : Binder := { sources := [.entries "test" clientEntries], definitions := Typed.definitions,
                        handler := clientSection.handler }
    let target := Target.of (Typed.struct .client).shape
    ∃ ps, (b.bindRoot [] (Name.adapt "client" '.') target true).result =
      .error (.bind (Name.adapt "client" '.') (.unboundProperties ps)) := by
  intro b target
  have hfields : ∀ f ∈ Struct.client.composite.fields, b.Settable (Name.adapt "client" '.') f :=
    List.forall_iff_forall_mem.mp ⟨⟨rfl, rfl, _, rfl⟩, ⟨rfl, rfl, _, rfl⟩⟩
  obtain ⟨hiff, hfinishes⟩ := @bindRoot_refuses_ignored b (Name.adapt "client" '.') target
    Struct.client.composite clientSection rfl rfl rfl rfl rfl rfl rfl (by decide)
    (fun f hf => (hfields f hf).scalar) true
  refine hiff.mpr ⟨hfinishes (by decide) (List.forall_mem_singleton.mpr rfl) hfields,
    Name.adapt "client.retries" '.', ⟨by decide +kernel, _, .head _, ?_, by decide +kernel⟩, ?_, ?_⟩
  · exact .head _
  · refine List.forall_iff_forall_mem.mp ⟨fun child _ _ => by rfl, fun child hchild hn => ?_⟩
    cases hchild
    revert hn
    decide +kernel
  · decide +kernel

/-- All names below the root are those of fields, and yet the client is refused, for its retries. -/
theorem bind_refuses_known_field :
    let b : Binder := { sources := [.entries "test" clientEntries], definitions := Typed.definitions }
    (∀ n ∈ clientEntries.names, ∃ f ∈ Struct.client.composite.fields, ∃ child,
      (Name.adapt "client" '.').extend? (Name.dashed f.name) = .ok child ∧ (n == child) = true) ∧
    ∃ ps, (clientSection.bind b (.struct .client)).result =
      .error (.bind (Name.adapt "client" '.') (.unboundProperties ps)) ∧
      ps.map (·.name.text) = ["client.retries"] := by
  refine ⟨List.forall_iff_forall_mem.mp ⟨?_, ?_⟩, _, by rfl, by decide +kernel⟩
  · exact ⟨_, .head _, _, rfl, by decide +kernel⟩
  · exact ⟨_, .tail _ (.head _), _, rfl, by decide +kernel⟩

end Binder

end TypedConfig
