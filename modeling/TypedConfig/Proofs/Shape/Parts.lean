import Mathlib.Data.Finset.Card
import Mathlib.Data.Nat.Find
import TypedConfig.Shape.Basic

/-!
# References and the parts of a shape

* `Definitions.resolve_isRef`: a chain of references that the definitions do not end within their
  own number runs in a circle: following it once more gives a reference again.
* `Definitions.resolve_resolve`: what a reference stands for needs no more following.
* `Composite.Member`: the parameters and fields of a composite.
* `Definitions.Part`: the shapes that binding a target can come to, through elements, entries,
  members and references. A shape may be a part of itself. `Definitions.Part.of_closed` proves
  something of all parts.
* `Shape.AllComposites`: what holds of all composites in a shape holds of all those in its parts.
* `Definitions.InPlace`: the parts that are bound onto a value of their own that is there, which are
  not in an element or an entry. `Shape.AllInPlace` is what holds of all composites among them.
-/

namespace TypedConfig

/-! ## References -/

namespace Shape

/-- The shape is a reference. -/
def isRef : Shape → Bool
  | ref _ => true
  | _ => false

theorem isRef_of_element? {s element : Shape} (h : s.element? = some element) : s.isRef = false := by
  cases s <;> first | rfl | cases h

end Shape

namespace Definitions

variable {defs : Definitions} {s : Shape}

theorem follow_of_not_isRef (h : s.isRef = false) (n : Nat) : defs.follow n s = s := by
  cases n with
  | zero => rfl
  | succ n => cases s <;> first | rfl | cases h

theorem follow_of_undefined {r : Reference} (h : Keyed.find? r defs = none) (n : Nat) :
    defs.follow n (.ref r) = .ref r := by
  cases n with
  | zero => rfl
  | succ n => simp only [follow, h]

theorem follow_add (m n : Nat) (s : Shape) :
    defs.follow (m + n) s = defs.follow n (defs.follow m s) := by
  induction m generalizing s with
  | zero => rw [Nat.zero_add]; rfl
  | succ m ih =>
    rw [Nat.succ_add]
    cases hs : s.isRef with
    | false => rw [follow_of_not_isRef hs, follow_of_not_isRef hs, follow_of_not_isRef hs]
    | true =>
      cases s with
      | ref r =>
        cases hr : Keyed.find? r defs with
        | none => rw [follow_of_undefined hr, follow_of_undefined hr, follow_of_undefined hr]
        | some t => simp only [follow, hr]; exact ih t
      | _ => cases hs

theorem mem_keys_of_find? {r : Reference} {t : Shape} (h : Keyed.find? r defs = some t) :
    r ∈ defs.map (·.1) := by
  induction defs with
  | nil => cases h
  | cons entry rest ih =>
    simp only [Keyed.find?] at h
    split at h
    · rename_i hk; simp [← beq_iff_eq.mp hk]
    · exact List.mem_cons_of_mem _ (ih h)

/-- The reference that `n` steps lead to. -/
private def refAt (defs : Definitions) (s : Shape) (n : Nat) : Option Reference :=
  match defs.follow n s with
  | .ref r => some r
  | _ => none

/-- As long as the chain goes on to something else, each step leads to another defined reference. -/
private theorem refAt_mem {n i : Nat} (hn : (defs.follow n s).isRef = false)
    (hi : (defs.follow i s).isRef = true) (hle : i ≤ n) :
    ∃ r, refAt defs s i = some r ∧ r ∈ defs.map (·.1) := by
  unfold refAt
  obtain ⟨k, rfl⟩ := Nat.exists_eq_add_of_le hle
  rw [follow_add] at hn
  cases hs : defs.follow i s with
  | ref r =>
    refine ⟨r, rfl, ?_⟩
    cases hr : Keyed.find? r defs with
    | none => rw [hs, follow_of_undefined hr] at hn; cases hn
    | some t => exact mem_keys_of_find? hr
  | _ => rw [hs] at hi; cases hi

/-- A chain that ends at all ends within the number of definitions. -/
theorem exists_follow_le {n : Nat} (hn : (defs.follow n s).isRef = false) :
    ∃ m ≤ defs.length, (defs.follow m s).isRef = false := by
  classical
  have hex : ∃ n, (defs.follow n s).isRef = false := ⟨n, hn⟩
  have hm := Nat.find_spec hex
  refine ⟨Nat.find hex, ?_, hm⟩
  have hlt : ∀ i < Nat.find hex, (defs.follow i s).isRef = true := fun i hi => by
    simpa using Nat.find_min hex hi
  -- The references before the end are all different, since a repeated one could be left out.
  have hinj : ∀ i < Nat.find hex, ∀ j < Nat.find hex,
      refAt defs s i = refAt defs s j → i ≤ j → i = j := by
    intro i hi j hj hij hle
    by_contra hne
    obtain ⟨r, hr, -⟩ := refAt_mem hm (hlt i hi) (Nat.le_of_lt hi)
    have hfi : defs.follow i s = .ref r := by
      unfold refAt at hr; split at hr <;> simp_all
    have hfj : defs.follow j s = .ref r := by
      rw [hij] at hr; unfold refAt at hr; split at hr <;> simp_all
    have hshort : (defs.follow (i + (Nat.find hex - j)) s).isRef = false := by
      rw [follow_add, hfi, ← hfj, ← follow_add, Nat.add_sub_cancel' (Nat.le_of_lt hj)]
      exact hm
    rw [hlt _ (by omega)] at hshort
    cases hshort
  have hcard : (Finset.range (Nat.find hex)).card ≤
      ((defs.map (·.1)).toFinset.image some).card := by
    refine Finset.card_le_card_of_injOn (refAt defs s) (fun i hi => ?_) (fun i hi j hj h => ?_)
    · have hi := Finset.mem_range.mp hi
      obtain ⟨r, hr, hmem⟩ := refAt_mem hm (hlt i hi) (Nat.le_of_lt hi)
      simp only [Finset.coe_image, Set.mem_image, Finset.mem_coe, List.mem_toFinset]
      exact ⟨r, hmem, hr.symm⟩
    · have hi := Finset.mem_range.mp hi
      have hj := Finset.mem_range.mp hj
      rcases Nat.le_total i j with hle | hle
      · exact hinj i hi j hj h hle
      · exact (hinj j hj i hi h.symm hle).symm
  rw [Finset.card_range] at hcard
  calc Nat.find hex ≤ ((defs.map (·.1)).toFinset.image some).card := hcard
    _ ≤ (defs.map (·.1)).toFinset.card := Finset.card_image_le
    _ ≤ (defs.map (·.1)).length := List.toFinset_card_le _
    _ = defs.length := List.length_map _

/-- A reference that is left after resolving runs in a circle or is undefined, and no number of
steps leads out of it. -/
theorem resolve_isRef (h : (defs.resolve s).isRef = true) (n : Nat) :
    (defs.follow n (defs.resolve s)).isRef = true := by
  rw [← Bool.not_eq_false]
  intro hn
  unfold resolve at hn
  rw [← follow_add] at hn
  obtain ⟨m, hm, hend⟩ := exists_follow_le hn
  obtain ⟨k, hk⟩ := Nat.exists_eq_add_of_le (Nat.le_succ_of_le hm)
  unfold resolve at h
  rw [show defs.length + 1 = m + k from hk, follow_add, follow_of_not_isRef hend, hend] at h
  cases h

/-- What a reference stands for is no reference that could be followed. -/
theorem resolve_resolve (h : (defs.resolve (defs.resolve s)).isRef = false) :
    defs.resolve (defs.resolve s) = defs.resolve s := by
  cases hs : (defs.resolve s).isRef with
  | true => rw [resolve, resolve_isRef hs] at h; cases h
  | false => exact follow_of_not_isRef hs _

end Definitions

/-! ## Parts -/

/-- The composite has a parameter or a field of a name and a shape. -/
inductive Composite.Member (type : Composite Shape) : String → Shape → Prop
  | param {ctor : Constructor Shape} {p : Parameter Shape} (hc : ctor ∈ type.constructors)
      (hp : p ∈ ctor.params) : Member type p.name p.shape
  | field {f : Field Shape} (hf : f ∈ type.fields) : Member type f.name f.shape

/-- The second shape occurs in the first, at some depth. -/
inductive Definitions.Part (defs : Definitions) : Shape → Shape → Prop
  | self (s : Shape) : Part defs s s
  | resolved {s t : Shape} (h : Part defs (defs.resolve s) t) : Part defs s t
  | element {s e t : Shape} (he : s.element? = some e) (h : Part defs e t) : Part defs s t
  | entry {key : ScalarKind} {value t : Shape} (h : Part defs value t) : Part defs (.map key value) t
  | member {type : Composite Shape} {name : String} {s t : Shape} (hm : type.Member name s)
      (h : Part defs s t) : Part defs (.composite type) t

/-- What holds of a shape and goes down to meanings, elements, entries and members holds of all its
parts. -/
theorem Definitions.Part.of_closed {defs : Definitions} {P : Shape → Prop}
    (hresolve : ∀ s, P s → P (defs.resolve s)) (helement : ∀ s e, s.element? = some e → P s → P e)
    (hentry : ∀ key value, P (.map key value) → P value)
    (hmember : ∀ type id s, type.Member id s → P (.composite type) → P s) {s t : Shape}
    (h : defs.Part s t) (hs : P s) : P t := by
  induction h with
  | self s => exact hs
  | resolved h ih => exact ih (hresolve _ hs)
  | element he h ih => exact ih (helement _ _ he hs)
  | entry h ih => exact ih (hentry _ _ hs)
  | member hm h ih => exact ih (hmember _ _ _ hm hs)

/-- The second shape is the first or a member of it, at some depth. An element or an entry is bound as
if nothing was there, so what occurs in one is not meant. -/
inductive Definitions.InPlace (defs : Definitions) : Shape → Shape → Prop
  | self (s : Shape) : InPlace defs s s
  | resolved {s t : Shape} (h : InPlace defs (defs.resolve s) t) : InPlace defs s t
  | member {type : Composite Shape} {name : String} {s t : Shape} (hm : type.Member name s)
      (h : InPlace defs s t) : InPlace defs (.composite type) t

/-! ## The composites in a shape -/

/-- All composites in the shape are such. -/
def Shape.AllComposites (defs : Definitions) (P : Composite Shape → Prop) (shape : Shape) : Prop :=
  ∀ type, defs.Part shape (.composite type) → P type

namespace Shape.AllComposites

variable {defs : Definitions} {P : Composite Shape → Prop} {shape : Shape}

theorem resolve (h : shape.AllComposites defs P) : (defs.resolve shape).AllComposites defs P :=
  fun type hp => h type (.resolved hp)

theorem element {element : Shape} (h : shape.AllComposites defs P)
    (hs : (defs.resolve shape).element? = some element) : element.AllComposites defs P :=
  fun type hp => h.resolve type (.element hs hp)

theorem entry {key : ScalarKind} {value : Shape} (h : shape.AllComposites defs P)
    (hs : defs.resolve shape = .map key value) : value.AllComposites defs P := by
  have hr := h.resolve
  rw [hs] at hr
  exact fun type hp => hr type (.entry hp)

theorem composite {type : Composite Shape} (h : shape.AllComposites defs P)
    (hs : defs.resolve shape = .composite type) : P type := by
  have hr := h.resolve
  rw [hs] at hr
  exact hr type (.self _)

theorem member {type : Composite Shape} {id : String} {part : Shape}
    (h : shape.AllComposites defs P) (hs : defs.resolve shape = .composite type)
    (hm : type.Member id part) : part.AllComposites defs P := by
  have hr := h.resolve
  rw [hs] at hr
  exact fun inner hp => hr inner (.member hm hp)

/-- The composites in a shape are the shape itself and those in its elements, entries and members. -/
theorem intro (href : shape.isRef = false)
    (helement : ∀ element, shape.element? = some element → element.AllComposites defs P)
    (hentry : ∀ key value, shape = .map key value → value.AllComposites defs P)
    (hcomposite : ∀ type, shape = .composite type →
      P type ∧ ∀ id part, type.Member id part → part.AllComposites defs P) :
    shape.AllComposites defs P := by
  have hresolve : defs.resolve shape = shape := Definitions.follow_of_not_isRef href _
  intro type hpart
  generalize htype : Shape.composite type = part at hpart
  induction hpart with
  | self s => exact (hcomposite type htype.symm).1
  | resolved h ih =>
    rw [hresolve] at h ih
    exact ih href helement hentry hcomposite hresolve htype
  | element he h => exact helement _ he type (htype ▸ h)
  | entry h => exact hentry _ _ rfl type (htype ▸ h)
  | member hm h => exact (hcomposite _ rfl).2 _ _ hm type (htype ▸ h)

theorem scalar (kind : ScalarKind) : (Shape.scalar kind).AllComposites defs P :=
  intro rfl (fun _ h => by cases h) (fun _ _ h => by cases h) fun _ h => by cases h

theorem of_element {element : Shape} (hs : shape.element? = some element)
    (h : element.AllComposites defs P) : shape.AllComposites defs P := by
  refine intro (isRef_of_element? hs) (fun element' hs' => ?_) (fun _ _ hm => ?_) fun _ hc => ?_
  · cases hs.symm.trans hs'
    exact h
  · rw [hm] at hs
    cases hs
  · rw [hc] at hs
    cases hs

theorem of_composite {type : Composite Shape} (h : P type)
    (hparams : ∀ ctor ∈ type.constructors, ∀ p ∈ ctor.params, p.shape.AllComposites defs P)
    (hfields : ∀ field ∈ type.fields, field.shape.AllComposites defs P) :
    (Shape.composite type).AllComposites defs P := by
  refine intro rfl (fun _ hs => by cases hs) (fun _ _ hs => by cases hs) fun type' hs => ?_
  cases hs
  refine ⟨h, fun id part hm => ?_⟩
  cases hm with
  | param hc hp => exact hparams _ hc _ hp
  | field hf => exact hfields _ hf

end Shape.AllComposites

/-- All composites that are bound in place in the shape are such. -/
def Shape.AllInPlace (defs : Definitions) (P : Composite Shape → Prop) (shape : Shape) : Prop :=
  ∀ type, defs.InPlace shape (.composite type) → P type

namespace Shape.AllInPlace

variable {defs : Definitions} {P : Composite Shape → Prop} {shape : Shape} {type : Composite Shape}

theorem composite (h : shape.AllInPlace defs P) (hs : defs.resolve shape = .composite type) :
    P type :=
  h type (.resolved (hs ▸ .self _))

theorem member {id : String} {part : Shape} (h : shape.AllInPlace defs P)
    (hs : defs.resolve shape = .composite type) (hm : type.Member id part) :
    part.AllInPlace defs P :=
  fun inner hp => h inner (.resolved (hs ▸ .member hm hp))

/-- The composites that are bound in place in a shape are the shape itself and those in its members. -/
theorem intro (href : shape.isRef = false)
    (h : ∀ type, shape = .composite type →
      P type ∧ ∀ id part, type.Member id part → part.AllInPlace defs P) :
    shape.AllInPlace defs P := by
  have hresolve : defs.resolve shape = shape := Definitions.follow_of_not_isRef href _
  intro type hpart
  generalize htype : Shape.composite type = part at hpart
  induction hpart with
  | self s => exact (h type htype.symm).1
  | resolved hp ih =>
    rw [hresolve] at hp ih
    exact ih href h hresolve htype
  | member hm hp => exact (h _ rfl).2 _ _ hm type (htype ▸ hp)

theorem scalar (kind : ScalarKind) : (Shape.scalar kind).AllInPlace defs P :=
  intro rfl fun _ h => by cases h

theorem of_element {element : Shape} (hs : shape.element? = some element) :
    shape.AllInPlace defs P := by
  refine intro (isRef_of_element? hs) fun _ hc => ?_
  rw [hc] at hs
  cases hs

theorem of_composite (h : P type)
    (hparams : ∀ ctor ∈ type.constructors, ∀ p ∈ ctor.params, p.shape.AllInPlace defs P)
    (hfields : ∀ field ∈ type.fields, field.shape.AllInPlace defs P) :
    (Shape.composite type).AllInPlace defs P := by
  refine intro rfl fun type' hs => ?_
  cases hs
  refine ⟨h, fun id part hm => ?_⟩
  cases hm with
  | param hc hp => exact hparams _ hc _ hp
  | field hf => exact hfields _ hf

end Shape.AllInPlace

end TypedConfig
