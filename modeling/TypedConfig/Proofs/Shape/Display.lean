import Mathlib.Data.List.FinRange
import TypedConfig.Proofs.Keyed
import TypedConfig.Proofs.Shape.Parts

/-!
# Where the text of a shape ends

The text of a collection or map shows what is inside, and that may be the collection itself. Such a
text has no end, and no other has none: the shapes inside one another are all written in the shape or
in the definitions, so a text that ends at all ends within as many levels as these have together.

* `Definitions.displayEnds_iff`: a text ends exactly if it does within some number of levels.
* `Definitions.displayEnds_inner`: then the text of what is inside ends too.
* `Definitions.displayEndsWithin_of_inner_self`: the text of what has itself inside does not end.
* `Definitions.displayEnds_of_definitions`: where no definition is a collection or map, all texts end.
* `Shape.Displayable`: the texts of all parts of a shape end.
-/

namespace TypedConfig

/-! ## Shapes that are written out -/

namespace Shape

/-- The shape and those that are written inside of it, one in the other. -/
def spine : Shape → List Shape
  | array inner => array inner :: inner.spine
  | list inner => list inner :: inner.spine
  | set inner => set inner :: inner.spine
  | map key inner => map key inner :: inner.spine
  | scalar kind => [scalar kind]
  | composite type => [composite type]
  | ref target => [ref target]

theorem length_spine (s : Shape) : s.spine.length = s.nesting + 1 := by
  induction s using spine.induct <;> simp_all [spine, nesting]

theorem self_mem_spine (s : Shape) : s ∈ s.spine := by
  cases s <;> exact .head _

theorem inner?_of_isRef {s : Shape} (h : s.isRef = true) : s.inner? = none := by
  cases s <;> first | rfl | cases h

theorem inner?_of_element? {s element : Shape} (h : s.element? = some element) :
    s.inner? = some element := by
  cases s <;> cases h <;> rfl

theorem inner_mem_spine {s t u : Shape} (h : t ∈ s.spine) (hu : t.inner? = some u) : u ∈ s.spine := by
  induction s using spine.induct with
  | case1 inner ih | case2 inner ih | case3 inner ih | case4 _ inner ih =>
    rcases List.mem_cons.mp h with rfl | h
    · cases hu
      exact .tail _ (self_mem_spine _)
    · exact .tail _ (ih h)
  | case5 | case6 | case7 =>
    rw [List.mem_singleton.mp h] at hu
    cases hu

end Shape

namespace Definitions

variable {defs : Definitions} {s t : Shape} {n m : Nat}

/-- The shapes that are written in a shape or in the definitions. -/
def written (defs : Definitions) (shape : Shape) : List Shape :=
  shape.spine ++ defs.flatMap fun d => d.2.spine

theorem length_written (defs : Definitions) (shape : Shape) :
    (defs.written shape).length = defs.levels shape := by
  rw [written, levels, List.length_append, Shape.length_spine]
  congr 1
  induction defs with
  | nil => rfl
  | cons d rest ih =>
    rw [List.flatMap_cons, List.length_append, Shape.length_spine, ih]
    rfl

theorem follow_mem (defs : Definitions) (n : Nat) (s : Shape) :
    defs.follow n s = s ∨ ∃ d ∈ defs, defs.follow n s = d.2 := by
  induction n generalizing s with
  | zero => exact .inl rfl
  | succ n ih =>
    cases hs : s.isRef with
    | false => exact .inl (follow_of_not_isRef hs _)
    | true =>
      cases s with
      | ref r =>
        cases hr : Keyed.find? r defs with
        | none => exact .inl (follow_of_undefined hr _)
        | some t =>
          have hfollow : defs.follow (n + 1) (.ref r) = defs.follow n t := by simp only [follow, hr]
          rw [hfollow]
          obtain ⟨k, hk, -⟩ := Keyed.mem_of_find? hr
          rcases ih t with h | h
          · exact .inr ⟨(k, t), hk, h⟩
          · exact .inr h
      | _ => cases hs

/-- What is inside of what a written shape stands for is written. -/
theorem inner_mem_written {shape : Shape} (h : s ∈ defs.written shape)
    (ht : (defs.resolve s).inner? = some t) : t ∈ defs.written shape := by
  unfold written at h ⊢
  rcases follow_mem defs (defs.length + 1) s with heq | ⟨d, hd, heq⟩
  · rw [resolve, heq] at ht
    rcases List.mem_append.mp h with h | h
    · exact List.mem_append_left _ (Shape.inner_mem_spine h ht)
    · obtain ⟨d, hd, h⟩ := List.mem_flatMap.mp h
      exact List.mem_append_right _ (List.mem_flatMap.mpr ⟨d, hd, Shape.inner_mem_spine h ht⟩)
  · rw [resolve, heq] at ht
    refine List.mem_append_right _ (List.mem_flatMap.mpr ⟨d, hd, ?_⟩)
    exact Shape.inner_mem_spine (Shape.self_mem_spine _) ht

/-! ## Texts that end -/

theorem displayEndsWithin_succ (h : (defs.resolve s).inner? = some t) (n : Nat) :
    defs.displayEndsWithin (n + 1) s = defs.displayEndsWithin n t := by
  rw [displayEndsWithin, h]

/-- A shape with nothing inside has a text of one level. -/
theorem displayEndsWithin_of_inner_none (h : (defs.resolve s).inner? = none) (n : Nat) :
    defs.displayEndsWithin (n + 1) s = true := by
  rw [displayEndsWithin, h]

theorem displayEndsWithin_mono (h : defs.displayEndsWithin n s = true) (hle : n ≤ m) :
    defs.displayEndsWithin m s = true := by
  induction n generalizing m s with
  | zero => cases h
  | succ n ih =>
    obtain ⟨m, rfl⟩ := Nat.exists_eq_add_of_le' (Nat.le_trans (Nat.succ_pos n) hle)
    cases hinner : (defs.resolve s).inner? with
    | none => exact displayEndsWithin_of_inner_none hinner m
    | some t =>
      rw [displayEndsWithin_succ hinner] at h ⊢
      exact ih h (Nat.le_of_succ_le_succ hle)

/-- The text of what has itself inside does not end. -/
theorem displayEndsWithin_of_inner_self (h : (defs.resolve s).inner? = some s) (n : Nat) :
    defs.displayEndsWithin n s = false := by
  induction n with
  | zero => rfl
  | succ n ih => rw [displayEndsWithin_succ h, ih]

/-- The text needs just so many levels. -/
def Needs (defs : Definitions) (s : Shape) (n : Nat) : Prop :=
  defs.displayEndsWithin n s = true ∧ ∀ m < n, defs.displayEndsWithin m s = false

theorem Needs.unique (hn : defs.Needs s n) (hm : defs.Needs s m) : n = m := by
  rcases Nat.lt_trichotomy n m with h | h | h
  · exact absurd hn.1 (by simp [hm.2 n h])
  · exact h
  · exact absurd hm.1 (by simp [hn.2 m h])

/-- What is inside needs one level less. -/
theorem Needs.inner (h : defs.Needs s (n + 2)) :
    ∃ t, (defs.resolve s).inner? = some t ∧ defs.Needs t (n + 1) := by
  cases hinner : (defs.resolve s).inner? with
  | none =>
    have hone := h.2 (n + 1) (Nat.lt_succ_self _)
    rw [displayEndsWithin_of_inner_none hinner] at hone
    cases hone
  | some t =>
    refine ⟨t, rfl, ?_, fun m hm => ?_⟩
    · rw [← displayEndsWithin_succ hinner]
      exact h.1
    · rw [← displayEndsWithin_succ hinner]
      exact h.2 _ (Nat.succ_lt_succ hm)

/-- A text that needs so many levels has a written shape inside for every smaller number of them. -/
theorem Needs.exists_written {shape : Shape} (hs : s ∈ defs.written shape) (h : defs.Needs s n)
    (hm : m < n) : ∃ t ∈ defs.written shape, defs.Needs t (m + 1) := by
  induction n generalizing s with
  | zero => cases hm
  | succ n ih =>
    rcases Nat.lt_or_eq_of_le (Nat.le_of_lt_succ hm) with hlt | rfl
    · obtain ⟨n, rfl⟩ := Nat.exists_eq_add_of_le' (Nat.lt_of_le_of_lt (Nat.zero_le _) hlt)
      obtain ⟨t, ht, hneeds⟩ := h.inner
      exact ih (inner_mem_written hs ht) hneeds hlt
    · exact ⟨s, hs, h⟩

/-- No text needs more levels than the shape and the definitions have: the shapes inside one another
need different numbers of levels, and all of them are written. -/
theorem Needs.le_levels (h : defs.Needs s n) : n ≤ defs.levels s := by
  classical
  have hwritten : ∀ m : Fin n, ∃ t ∈ defs.written s, defs.Needs t (m + 1) := fun m =>
    h.exists_written (List.mem_append_left _ (Shape.self_mem_spine s)) m.2
  choose inside hmem hneeds using hwritten
  have hinj : Function.Injective inside := by
    intro i j hij
    have hj := hneeds j
    rw [← hij] at hj
    exact Fin.ext (Nat.succ.inj ((hneeds i).unique hj))
  calc n = (List.ofFn inside).length := (List.length_ofFn).symm
    _ ≤ (defs.written s).length := by
      refine ((List.nodup_ofFn.mpr hinj).subperm fun t ht => ?_).length_le
      obtain ⟨i, rfl⟩ := List.mem_ofFn.mp ht
      exact hmem i
    _ = defs.levels s := defs.length_written s

/-- The text of a shape ends exactly if it does within some number of levels. -/
theorem displayEnds_iff : defs.displayEnds s = true ↔ ∃ n, defs.displayEndsWithin n s = true := by
  classical
  refine ⟨fun h => ⟨_, h⟩, fun h => ?_⟩
  have hneeds : defs.Needs s (Nat.find h) :=
    ⟨Nat.find_spec h, fun m hm => by simpa using Nat.find_min h hm⟩
  exact displayEndsWithin_mono hneeds.1 hneeds.le_levels

/-- Where a text ends, that of what is inside does too. -/
theorem displayEnds_inner (h : (defs.resolve s).inner? = some t) :
    defs.displayEnds s = true ↔ defs.displayEnds t = true := by
  rw [displayEnds_iff, displayEnds_iff]
  constructor
  · rintro ⟨_ | n, hn⟩
    · cases hn
    · exact ⟨n, displayEndsWithin_succ h n ▸ hn⟩
  · rintro ⟨n, hn⟩
    exact ⟨n + 1, displayEndsWithin_succ h n ▸ hn⟩

theorem displayEnds_of_inner_none (h : (defs.resolve s).inner? = none) : defs.displayEnds s = true :=
  displayEnds_iff.mpr ⟨1, displayEndsWithin_of_inner_none h 0⟩

/-- What a shape stands for has inside what that stands for has. -/
theorem inner?_resolve_resolve (defs : Definitions) (s : Shape) :
    (defs.resolve (defs.resolve s)).inner? = (defs.resolve s).inner? := by
  cases hr : (defs.resolve s).isRef with
  | true =>
    have hagain : (defs.resolve (defs.resolve s)).isRef = true := resolve_isRef hr _
    rw [Shape.inner?_of_isRef hr, Shape.inner?_of_isRef hagain]
  | false => rw [show defs.resolve (defs.resolve s) = defs.resolve s from follow_of_not_isRef hr _]

/-- The text of a shape ends where that of what it stands for does. -/
theorem displayEnds_resolve (h : defs.displayEnds s = true) :
    defs.displayEnds (defs.resolve s) = true := by
  cases hinner : (defs.resolve s).inner? with
  | none => exact displayEnds_of_inner_none ((inner?_resolve_resolve defs s).trans hinner)
  | some t =>
    have hagain := (inner?_resolve_resolve defs s).trans hinner
    exact (displayEnds_inner hagain).mpr ((displayEnds_inner hinner).mp h)

/-- Where no definition is a collection or map, all texts end: a text goes through what is written and
comes to something with nothing inside. -/
theorem displayEnds_of_definitions (h : ∀ d ∈ defs, d.2.inner? = none) (s : Shape) :
    defs.displayEnds s = true := by
  induction s using Shape.spine.induct with
  | case1 inner ih | case2 inner ih | case3 inner ih => exact (displayEnds_inner rfl).mpr ih
  | case4 key inner ih => exact (displayEnds_inner rfl).mpr ih
  | case5 kind => exact displayEnds_of_inner_none rfl
  | case6 type => exact displayEnds_of_inner_none rfl
  | case7 target =>
    refine displayEnds_of_inner_none ?_
    rcases follow_mem defs (defs.length + 1) (.ref target) with heq | ⟨d, hd, heq⟩
    · rw [resolve, heq]
      rfl
    · rw [resolve, heq]
      exact h d hd

end Definitions

/-! ## The texts of all parts -/

/-- The texts of all parts of the shape end. -/
def Shape.Displayable (defs : Definitions) (shape : Shape) : Prop :=
  ∀ s, defs.Part shape s → defs.displayEnds s = true

namespace Shape.Displayable

variable {defs : Definitions} {shape : Shape}

theorem ends (h : shape.Displayable defs) : defs.displayEnds shape = true := h shape (.self shape)

theorem resolve (h : shape.Displayable defs) : (defs.resolve shape).Displayable defs :=
  fun s hs => h s (.resolved hs)

theorem inner {inner : Shape} (h : shape.Displayable defs)
    (hs : (defs.resolve shape).inner? = some inner) : inner.Displayable defs := by
  have hr := h.resolve
  generalize defs.resolve shape = r at hs hr
  cases r with
  | array _ | list _ | set _ => cases hs; exact fun s hp => hr s (.element rfl hp)
  | map _ _ => cases hs; exact fun s hp => hr s (.entry hp)
  | scalar _ | composite _ | ref _ => cases hs

theorem member {type : Composite Shape} {id : String} {part : Shape} (h : shape.Displayable defs)
    (hs : defs.resolve shape = .composite type) (hm : type.Member id part) :
    part.Displayable defs := by
  have hr := h.resolve
  rw [hs] at hr
  exact fun s hp => hr s (.member hm hp)

theorem of_scalar {kind : ScalarKind} (hs : defs.resolve shape = .scalar kind) :
    shape.Displayable defs := by
  intro s hpart
  have hinner : ∀ t, defs.resolve t = .scalar kind → (defs.resolve t).inner? = none :=
    fun t ht => by rw [ht]; rfl
  induction hpart with
  | self s => exact Definitions.displayEnds_of_inner_none (hinner s hs)
  | resolved _ ih => exact ih (by rw [hs]; exact Definitions.follow_of_not_isRef rfl _)
  | element he _ =>
    rw [Definitions.resolve, Definitions.follow_of_not_isRef (isRef_of_element? he)] at hs
    rw [hs] at he
    cases he
  | entry _ => cases hs
  | member _ _ => cases hs

theorem of_element {element : Shape} (hs : (defs.resolve shape).element? = some element)
    (h : element.Displayable defs) : shape.Displayable defs := by
  intro s hpart
  induction hpart with
  | self s =>
    exact (Definitions.displayEnds_inner (inner?_of_element? hs)).mpr h.ends
  | resolved _ ih =>
    refine ih ?_
    rwa [Definitions.resolve, Definitions.follow_of_not_isRef (isRef_of_element? hs)]
  | element he hp =>
    rw [Definitions.resolve, Definitions.follow_of_not_isRef (isRef_of_element? he), he] at hs
    cases hs
    exact h _ hp
  | entry _ => cases hs
  | member _ _ => cases hs

end Shape.Displayable

end TypedConfig
