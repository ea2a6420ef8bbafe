import TypedConfig.Bind.Basic
import TypedConfig.Proofs.Name.Built

/-!
# Runs of binding steps

`runFrom` opens a computation of `BindM` on a journal: the outcome and the journal after it. The
equations here take it apart step by step, so no later proof looks into the monad.

* `BindM.Yields x Q`: if `x` does not fail, its value satisfies `Q`. Nothing is said of journals.
* `BindM.Gives x r`: from every journal, `x` comes to `r`.
* `BindM.LeadsTo x y`: `x` is `y`, after some notes.
* `BindM.Agree c V x y`: `x` and `y`, run from journals that the comparison `c` relates, both end in
  values that `V` relates, or both fail with errors that `c` relates; the journals stay related.
  `Comparison.equal` asks for the same run, `Comparison.apartFromOrigins` forgets where the
  properties in errors come from, and all journals; `Comparison.whereFirstEnds` asks for nothing
  where the first run fails. A comparison says which failures of the first run it excuses so
  (`BindM.Excused`). What such a run noted is not compared either.
-/

namespace TypedConfig

namespace BindM

variable {α β γ δ : Type} {j : Journal}

@[simp] theorem runFrom_pure (a : α) : (pure a : BindM α).runFrom j = (.ok a, j) := rfl

@[simp] theorem runFrom_throw (e : BindError) :
    (throw e : BindM α).runFrom j = (.error e, j) := rfl

@[simp] theorem runFrom_modify (f : Journal → Journal) :
    (modify f : BindM Unit).runFrom j = (.ok (), f j) := rfl

@[simp] theorem runFrom_get : (get : BindM Journal).runFrom j = (.ok j, j) := rfl

@[simp] theorem runFrom_attempt (x : BindM α) :
    (attempt x).runFrom j = (.ok (x.runFrom j).1, (x.runFrom j).2) := rfl

theorem runFrom_bind (x : BindM α) (f : α → BindM β) :
    (x >>= f).runFrom j = match x.runFrom j with
      | (.ok a, k) => (f a).runFrom k
      | (.error e, k) => (.error e, k) := by
  simp only [runFrom, ExceptT.run_bind, StateT.run_bind]
  show Id.run (StateT.run _ j >>= _) = _
  cases h : (StateT.run (ExceptT.run x) j : Id _) with
  | mk r k => cases r <;> rfl

theorem runFrom_bind_ok {x : BindM α} {a : α} {k : Journal} (h : x.runFrom j = (.ok a, k))
    (f : α → BindM β) : (x >>= f).runFrom j = (f a).runFrom k := by
  rw [runFrom_bind, h]

theorem runFrom_bind_error {x : BindM α} {e : BindError} {k : Journal}
    (h : x.runFrom j = (.error e, k)) (f : α → BindM β) :
    (x >>= f).runFrom j = (.error e, k) := by
  rw [runFrom_bind, h]

/-- A sequence that ends well went well in both parts. -/
theorem bind_ok {x : BindM α} {f : α → BindM β} {b : β} {l : Journal}
    (h : (x >>= f).runFrom j = (.ok b, l)) :
    ∃ a k, x.runFrom j = (.ok a, k) ∧ (f a).runFrom k = (.ok b, l) := by
  rw [runFrom_bind] at h
  split at h
  · rename_i a k hx; exact ⟨a, k, hx, h⟩
  · cases h

/-- Two sequences with one first step: if what follows comes to a value and to what that is taken to, so
do the sequences. -/
theorem runFrom_bind_map {x : BindM α} {f : α → BindM β} {g : α → BindM γ} {h : γ → β}
    (hf : ∀ a j, ((f a).runFrom j).1 = ((g a).runFrom j).1.map h) (j : Journal) :
    ((x >>= f).runFrom j).1 = ((x >>= g).runFrom j).1.map h := by
  rcases hx : x.runFrom j with ⟨r, k⟩
  cases r with
  | error e => rw [runFrom_bind_error hx, runFrom_bind_error hx]; rfl
  | ok a => rw [runFrom_bind_ok hx, runFrom_bind_ok hx]; exact hf a k

/-! ## What a step yields -/

/-- If `x` does not fail, its value satisfies `Q`. -/
def Yields (x : BindM α) (Q : α → Prop) : Prop :=
  ∀ j a k, x.runFrom j = (.ok a, k) → Q a

namespace Yields

variable {x : BindM α} {Q Q' : α → Prop} {R : β → Prop} {f : α → BindM β}

theorem ret {a : α} (h : Q a) : (pure a : BindM α).Yields Q := by
  intro j b k hb
  rw [runFrom_pure] at hb
  cases hb
  exact h

theorem raise (e : BindError) : (throw e : BindM α).Yields Q := by
  intro j b k hb
  rw [runFrom_throw] at hb
  cases hb

theorem any (x : BindM α) : x.Yields fun _ => True := fun _ _ _ _ => trivial

theorem mono (hx : x.Yields Q) (h : ∀ a, Q a → Q' a) : x.Yields Q' :=
  fun j a k ha => h a (hx j a k ha)

theorem and (hx : x.Yields Q) (hx' : x.Yields Q') : x.Yields fun a => Q a ∧ Q' a :=
  fun j a k ha => ⟨hx j a k ha, hx' j a k ha⟩

theorem all {ι : Sort _} {Q : ι → α → Prop} (h : ∀ i, x.Yields (Q i)) : x.Yields fun a => ∀ i, Q i a :=
  fun j a k ha i => h i j a k ha

theorem bind (hx : x.Yields Q) (hf : ∀ a, Q a → (f a).Yields R) : (x >>= f).Yields R := by
  intro j b l hb
  obtain ⟨a, k, ha, hb⟩ := bind_ok hb
  exact hf a (hx j a k ha) k b l hb

/-- The first step only matters for the journal. -/
theorem after (x : BindM α) (hf : ∀ a, (f a).Yields R) : (x >>= f).Yields R :=
  (any x).bind fun a _ => hf a

theorem attempt (hx : x.Yields Q) : (BindM.attempt x).Yields fun r => ∀ a, r = .ok a → Q a := by
  intro j r k hr a ha
  rw [runFrom_attempt] at hr
  cases hr
  exact hx j a _ (Prod.ext ha rfl)

theorem andFinally (hx : x.Yields Q) (after : BindM Unit) : (x.andFinally after).Yields Q := by
  unfold BindM.andFinally
  refine hx.attempt.bind fun r hr => Yields.after _ fun _ => ?_
  cases r with
  | ok a => exact ret (hr a rfl)
  | error e => exact raise e

end Yields

/-! ## What a step gives -/

/-- The outcome of `x`, whatever was noted before. -/
def Gives (x : BindM α) (r : Except BindError α) : Prop := ∀ j, (x.runFrom j).1 = r

namespace Gives

variable {x : BindM α} {f : α → BindM β} {r : Except BindError β}

theorem ret (a : α) : (pure a : BindM α).Gives (.ok a) := fun _ => rfl

theorem raise (e : BindError) : (throw e : BindM α).Gives (.error e) := fun _ => rfl

theorem note (f : Journal → Journal) : (modify f : BindM Unit).Gives (.ok ()) := fun _ => rfl

theorem bind {a : α} (hx : x.Gives (.ok a)) (hf : (f a).Gives r) : (x >>= f).Gives r := by
  intro j
  rw [runFrom_bind_ok (Prod.ext (hx j) rfl)]
  exact hf _

theorem bind_error {e : BindError} (hx : x.Gives (.error e)) : (x >>= f).Gives (.error e) := by
  intro j
  rw [runFrom_bind_error (Prod.ext (hx j) rfl)]

theorem attempt {r : Except BindError α} (hx : x.Gives r) : (BindM.attempt x).Gives (.ok r) := by
  intro j
  rw [runFrom_attempt, hx j]

/-- A step that always gives a value yields it. -/
theorem yields {a : α} (hx : x.Gives (.ok a)) : x.Yields (· = a) := by
  intro j a' k ha
  have h := hx j
  rw [ha] at h
  cases h
  rfl

/-- The value of a step of known outcome is that outcome. -/
theorem yields_outcome {r : Except BindError α} (hx : x.Gives r) : x.Yields fun a => r = .ok a := by
  intro j a k ha
  rw [← hx j, ha]

/-- Two steps of known outcome, one after the other. -/
theorem seq {r : Except BindError α} {g : α → Except BindError β} (hx : x.Gives r)
    (hf : ∀ a, r = .ok a → (f a).Gives (g a)) : (x >>= f).Gives (r >>= g) := by
  cases r with
  | error e => exact bind_error hx
  | ok a => exact bind hx (hf a rfl)

/-- What follows takes the value to another, if there is one. -/
theorem runFrom_map {g : α → β} (hf : ∀ a, (f a).Gives (.ok (g a))) (j : Journal) :
    ((x >>= f).runFrom j).1 = (x.runFrom j).1.map g := by
  rcases hx : x.runFrom j with ⟨r, k⟩
  cases r with
  | error e => rw [runFrom_bind_error hx]; rfl
  | ok a => rw [runFrom_bind_ok hx]; exact hf a k

theorem map {r : Except BindError α} (hx : x.Gives r) (g : α → β) :
    (x >>= fun a => pure (g a)).Gives (r.map g) := by
  intro j
  rw [runFrom_map (fun a => .ret (g a)), hx j]

theorem andFinally {r : Except BindError α} {after : BindM Unit} (hx : x.Gives r)
    (ha : after.Gives (.ok ())) : (x.andFinally after).Gives r := by
  refine hx.attempt.bind (ha.bind ?_)
  cases r with
  | ok a => exact .ret a
  | error e => exact .raise e

end Gives

/-- `x` is `y`, after some notes. -/
def LeadsTo (x y : BindM α) : Prop := ∀ j, ∃ k, x.runFrom j = y.runFrom k

namespace LeadsTo

variable {x y z : BindM α}

theorem refl (x : BindM α) : x.LeadsTo x := fun j => ⟨j, rfl⟩

/-- A first step of known outcome leads to what follows. -/
theorem of_gives {x : BindM β} {b : β} (hx : x.Gives (.ok b)) (f : β → BindM α) :
    (x >>= f).LeadsTo (f b) :=
  fun j => ⟨_, runFrom_bind_ok (Prod.ext (hx j) rfl) f⟩

theorem trans (h : x.LeadsTo y) (h' : y.LeadsTo z) : x.LeadsTo z := by
  intro j
  obtain ⟨k, hk⟩ := h j
  obtain ⟨l, hl⟩ := h' k
  exact ⟨l, hk.trans hl⟩

/-- What follows is led to as well. -/
theorem bind (h : x.LeadsTo y) (f : α → BindM β) : (x >>= f).LeadsTo (y >>= f) := by
  intro j
  obtain ⟨k, hk⟩ := h j
  exact ⟨k, by rw [runFrom_bind, runFrom_bind, hk]⟩

theorem yields {Q : α → Prop} (h : x.LeadsTo y) (hy : y.Yields Q) : x.Yields Q := by
  intro j a l ha
  obtain ⟨k, hk⟩ := h j
  exact hy k a l (hk ▸ ha)

theorem gives {r : Except BindError α} (h : x.LeadsTo y) (hy : y.Gives r) : x.Gives r := by
  intro j
  obtain ⟨k, hk⟩ := h j
  rw [hk, hy k]

end LeadsTo

/-! ## Comparisons -/

end BindM

/-- The property without the place that it came from. -/
def Property.withoutOrigin (p : Property) : Property := { p with origin := none }

/-- The error without the places that its properties came from. -/
def BindError.withoutOrigins : BindError → BindError
  | conversion p target obstacle => conversion p.withoutOrigin target obstacle
  | unboundProperties properties => unboundProperties (properties.map Property.withoutOrigin)
  | e => e

/-- The errors are the same but for the names and properties in them, which are related. -/
inductive BindError.Like (names : Name → Name → Prop) (properties : Property → Property → Prop) :
    BindError → BindError → Prop
  | conversion {p q : Property} (target : String) (obstacle : Obstacle) (h : properties p q) :
      Like names properties (.conversion p target obstacle) (.conversion q target obstacle)
  | missingParameter {n n' : Name} (parameter typeName : String) (h : names n n') :
      Like names properties (.missingParameter n parameter typeName)
        (.missingParameter n' parameter typeName)
  | readOnlyProperty {n n' : Name} (property typeName : String) (h : names n n') :
      Like names properties (.readOnlyProperty n property typeName)
        (.readOnlyProperty n' property typeName)
  | depthExceeded {n n' : Name} (maxDepth : Nat) (h : names n n') :
      Like names properties (.depthExceeded n maxDepth) (.depthExceeded n' maxDepth)
  | ambiguousConstructor (typeName : String) :
      Like names properties (.ambiguousConstructor typeName) (.ambiguousConstructor typeName)
  | invalidConstructor (typeName : String) :
      Like names properties (.invalidConstructor typeName) (.invalidConstructor typeName)
  | uncreatable (typeName : String) :
      Like names properties (.uncreatable typeName) (.uncreatable typeName)
  | invalidName (error : InvalidName) :
      Like names properties (.invalidName error) (.invalidName error)

theorem BindError.Like.eq {e f : BindError} (h : Like Eq Eq e f) : e = f := by
  cases h <;> simp_all

theorem BindError.Like.mono {names names' : Name → Name → Prop}
    {properties : Property → Property → Prop} {e f : BindError} (h : Like names properties e f)
    (hn : ∀ {m n}, names m n → names' m n) : Like names' properties e f := by
  cases h with
  | conversion _ _ hp => exact .conversion _ _ hp
  | missingParameter _ _ h => exact .missingParameter _ _ (hn h)
  | readOnlyProperty _ _ h => exact .readOnlyProperty _ _ (hn h)
  | depthExceeded _ h => exact .depthExceeded _ (hn h)
  | ambiguousConstructor => exact .ambiguousConstructor _
  | invalidConstructor => exact .invalidConstructor _
  | uncreatable => exact .uncreatable _
  | invalidName => exact .invalidName _

/-- What two runs have in common. The runs may stand at different names. -/
structure Comparison where
  names : Name → Name → Prop
  properties : Property → Property → Prop
  errors : BindError → BindError → Prop
  journals : Journal → Journal → Prop
  /-- Where the first run fails with such an error, nothing is asked of the second. -/
  excuses : BindError → Prop
  names_isEmpty : ∀ {m n : Name}, names m n → m.isEmpty = n.isEmpty
  names_beq : ∀ {k l m n : Name}, names k l → names m n → (k == m) = (l == n)
  names_append : ∀ {m n k : Name}, names m n → k.Built → names (m ++ k) (n ++ k)
  properties_refl : ∀ p, properties p p
  properties_at : ∀ {m n : Name} (v : Value), names m n → properties ⟨m, v, none⟩ ⟨n, v, none⟩
  properties_value : ∀ {p q : Property}, properties p q → p.value = q.value
  properties_withValue : ∀ {p q : Property} (v : Value), properties p q →
    properties (p.withValue v) (q.withValue v)
  errors_like : ∀ {e f : BindError}, BindError.Like names properties e f → errors e f
  /-- Questions that both runs ask. -/
  asked : ∀ {j k : Journal} (queries : List (Nat × Query)), journals j k →
    journals { j with queries := queries ++ j.queries } { k with queries := queries ++ k.queries }
  bound : ∀ {j k : Journal} {m n : Name}, names m n → journals j k →
    journals { j with bound := m :: j.bound } { k with bound := n :: k.bound }
  whole : ∀ {j k : Journal} {m n : Name}, names m n → journals j k →
    journals { j with whole := m :: j.whole } { k with whole := n :: k.whole }
  converted : ∀ {j k : Journal} {p q : Option Property}, Option.Rel properties p q →
    journals j k → journals { j with property := p } { k with property := q }
  endless : ∀ {j k : Journal} (what : Endless), journals j k →
    journals { j with endless := j.endless.or (some what) }
      { k with endless := k.endless.or (some what) }

namespace Comparison

/-- Names next to one element are related as they are without it. -/
theorem names_item (c : Comparison) {m n : Name} (h : c.names m n) (key : String) :
    c.names (m.item key) (n.item key) :=
  c.names_append (k := ⟨[Element.index key]⟩) h (.index key)

/-- The two runs are the same. -/
def equal : Comparison where
  names := Eq
  properties := Eq
  errors := Eq
  journals := Eq
  excuses _ := False
  names_isEmpty h := by rw [h]
  names_beq h h' := by rw [h, h']
  names_append h _ := by rw [h]
  properties_refl _ := rfl
  properties_at _ h := by rw [h]
  properties_value h := by rw [h]
  properties_withValue _ h := by rw [h]
  errors_like h := h.eq
  asked _ h := by rw [h]
  bound hn h := by rw [hn, h]
  whole hn h := by rw [hn, h]
  converted hp h := by
    cases hp with
    | none => rw [h]
    | some hp => rw [hp, h]
  endless _ h := by rw [h]

/-- The two runs come to the same, apart from the journals and the places that properties came
from. -/
def apartFromOrigins : Comparison where
  names := Eq
  properties p q := p.withoutOrigin = q.withoutOrigin
  errors e f := e.withoutOrigins = f.withoutOrigins
  journals _ _ := True
  excuses _ := False
  names_isEmpty h := by rw [h]
  names_beq h h' := by rw [h, h']
  names_append h _ := by rw [h]
  properties_refl _ := rfl
  properties_at _ h := by rw [h]
  properties_value {p q} h := by
    simpa [Property.withoutOrigin] using congrArg Property.value h
  properties_withValue {p q} v h := by
    have hn := congrArg Property.name h
    simp only [Property.withoutOrigin] at hn
    simp only [Property.withoutOrigin, Property.withValue, hn]
  errors_like h := by cases h <;> simp_all [BindError.withoutOrigins]
  asked _ _ := trivial
  bound _ _ := trivial
  whole _ _ := trivial
  converted _ _ := trivial
  endless _ _ := trivial

/-- If the first run ends well, so does the second, with the same value. -/
def whereFirstEnds : Comparison where
  names := Eq
  properties := Eq
  errors _ _ := True
  journals _ _ := True
  excuses _ := True
  names_isEmpty h := by rw [h]
  names_beq h h' := by rw [h, h']
  names_append h _ := by rw [h]
  properties_refl _ := rfl
  properties_at _ h := by rw [h]
  properties_value h := by rw [h]
  properties_withValue _ h := by rw [h]
  errors_like _ := trivial
  asked _ _ := trivial
  bound _ _ := trivial
  whole _ _ := trivial
  converted _ _ := trivial
  endless _ _ := trivial

/-- The comparison, where the runs stand at names that can be built. -/
def atBuilt (c : Comparison) : Comparison where
  names m n := c.names m n ∧ m.Built ∧ n.Built
  properties := c.properties
  errors := c.errors
  journals := c.journals
  excuses := c.excuses
  names_isEmpty h := c.names_isEmpty h.1
  names_beq h h' := c.names_beq h.1 h'.1
  names_append h hk := ⟨c.names_append h.1 hk, .append h.2.1 hk, .append h.2.2 hk⟩
  properties_refl := c.properties_refl
  properties_at v h := c.properties_at v h.1
  properties_value := c.properties_value
  properties_withValue := c.properties_withValue
  errors_like h := c.errors_like (h.mono fun h => h.1)
  asked := c.asked
  bound h := c.bound h.1
  whole h := c.whole h.1
  converted := c.converted
  endless := c.endless

/-- Two runs that the comparison relates: they come to related values or related errors, with related
journals, or the first is a failure that it excuses. -/
inductive Runs {α β : Type} (c : Comparison) (V : α → β → Prop) :
    Except BindError α × Journal → Except BindError β × Journal → Prop
  | ok {a : α} {b : β} {j k : Journal} (h : V a b) (hj : c.journals j k) :
      Runs c V (.ok a, j) (.ok b, k)
  | error {e f : BindError} {j k : Journal} (h : c.errors e f) (hj : c.journals j k) :
      Runs c V (.error e, j) (.error f, k)
  | excused {e : BindError} {j : Journal} (h : c.excuses e) (run : Except BindError β × Journal) :
      Runs c V (.error e, j) run

namespace Runs

variable {α β : Type} {c : Comparison} {V V' : α → β → Prop} {p p' : Except BindError α × Journal}
  {q : Except BindError β × Journal}

theorem mono (h : c.Runs V p q) (hV : ∀ a b, V a b → V' a b) : c.Runs V' p q := by
  cases h with
  | ok h hj => exact .ok (hV _ _ h) hj
  | error h hj => exact .error h hj
  | excused h _ => exact .excused h _

theorem of_fails {e : BindError} (hc : c.excuses e) (he : p.1 = .error e) : c.Runs V p q := by
  obtain ⟨r, j⟩ := p
  cases he
  exact .excused hc q

/-- Where the first run ends well, so does the second. -/
theorem exists_of_ok {a : α} (h : c.Runs V p q) (ha : p.1 = .ok a) :
    ∃ b, V a b ∧ q.1 = .ok b ∧ c.journals p.2 q.2 := by
  cases h with
  | @ok _ b _ _ hV hj =>
    cases ha
    exact ⟨b, hV, rfl, hj⟩
  | error _ _ => cases ha
  | excused _ _ => cases ha

theorem journals (h : c.Runs V p q) (hexcuses : ∀ e, ¬c.excuses e) : c.journals p.2 q.2 := by
  cases h with
  | ok _ hj | error _ hj => exact hj
  | excused he _ => exact absurd he (hexcuses _)

/-- Related runs come to the same, if the comparison relates only equal errors. -/
theorem outcome_eq (h : c.Runs Eq p p') (herrors : ∀ {e f}, c.errors e f → e = f)
    (hexcuses : ∀ e, ¬c.excuses e) : p.1 = p'.1 := by
  cases h with
  | ok hV _ => exact congrArg Except.ok hV
  | error he _ => exact congrArg Except.error (herrors he)
  | excused he _ => exact absurd he (hexcuses _)

/-- They are equal, if it relates only equal journals too. -/
theorem eq (h : c.Runs Eq p p') (herrors : ∀ {e f}, c.errors e f → e = f)
    (hexcuses : ∀ e, ¬c.excuses e) (hjournals : ∀ {j k}, c.journals j k → j = k) : p = p' :=
  Prod.ext (h.outcome_eq herrors hexcuses) (hjournals (h.journals hexcuses))

end Runs

end Comparison

namespace BindM

variable {α β γ δ : Type}

/-- From related journals, the two computations run in related ways. -/
def Agree (c : Comparison) (V : α → β → Prop) (x : BindM α) (y : BindM β) : Prop :=
  ∀ j k, c.journals j k → c.Runs V (x.runFrom j) (y.runFrom k)

/-- The computation always fails, and the comparison excuses that. -/
def Excused (c : Comparison) (x : BindM α) : Prop :=
  ∀ j, ∃ e, c.excuses e ∧ (x.runFrom j).1 = .error e

namespace Agree

variable {c : Comparison} {V V' : α → β → Prop} {W : γ → δ → Prop} {x : BindM α} {y : BindM β}
  {f : α → BindM γ} {g : β → BindM δ}

theorem ret {a : α} {b : β} (h : V a b) : Agree c V (pure a) (pure b) :=
  fun _ _ hj => .ok h hj

theorem raise {e e' : BindError} (h : c.errors e e') :
    Agree c V (throw e : BindM α) (throw e' : BindM β) :=
  fun _ _ hj => .error h hj

theorem journal : Agree c c.journals (get : BindM Journal) get :=
  fun _ _ hj => .ok hj hj

/-- Notes of both, which keep the journals related. -/
theorem note {f g : Journal → Journal} (h : ∀ {j k}, c.journals j k → c.journals (f j) (g k)) :
    Agree c Eq (modify f : BindM Unit) (modify g) :=
  fun _ _ hj => .ok rfl (h hj)

/-- A first side that is excused agrees with everything. -/
theorem of_excused (h : Excused c x) : Agree c V x y := by
  intro j k _
  obtain ⟨e, hc, he⟩ := h j
  exact .of_fails hc he

theorem mono (h : Agree c V x y) (hV : ∀ a b, V a b → V' a b) : Agree c V' x y :=
  fun j k hj => (h j k hj).mono hV

theorem bind (h : Agree c V x y) (hf : ∀ a b, V a b → Agree c W (f a) (g b)) :
    Agree c W (x >>= f) (y >>= g) := by
  intro j k hj
  have hruns := h j k hj
  rcases hx : x.runFrom j with ⟨r, j'⟩
  rcases hy : y.runFrom k with ⟨s, k'⟩
  rw [hx, hy] at hruns
  cases hruns with
  | ok hV hj =>
    rw [runFrom_bind_ok hx, runFrom_bind_ok hy]
    exact hf _ _ hV _ _ hj
  | error he hj =>
    rw [runFrom_bind_error hx, runFrom_bind_error hy]
    exact .error he hj
  | excused hc _ =>
    rw [runFrom_bind_error hx]
    exact .excused hc _

/-- The rule for a first step that gives both sides the same value. -/
theorem seq {x y : BindM α} {g : α → BindM δ} (h : Agree c Eq x y)
    (hf : ∀ a, Agree c W (f a) (g a)) : Agree c W (x >>= f) (y >>= g) :=
  h.bind fun a _ hab => hab ▸ hf a

/-- The rule for a first step that may fail, where what follows takes care of the failure. After one
that is excused, the first side has to fail again. -/
theorem attempt_bind {f : Except BindError α → BindM γ} {g : Except BindError β → BindM δ}
    (h : Agree c V x y) (hok : ∀ a b, V a b → Agree c W (f (.ok a)) (g (.ok b)))
    (herror : ∀ e e', c.errors e e' → Agree c W (f (.error e)) (g (.error e')))
    (hexcused : ∀ e, c.excuses e → Excused c (f (.error e))) :
    Agree c W (attempt x >>= f) (attempt y >>= g) := by
  intro j k hj
  have hruns := h j k hj
  rw [runFrom_bind_ok (runFrom_attempt x), runFrom_bind_ok (runFrom_attempt y)]
  generalize x.runFrom j = run at hruns
  generalize y.runFrom k = run' at hruns
  cases hruns with
  | ok hV hj => exact hok _ _ hV _ _ hj
  | error he hj => exact herror _ _ he _ _ hj
  | @excused e j' hc _ =>
    obtain ⟨e', hc', he'⟩ := hexcused e hc j'
    exact .of_fails hc' he'

theorem andFinally {after after' : BindM Unit} (h : Agree c V x y) (ha : Agree c Eq after after')
    (hgives : after.Gives (.ok ())) : Agree c V (x.andFinally after) (y.andFinally after') := by
  unfold BindM.andFinally
  refine h.attempt_bind (fun _ _ hV => ha.seq fun _ => ret hV)
    (fun _ _ he => ha.seq fun _ => raise he) fun e hc j => ⟨e, hc, ?_⟩
  exact hgives.bind (.raise e) j

/-- What the first computation yields may be used. -/
theorem and_yields {Q : α → Prop} (h : Agree c V x y) (hx : x.Yields Q) :
    Agree c (fun a b => V a b ∧ Q a) x y := by
  intro j k hj
  have hruns := h j k hj
  rcases hrun : x.runFrom j with ⟨r, j'⟩
  rw [hrun] at hruns
  generalize y.runFrom k = run' at hruns
  cases hruns with
  | ok hV hj => exact .ok ⟨hV, hx _ _ _ hrun⟩ hj
  | error he hj => exact .error he hj
  | excused hc _ => exact .excused hc _

/-- A first step of known outcome does not count, if it keeps the journals related. -/
theorem after_left {a : α} {y : BindM δ}
    (hj : ∀ j k, c.journals j k → c.journals (x.runFrom j).2 k) (hx : x.Gives (.ok a))
    (h : Agree c W (f a) y) : Agree c W (x >>= f) y := by
  intro j k hjk
  rw [runFrom_bind_ok (Prod.ext (hx j) rfl)]
  exact h _ _ (hj j k hjk)

/-- The same for a first step of the second side. -/
theorem after_right {x : BindM γ} {b : β}
    (hj : ∀ j k, c.journals j k → c.journals j (y.runFrom k).2) (hy : y.Gives (.ok b))
    (h : Agree c W x (g b)) : Agree c W x (y >>= g) := by
  intro j k hjk
  rw [runFrom_bind_ok (Prod.ext (hy k) rfl)]
  exact h _ _ (hj j k hjk)

/-- What can only end in one way agrees with that, if the comparison excuses all failures. -/
theorem of_yields {b : β} (hc : ∀ e, c.excuses e)
    (hj : ∀ j k, c.journals j k → c.journals (x.runFrom j).2 k) (hx : x.Yields (V · b)) :
    Agree c V x (pure b) := by
  intro j k hjk
  have hk := hj j k hjk
  rw [runFrom_pure]
  rcases hrun : x.runFrom j with ⟨r, j'⟩
  rw [hrun] at hk
  cases r with
  | ok a => exact .ok (hx _ _ _ hrun) hk
  | error e => exact .excused (hc e) _

/-! ### Where journals do not count -/

section Forgetful

variable (hc : ∀ j k, c.journals j k)

include hc

/-- Computations of one outcome agree. -/
theorem of_gives {x y : BindM α} {a : α} (hx : x.Gives (.ok a)) (hy : y.Gives (.ok a)) :
    Agree c Eq x y := by
  intro j k _
  rw [show x.runFrom j = (.ok a, (x.runFrom j).2) from Prod.ext (hx j) rfl,
    show y.runFrom k = (.ok a, (y.runFrom k).2) from Prod.ext (hy k) rfl]
  exact .ok rfl (hc _ _)

/-- First steps of known outcome do not count. -/
theorem after_both {a : α} {b : β} (hx : x.Gives (.ok a)) (hy : y.Gives (.ok b))
    (h : Agree c W (f a) (g b)) : Agree c W (x >>= f) (y >>= g) :=
  after_left (fun _ _ _ => hc _ _) hx (after_right (fun _ _ _ => hc _ _) hy h)

end Forgetful

/-- Runs that agree in everything are equal. -/
theorem runFrom_eq {x y : BindM α} (h : Agree .equal Eq x y) (j : Journal) :
    x.runFrom j = y.runFrom j :=
  (h j j rfl).eq id (fun _ => id) id

/-- If the first run ends well, the second gives the same value, whatever was noted before. -/
theorem yields_gives {x y : BindM α} (h : Agree .whereFirstEnds Eq x y) :
    x.Yields fun a => y.Gives (.ok a) := by
  intro j a k ha l
  obtain ⟨_, rfl, hb, -⟩ := (h j l trivial).exists_of_ok (congrArg Prod.fst ha)
  exact hb

/-- Whole binds that agree come to the same, apart from what a view of failures leaves out. -/
theorem mapError_result {κ : Type} {F : Failure → κ} {x y : BindM α} {history history' : List Name}
    {root root' : Name} (h : Agree c Eq x y)
    (hj : c.journals { bound := history } { bound := history' }) (hexcuses : ∀ e, ¬c.excuses e)
    (herrors : ∀ {e f}, c.errors e f → F (.bind root e) = F (.bind root' f)) :
    (Binder.Report.ofRun history root x).result.mapError F =
      (Binder.Report.ofRun history' root' y).result.mapError F := by
  have hruns := h _ _ hj
  unfold Binder.Report.ofRun
  generalize x.runFrom { bound := history } = run at hruns ⊢
  generalize y.runFrom { bound := history' } = run' at hruns ⊢
  cases hruns with
  | ok hv _ => exact congrArg Except.ok hv
  | error he _ => exact congrArg Except.error (herrors he)
  | excused he _ => exact absurd he (hexcuses _)

end Agree

end BindM

end TypedConfig
