import TypedConfig.Proofs.Bind.Construction
import TypedConfig.Proofs.Bind.Fields
import TypedConfig.Proofs.Name.Dashed

/-!
# The names that members are bound at

The parameters of a constructor and the fields of a bean are bound below the name of the composite,
at the dashed spelling of their identifiers (`Binder.bindMember`).

* `Binder.childName_of_identifier`: an identifier of letters, digits, underscores and dashes names
  one element, which is equal to the identifier itself.
* `Binder.childName_of_canonical`: an identifier that is a canonical name names itself, unless a
  character of a group is spelled anew behind the end of an inner group.
-/

namespace TypedConfig

/-- Joining with one name keeps names apart and equal names equal. -/
theorem Name.beq_append_left (p a b : Name) : (p ++ a == p ++ b) = (a == b) := by
  show Name.same (p ++ a) (p ++ b) = Name.same a b
  rw [Bool.eq_iff_iff]
  simp [Name.same, Name.length, sameElements_append_left]

namespace Name

variable {id : String}

theorem segments_of_isIdentifier (h : isIdentifier id.toList = true) :
    (∀ c ∈ id.toList, isIdentifierChar c = true) ∧ segments '.' id.toList = [id.toList] ∧
      ∃ c ∈ id.toList, c.isAlphanum = true := by
  cases hid : id.toList with
  | nil => rw [hid] at h; cases h
  | cons c cs =>
    rw [hid] at h
    simp only [isIdentifier, Bool.and_eq_true, List.all_eq_true] at h
    have hall : ∀ d ∈ c :: cs, isIdentifierChar d = true :=
      List.forall_mem_cons.mpr ⟨by simp [isIdentifierChar, h.1], h.2⟩
    have hdot : '.' ∉ c :: cs := fun hmem => absurd (hall '.' hmem) (by decide)
    exact ⟨hall, by rw [segments_of_not_mem hdot]; rfl, c, List.mem_cons_self, h.1⟩

/-- What counts in an identifier is its letters and digits. -/
theorem meaning_adapt_of_isIdentifier (h : isIdentifier id.toList = true) :
    (adapt id '.').meaning = [(false, uniformChars id.toList)] := by
  obtain ⟨hall, hsegments, hlegible⟩ := segments_of_isIdentifier h
  have hsegmented : Segmented '.' id := by
    refine ⟨fun c hc => ⟨?_, ?_⟩, ?_⟩
    · rintro rfl
      exact absurd (hall _ hc) (by decide)
    · rintro rfl
      exact absurd (hall _ hc) (by decide)
    · rw [hsegments]
      exact List.forall_mem_singleton.mpr hlegible
  rw [meaning_adapt hsegmented, spelling, hsegments, uniformChars_eq]
  rfl

/-- The dashed spelling of an identifier is read as one element that means what the identifier
does. -/
theorem exists_parse_of_isIdentifier (h : isIdentifier id.toList = true) :
    ∃ n, parse (dashed id) = .ok n ∧ n.length = 1 ∧ n.meaning = (adapt id '.').meaning := by
  refine ⟨_, parse_of_isWord (isWord_dashedFrom h), rfl, ?_⟩
  have hword : (Kind.ofWord (dashedFrom false none id.toList)).isIndex = false := by
    rcases Kind.ofWord_eq (dashedFrom false none id.toList) with hk | hk <;> rw [hk] <;> rfl
  rw [meaning_adapt_of_isIdentifier h,
    ← uniformChars_dashedFrom (segments_of_isIdentifier h).1 none]
  simp [Name.meaning, Element.meaning, Element.isIndex, hword]

end Name

namespace Binder

/-- Binds the member of a composite that has an identifier. -/
def bindMember (below : BindBelow) (scope : Scope) (parent : Name) (identifier : String)
    (target : Target) : BindM (Option Value) := do
  below scope (← childName parent identifier) target false

variable {b : Binder} {below : BindBelow} {scope : Scope} {parent name : Name} {target : Target}
  {s id : String} {n : Name}

theorem bindParameter_eq_bindMember (param : Parameter Shape) :
    bindParameter below scope name target param = bindMember below scope name param.name
      ((Target.of param.shape).withExisting (target.existingField? param.name)) := rfl

theorem bindField_eq_bindMember (typeName : String) (field : Field Shape) (current : Option Value) :
    b.bindField below scope name typeName field current = (do
      match ← bindMember below scope name field.name
          ((Target.of field.shape).withExisting current) with
      | none => return none
      | some v =>
        if b.mayTake field current v then
          return some (if !field.writable && (b.resolve field.shape).isScalar then none else some v)
        else throw (.readOnlyProperty name field.name typeName)) := by
  unfold bindField bindMember
  exact (bind_assoc _ _ _).symm

theorem childName_of_parse (h : Name.parse (Name.dashed id) = .ok n) (parent : Name) :
    childName parent id = pure (parent ++ n) := by
  unfold childName Name.extend?
  rw [h]
  rfl

theorem bindMember_of_parse (h : Name.parse (Name.dashed id) = .ok n) :
    bindMember below scope parent id target = below scope (parent ++ n) target false := by
  unfold bindMember
  rw [childName_of_parse h]
  rfl

/-- An identifier that starts with a letter or digit and goes on with letters, digits, underscores
and dashes has a dashed spelling that strict reading accepts, as a name of one element that is equal
to the identifier, and the member is bound at the name of the composite with this element behind
it. -/
theorem childName_of_identifier (h : Name.isIdentifier id.toList = true) :
    ∃ w n, Window.parse (Name.dashed id) = .ok w ∧ w.name = .ok n ∧ n.length = 1 ∧
      w.same (Window.adapt id '.') = .ok true ∧
      ∀ parent, childName parent id = pure (parent ++ n) ∧
        (parent ++ n == parent ++ Name.adapt id '.') = true ∧
        ∀ below scope target,
          bindMember below scope parent id target = below scope (parent ++ n) target false := by
  obtain ⟨n, hn, hlength, hmeaning⟩ := Name.exists_parse_of_isIdentifier h
  obtain ⟨hw, hshows⟩ := Window.shows_parse hn
  have hexact := Name.exact_of_parse hn
  have hadapt : (Name.adapt id '.').Exact := scan_exact '.' id
  have heq : (n == Name.adapt id '.') = true :=
    (Name.beq_iff hexact.wellFormed hadapt.wellFormed).mpr hmeaning
  refine ⟨_, n, hw, hshows.name, hlength, ?_, fun parent => ⟨childName_of_parse hn parent, ?_,
    fun _ _ _ => bindMember_of_parse hn⟩⟩
  · rw [hshows.same (Window.shows_adapt id '.') hexact hadapt, heq]
  · rw [Name.beq_append_left, heq]

/-- Capitals in a row, two underscores and a dash. -/
theorem childName_of_identifier_capitals :
    Name.isIdentifier "HTTPPort__max-X".toList = true ∧
    Name.dashed "HTTPPort__max-X" = "h-t-t-p-port--max-x" ∧
    ∃ w n, Window.parse (Name.dashed "HTTPPort__max-X") = .ok w ∧ w.name = .ok n ∧ n.length = 1 ∧
      w.same (Window.adapt "HTTPPort__max-X" '.') = .ok true ∧
      ∀ parent, childName parent "HTTPPort__max-X" = pure (parent ++ n) ∧
        (parent ++ n == parent ++ Name.adapt "HTTPPort__max-X" '.') = true ∧
        ∀ below scope target, bindMember below scope parent "HTTPPort__max-X" target =
          below scope (parent ++ n) target false :=
  ⟨by decide, by decide +kernel, childName_of_identifier (by decide)⟩

/-- The dashed spelling of a canonical name is canonical too, with the same dots and words, and a
group for each group. It is the name itself, and the member is bound at a name that is equal to it,
exactly if each character of a group stays as it is that the spelling takes to be outside of
brackets, because one inside of the group was closed. So it is where no group has a bracket in
it. -/
theorem childName_of_canonical {w : Window} (h : Window.parse s = .ok w) :
    ∃ ps n m, Layout s.toList ps ∧ Layout (Name.dashed s).toList (ps.map Piece.dashed) ∧
      w.name = .ok n ∧
      (∀ parent, childName parent s = pure (parent ++ m) ∧
        ∀ below scope target,
          bindMember below scope parent s target = below scope (parent ++ m) target false) ∧
      (Name.dashed s = s ↔ ∀ g, .group g ∈ ps → Name.Settled true (some '[') g) ∧
      ((m == n) = true ↔ ∀ g, .group g ∈ ps → Name.Settled true (some '[') g) ∧
      ((∀ g, .group g ∈ ps → ']' ∉ g) → Name.dashed s = s ∧ m = n) := by
  obtain ⟨n, hn, hshows⟩ := Window.exists_of_parse h
  obtain ⟨ps, hps⟩ := Name.exists_layout_of_parse hn
  obtain ⟨hlayout, m, hm, helements⟩ := Name.layout_dashed hn hps
  have hself := (Name.dashed_eq_self_iff hn hps).trans Piece.map_dashed_eq_self_iff
  refine ⟨ps, n, m, hps, hlayout, hshows.name,
    fun parent => ⟨childName_of_parse hm parent, fun _ _ _ => bindMember_of_parse hm⟩, hself, ?_,
    fun hfree => ?_⟩
  · rw [Name.beq_iff (Name.exact_of_parse hm).wellFormed (Name.exact_of_parse hn).wellFormed,
      Name.meaning, Name.meaning, helements, Name.elements_of_layout hn hps,
      Piece.meaning_dashed_iff, Piece.map_dashed_eq_self_iff]
  · have hsettled : ∀ g, .group g ∈ ps → Name.Settled true (some '[') g :=
      fun g hg => Name.settled_of_not_mem (hfree g hg) _
    refine ⟨hself.mpr hsettled, ?_⟩
    have hes : m.elements = n.elements := by
      rw [helements, Name.elements_of_layout hn hps, Piece.map_dashed_eq_self_iff.mpr hsettled]
    exact congrArg Name.mk hes

/-- A group with capitals and an underscore, and one with an inner group in it. -/
theorem childName_of_canonical_groups :
    let s := "a.b-1[Max_Size]x[c[D]e]"
    let w := Window.ofScan s (scan '.' s)
    Window.parse s = .ok w ∧
    ∃ ps n m, Layout s.toList ps ∧ Layout (Name.dashed s).toList (ps.map Piece.dashed) ∧
      w.name = .ok n ∧
      (∀ parent, childName parent s = pure (parent ++ m) ∧
        ∀ below scope target,
          bindMember below scope parent s target = below scope (parent ++ m) target false) ∧
      (Name.dashed s = s ↔ ∀ g, .group g ∈ ps → Name.Settled true (some '[') g) ∧
      ((m == n) = true ↔ ∀ g, .group g ∈ ps → Name.Settled true (some '[') g) ∧
      ((∀ g, .group g ∈ ps → ']' ∉ g) → Name.dashed s = s ∧ m = n) := by
  intro s w
  have h : Window.parse s = .ok w := by decide +kernel
  exact ⟨h, childName_of_canonical h⟩

/-- Behind the inner index the capital counts as one outside of brackets. -/
theorem childName_of_nested_capital :
    (do (← Window.parse "a[b[c]D]").name) = .ok ⟨[⟨.uniform, "a"⟩, ⟨.indexed, "b[c]D"⟩]⟩ ∧
    Name.dashed "a[b[c]D]" = "a[b[c]-d]" ∧
    (∀ parent, childName parent "a[b[c]D]" =
      pure (parent ++ ⟨[⟨.uniform, "a"⟩, ⟨.indexed, "b[c]-d"⟩]⟩)) ∧
    ((⟨[⟨.uniform, "a"⟩, ⟨.indexed, "b[c]-d"⟩]⟩ : Name) ==
      ⟨[⟨.uniform, "a"⟩, ⟨.indexed, "b[c]D"⟩]⟩) = false := by
  have hm : Name.parse (Name.dashed "a[b[c]D]") =
      .ok ⟨[⟨.uniform, "a"⟩, ⟨.indexed, "b[c]-d"⟩]⟩ := rfl
  exact ⟨rfl, by decide +kernel, childName_of_parse hm, by decide +kernel⟩

end Binder

end TypedConfig
