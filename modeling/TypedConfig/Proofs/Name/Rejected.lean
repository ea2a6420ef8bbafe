import TypedConfig.Proofs.Name.Words

/-!
# Where a rejected text is wrong

A text that strict reading rejects has a dot at an end, a bracket that is never closed, a run
without a letter or digit, or a word that is not canonical. In each case the error names characters
that stand in the text, and its position is the byte offset of the first of them
(`InvalidName.PointsInto`, `Window.parse_points`).

* `strayChars_cons`: the first wrong character of a word and the others behind it.
* `Run.strayChars_ne_nil`: a word that is rejected has a wrong character, so the error never falls
  back to the start of the word.
* `Scan.points`: what is wrong with a scan stands in the text that was scanned.
-/

namespace TypedConfig

/-- The error is about the text and points at characters of it: there are wrong characters, and
where it points the first of them stands, with the others behind it in order. -/
structure InvalidName.PointsInto (e : InvalidName) (s : String) : Prop where
  name : e.name = s
  nonempty : e.chars ≠ []
  place : ∃ before after : String, s = before ++ after ∧ e.position = before.utf8ByteSize ∧
    after.toList.head? = e.chars.head? ∧ e.chars.Sublist after.toList

theorem InvalidName.pointsInto {s before : String} {c : Char} {cs after : List Char}
    (hs : s = before ++ String.ofList (c :: after)) (h : cs.Sublist after) :
    PointsInto ⟨s, c :: cs, before.utf8ByteSize⟩ s where
  name := rfl
  nonempty := List.cons_ne_nil c cs
  place := ⟨before, _, hs, rfl, by simp, by simpa using h.cons_cons c⟩

/-! ## The wrong characters of a word -/

section Stray

variable {offset : Nat} {atStart : Bool} {cs : List Char}

theorem strayChars_sublist (offset : Nat) (atStart : Bool) (cs : List Char) :
    ((strayChars offset atStart cs).map (·.2)).Sublist cs := by
  induction cs generalizing offset atStart with
  | nil => exact .slnil
  | cons c cs ih =>
    unfold strayChars
    split
    · exact (ih _ _).cons c
    · exact (ih _ _).cons_cons c

/-- The first wrong character stands where it says, and the others stand behind it. -/
theorem strayChars_cons {o : Nat} {c : Char} {rest : List (Nat × Char)}
    (h : strayChars offset atStart cs = (o, c) :: rest) :
    ∃ before after, cs = before ++ c :: after ∧ o = offset + (String.ofList before).utf8ByteSize ∧
      (rest.map (·.2)).Sublist after := by
  induction cs generalizing offset atStart with
  | nil => cases h
  | cons d cs ih =>
    unfold strayChars at h
    split at h
    · obtain ⟨before, after, rfl, rfl, hrest⟩ := ih h
      exact ⟨d :: before, after, rfl, by simp [String.ofList_cons, Nat.add_assoc], hrest⟩
    · obtain ⟨hfirst, rfl⟩ := List.cons.inj h
      cases hfirst
      exact ⟨[], cs, rfl, rfl, strayChars_sublist _ _ _⟩

theorem strayChars_eq_nil_iff :
    strayChars offset false cs = [] ↔ ∀ c ∈ cs, isCanonical false c = true := by
  induction cs generalizing offset with
  | nil => simp [strayChars]
  | cons c cs ih =>
    unfold strayChars
    rw [List.forall_mem_cons, ← @ih (offset + c.utf8Size)]
    split <;> simp_all

/-- A word without wrong characters is canonical. -/
theorem isWord_iff_strayChars (h : cs ≠ []) :
    isWord cs = true ↔ strayChars offset true cs = [] := by
  cases cs with
  | nil => exact absurd rfl h
  | cons c cs =>
    have hrest := @strayChars_eq_nil_iff (offset + c.utf8Size) cs
    unfold strayChars
    simp only [isWord, Bool.and_eq_true, List.all_eq_true]
    by_cases hc : isWordChar c = true
    · have hcanonical : isCanonical true c = true := by simp [isCanonical, hc]
      rw [if_pos hcanonical, hrest]
      simp [hc, isCanonical]
    · simp [isCanonical, hc]

end Stray

/-! ## What is wrong with a scan -/

section Runs

variable {s : String} {r : Run}

/-- The characters of a run stand in the text where it says. -/
theorem Run.Sound.split (h : r.Sound s) {before after : List Char} {c : Char}
    (hchars : r.chars = before ++ c :: after) : ∃ front back : String,
      s = front ++ String.ofList (c :: (after ++ back.toList)) ∧
        r.start + (String.ofList before).utf8ByteSize = front.utf8ByteSize := by
  obtain ⟨front, back, hs, hstart, -⟩ := Text.slice?_eq_some_iff.mp h.stands
  refine ⟨front ++ String.ofList before, back, ?_, by rw [hstart, String.utf8ByteSize_append]⟩
  rw [hs, Run.text, hchars]
  simp [← String.toList_inj]

/-- A word that is not canonical has a wrong character, unless it stands behind a bracket that is
never closed. -/
theorem Run.strayChars_ne_nil (hr : r ∈ (scan '.' s).runs) (hk : r.kind = some .nonUniform)
    (hbefore : (scan '.' s).unclosed.map (· + 1) ≠ some r.start) (offset : Nat) :
    strayChars offset true r.chars ≠ [] := by
  have hi : r.isIndex = false := by rw [isIndex, hk]; rfl
  have hword := (scan_takenIn hr hi hbefore).follows.spoiled_iff.mp (.inr hk)
  rw [ne_eq, ← isWord_iff_strayChars (chars_ne_nil_of_scanFrom r hr), hword]
  exact Bool.false_ne_true

/-- A run without a letter or digit is wrong from its first character on. -/
theorem Run.points_of_blank (hr : r ∈ (scan '.' s).runs) :
    InvalidName.PointsInto ⟨s, r.chars, r.start⟩ s := by
  cases hchars : r.chars with
  | nil => exact absurd hchars (chars_ne_nil_of_scanFrom r hr)
  | cons c cs =>
    have hall : r.chars = [] ++ c :: cs := hchars
    obtain ⟨front, back, hs, hstart⟩ := (scan_sound '.' s r hr).split hall
    rw [show r.start = front.utf8ByteSize from hstart]
    exact InvalidName.pointsInto hs (List.sublist_append_left cs _)

/-- A word that is not canonical is wrong where its first wrong character stands. -/
theorem Run.points_of_word (hr : r ∈ (scan '.' s).runs) (hk : r.kind = some .nonUniform)
    (hclosed : (scan '.' s).unclosed = none) : (r.invalid s).PointsInto s := by
  have hne := Run.strayChars_ne_nil hr hk (by rw [hclosed]; nofun) r.start
  unfold Run.invalid
  cases hstray : strayChars r.start true r.chars with
  | nil => exact absurd hstray hne
  | cons first rest =>
    obtain ⟨o, c⟩ := first
    obtain ⟨before, after, hchars, rfl, hrest⟩ := strayChars_cons hstray
    obtain ⟨front, back, hs, hstart⟩ := (scan_sound '.' s r hr).split hchars
    simp only [List.map_cons, List.head?_cons, Option.map_some, Option.getD_some, hstart]
    exact InvalidName.pointsInto hs (hrest.trans (List.sublist_append_left after _))

/-- What is wrong with a scan stands in the text. -/
theorem Scan.points {e : InvalidName} (h : (scan '.' s).invalid? s = some e) : e.PointsInto s := by
  unfold Scan.invalid? at h
  split at h
  · rename_i o hopen
    cases h
    -- No bracket is open when the scan starts, so the open one stands in the text.
    rcases Run.bracket_of_unclosed hopen with h0 | ⟨before, after, hcs, rfl⟩
    · cases h0
    · have hs : s = String.ofList before ++ String.ofList ('[' :: after) := by
        rw [← String.toList_inj, hcs]
        simp
      rw [Nat.zero_add]
      exact InvalidName.pointsInto hs (List.nil_sublist _)
  · rename_i r hclosed hblank
    cases h
    exact Run.points_of_blank (List.mem_of_find?_eq_some hblank)
  · rename_i r hclosed hblank hword
    cases h
    exact Run.points_of_word (List.mem_of_find?_eq_some hword)
      (by simpa using List.find?_some hword) hclosed
  · cases h

end Runs

/-- What is wrong with a text that is no name stands in it. -/
theorem Name.points_of_parse {s : String} {e : InvalidName} (h : Name.parse s = .error e) :
    e.PointsInto s := by
  unfold Name.parse at h
  split at h
  · cases h
  · split at h
    · rename_i hfirst
      cases h
      obtain ⟨cs, hcs⟩ := List.head?_eq_some_iff.mp hfirst
      have hs : s = "" ++ String.ofList ('.' :: cs) := by
        rw [← hcs]
        simp
      exact InvalidName.pointsInto hs (List.nil_sublist _)
    · split at h
      · rename_i hlast
        cases h
        obtain ⟨cs, hcs⟩ := List.getLast?_eq_some_iff.mp hlast
        have hs : s = String.ofList cs ++ String.ofList ['.'] := by
          rw [← String.toList_inj, hcs]
          simp
        have hsize : s.utf8ByteSize - 1 = (String.ofList cs).utf8ByteSize := by
          rw [hs, String.utf8ByteSize_append]
          rfl
        rw [hsize]
        exact InvalidName.pointsInto hs (List.nil_sublist _)
      · simp only at h
        split at h
        · rename_i hinvalid
          cases h
          exact Scan.points hinvalid
        · cases h

namespace Window

/-- A text that strict reading rejects is rejected with an error that points at characters of it. -/
theorem parse_points {s : String} {f : Failure} (h : parse s = .error f) :
    ∃ e, f = .invalid e ∧ e.PointsInto s := by
  unfold Window.parse at h
  cases hp : Name.parse s with
  | ok n => rw [hp] at h; cases h
  | error e =>
    rw [hp] at h
    cases h
    exact ⟨e, rfl, Name.points_of_parse hp⟩

/-- The index in front of the rejected word has a character of two bytes. -/
theorem parse_points_capital :
    parse "a[é].foo_B" = .error (.invalid ⟨"a[é].foo_B", ['_', 'B'], 9⟩) ∧
      ∃ e, Failure.invalid ⟨"a[é].foo_B", ['_', 'B'], 9⟩ = .invalid e ∧
        e.PointsInto "a[é].foo_B" := by
  have h : parse "a[é].foo_B" = .error (.invalid ⟨"a[é].foo_B", ['_', 'B'], 9⟩) := by
    decide +kernel
  exact ⟨h, parse_points h⟩

end Window

end TypedConfig
