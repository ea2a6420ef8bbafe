import TypedConfig.Proofs.Name.Built
import TypedConfig.Text.Blank

/-!
# Canonical names have no blanks around them

A blank is no character of a word, so a word that starts or ends with one has no kind or is no
canonical one (`Kind.Spoiled`), and a text that ends in an open bracket is no name. So the strict
reading refuses a text with blanks around it, and trimming changes no text that it accepts
(`Name.trim_of_parse`).
-/

namespace TypedConfig

/-- No run of a canonical name is like that. -/
def Kind.Spoiled (kind : Option Kind) : Prop := kind = none ∨ kind = some .nonUniform

/-- What strict reading refuses. -/
def Scan.Spoiled (s : Scan) : Prop := ∃ r ∈ s.runs, Kind.Spoiled r.kind

namespace Text

variable {c : Char}

theorem not_isWordChar_of_isBlank (h : isBlank c = true) :
    isWordChar c = false ∧ c.toLower = c := by
  have hn : c.toNat ≤ 32 ∨ 133 ≤ c.toNat := by
    simp only [isBlank, blankRanges, List.any_cons, List.any_nil, Bool.or_false, Bool.or_eq_true,
      Bool.and_eq_true, decide_eq_true_eq] at h
    omega
  have hval : c.val.toNat = c.toNat := rfl
  have hA : 'A'.val.toNat = 65 := rfl
  have hZ : 'Z'.val.toNat = 90 := rfl
  constructor
  · rw [← Bool.not_eq_true, isWordChar_iff]
    omega
  · unfold Char.toLower
    rw [dif_neg]
    simp only [ge_iff_le, UInt32.le_iff_toNat_le]
    omega

theorem isCanonical_of_isBlank (h : isBlank c = true) (atStart : Bool) :
    isCanonical atStart c = false ∧ isCanonical atStart c.toLower = false := by
  have hdash : c ≠ '-' := by rintro rfl; revert h; decide
  obtain ⟨hword, hlower⟩ := not_isWordChar_of_isBlank h
  rw [hlower]
  simp [isCanonical, hword, hdash]

end Text

open Text

variable {sep c : Char} {cs : List Char} {offset depth : Nat} {opened : Option Nat} {run : Run}

theorem Scan.Spoiled.cons {s : Scan} (h : s.Spoiled) (r : Run) : (Scan.cons r s).Spoiled := by
  obtain ⟨r', hr', hs⟩ := h
  unfold Scan.cons
  split
  · exact ⟨r', hr', hs⟩
  · exact ⟨r', List.mem_cons_of_mem _ hr', hs⟩

theorem Scan.spoiled_cons_self {r : Run} (hr : Kind.Spoiled r.kind) (hne : r.chars ≠ []) (s : Scan) :
    (Scan.cons r s).Spoiled := by
  unfold Scan.cons
  rw [if_neg (by simpa using hne)]
  exact ⟨r, .head _, hr⟩

/-- A blank spoils a word. -/
theorem Kind.spoiled_extend_blank {kind : Option Kind} (hk : kind.any Kind.isIndex = false)
    (hc : isBlank c = true) (atStart : Bool) : Kind.Spoiled (Kind.extend kind atStart c) := by
  obtain ⟨hcan, hlow⟩ := isCanonical_of_isBlank hc atStart
  have hdash : c ≠ '-' := by rintro rfl; revert hc; decide
  cases kind with
  | none => simp [Kind.extend, hcan, hlow, Kind.Spoiled]
  | some kind => cases kind <;> simp_all [Kind.extend, Kind.Spoiled, Kind.isIndex]

/-- A spoiled word stays so. -/
theorem Kind.Spoiled.extend {kind : Option Kind} (hk : Kind.Spoiled kind) (c : Char) :
    Kind.Spoiled (Kind.extend kind false c) := by
  rcases hk with rfl | rfl
  · simp only [Kind.extend, Kind.Spoiled]
    split
    · exact .inr rfl
    · split
      · exact .inr rfl
      · exact .inl rfl
  · exact .inr rfl

/-- A spoiled word under way spoils the scan. -/
theorem scanFrom_spoiled (hr : Kind.Spoiled run.kind) (hne : run.chars ≠ []) :
    (scanFrom sep offset 0 opened run cs).Spoiled := by
  have hindex : run.isIndex = false := by
    unfold Run.isIndex
    rcases hr with h | h <;> rw [h] <;> rfl
  induction cs generalizing offset opened run with
  | nil => exact Scan.spoiled_cons_self hr hne _
  | cons c cs ih =>
    have hempty : run.chars.isEmpty = false := by simpa using hne
    have hpush : ∀ kind, Kind.Spoiled kind →
        (scanFrom sep (offset + c.utf8Size) 0 opened (run.push c kind) cs).Spoiled := by
      intro kind hk
      refine ih hk (by simp [Run.push]) ?_
      unfold Run.isIndex
      rcases hk with rfl | rfl <;> rfl
    unfold scanFrom
    simp only [↓reduceIte, hindex, Bool.not_false, Bool.and_true, decide_eq_true_eq, hempty]
    split
    · exact Scan.spoiled_cons_self hr hne _
    · split
      · exact hpush _ (.inr rfl)
      · split
        · exact Scan.spoiled_cons_self hr hne _
        · exact hpush _ (hr.extend c)

/-- A blank at the end spoils the scan. -/
theorem scanFrom_spoiled_of_last (hsep : isBlank sep = false) (hc : isBlank c = true)
    (hr : run.UnderWay depth) : (scanFrom sep offset depth opened run (cs ++ [c])).Spoiled := by
  induction cs generalizing offset depth opened run with
  | nil =>
    have h1 : c ≠ '[' := by rintro rfl; revert hc; decide
    have h2 : c ≠ ']' := by rintro rfl; revert hc; decide
    have h3 : c ≠ sep := by rintro rfl; rw [hc] at hsep; cases hsep
    simp only [List.nil_append, scanFrom, h1, h2, h3, ↓reduceIte, decide_false, Bool.false_and,
      Bool.false_eq_true]
    split
    · rename_i hd
      subst hd
      refine Scan.spoiled_cons_self ?_ (by simp [Run.push]) _
      exact Kind.spoiled_extend_blank (by simpa [Run.UnderWay, Run.isIndex] using hr.1) hc _
    · exact Scan.spoiled_cons_self (.inr rfl) (by simp [Run.push]) _
  | cons d ds ih =>
    rw [List.cons_append]
    unfold scanFrom
    simp only
    split
    · rename_i hd
      split
      · exact (ih (Run.underWay_start_index _ 0)).cons _
      · exact ih (Run.underWay_push_bracket run depth (by subst hd; decide))
    · split
      · rename_i hd
        split
        · exact ih (Run.underWay_push_stray _ _)
        · exact (ih (Run.underWay_start_word _)).cons _
        · exact ih (Run.underWay_push_bracket run _ (by subst hd; decide))
      · split
        · rename_i hsep'
          cases depth with
          | zero => exact (ih (Run.underWay_start_word _)).cons _
          | succ k =>
            simp [hr.isIndex_eq_true] at hsep'
        · cases depth with
          | zero => exact ih (hr.push_word d)
          | succ k => exact ih (hr.push_index d)

namespace Name

/-- Strict reading refuses a spoiled scan. -/
theorem not_spoiled_of_parse {s : String} {n : Name} (h : parse s = .ok n) :
    ¬(scan '.' s).Spoiled := by
  rintro ⟨r, hr, hk⟩
  unfold parse at h
  split at h
  · rename_i hs
    rw [String.isEmpty_iff.mp hs] at hr
    cases hr
  · split at h
    · cases h
    · split at h
      · cases h
      · simp only at h
        split at h
        · cases h
        · rename_i hvalid
          unfold Scan.invalid? at hvalid
          split at hvalid
          · cases hvalid
          · cases hvalid
          · cases hvalid
          · rename_i _ hblank hcapital
            have hsome := List.find?_eq_none.mp hblank r hr
            have hcanonical := List.find?_eq_none.mp hcapital r hr
            rcases hk with hk | hk <;> simp [hk] at hsome hcanonical

/-- Trimming changes no text that is read strictly. -/
theorem trim_of_parse {s : String} {n : Name} (h : parse s = .ok n) : trim s = s := by
  have hclean := not_spoiled_of_parse h
  have hfirst : ∀ c cs, s.toList = c :: cs → isBlank c = false := by
    intro c cs hs
    rw [← Bool.not_eq_true]
    intro hc
    have h1 : c ≠ '[' := by rintro rfl; revert hc; decide
    have h2 : c ≠ ']' := by rintro rfl; revert hc; decide
    have h3 : c ≠ '.' := by rintro rfl; revert hc; decide
    have hspoiled : Kind.Spoiled (Kind.extend none true c) := Kind.spoiled_extend_blank rfl hc true
    refine hclean ?_
    unfold scan
    rw [hs]
    simp only [scanFrom, h1, h2, h3, ↓reduceIte, decide_false, Bool.false_and, Bool.false_eq_true]
    exact scanFrom_spoiled hspoiled (by simp [Run.push])
  have hlast : ∀ cs c, s.toList = cs ++ [c] → isBlank c = false := by
    intro cs c hs
    rw [← Bool.not_eq_true]
    intro hc
    refine hclean ?_
    unfold scan
    rw [hs]
    exact scanFrom_spoiled_of_last (by decide) hc (Run.underWay_start_word 0)
  have hkeep : ∀ cs : List Char, (∀ c rest, cs = c :: rest → isBlank c = false) →
      trimStart cs = cs := by
    intro cs hcs
    cases cs with
    | nil => rfl
    | cons c rest => exact List.dropWhile_cons_of_neg (by simp [hcs c rest rfl])
  have hrest : trimStart s.toList.reverse = s.toList.reverse := by
    refine hkeep _ fun c rest hs => hlast rest.reverse c ?_
    rw [← List.reverse_reverse s.toList, hs, List.reverse_cons]
  unfold trim trimChars
  rw [hkeep _ hfirst, hrest, List.reverse_reverse, String.ofList_toList]

end Name

end TypedConfig
