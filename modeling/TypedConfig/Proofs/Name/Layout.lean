import Mathlib.Data.List.Infix
import TypedConfig.Proofs.Name.Spelling

/-!
# The grammar of canonical names

A text whose brackets are balanced is dots, words and groups, one after the other. A word is a
stretch outside of brackets without a dot, as long as it can be; a group is an outermost pair of
brackets with what stands between them, other brackets included.

* `Balanced`: every bracket that is closed was opened before, and every one that is opened is closed.
* `Layout`: the pieces of a text.
* `balanced_iff_layout`, `Layout.unique`: a text has pieces exactly if it is balanced, and no two
  lists of them.
-/

namespace TypedConfig

/-! ## Brackets -/

/-- The brackets of the text are balanced. -/
structure Balanced (cs : List Char) : Prop where
  /-- No bracket is closed that was not opened. -/
  opened : ∀ p, p <+: cs → p.count ']' ≤ p.count '['
  /-- Every bracket that is opened is closed. -/
  closed : cs.count '[' = cs.count ']'

/-- How many brackets are open behind a text with `d` open ones in front of it, unless one is closed
that was not opened. -/
def depthFrom : Nat → List Char → Option Nat
  | d, [] => some d
  | d, c :: cs =>
    if c = '[' then depthFrom (d + 1) cs
    else if c = ']' then
      match d with
      | 0 => none
      | d + 1 => depthFrom d cs
    else depthFrom d cs

/-- A character opens a bracket, closes one, or does neither. -/
theorem bracket_cases (c : Char) : c = '[' ∨ c = ']' ∨ c ≠ '[' ∧ c ≠ ']' := by
  by_cases hopen : c = '['
  · exact .inl hopen
  · by_cases hclose : c = ']'
    · exact .inr (.inl hclose)
    · exact .inr (.inr ⟨hopen, hclose⟩)

section Depth

variable {c : Char} {cs : List Char} {d e : Nat}

@[simp] theorem depthFrom_nil (d : Nat) : depthFrom d [] = some d := rfl

@[simp] theorem depthFrom_open (d : Nat) (cs : List Char) :
    depthFrom d ('[' :: cs) = depthFrom (d + 1) cs := rfl

@[simp] theorem depthFrom_close_zero (cs : List Char) : depthFrom 0 (']' :: cs) = none := rfl

@[simp] theorem depthFrom_close (d : Nat) (cs : List Char) :
    depthFrom (d + 1) (']' :: cs) = depthFrom d cs := rfl

theorem depthFrom_other (h : c ≠ '[') (h' : c ≠ ']') (d : Nat) (cs : List Char) :
    depthFrom d (c :: cs) = depthFrom d cs := by
  cases d <;> simp [depthFrom, h, h']

/-- The stretches at the start of a longer text are the empty one, and those of the rest with one
character more. -/
theorem forall_start_cons : (∀ p, p <+: c :: cs → p.count ']' ≤ d + p.count '[') ↔
    ∀ p, p <+: cs → (c :: p).count ']' ≤ d + (c :: p).count '[' := by
  constructor
  · exact fun h p hp => h _ ((List.prefix_cons_inj c).mpr hp)
  · intro h p hp
    rcases List.prefix_cons_iff.mp hp with rfl | ⟨q, rfl, hq⟩
    · simp
    · exact h q hq

/-- The depth counts the brackets. -/
theorem depthFrom_eq_some_iff : depthFrom d cs = some e ↔
    (∀ p, p <+: cs → p.count ']' ≤ d + p.count '[') ∧
      d + cs.count '[' = e + cs.count ']' := by
  induction cs generalizing d with
  | nil => simp [List.prefix_nil]
  | cons c cs ih =>
    rw [forall_start_cons]
    rcases bracket_cases c with rfl | rfl | ⟨hopen, hclose⟩
    · simp only [depthFrom_open, ih, List.count_cons, beq_self_eq_true, Char.reduceBEq, ↓reduceIte,
        Bool.false_eq_true, Nat.add_zero, Nat.add_assoc, Nat.add_comm 1]
    · cases d with
      | zero =>
        simp only [depthFrom_close_zero, reduceCtorEq, false_iff, not_and]
        intro h
        have := h [] List.nil_prefix
        simp at this
      | succ d =>
        simp only [depthFrom_close, ih, List.count_cons, beq_self_eq_true, Char.reduceBEq,
          ↓reduceIte, Bool.false_eq_true, Nat.add_zero]
        constructor
        · rintro ⟨h, he⟩
          exact ⟨fun p hp => by have := h p hp; omega, by omega⟩
        · rintro ⟨h, he⟩
          exact ⟨fun p hp => by have := h p hp; omega, by omega⟩
    · simp only [depthFrom_other hopen hclose, ih, List.count_cons, beq_iff_eq, hopen, hclose,
        ↓reduceIte, Nat.add_zero]

theorem balanced_iff_depth : Balanced cs ↔ depthFrom 0 cs = some 0 := by
  rw [depthFrom_eq_some_iff, Nat.zero_add, Nat.zero_add]
  constructor
  · rintro ⟨h, he⟩
    exact ⟨fun p hp => by simpa using h p hp, he⟩
  · rintro ⟨h, he⟩
    exact ⟨fun p hp => by simpa using h p hp, he⟩

/-- The depth behind two texts is that behind the second one, from the depth behind the first. -/
theorem depthFrom_append (d : Nat) (cs ds : List Char) :
    depthFrom d (cs ++ ds) = (depthFrom d cs).bind (depthFrom · ds) := by
  induction cs generalizing d with
  | nil => rfl
  | cons c cs ih =>
    rcases bracket_cases c with rfl | rfl | ⟨hopen, hclose⟩
    · exact ih (d + 1)
    · cases d with
      | zero => rfl
      | succ d => exact ih d
    · rw [List.cons_append, depthFrom_other hopen hclose, depthFrom_other hopen hclose, ih]

instance : DecidablePred Balanced := fun _ => decidable_of_iff _ balanced_iff_depth.symm

/-- Inside of brackets the text has a first place where they are closed. -/
theorem exists_close (h : depthFrom (d + 1) cs = some 0) :
    ∃ g rest, cs = g ++ ']' :: rest ∧ depthFrom d g = some 0 ∧ depthFrom 0 rest = some 0 := by
  induction cs generalizing d with
  | nil => cases h
  | cons c cs ih =>
    rcases bracket_cases c with rfl | rfl | ⟨hopen, hclose⟩
    · obtain ⟨g, rest, rfl, hg, hrest⟩ := ih h
      exact ⟨'[' :: g, rest, rfl, hg, hrest⟩
    · cases d with
      | zero => exact ⟨[], cs, rfl, rfl, h⟩
      | succ d =>
        obtain ⟨g, rest, rfl, hg, hrest⟩ := ih h
        exact ⟨']' :: g, rest, rfl, hg, hrest⟩
    · rw [depthFrom_other hopen hclose] at h
      obtain ⟨g, rest, rfl, hg, hrest⟩ := ih h
      exact ⟨c :: g, rest, rfl, by rwa [depthFrom_other hopen hclose], hrest⟩

/-- There is one place only where brackets are closed. -/
theorem close_unique {g g' rest rest' : List Char} (hg : depthFrom d g = some 0)
    (hg' : depthFrom d g' = some 0) (h : g ++ ']' :: rest = g' ++ ']' :: rest') :
    g = g' ∧ rest = rest' := by
  induction g generalizing d g' with
  | nil =>
    obtain rfl : d = 0 := by simpa using hg
    cases g' with
    | nil => exact ⟨rfl, (List.cons.inj h).2⟩
    | cons c g' =>
      obtain ⟨rfl, -⟩ := List.cons.inj h
      cases hg'
  | cons c g ih =>
    cases g' with
    | nil =>
      obtain rfl : d = 0 := by simpa using hg'
      obtain ⟨rfl, -⟩ := List.cons.inj h
      cases hg
    | cons c' g' =>
      obtain ⟨rfl, htail⟩ := List.cons.inj h
      suffices g = g' ∧ rest = rest' from ⟨congrArg _ this.1, this.2⟩
      rcases bracket_cases c with rfl | rfl | ⟨hopen, hclose⟩
      · exact ih hg hg' htail
      · cases d with
        | zero => cases hg
        | succ d => exact ih hg hg' htail
      · rw [depthFrom_other hopen hclose] at hg hg'
        exact ih hg hg' htail

end Depth

/-! ## Pieces -/

/-- A character that stands for itself outside of brackets. -/
def isPlainChar (c : Char) : Bool := c != '.' && c != '[' && c != ']'

/-- A part of a text. -/
inductive Piece where
  | dot
  /-- A stretch outside of brackets and between dots. -/
  | word (cs : List Char)
  /-- What stands between two brackets. -/
  | group (cs : List Char)
  deriving DecidableEq, Repr

namespace Piece

def isWord : Piece → Bool
  | word _ => true
  | dot | group _ => false

/-- The element that the piece is. Dots and empty groups are none. -/
def element? : Piece → Option Element
  | dot => none
  | word cs => some ⟨Kind.ofWord cs, String.ofList cs⟩
  | group cs => if cs = [] then none else some ⟨Kind.ofIndex cs, String.ofList cs⟩

end Piece

/-- The pieces of a text, in order. A word ends where another piece starts, or the text ends. -/
inductive Layout : List Char → List Piece → Prop
  | nil : Layout [] []
  | dot {cs : List Char} {ps : List Piece} (h : Layout cs ps) : Layout ('.' :: cs) (.dot :: ps)
  | group {g cs : List Char} {ps : List Piece} (hg : Balanced g) (h : Layout cs ps) :
      Layout ('[' :: (g ++ ']' :: cs)) (.group g :: ps)
  | word {c : Char} {w cs : List Char} {ps : List Piece} (hw : ∀ d ∈ c :: w, isPlainChar d = true)
      (hps : ∀ p ∈ ps.head?, p.isWord = false) (h : Layout cs ps) :
      Layout (c :: w ++ cs) (.word (c :: w) :: ps)

section Layout

variable {c : Char} {w cs : List Char} {ps qs : List Piece}

theorem isPlainChar_iff : isPlainChar c = true ↔ c ≠ '.' ∧ c ≠ '[' ∧ c ≠ ']' := by
  simp [isPlainChar, and_assoc]

theorem depthFrom_bracketFree (hw : ∀ d ∈ w, d ≠ '[' ∧ d ≠ ']') (d : Nat) (cs : List Char) :
    depthFrom d (w ++ cs) = depthFrom d cs := by
  induction w with
  | nil => rfl
  | cons c w ih =>
    obtain ⟨⟨hopen, hclose⟩, hw⟩ := List.forall_mem_cons.mp hw
    rw [List.cons_append, depthFrom_other hopen hclose, ih hw]

theorem depthFrom_plain (hw : ∀ d ∈ w, isPlainChar d = true) (d : Nat) (cs : List Char) :
    depthFrom d (w ++ cs) = depthFrom d cs :=
  depthFrom_bracketFree (fun c hc => (isPlainChar_iff.mp (hw c hc)).2) d cs

/-- Behind balanced brackets and the one that closes them one bracket less is open. -/
theorem depthFrom_group {d e : Nat} {g : List Char} (hg : depthFrom e g = some 0) :
    depthFrom (e + d + 1) (g ++ ']' :: cs) = depthFrom d cs := by
  induction g generalizing e with
  | nil =>
    obtain rfl : e = 0 := by simpa using hg
    rw [Nat.zero_add]
    rfl
  | cons c g ih =>
    rcases bracket_cases c with rfl | rfl | ⟨hopen, hclose⟩
    · have hrest := ih hg
      rwa [show e + 1 + d + 1 = e + d + 1 + 1 by omega] at hrest
    · cases e with
      | zero => cases hg
      | succ e =>
        rw [show e + 1 + d + 1 = e + d + 1 + 1 by omega]
        exact ih hg
    · rw [depthFrom_other hopen hclose] at hg
      rw [List.cons_append, depthFrom_other hopen hclose]
      exact ih hg

theorem Layout.balanced (h : Layout cs ps) : Balanced cs := by
  rw [balanced_iff_depth]
  induction h with
  | nil => rfl
  | dot _ ih => exact ih
  | group hg _ ih =>
    have := balanced_iff_depth.mp hg
    rw [depthFrom_open, ← ih]
    simpa using depthFrom_group (d := 0) this
  | word hw _ _ ih => rw [depthFrom_plain hw, ih]

/-- Behind a word the text is at its end, or a dot or a bracket stands. -/
theorem Layout.head_of_not_word (h : Layout cs ps) (hps : ∀ p ∈ ps.head?, p.isWord = false) :
    cs = [] ∨ (∃ rest, cs = '.' :: rest) ∨ ∃ rest, cs = '[' :: rest := by
  cases h with
  | nil => exact .inl rfl
  | dot => exact .inr (.inl ⟨_, rfl⟩)
  | group => exact .inr (.inr ⟨_, rfl⟩)
  | word => cases hps _ rfl

/-- The text starts with a dot exactly if its pieces do. -/
theorem Layout.head?_eq_dot_iff (h : Layout cs ps) :
    cs.head? = some '.' ↔ ps.head? = some .dot := by
  cases h with
  | nil => simp
  | dot => simp
  | group => simp
  | word hw =>
    have hc := (isPlainChar_iff.mp (hw _ List.mem_cons_self)).1
    simp [hc]

/-- The text ends with a dot exactly if its pieces do. -/
theorem Layout.getLast?_eq_dot_iff (h : Layout cs ps) :
    cs.getLast? = some '.' ↔ ps.getLast? = some .dot := by
  have hmore : ∀ {xs ys : List Char} {p : Piece} {qs : List Piece}, Layout ys qs →
      (ys.getLast? = some '.' ↔ qs.getLast? = some .dot) →
      (xs.getLast? = some '.' ↔ p = .dot) →
      ((xs ++ ys).getLast? = some '.' ↔ (p :: qs).getLast? = some .dot) := by
    intro xs ys p qs hlayout hys hxs
    cases hlayout with
    | nil => simpa using hxs
    | _ => simpa using hys
  induction h with
  | nil => simp
  | @dot cs ps h ih => exact @hmore ['.'] cs .dot ps h ih (by simp)
  | @group g cs ps hg h ih =>
    have hclose : ('[' :: (g ++ [']'])).getLast? ≠ some '.' := by
      rw [← List.cons_append, List.getLast?_concat]
      decide
    have := @hmore ('[' :: (g ++ [']'])) cs (.group g) ps h ih (by simp [hclose])
    simpa using this
  | @word c w cs ps hw hps h ih =>
    refine @hmore (c :: w) cs _ ps h ih (iff_of_false (fun hlast => ?_) nofun)
    exact (isPlainChar_iff.mp (hw '.' (List.mem_of_getLast? hlast))).1 rfl

/-- A text whose brackets are balanced has pieces. -/
theorem exists_layout (h : depthFrom 0 cs = some 0) : ∃ ps, Layout cs ps := by
  -- A group takes more than one character off the text, so the induction is on its length.
  induction hn : cs.length using Nat.strong_induction_on generalizing cs with
  | _ n ih =>
    subst hn
    cases cs with
    | nil => exact ⟨[], .nil⟩
    | cons c cs =>
      have hrest : ∀ {rest : List Char}, depthFrom 0 rest = some 0 → rest.length ≤ cs.length →
          ∃ ps, Layout rest ps := fun hrest hle => ih _ (Nat.lt_succ_of_le hle) hrest rfl
      by_cases hdot : c = '.'
      · subst hdot
        obtain ⟨ps, hps⟩ := @hrest cs h (Nat.le_refl _)
        exact ⟨_, .dot hps⟩
      rcases bracket_cases c with rfl | rfl | ⟨hopen, hclose⟩
      · obtain ⟨g, rest, rfl, hg, htail⟩ := exists_close h
        obtain ⟨ps, hps⟩ := hrest htail (by simp; omega)
        exact ⟨_, .group (balanced_iff_depth.mpr hg) hps⟩
      · cases h
      -- The character stands in front of the word that follows, or is one alone.
      have hc : isPlainChar c = true := isPlainChar_iff.mpr ⟨hdot, hopen, hclose⟩
      rw [depthFrom_other hopen hclose] at h
      obtain ⟨ps, hps⟩ := hrest h (Nat.le_refl _)
      by_cases hend : ∀ p ∈ ps.head?, p.isWord = false
      · exact ⟨_, .word (List.forall_mem_singleton.mpr hc) hend hps⟩
      · cases hps with
        | word hw hnext hps => exact ⟨_, .word (List.forall_mem_cons.mpr ⟨hc, hw⟩) hnext hps⟩
        | nil => exact absurd nofun hend
        | dot | group => exact absurd (by rintro _ ⟨⟩; rfl) hend

/-- A text has pieces exactly if its brackets are balanced. -/
theorem balanced_iff_layout : Balanced cs ↔ ∃ ps, Layout cs ps :=
  ⟨fun h => exists_layout (balanced_iff_depth.mp h), fun ⟨_, h⟩ => h.balanced⟩

/-- Two words that start one text and end where a word does are one. -/
theorem word_unique {w w' cs cs' : List Char} (hw : ∀ d ∈ w, isPlainChar d = true)
    (hw' : ∀ d ∈ w', isPlainChar d = true) (hcs : ∀ c ∈ cs.head?, isPlainChar c = false)
    (hcs' : ∀ c ∈ cs'.head?, isPlainChar c = false) (h : w ++ cs = w' ++ cs') :
    w = w' ∧ cs = cs' := by
  induction w generalizing w' with
  | nil =>
    cases w' with
    | nil => exact ⟨rfl, h⟩
    | cons d w' =>
      obtain rfl : cs = d :: (w' ++ cs') := h
      have := hcs d rfl
      rw [hw' d List.mem_cons_self] at this
      cases this
  | cons d w ih =>
    cases w' with
    | nil =>
      obtain rfl : d :: (w ++ cs) = cs' := h
      have := hcs' d rfl
      rw [hw d List.mem_cons_self] at this
      cases this
    | cons d' w' =>
      obtain ⟨rfl, htail⟩ := List.cons.inj h
      obtain ⟨rfl, rfl⟩ := ih (fun d hd => hw d (List.mem_cons_of_mem _ hd))
        (fun d hd => hw' d (List.mem_cons_of_mem _ hd)) htail
      exact ⟨rfl, rfl⟩

/-- A text has no two lists of pieces. -/
theorem Layout.unique (h : Layout cs ps) (h' : Layout cs qs) : ps = qs := by
  have hend : ∀ {cs : List Char} {ps : List Piece}, Layout cs ps →
      (∀ p ∈ ps.head?, p.isWord = false) → ∀ c ∈ cs.head?, isPlainChar c = false := by
    intro cs ps h hps c hc
    rcases h.head_of_not_word hps with rfl | ⟨rest, rfl⟩ | ⟨rest, rfl⟩ <;> cases hc <;> rfl
  induction h generalizing qs with
  | nil => cases h'; rfl
  | dot _ ih =>
    cases h' with
    | dot h' => rw [ih h']
    | word hw => exact absurd (hw _ List.mem_cons_self) (by decide)
  | @group g cs ps hg _ ih =>
    generalize htext : '[' :: (g ++ ']' :: cs) = text at h'
    cases h' with
    | nil => cases htext
    | dot => cases htext
    | group hg' h' =>
      obtain ⟨rfl, rfl⟩ := close_unique (balanced_iff_depth.mp hg) (balanced_iff_depth.mp hg')
        (List.cons.inj htext).2
      rw [ih h']
    | word hw =>
      obtain ⟨rfl, -⟩ := List.cons.inj htext
      exact absurd (hw _ List.mem_cons_self) (by decide)
  | @word c w cs ps hw hps h ih =>
    generalize htext : c :: w ++ cs = text at h'
    cases h' with
    | nil => cases htext
    | dot =>
      obtain ⟨rfl, -⟩ := List.cons.inj htext
      exact absurd (hw _ List.mem_cons_self) (by decide)
    | group =>
      obtain ⟨rfl, -⟩ := List.cons.inj htext
      exact absurd (hw _ List.mem_cons_self) (by decide)
    | word hw' hps' h' =>
      obtain ⟨heq, rfl⟩ := word_unique hw hw' (hend h hps) (hend h' hps') htext
      rw [ih h', heq]

end Layout

end TypedConfig
