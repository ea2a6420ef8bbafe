import TypedConfig.Bind.Collection

/-!
# Texts joined by a character, and split again

Texts without a character, joined by it, are the pieces of what they make (`splitAtChar_eq_splitOn`,
over the library's `List.splitOn_intercalate`). Trimming leaves a text as it is that has no blank at
either end (`Text.trimChars_eq_self`), and something of every text that is not blank
(`Text.mem_trimChars`). So the elements that joined texts write are those texts
(`Options.splitText_intercalate`). -/

namespace TypedConfig

/-! ## Blanks -/

namespace Text

variable {c : Char} {cs : List Char}

theorem trimStart_eq_self (h : ∀ c, cs.head? = some c → isBlank c = false) : trimStart cs = cs := by
  cases cs with
  | nil => rfl
  | cons c cs => rw [trimStart, List.dropWhile_cons_of_neg (by simp [h c rfl])]

/-- The text has no blank at either end. -/
def Bare (cs : List Char) : Prop :=
  ∀ c, cs.head? = some c ∨ cs.getLast? = some c → isBlank c = false

theorem trimChars_eq_self (h : Bare cs) : trimChars cs = cs := by
  have hreverse : ∀ c, cs.reverse.head? = some c → isBlank c = false := fun c hc =>
    h c (.inr (List.head?_reverse ▸ hc))
  rw [trimChars, trimStart_eq_self fun c hc => h c (.inl hc), trimStart_eq_self hreverse,
    List.reverse_reverse]

theorem mem_trimStart (hb : isBlank c = false) (hc : c ∈ cs) : c ∈ trimStart cs := by
  rw [← trimStart_eq cs, List.mem_append] at hc
  refine hc.resolve_left fun hblank => ?_
  rw [List.all_eq_true.mp List.all_takeWhile c hblank] at hb
  cases hb

/-- No character but blanks is lost. -/
theorem mem_trimChars (hb : isBlank c = false) (hc : c ∈ cs) : c ∈ trimChars cs :=
  List.mem_reverse.mpr (mem_trimStart hb (List.mem_reverse.mpr (mem_trimStart hb hc)))

end Text

/-! ## Pieces -/

theorem splitAtChar_eq_splitOn (sep : Char) (cs : List Char) :
    splitAtChar sep cs = cs.splitOn sep := by
  induction cs with
  | nil => rfl
  | cons c cs ih =>
    rw [splitAtChar, ih, List.splitOn_cons_eq_if_modifyHead]
    by_cases h : c = sep
    · simp [h]
    · rw [if_neg h, if_neg (by simpa using h)]
      cases hpieces : cs.splitOn sep with
      | nil => exact absurd hpieces (List.splitOn_ne_nil _ _)
      | cons piece rest => rfl

/-- The elements that texts write, joined by the delimiter, are those texts, unless the whole is
blank. -/
theorem Options.splitText_intercalate (o : Options) {texts : List String} (hne : texts ≠ [])
    (hfree : ∀ t ∈ texts, o.delimiter ∉ t.toList)
    (hbare : o.trimElements = true → ∀ t ∈ texts, Text.Bare t.toList)
    (hwritten : ∃ c ∈ (String.intercalate (String.singleton o.delimiter) texts).toList,
      Text.isBlank c = false) :
    o.splitText (String.intercalate (String.singleton o.delimiter) texts) = texts := by
  obtain ⟨c, hc, hb⟩ := hwritten
  have hsome : (Text.trimChars
      (String.intercalate (String.singleton o.delimiter) texts).toList).isEmpty = false :=
    List.isEmpty_eq_false_iff_exists_mem.mpr ⟨c, Text.mem_trimChars hb hc⟩
  have hpieces : splitAtChar o.delimiter
      (String.intercalate (String.singleton o.delimiter) texts).toList =
        texts.map String.toList := by
    rw [splitAtChar_eq_splitOn, String.toList_intercalate, String.toList_singleton]
    refine List.splitOn_intercalate _ (List.forall_mem_map.mpr hfree) ?_
    simpa using hne
  unfold splitText
  rw [hsome, hpieces, List.map_map]
  refine (List.map_congr_left fun t ht => ?_).trans (List.map_id texts)
  show String.ofList (if o.trimElements then Text.trimChars t.toList else t.toList) = t
  split
  · rename_i htrim
    rw [Text.trimChars_eq_self (hbare htrim t ht), String.ofList_toList]
  · exact String.ofList_toList

end TypedConfig
