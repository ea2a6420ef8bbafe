import TypedConfig.Proofs.Name.Grammar
import TypedConfig.Proofs.Source.Entries

/-!
# Entries under keys in brackets

The entries of a map can be put into a source one by one, each under the text of the map with its
key in brackets. If the brackets of all these texts are balanced, they read as the items of the map
(`Name.adapt_bracketed`), and such a source holds them in order and nothing else
(`Entries.ofList_bracketed`).
-/

namespace TypedConfig

/-! ## A text with one more index -/

/-- What stands behind the runs of a scan stands behind them with one more in front. -/
theorem Scan.runs_cons_append {s t : Scan} {more : List Run} (h : s.runs = t.runs ++ more) (r : Run) :
    (Scan.cons r s).runs = (Scan.cons r t).runs ++ more := by
  rw [Scan.runs_cons, Scan.runs_cons, h, List.append_assoc]

/-- Where a text has closed all its brackets, one that opens behind it ends the last run and starts
an index. -/
theorem scanFrom_append_open {d : Nat} {cs : List Char} (h : depthFrom d cs = some 0)
    (rest : List Char) : ∀ offset opened run, ∃ start,
      (scanFrom '.' offset d opened run (cs ++ '[' :: rest)).runs =
        (scanFrom '.' offset d opened run cs).runs ++
          (scanFrom '.' (start + ('[' : Char).utf8Size) 1 (some start)
            (.startingAt (start + ('[' : Char).utf8Size) (some .numeric)) rest).runs := by
  induction cs generalizing d with
  | nil =>
    intro offset opened run
    obtain rfl : d = 0 := by simpa using h
    exact ⟨offset, Scan.runs_cons_append (t := ⟨[], none⟩) (List.nil_append _).symm run⟩
  | cons c cs ih =>
    intro offset opened run
    rcases bracket_cases c with rfl | rfl | ⟨hopen, hclose⟩
    · cases d with
      | zero =>
        obtain ⟨start, hstart⟩ := ih h (offset + ('[' : Char).utf8Size) (some offset)
          (.startingAt (offset + ('[' : Char).utf8Size) (some .numeric))
        exact ⟨start, Scan.runs_cons_append hstart run⟩
      | succ d => exact ih h _ _ _
    · rcases d with _ | _ | d
      · cases h
      · obtain ⟨start, hstart⟩ := ih h (offset + (']' : Char).utf8Size) none
          (.startingAt (offset + (']' : Char).utf8Size) none)
        exact ⟨start, Scan.runs_cons_append hstart run⟩
      · exact ih h _ _ _
    · rw [depthFrom_other hopen hclose] at h
      simp only [List.cons_append, scanFrom, hopen, hclose, ↓reduceIte]
      split
      · obtain ⟨start, hstart⟩ := ih h (offset + c.utf8Size) opened
          (.startingAt (offset + c.utf8Size) none)
        exact ⟨start, Scan.runs_cons_append hstart run⟩
      · exact ih h _ _ _

/-- A text with a key in brackets behind it is the name of the text with the key as one more index. -/
theorem Name.adapt_bracketed {text key : String} (ht : Balanced text.toList)
    (hk : Balanced key.toList) (hne : key ≠ "") :
    Name.adapt (text ++ "[" ++ key ++ "]") '.' = (Name.adapt text '.').item key := by
  have hchars : (text ++ "[" ++ key ++ "]").toList =
      text.toList ++ '[' :: (key.toList ++ ']' :: []) := by
    simp
  obtain ⟨start, hstart⟩ := scanFrom_append_open (balanced_iff_depth.mp ht) (key.toList ++ ']' :: [])
    0 none (.startingAt 0 none)
  obtain ⟨offset, run, hgroup, -, hkey, hkind⟩ := @scanFrom_group 0 (some start) _ [] key.toList '.'
    (start + ('[' : Char).utf8Size) (balanced_iff_depth.mp hk)
    (Run.underWay_start_index (start + ('[' : Char).utf8Size) 0)
  have hkey : run.chars = key.toList := hkey
  have hchars' : run.chars ≠ [] := by simpa [hkey] using hne
  have hruns : (scan '.' (text ++ "[" ++ key ++ "]")).runs = (scan '.' text).runs ++ [run] := by
    unfold scan
    rw [hchars, hstart, hgroup]
    simp [Scan.runs_cons, hchars', scanFrom, Run.startingAt]
  have helement : run.element? = some (Element.index key) := by
    rw [Run.element?, hkind.kind_eq hchars', Element.index_eq]
    simp [Run.text, hkey]
  unfold Name.adapt Scan.elements
  rw [hruns, List.filterMap_append, List.filterMap_cons_some helement]
  rfl

/-! ## Items -/

namespace Name

variable {n : Name}

theorem item_beq_item (hn : n.WellFormed) (k l : String) : (n.item k == n.item l) = (k == l) := by
  rw [Bool.eq_iff_iff, beq_iff (hn.item k) (hn.item l), beq_iff_eq]
  simp [String.toList_inj]

/-- No item of a name is the name of another length. -/
theorem item_beq_of_length {m : Name} (h : m.length ≠ n.length + 1) (key : String) :
    (n.item key == m) = false := by
  show (_ == _ && _) = false
  rw [length_item, beq_false_of_ne h.symm, Bool.false_and]

end Name

/-! ## The source -/

namespace Entries

/-- The entries of a map as items of a place, whose text the keys are put behind. -/
def spread (place : Name) (text : String) (entries : Fields) : Entries :=
  entries.map fun entry => (place.item entry.1, ⟨text ++ "[" ++ entry.1 ++ "]", entry.2⟩)

variable {place : Name} {text : String} {entries : Fields}

theorem names_spread :
    (spread place text entries).names = entries.map fun entry => place.item entry.1 := by
  simp [spread, names]

/-- Entries that are put in one after the other under keys in brackets are held as items. -/
theorem ofList_bracketed (ht : Balanced text.toList)
    (hkeys : ∀ e ∈ entries, e.1 ≠ "" ∧ Balanced e.1.toList)
    (hdistinct : (entries.map (·.1)).Nodup) :
    ofList (entries.map fun entry => (text ++ "[" ++ entry.1 ++ "]", entry.2)) =
      spread (Name.adapt text '.') text entries := by
  have hplace := Name.adapt_wellFormed text '.'
  suffices h : ∀ held : Entries,
      (∀ e ∈ entries, Keyed.find? ((Name.adapt text '.').item e.1) held = none) →
      (entries.map fun entry => (text ++ "[" ++ entry.1 ++ "]", entry.2)).foldl
          (fun held pair => held.insert pair.1 pair.2) held =
        held ++ spread (Name.adapt text '.') text entries from h [] fun _ _ => rfl
  induction entries with
  | nil => exact fun held _ => (List.append_nil held).symm
  | cons entry rest ih =>
    intro held hfresh
    obtain ⟨hkey, hrest⟩ := List.forall_mem_cons.mp hkeys
    obtain ⟨hnew, hdistinct⟩ := List.nodup_cons.mp hdistinct
    have hname : Name.adapt (text ++ "[" ++ entry.1 ++ "]") '.' = (Name.adapt text '.').item entry.1 :=
      Name.adapt_bracketed ht hkey.2 hkey.1
    have hnonempty : ((Name.adapt text '.').item entry.1).isEmpty = false := by simp [Name.isEmpty]
    have hinsert : held.insert (text ++ "[" ++ entry.1 ++ "]") entry.2 =
        held ++ [((Name.adapt text '.').item entry.1, ⟨text ++ "[" ++ entry.1 ++ "]", entry.2⟩)] := by
      unfold Entries.insert
      simp only [hname, hnonempty, Bool.false_eq_true, ↓reduceIte]
      exact Keyed.insert_of_find?_eq_none _ (hfresh entry List.mem_cons_self)
    have hstep := ih hrest hdistinct (held.insert (text ++ "[" ++ entry.1 ++ "]") entry.2)
      fun e he => by
        have hne : (entry.1 == e.1) = false :=
          beq_false_of_ne fun h => hnew (List.mem_map.mpr ⟨e, he, h.symm⟩)
        rw [hinsert, Keyed.find?_append, hfresh e (List.mem_cons_of_mem _ he)]
        simp [Keyed.find?, Name.item_beq_item hplace, hne]
    rw [List.map_cons, List.foldl_cons, hstep, hinsert, List.append_assoc]
    rfl

theorem spread_find? (hp : place.WellFormed) (key : String) :
    (Keyed.find? (place.item key) (spread place text entries)).map Entry.value =
      Keyed.find? key entries := by
  induction entries with
  | nil => rfl
  | cons entry rest ih =>
    show (Keyed.find? _ (_ :: spread place text rest)).map Entry.value = _
    unfold Keyed.find?
    rw [Name.item_beq_item hp]
    split
    · rfl
    · exact ih

/-- Nothing is held under a name that is not one element longer than the place. -/
theorem spread_find?_of_length {n : Name} (h : n.length ≠ place.length + 1) :
    Keyed.find? n (spread place text entries) = none := by
  rw [← Option.not_isSome_iff_eq_none, Keyed.find?_isSome]
  rintro ⟨k, hk, heq⟩
  change k ∈ names _ at hk
  rw [names_spread] at hk
  obtain ⟨e, -, rfl⟩ := List.mem_map.mp hk
  rw [Name.item_beq_of_length h] at heq
  cases heq

/-- Nothing is held below a name that is one element longer than the place. -/
theorem spread_nothing_below {n : Name} (h : n.length = place.length + 1) :
    (spread place text entries).names.any n.isAncestorOf = false := by
  rw [names_spread, List.any_map, List.any_eq_false]
  intro e he hbelow
  have hlt : n.length < (place.item e.1).length := of_decide_eq_true (Bool.and_elim_left hbelow)
  rw [Name.length_item, h] at hlt
  exact lt_irrefl _ hlt

end Entries

end TypedConfig
