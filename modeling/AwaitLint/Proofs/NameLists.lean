import AwaitLint.Config.TypeName
import AwaitLint.Proofs.CutText

/-!
# AwaitLint — comma-separated lists of names

A list is read in three steps: the text is split at commas, the parts are trimmed, and those of which
nothing is left are dropped. The theory follows the parts between the commas, for which splitting and
joining are inverse to each other.

* **`IsEntry`** — what an entry of a list looks like; **`isEntry_of_mem`** — the reader yields
  nothing else.
* **`Padded`** — the parts that may stand for given entries: each entry with white space around it,
  and parts of white space alone anywhere.
* **`Padded.kept_eq`** — of such parts the entries are kept, by one step lemma for each kind of part.
* **`lists_read_back`** — the headline.
-/

namespace AwaitLint.NameList

open Text

/-- What can be an entry of a list. -/
structure IsEntry (entry : String) : Prop where
  nonempty : entry ≠ ""
  noComma : ',' ∉ entry.toList
  trimmed : Trimmed entry.toList

/-- Parts that stand for the given entries, in order: an entry with any white space around it, or
white space alone, of any length. -/
inductive Padded : List String → List String → Prop
  | nil : Padded [] []
  | entry {entry lead trail : String} {entries parts : List String} (h : IsEntry entry)
      (hlead : Blank lead.toList) (htrail : Blank trail.toList) (hrest : Padded entries parts) :
      Padded (entry :: entries) ((lead ++ entry ++ trail) :: parts)
  | gap {gap : String} {entries parts : List String} (hgap : Blank gap.toList)
      (hrest : Padded entries parts) : Padded entries (gap :: parts)

/-! ## Keeping the entries -/

/-- The parts between commas, trimmed, without those of which nothing is left. -/
def kept (parts : List (List Char)) : List String :=
  ((parts.map trim).filter fun part => !part.isEmpty).map String.ofList

theorem kept_cons_of_eq_nil {part : List Char} (h : trim part = []) (parts : List (List Char)) :
    kept (part :: parts) = kept parts := by
  simp [kept, h]

theorem kept_cons_of_ne_nil {part : List Char} (h : trim part ≠ []) (parts : List (List Char)) :
    kept (part :: parts) = String.ofList (trim part) :: kept parts := by
  simp [kept, h]

/-- The empty text, for which there is no list, has no entries like any blank one. -/
theorem entries_ofText (s : String) : (ofText s).entries = kept (s.toList.splitOn ',') := by
  by_cases hs : s = ""
  · rw [hs]
    rfl
  · rw [ofText, if_neg fun hempty => hs (String.isEmpty_iff.1 hempty)]
    rfl

theorem entries_ofText_join {parts : List String} (h : ∀ part ∈ parts, ',' ∉ part.toList) :
    (ofText (",".intercalate parts)).entries = kept (parts.map String.toList) := by
  rw [entries_ofText, String.toList_intercalate]
  show kept (([','].intercalate (parts.map String.toList)).splitOn ',') = _
  cases parts with
  | nil => rfl
  | cons part parts =>
    rw [List.splitOn_intercalate]
    · intro cs hcs
      obtain ⟨text, htext, rfl⟩ := List.mem_map.1 hcs
      exact h text htext
    · exact List.cons_ne_nil _ _

/-! ## Entries -/

theorem isEntry_of_mem {s entry : String} (h : entry ∈ (ofText s).entries) : IsEntry entry := by
  rw [entries_ofText, kept] at h
  obtain ⟨cs, hcs, rfl⟩ := List.mem_map.1 h
  obtain ⟨hpart, hne⟩ := List.mem_filter.1 hcs
  obtain ⟨part, hsplit, rfl⟩ := List.mem_map.1 hpart
  refine ⟨fun hempty => ?_, ?_, ?_⟩
  · rw [← String.toList_inj, String.toList_ofList] at hempty
    rw [hempty] at hne
    cases hne
  · -- trimming only takes characters away
    obtain ⟨lead, trail, -, -, htext⟩ := exists_eq_trim part
    rw [String.toList_ofList]
    intro hcomma
    apply not_mem_of_mem_splitOn hsplit
    rw [htext]
    exact List.mem_append_left _ (List.mem_append_right _ hcomma)
  · rw [String.toList_ofList]
    exact trimmed_trim part

theorem comma_not_mem_of_blank {cs : List Char} (h : Blank cs) : ',' ∉ cs := by
  intro hcomma
  exact absurd (h ',' hcomma) (by decide)

namespace Padded

variable {entries parts : List String}

theorem comma_not_mem (h : Padded entries parts) : ∀ part ∈ parts, ',' ∉ part.toList := by
  induction h with
  | nil => exact List.forall_mem_nil _
  | entry h hlead htrail hrest ih =>
    refine List.forall_mem_cons.2 ⟨?_, ih⟩
    simp [h.noComma, comma_not_mem_of_blank hlead, comma_not_mem_of_blank htrail]
  | gap hgap hrest ih => exact List.forall_mem_cons.2 ⟨comma_not_mem_of_blank hgap, ih⟩

theorem kept_eq (h : Padded entries parts) : kept (parts.map String.toList) = entries := by
  induction h with
  | nil => rfl
  | @entry entry lead trail entries parts h hlead htrail hrest ih =>
    have htrim : trim (lead ++ entry ++ trail).toList = entry.toList := by
      rw [String.toList_append, String.toList_append]
      exact trim_eq hlead h.trimmed htrail
    have hne : trim (lead ++ entry ++ trail).toList ≠ [] := by
      rw [htrim]
      exact fun hnil => h.nonempty (String.toList_inj.1 hnil)
    rw [List.map_cons, kept_cons_of_ne_nil hne, htrim, String.ofList_toList, ih]
  | gap hgap hrest ih => rw [List.map_cons, kept_cons_of_eq_nil (trim_eq_nil_of_blank hgap), ih]

theorem entries_eq (h : Padded entries parts) :
    (ofText (",".intercalate parts)).entries = entries := by
  rw [entries_ofText_join h.comma_not_mem, h.kept_eq]

end Padded

/-- Entries joined as they are. -/
theorem padded_self {entries : List String} (h : ∀ entry ∈ entries, IsEntry entry) :
    Padded entries entries := by
  induction entries with
  | nil => exact .nil
  | cons entry entries ih =>
    obtain ⟨hentry, hrest⟩ := List.forall_mem_cons.1 h
    have hnone : Blank "".toList := List.forall_mem_nil _
    have hpadded := Padded.entry hentry hnone hnone (ih hrest)
    rwa [String.empty_append, String.append_empty] at hpadded

/-- **Lists of names read back.** Whatever text is read, every entry is non-empty, free of commas and
without white space around it, and the entries joined by commas are read as the same entries. Entries
of that kind come back in order from any text that joins them by commas, with white space around them
and empty or blank parts put in anywhere. -/
theorem lists_read_back :
    (∀ s, (∀ entry ∈ (ofText s).entries, IsEntry entry) ∧
      (ofText (",".intercalate (ofText s).entries)).entries = (ofText s).entries) ∧
    ∀ entries parts, Padded entries parts →
      (ofText (",".intercalate parts)).entries = entries :=
  ⟨fun _ => ⟨fun _ h => isEntry_of_mem h, (padded_self fun _ h => isEntry_of_mem h).entries_eq⟩,
    fun _ _ h => h.entries_eq⟩

/-! ### White space of several kinds -/

namespace Spaced

/-- An empty part in front, an entry with a space in it between a tab and an em space, a no-break
space between commas, and a line break at the end. -/
def parts : List String := ["", "\tWait All\u2003", "\u00a0", "Await\n"]

theorem padded : Padded ["Wait All", "Await"] parts := by
  have hwait : IsEntry "Wait All" := ⟨by decide, by decide +kernel, by decide +kernel⟩
  have hawait : IsEntry "Await" := ⟨by decide, by decide +kernel, by decide +kernel⟩
  have htext : parts = ["", "\t" ++ "Wait All" ++ "\u2003", "\u00a0", "" ++ "Await" ++ "\n"] := by
    decide +kernel
  rw [htext]
  refine .gap ?_ (.entry hwait ?_ ?_ (.gap ?_ (.entry hawait ?_ ?_ .nil)))
  all_goals decide +kernel

end Spaced

/-- The spaces inside an entry stay, those around it go. -/
theorem spaced_list_read :
    Padded ["Wait All", "Await"] Spaced.parts ∧
    ",".intercalate Spaced.parts = ",\tWait All\u2003,\u00a0,Await\n" ∧
    (ofText ",\tWait All\u2003,\u00a0,Await\n").entries = ["Wait All", "Await"] := by
  have htext : ",".intercalate Spaced.parts = ",\tWait All\u2003,\u00a0,Await\n" := by
    decide +kernel
  have hread := lists_read_back.2 _ _ Spaced.padded
  rw [htext] at hread
  exact ⟨Spaced.padded, htext, hread⟩

end AwaitLint.NameList
