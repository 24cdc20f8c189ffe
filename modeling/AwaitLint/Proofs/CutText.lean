import AwaitLint.Text.Cut
import Mathlib.Data.List.DropRight

/-!
# AwaitLint — what cutting text leaves

The cuts of `AwaitLint/Text/Cut.lean`, told by how a text is put together.

* **`trimLeft_append_cons`**, **`trimRight_append_cons`** — trimming stops at the first character
  that is not white space, so it can be done to either side of such a character alone.
* **`trim_eq`**, **`exists_eq_trim`** — trimming is the division of a text into white space, a text
  that neither starts nor ends with it, and white space again (`trim_eq_iff`).
* **`cutLast_eq_some_iff`** — a cut at the last `c` is the division whose second part is free of it.
* **`not_mem_of_mem_splitOn`** — so are the parts of a text that is split at `c`.
* **`infix_append_cons`** — a word without the character `c` lies on one side of it. Hence
  `before_append_cons`: a cut passes over what comes before `c` if the word is not in there.
* **`before_first`** — a word that is not yet complete before the end of `a ++ word` is cut there.
-/

namespace AwaitLint.Text

variable {a b cs inner lead trail word : List Char} {c : Char}

/-! ## White space at the ends -/

/-- White space only. -/
def Blank (cs : List Char) : Prop := ∀ c ∈ cs, isBlank c = true

/-- No white space at either end. -/
structure Trimmed (cs : List Char) : Prop where
  first : ∀ c, cs.head? = some c → isBlank c = false
  last : ∀ c, cs.getLast? = some c → isBlank c = false

theorem trimmed_nil : Trimmed [] := ⟨by simp, by simp⟩

theorem trimLeft_blank_append (ha : Blank a) (b : List Char) : trimLeft (a ++ b) = trimLeft b :=
  List.dropWhile_append_of_pos ha

theorem trimLeft_blank (ha : Blank a) : trimLeft a = [] := List.dropWhile_eq_nil_iff.2 ha

theorem trimLeft_append_cons (hc : isBlank c = false) (a b : List Char) :
    trimLeft (a ++ c :: b) = trimLeft a ++ c :: b := by
  unfold trimLeft
  induction a with
  | nil => rw [List.nil_append, List.dropWhile_cons_of_neg (by simp [hc]), List.dropWhile_nil,
      List.nil_append]
  | cons x a ih =>
    rw [List.cons_append, List.dropWhile_cons, List.dropWhile_cons]
    split
    · exact ih
    · rfl

theorem trimRight_append_blank (a : List Char) (hb : Blank b) : trimRight (a ++ b) = trimRight a := by
  have hrev : Blank b.reverse := fun c hc => hb c (List.mem_reverse.1 hc)
  rw [trimRight, List.reverse_append, trimLeft_blank_append hrev]
  rfl

theorem trimRight_append_cons (hc : isBlank c = false) (a b : List Char) :
    trimRight (a ++ c :: b) = a ++ c :: trimRight b := by
  unfold trimRight
  rw [List.reverse_append, List.reverse_cons, List.append_assoc, List.singleton_append,
    trimLeft_append_cons hc]
  simp

theorem trimRight_isPrefix (cs : List Char) : trimRight cs <+: cs := List.rdropWhile_prefix _ _

/-- What is left of a text that starts with `c` is empty or starts with `c`. -/
theorem trimRight_cons (c : Char) (cs : List Char) :
    trimRight (c :: cs) = [] ∨ ∃ rest, trimRight (c :: cs) = c :: rest := by
  have hprefix := trimRight_isPrefix (c :: cs)
  rcases List.prefix_cons_iff.1 hprefix with hnil | ⟨rest, heq, -⟩
  · exact .inl hnil
  · exact .inr ⟨rest, heq⟩

theorem trim_eq (hlead : Blank lead) (hinner : Trimmed inner) (htrail : Blank trail) :
    trim (lead ++ inner ++ trail) = inner := by
  rw [trim, List.append_assoc, trimLeft_blank_append hlead]
  cases inner with
  | nil => rw [List.nil_append, trimLeft_blank htrail]; rfl
  | cons c rest =>
    have hfirst : isBlank c = false := hinner.first c rfl
    have hstay : trimLeft (c :: rest ++ trail) = c :: rest ++ trail :=
      trimLeft_append_cons hfirst [] (rest ++ trail)
    rw [hstay, trimRight_append_blank _ htrail]
    -- the last character stops the trimming at the other end
    obtain ⟨front, d, hsnoc⟩ := List.eq_nil_or_concat' (c :: rest) |>.resolve_left (List.cons_ne_nil _ _)
    have hlast : isBlank d = false := hinner.last d (by rw [hsnoc, List.getLast?_concat])
    rw [hsnoc]
    exact trimRight_append_cons hlast front []

theorem trim_blank_append (hlead : Blank lead) (hinner : Trimmed inner) :
    trim (lead ++ inner) = inner := by
  have hnone : Blank [] := List.forall_mem_nil _
  have hcut := trim_eq hlead hinner hnone
  rwa [List.append_nil] at hcut

theorem trimmed_trim (cs : List Char) : Trimmed (trim cs) where
  first c hc := by
    obtain ⟨rest, hrest⟩ := List.head?_eq_some_iff.1 hc
    obtain ⟨trail, htrail⟩ := trimRight_isPrefix (trimLeft cs)
    -- the first character was the first one already before the end was trimmed
    have hleft : trimLeft cs = c :: (rest ++ trail) := by
      rw [← htrail]
      exact congrArg (· ++ trail) hrest
    have hnot := List.head?_dropWhile_not isBlank cs
    rw [show cs.dropWhile isBlank = c :: (rest ++ trail) from hleft] at hnot
    exact hnot
  last c hc := by
    have hne : trim cs ≠ [] := fun hnil => by
      rw [hnil] at hc
      cases hc
    have hnot := List.rdropWhile_last_not isBlank (trimLeft cs) hne
    rw [List.getLast?_eq_some_getLast hne, Option.some.injEq] at hc
    rw [← hc]
    exact Bool.eq_false_iff.2 hnot

theorem exists_eq_trim (cs : List Char) :
    ∃ lead trail, Blank lead ∧ Blank trail ∧ cs = lead ++ trim cs ++ trail := by
  refine ⟨cs.takeWhile isBlank, (trimLeft cs).rtakeWhile isBlank, ?_, ?_, ?_⟩
  · exact fun c hc => List.mem_takeWhile_imp hc
  · exact fun c hc => List.mem_rtakeWhile_imp hc
  · have hright : trim cs ++ (trimLeft cs).rtakeWhile isBlank = trimLeft cs :=
      List.rdropWhile_append_rtakeWhile
    rw [List.append_assoc, hright]
    exact List.takeWhile_append_dropWhile.symm

theorem trim_append_blank (a : List Char) (hb : Blank b) : trim (a ++ b) = trim a := by
  obtain ⟨lead, trail, hlead, htrail, ha⟩ := exists_eq_trim a
  have hmore : Blank (trail ++ b) := List.forall_mem_append.2 ⟨htrail, hb⟩
  conv_lhs => rw [ha, List.append_assoc]
  exact trim_eq hlead (trimmed_trim a) hmore

theorem trim_trimRight (cs : List Char) : trim (trimRight cs) = trim cs := by
  have htrail : Blank (cs.rtakeWhile isBlank) := fun c hc => List.mem_rtakeWhile_imp hc
  have hsplit : trimRight cs ++ cs.rtakeWhile isBlank = cs := List.rdropWhile_append_rtakeWhile
  rw [← trim_append_blank (trimRight cs) htrail, hsplit]

/-- `inner` is what is left of a text without the white space around it. -/
inductive Surrounded (cs inner : List Char) : Prop
  | intro {lead trail : List Char} (htext : cs = lead ++ inner ++ trail) (hlead : Blank lead)
      (hinner : Trimmed inner) (htrail : Blank trail)

theorem trim_eq_iff : trim cs = inner ↔ Surrounded cs inner := by
  constructor
  · intro h
    obtain ⟨lead, trail, hlead, htrail, htext⟩ := exists_eq_trim cs
    have hinner : Trimmed (trim cs) := trimmed_trim cs
    rw [h] at htext hinner
    exact .intro htext hlead hinner htrail
  · rintro ⟨htext, hlead, hinner, htrail⟩
    rw [htext]
    exact trim_eq hlead hinner htrail

theorem surrounded_trim (cs : List Char) : Surrounded cs (trim cs) := trim_eq_iff.1 rfl

theorem Trimmed.trim_eq (h : Trimmed cs) : trim cs = cs :=
  trim_blank_append (List.forall_mem_nil _) h

instance (cs : List Char) : Decidable (Blank cs) := decidable_of_iff _ List.all_eq_true

instance (cs : List Char) : Decidable (Trimmed cs) :=
  decidable_of_iff (trim cs = cs) ⟨fun h => h ▸ trimmed_trim cs, fun h => h.trim_eq⟩

theorem trim_eq_nil_of_blank (h : Blank cs) : trim cs = [] := by
  rw [trim, trimLeft_blank h]
  rfl

/-! ## The last occurrence of a character -/

theorem cutLast_eq_none (h : c ∉ cs) : cutLast c cs = none := by
  induction cs with
  | nil => rfl
  | cons x cs ih =>
    rw [List.mem_cons, not_or] at h
    rw [cutLast, ih h.2]
    exact if_neg (Ne.symm h.1)

theorem cutLast_append_cons (h : c ∉ b) (a : List Char) : cutLast c (a ++ c :: b) = some (a, b) := by
  induction a with
  | nil =>
    rw [List.nil_append, cutLast, cutLast_eq_none h]
    exact if_pos rfl
  | cons x a ih => rw [List.cons_append, cutLast, ih]

/-- The first occurrence from the back. -/
theorem exists_last_of_mem (h : c ∈ cs) : ∃ front back, cs = front ++ c :: back ∧ c ∉ back := by
  obtain ⟨back, front, hrev, hback⟩ := List.eq_append_cons_of_mem (List.mem_reverse.2 h)
  refine ⟨front.reverse, back.reverse, ?_, fun hc => hback (List.mem_reverse.1 hc)⟩
  rw [← List.reverse_reverse cs, hrev]
  simp

theorem cutLast_eq_some_iff : cutLast c cs = some (a, b) ↔ cs = a ++ c :: b ∧ c ∉ b := by
  constructor
  · intro hcut
    by_cases hmem : c ∈ cs
    · obtain ⟨front, back, hcs, hback⟩ := exists_last_of_mem hmem
      -- that division is the one the cut finds
      rw [hcs, cutLast_append_cons hback, Option.some.injEq, Prod.mk.injEq] at hcut
      rw [← hcut.1, ← hcut.2]
      exact ⟨hcs, hback⟩
    · rw [cutLast_eq_none hmem] at hcut
      cases hcut
  · rintro ⟨rfl, hb⟩
    exact cutLast_append_cons hb a

/-! ## Parts between separators -/

theorem not_mem_of_mem_splitOn {part : List Char} (h : part ∈ cs.splitOn c) : c ∉ part := by
  induction cs generalizing part with
  | nil =>
    rw [List.splitOn_nil, List.mem_singleton] at h
    rw [h]
    exact List.not_mem_nil
  | cons x cs ih =>
    rw [List.splitOn_cons_eq_if_modifyHead] at h
    split at h
    · rcases List.mem_cons.1 h with rfl | h
      · exact List.not_mem_nil
      · exact ih h
    · rename_i hx
      -- a character that does not separate joins the first part
      cases hparts : cs.splitOn c with
      | nil => exact absurd hparts (List.splitOn_ne_nil c cs)
      | cons first rest =>
        rw [hparts] at h ih
        rcases List.mem_cons.1 h with rfl | h
        · rw [List.mem_cons, not_or]
          exact ⟨fun heq => hx (beq_iff_eq.2 heq.symm), ih List.mem_cons_self⟩
        · exact ih (List.mem_cons_of_mem _ h)

/-! ## Words -/

theorem prefix_append_cons (hc : c ∉ word) (a b : List Char) :
    word <+: a ++ c :: b ↔ word <+: a := by
  refine ⟨fun h => ?_, fun h => h.trans (List.prefix_append a _)⟩
  have hstop : a ++ [c] <+: a ++ c :: b := ⟨b, by simp⟩
  rcases List.prefix_or_prefix_of_prefix h hstop with hword | hword
  · rcases List.prefix_concat_iff.1 hword with rfl | hword
    · exact absurd (List.mem_append_right a List.mem_cons_self) hc
    · exact hword
  · exact absurd (hword.subset (List.mem_append_right a List.mem_cons_self)) hc

theorem infix_append_cons (hc : c ∉ word) :
    word <:+: a ++ c :: b ↔ word <:+: a ∨ word <:+: b := by
  induction a with
  | nil =>
    have hprefix : word <+: c :: b ↔ word <+: [] := prefix_append_cons hc [] b
    rw [List.nil_append, List.infix_cons_iff, hprefix, List.prefix_nil, List.infix_nil]
  | cons x a ih =>
    have hprefix : word <+: x :: (a ++ c :: b) ↔ word <+: x :: a :=
      prefix_append_cons hc (x :: a) b
    rw [List.cons_append, List.infix_cons_iff, List.infix_cons_iff, hprefix, ih, or_assoc]

theorem before_nil (word : List Char) : before word [] = [] := by
  cases word <;> rfl

theorem before_cons (word : List Char) (c : Char) (cs : List Char) :
    before word (c :: cs) = if word <+: c :: cs then [] else c :: before word cs := by
  unfold before
  rw [cutFirst]
  cases hcut : word.isPrefixOf? (c :: cs) with
  | some after =>
    rw [if_pos ⟨after, List.isPrefixOf?_eq_some_iff_append_eq.1 hcut⟩]
  | none =>
    have hnot : ¬ word <+: c :: cs := by
      rintro ⟨after, hafter⟩
      rw [List.isPrefixOf?_eq_some_iff_append_eq.2 hafter] at hcut
      cases hcut
    rw [if_neg hnot]
    cases cutFirst word cs <;> rfl

theorem before_eq_self (h : ¬ word <:+: cs) : before word cs = cs := by
  induction cs with
  | nil => exact before_nil word
  | cons c cs ih =>
    rw [List.infix_cons_iff, not_or] at h
    rw [before_cons, if_neg h.1, ih h.2]

/-- The cut passes over a part without the word that is closed off by another character. -/
theorem before_append_cons (hc : c ∉ word) (ha : ¬ word <:+: a) (b : List Char) :
    before word (a ++ c :: b) = a ++ c :: before word b := by
  induction a with
  | nil =>
    have hnot : ¬ word <+: c :: b := fun h => ha ((prefix_append_cons hc [] b).1 h).isInfix
    rw [List.nil_append, before_cons, if_neg hnot, List.nil_append]
  | cons x a ih =>
    have hnot : ¬ word <+: x :: (a ++ c :: b) := fun h =>
      ha ((prefix_append_cons hc (x :: a) b).1 h).isInfix
    rw [List.infix_cons_iff, not_or] at ha
    rw [List.cons_append, before_cons, if_neg hnot, ih ha.2, List.cons_append]

/-- The cut is made at the first occurrence: nowhere earlier is the word complete. -/
theorem before_first (ha : ¬ word <:+: a ++ word.dropLast) (b : List Char) :
    before word (a ++ word ++ b) = a := by
  induction a with
  | nil =>
    cases word with
    | nil => exact absurd (List.nil_infix) ha
    | cons w word =>
      rw [List.nil_append, List.cons_append, before_cons, if_pos ⟨b, rfl⟩]
  | cons x a ih =>
    have hnot : ¬ word <+: x :: (a ++ word ++ b) := by
      intro h
      have hshort : x :: (a ++ word.dropLast) <+: x :: (a ++ word ++ b) := by
        obtain ⟨last, hlast⟩ := word.dropLast_prefix
        refine ⟨last ++ b, ?_⟩
        conv_rhs => rw [← hlast]
        simp
      refine ha (List.prefix_of_prefix_length_le h hshort ?_).isInfix
      simp
      omega
    rw [List.cons_append, List.infix_cons_iff, not_or] at ha
    rw [List.cons_append, List.cons_append, before_cons, if_neg hnot, ih ha.2]

end AwaitLint.Text
