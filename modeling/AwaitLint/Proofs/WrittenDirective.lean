import AwaitLint.Directive
import AwaitLint.Proofs.CutText
import Mathlib.Data.List.Infix

/-!
# AwaitLint — directives as they are written

A directive is read by cutting: the slashes and outer white space go, then what follows the keyword
loses a trailing comment, a reason and again outer white space, and the rest is split at commas. Which
of the cuts gets at a dash or at slashes depends on the ones before it.

* **`Written`** — the grammar of directives: names joined by commas, then nothing, a reason or a
  comment, whose text is free.
* **`withoutReason_trailer`** — whatever the reason or comment says, the cuts leave the names. They
  hold neither slashes nor a dash that stands alone (`Joined.no_slashes`, `Joined.no_lone_dash`).
* **`Joined.splitNames_eq`** — and splitting gives each name back.
* **`directive_read_back`** — the headline, with the texts that are no directive at all.
-/

namespace AwaitLint.Directive

open Text

/-! ## The grammar -/

def spaces (k : Nat) : List Char := List.replicate k ' '

/-- What can be written for the name of a check. -/
structure IsName (name : String) : Prop where
  nonempty : name.toList ≠ []
  notDash : name.toList ≠ ['-']
  noBlank : ∀ c ∈ name.toList, isBlank c = false
  noComma : ',' ∉ name.toList
  noSlashes : ¬ ['/', '/'] <:+: name.toList

instance (name : String) : Decidable (IsName name) :=
  decidable_of_iff (name.toList ≠ [] ∧ name.toList ≠ ['-'] ∧ name.toList.any isBlank = false ∧
    name.toList.contains ',' = false ∧ ¬ ['/', '/'] <:+: name.toList) <| by
    have hblank : name.toList.any isBlank = false ↔ ∀ c ∈ name.toList, isBlank c = false := by
      simp only [List.any_eq_false, Bool.not_eq_true]
    have hcomma : name.toList.contains ',' = false ↔ ',' ∉ name.toList := by
      rw [← Bool.not_eq_true, List.contains_iff_mem]
    rw [hblank, hcomma]
    exact ⟨fun ⟨h₁, h₂, h₃, h₄, h₅⟩ => ⟨h₁, h₂, h₃, h₄, h₅⟩,
      fun h => ⟨h.nonempty, h.notDash, h.noBlank, h.noComma, h.noSlashes⟩⟩

/-- Names joined by commas, with any number of spaces before and after a comma. -/
inductive Joined : List String → List Char → Prop
  | one {name : String} (h : IsName name) : Joined [name] name.toList
  | cons {name : String} {names : List String} {rest : List Char} (h : IsName name)
      (before after : Nat) (hrest : Joined names rest) :
      Joined (name :: names) (name.toList ++ spaces before ++ ',' :: (spaces after ++ rest))

/-- What may follow the names: nothing, a reason or a comment. -/
inductive Trailer : List Char → Prop
  | nothing : Trailer []
  | reason (text : List Char) : Trailer (' ' :: '-' :: ' ' :: text)
  | comment (text : List Char) : Trailer (' ' :: '/' :: '/' :: ' ' :: text)

/-- A directive with names, or one without. -/
inductive Written : List String → String → Prop
  | named {names : List String} {list trailer : List Char} (lead gap : Nat)
      (hlist : Joined names list) (htrailer : Trailer trailer) :
      Written names (String.ofList
        ('/' :: '/' :: (spaces lead ++ keyword ++ (spaces (gap + 1) ++ list ++ trailer))))
  | nameless {trailer : List Char} (lead gap : Nat) (htrailer : Trailer trailer) :
      Written [] (String.ofList
        ('/' :: '/' :: (spaces lead ++ keyword ++ (spaces gap ++ trailer))))

/-! ## Spaces -/

theorem blank_spaces (k : Nat) : Blank (spaces k) := by
  intro c hc
  rw [List.eq_of_mem_replicate hc]
  decide

theorem not_mem_spaces {c : Char} (hc : c ≠ ' ') (k : Nat) : c ∉ spaces k :=
  fun h => hc (List.eq_of_mem_replicate h)

section Words

variable {word l : List Char}

/-- A word without spaces is not found in spaces before a text. -/
theorem infix_spaces_append (hne : word ≠ []) (hspace : ' ' ∉ word) (k : Nat) :
    word <:+: spaces k ++ l ↔ word <:+: l := by
  induction k with
  | zero => exact Iff.rfl
  | succ k ih =>
    have hsplit : word <:+: [] ++ ' ' :: (spaces k ++ l) ↔ word <:+: [] ∨ word <:+: spaces k ++ l :=
      infix_append_cons hspace
    rw [List.infix_nil, or_iff_right hne, ih] at hsplit
    exact hsplit

theorem infix_append_spaces (hne : word ≠ []) (hspace : ' ' ∉ word) (k : Nat) :
    word <:+: l ++ spaces k ↔ word <:+: l := by
  cases k with
  | zero => rw [spaces, List.replicate_zero, List.append_nil]
  | succ k =>
    have hnone : ¬ word <:+: spaces k := by
      have h := (infix_spaces_append hne hspace k (l := [])).1
      rw [List.append_nil, List.infix_nil] at h
      exact fun hk => hne (h hk)
    have hsplit : word <:+: l ++ ' ' :: spaces k ↔ word <:+: l ∨ word <:+: spaces k :=
      infix_append_cons hspace
    rwa [or_iff_left hnone] at hsplit

end Words

/-! ## Splitting at commas -/

section Split

variable {part : List Char} (hcomma : ',' ∉ part) (hne : trim part ≠ [])
include hcomma hne

theorem splitNames_of_not_mem : splitNames part = [String.ofList (trim part)] := by
  simp [splitNames, List.splitOn_eq_singleton hcomma, hne]

theorem splitNames_append_comma (rest : List Char) :
    splitNames (part ++ ',' :: rest) = String.ofList (trim part) :: splitNames rest := by
  simp [splitNames, List.splitOn_append_cons_self_of_not_mem hcomma, hne]

end Split

/-! ## Names -/

namespace IsName

variable {name : String} (h : IsName name)
include h

theorem trimmed : Trimmed name.toList where
  first c hc := h.noBlank c (List.mem_of_head? hc)
  last c hc := h.noBlank c (List.mem_of_getLast? hc)

theorem trim_padded (before after : Nat) :
    trim (spaces before ++ name.toList ++ spaces after) = name.toList :=
  trim_eq (blank_spaces before) h.trimmed (blank_spaces after)

theorem no_comma_padded (before after : Nat) :
    ',' ∉ spaces before ++ name.toList ++ spaces after := by
  have hspaces : ∀ k, ',' ∉ spaces k := not_mem_spaces (by decide)
  simp [hspaces, h.noComma]

theorem no_slashes_padded (before after : Nat) :
    ¬ ['/', '/'] <:+: spaces before ++ name.toList ++ spaces after := by
  rw [infix_append_spaces (by simp) (by simp), infix_spaces_append (by simp) (by simp)]
  exact h.noSlashes

/-- Within the name there is no space to start with, and behind it no dash. -/
theorem no_lone_dash_spaces (after : Nat) :
    ¬ [' ', '-', ' '] <:+: name.toList ++ spaces after := by
  have hdash : '-' ∉ spaces after := not_mem_spaces (by decide) after
  have hblank := h.noBlank
  generalize name.toList = cs at hblank ⊢
  induction cs with
  | nil => exact fun hin => hdash (hin.subset (by simp))
  | cons c cs ih =>
    rw [List.cons_append, List.infix_cons_iff, not_or]
    refine ⟨fun hstart => ?_, ih fun d hd => hblank d (List.mem_cons_of_mem _ hd)⟩
    have hc := hblank c List.mem_cons_self
    rw [← (List.cons_prefix_cons.1 hstart).1] at hc
    exact absurd hc (by decide)

/-- A dash before a space would be the whole name. -/
theorem not_dash_space (after : Nat) : ¬ ['-', ' '] <+: name.toList ++ spaces after := by
  intro hstart
  cases hname : name.toList with
  | nil => exact h.nonempty hname
  | cons c rest =>
    rw [hname, List.cons_append, List.cons_prefix_cons] at hstart
    obtain ⟨rfl, hspace⟩ := hstart
    cases rest with
    | nil => exact h.notDash hname
    | cons d rest =>
      have hd := h.noBlank d (by simp [hname])
      rw [← (List.cons_prefix_cons.1 hspace).1] at hd
      exact absurd hd (by decide)

theorem no_lone_dash_padded (before after : Nat) :
    ¬ [' ', '-', ' '] <:+: spaces before ++ name.toList ++ spaces after := by
  induction before with
  | zero => exact h.no_lone_dash_spaces after
  | succ k ih =>
    show ¬ [' ', '-', ' '] <:+: ' ' :: (spaces k ++ name.toList ++ spaces after)
    rw [List.infix_cons_iff, not_or]
    refine ⟨fun hstart => ?_, ih⟩
    have hstart := (List.cons_prefix_cons.1 hstart).2
    -- only the last of the spaces stands before something else
    cases k with
    | succ k => exact absurd (List.cons_prefix_cons.1 hstart).1 (by decide)
    | zero => exact h.not_dash_space after hstart

end IsName

namespace Joined

variable {names : List String} {list : List Char}

theorem ne_nil (h : Joined names list) : list ≠ [] := by
  cases h with
  | one h => exact h.nonempty
  | cons h before after hrest => simp

theorem trimmed (h : Joined names list) : Trimmed list := by
  induction h with
  | one h => exact h.trimmed
  | @cons name names rest h before after hrest ih =>
    constructor
    · intro c hc
      rw [List.append_assoc, List.head?_append_of_ne_nil _ h.nonempty] at hc
      exact h.trimmed.first c hc
    · intro c hc
      have hsplit : name.toList ++ spaces before ++ ',' :: (spaces after ++ rest)
          = (name.toList ++ spaces before ++ ',' :: spaces after) ++ rest := by simp
      rw [hsplit, List.getLast?_append_of_ne_nil _ hrest.ne_nil] at hc
      exact ih.last c hc

theorem no_slashes (h : Joined names list) : ¬ ['/', '/'] <:+: list := by
  induction h with
  | one h => exact h.noSlashes
  | @cons name names rest h before after hrest ih =>
    have hname : ¬ ['/', '/'] <:+: name.toList ++ spaces before := h.no_slashes_padded 0 before
    rw [infix_append_cons (by simp), infix_spaces_append (by simp) (by simp)]
    exact not_or.2 ⟨hname, ih⟩

theorem no_lone_dash (h : Joined names list) (before after : Nat) :
    ¬ [' ', '-', ' '] <:+: spaces before ++ list ++ spaces after := by
  induction h generalizing before with
  | one h => exact h.no_lone_dash_padded before after
  | @cons name names rest h before' after' hrest ih =>
    have hsplit : spaces before ++ (name.toList ++ spaces before' ++ ',' :: (spaces after' ++ rest))
        ++ spaces after
        = (spaces before ++ name.toList ++ spaces before') ++ ',' :: (spaces after' ++ rest
          ++ spaces after) := by
      simp
    rw [hsplit, infix_append_cons (by simp)]
    exact not_or.2 ⟨h.no_lone_dash_padded before before', ih after'⟩

theorem splitNames_eq (h : Joined names list) (before : Nat) :
    splitNames (spaces before ++ list) = names := by
  induction h generalizing before with
  | @one name h =>
    have hname : trim (spaces before ++ name.toList) = name.toList :=
      trim_blank_append (blank_spaces before) h.trimmed
    have hcomma : ',' ∉ spaces before ++ name.toList := by
      rw [← List.append_nil (spaces before ++ name.toList)]
      exact h.no_comma_padded before 0
    rw [splitNames_of_not_mem hcomma (hname.trans_ne h.nonempty), hname, String.ofList_toList]
  | @cons name names rest h before' after' hrest ih =>
    have hsplit : spaces before ++ (name.toList ++ spaces before' ++ ',' :: (spaces after' ++ rest))
        = (spaces before ++ name.toList ++ spaces before') ++ ',' :: (spaces after' ++ rest) := by
      simp
    have hname := h.trim_padded before before'
    rw [hsplit, splitNames_append_comma (h.no_comma_padded before before')
      (hname.trans_ne h.nonempty), hname, String.ofList_toList, ih]

end Joined

/-! ## Reasons and comments -/

/-- After white space, what is left of a text up to slashes starts with a space, if with anything. -/
theorem before_slashes_space (text : List Char) :
    before ['/', '/'] (trimRight (' ' :: text)) = [] ∨
      ∃ rest, before ['/', '/'] (trimRight (' ' :: text)) = ' ' :: rest := by
  rcases trimRight_cons ' ' text with hnil | ⟨rest, hrest⟩
  · exact .inl (by rw [hnil, before_nil])
  · refine .inr ⟨before ['/', '/'] rest, ?_⟩
    rw [hrest]
    exact before_append_cons (a := []) (by simp) (by simp) rest

theorem withoutReason_eq (argument : List Char) :
    withoutReason argument
      = trim (before [' ', '-', ' '] (' ' :: trim (before ['/', '/'] argument) ++ [' '])) := rfl

section Trailer

variable {lead core trailer : List Char} (hcore : Trimmed core)
  (hdash : ¬ [' ', '-', ' '] <:+: ' ' :: core ++ [' '])
include hcore hdash

/-- Without a dash that stands alone, the cut at a reason changes nothing. -/
theorem withoutReason_of_no_reason {argument : List Char}
    (h : trim (before ['/', '/'] argument) = core) : withoutReason argument = core := by
  rw [withoutReason_eq, h, before_eq_self hdash]
  exact trim_eq (blank_spaces 1) hcore (blank_spaces 1)

/-- The reason is cut off at its dash, whether there is something before it or not. -/
theorem trim_before_reason (rest : List Char) :
    trim (before [' ', '-', ' '] (' ' :: trimLeft (core ++ [' ']) ++ '-' :: ' ' :: rest)) = core := by
  cases core with
  | nil =>
    have hcut : before [' ', '-', ' '] ([] ++ [' ', '-', ' '] ++ rest) = [] :=
      before_first (by decide) rest
    exact congrArg trim hcut
  | cons c cs =>
    have hstay : trimLeft (c :: cs ++ [' ']) = c :: cs ++ [' '] :=
      trimLeft_append_cons (hcore.first c rfl) [] (cs ++ [' '])
    -- the word would have to end in the dash to be complete earlier
    have hfirst : ¬ [' ', '-', ' '] <:+: (' ' :: c :: cs) ++ [' ', '-'] := by
      rw [show (' ' :: c :: cs) ++ [' ', '-'] = (' ' :: c :: cs ++ [' ']) ++ ['-'] by simp,
        List.infix_concat_iff, not_or]
      refine ⟨fun ⟨front, hend⟩ => ?_, hdash⟩
      have hlast := congrArg List.getLast? hend
      rw [List.getLast?_concat] at hlast
      simp at hlast
    have hsplit : ' ' :: trimLeft (c :: cs ++ [' ']) ++ '-' :: ' ' :: rest
        = (' ' :: c :: cs) ++ [' ', '-', ' '] ++ rest := by
      rw [hstay]
      simp
    rw [hsplit, before_first hfirst]
    exact trim_blank_append (blank_spaces 1) hcore

variable (hlead : Blank lead) (hslashes : ¬ ['/', '/'] <:+: lead ++ core)
include hlead hslashes

theorem withoutReason_nothing : withoutReason (trimRight (lead ++ core)) = core := by
  refine withoutReason_of_no_reason hcore hdash ?_
  have hnone : ¬ ['/', '/'] <:+: trimRight (lead ++ core) :=
    fun h => hslashes (h.trans (trimRight_isPrefix _).isInfix)
  rw [before_eq_self hnone, trim_trimRight]
  exact trim_blank_append hlead hcore

theorem withoutReason_comment (text : List Char) :
    withoutReason (trimRight (lead ++ core ++ ' ' :: '/' :: '/' :: ' ' :: text)) = core := by
  refine withoutReason_of_no_reason hcore hdash ?_
  -- the end is trimmed behind the slashes only
  have hright : trimRight (lead ++ core ++ ' ' :: '/' :: '/' :: ' ' :: text)
      = lead ++ core ++ ' ' :: ('/' :: '/' :: trimRight (' ' :: text)) := by
    have h := trimRight_append_cons (c := '/') (by decide) (lead ++ core ++ [' ', '/']) (' ' :: text)
    simpa using h
  have hcut : before ['/', '/'] ('/' :: '/' :: trimRight (' ' :: text)) = [] :=
    before_first (a := []) (by decide) _
  rw [hright, before_append_cons (by simp) hslashes, hcut]
  exact trim_eq hlead hcore (blank_spaces 1)

theorem withoutReason_reason (text : List Char) :
    withoutReason (trimRight (lead ++ core ++ ' ' :: '-' :: ' ' :: text)) = core := by
  have hright : trimRight (lead ++ core ++ ' ' :: '-' :: ' ' :: text)
      = (lead ++ core ++ [' ']) ++ '-' :: trimRight (' ' :: text) := by
    have h := trimRight_append_cons (c := '-') (by decide) (lead ++ core ++ [' ']) (' ' :: text)
    simpa using h
  have hfront : ¬ ['/', '/'] <:+: lead ++ core ++ [' '] := by
    rw [infix_append_cons (by simp), List.infix_nil]
    exact not_or.2 ⟨hslashes, List.cons_ne_nil _ _⟩
  -- slashes can only be in the reason, and what is left of it is set off from the dash
  obtain ⟨rest, hrest⟩ : ∃ rest,
      trimRight (before ['/', '/'] (trimRight (' ' :: text))) ++ [' '] = ' ' :: rest := by
    rcases before_slashes_space text with hnil | ⟨u, hu⟩
    · exact ⟨[], by rw [hnil]; rfl⟩
    · rw [hu]
      rcases trimRight_cons ' ' u with hnil | ⟨v, hv⟩
      · exact ⟨[], by rw [hnil]; rfl⟩
      · exact ⟨v ++ [' '], by rw [hv]; rfl⟩
  have hbare : trim (before ['/', '/'] (trimRight (lead ++ core ++ ' ' :: '-' :: ' ' :: text)))
      = trimLeft (core ++ [' ']) ++ '-' :: trimRight (before ['/', '/'] (trimRight (' ' :: text))) := by
    rw [hright, before_append_cons (by simp) hfront, trim, trimLeft_append_cons (by decide),
      trimRight_append_cons (by decide), List.append_assoc, trimLeft_blank_append hlead]
  have hpadded : ' ' :: (trimLeft (core ++ [' '])
        ++ '-' :: trimRight (before ['/', '/'] (trimRight (' ' :: text)))) ++ [' ']
      = ' ' :: trimLeft (core ++ [' ']) ++ '-' :: ' ' :: rest := by
    rw [← hrest]
    simp
  rw [withoutReason_eq, hbare, hpadded]
  exact trim_before_reason hcore hdash rest

theorem withoutReason_trailer (h : Trailer trailer) :
    withoutReason (trimRight (lead ++ core ++ trailer)) = core := by
  cases h with
  | nothing =>
    rw [List.append_nil]
    exact withoutReason_nothing hcore hdash hlead hslashes
  | comment text => exact withoutReason_comment hcore hdash hlead hslashes text
  | reason text => exact withoutReason_reason hcore hdash hlead hslashes text

end Trailer

/-! ## The keyword -/

/-- `inner` is what is left of a text without one leading `//` and without white space at both
ends. -/
inductive Content (text inner : List Char) : Prop
  | slashes {lead trail : List Char} (htext : text = '/' :: '/' :: (lead ++ inner ++ trail))
      (hlead : Blank lead) (hinner : Trimmed inner) (htrail : Blank trail)
  | bare {lead trail : List Char} (hnone : ¬ ['/', '/'] <+: text)
      (htext : text = lead ++ inner ++ trail) (hlead : Blank lead) (hinner : Trimmed inner)
      (htrail : Blank trail)

variable {text inner rest : List Char}

theorem isPrefixOf?_eq_none {word cs : List Char} (h : ¬ word <+: cs) :
    word.isPrefixOf? cs = none := by
  cases hword : word.isPrefixOf? cs with
  | none => rfl
  | some rest => exact absurd ⟨rest, List.isPrefixOf?_eq_some_iff_append_eq.1 hword⟩ h

theorem Content.trim_eq (h : Content text inner) :
    trim ((['/', '/'].isPrefixOf? text).getD text) = inner := by
  cases h with
  | @slashes lead trail htext hlead hinner htrail =>
    have hcut : ['/', '/'].isPrefixOf? text = some (lead ++ inner ++ trail) :=
      List.isPrefixOf?_eq_some_iff_append_eq.2 htext.symm
    rw [hcut]
    exact Text.trim_eq hlead hinner htrail
  | bare hnone htext hlead hinner htrail =>
    rw [isPrefixOf?_eq_none hnone, Option.getD_none, htext]
    exact Text.trim_eq hlead hinner htrail

theorem exists_content (text : List Char) : ∃ inner, Content text inner := by
  by_cases hslashes : ['/', '/'] <+: text
  · obtain ⟨rest, hrest⟩ := hslashes
    obtain ⟨lead, trail, hlead, htrail, hsplit⟩ := exists_eq_trim rest
    refine ⟨trim rest, .slashes ?_ hlead (trimmed_trim rest) htrail⟩
    rw [← hsplit]
    exact hrest.symm
  · obtain ⟨lead, trail, hlead, htrail, hsplit⟩ := exists_eq_trim text
    exact ⟨trim text, .bare hslashes hsplit hlead (trimmed_trim text) htrail⟩

/-- What follows the keyword, if it is set off by a space or a tab. -/
theorem argument?_eq (text : List Char) :
    argument? text
      = (keyword.isPrefixOf? (trim ((['/', '/'].isPrefixOf? text).getD text))).filter
          fun rest => rest.head?.all fun c => c = ' ' || c = '\t' := by
  unfold argument?
  dsimp only
  cases keyword.isPrefixOf? (trim ((['/', '/'].isPrefixOf? text).getD text)) with
  | none => rfl
  | some rest =>
    cases rest with
    | nil => rfl
    | cons c cs =>
      dsimp only
      split
      · rename_i hc
        simp [Option.filter, hc]
      · rename_i hc
        simp [Option.filter, hc]

theorem argument?_eq_none_iff (h : Content text inner) :
    argument? text = none ↔
      ¬ keyword <+: inner ∨ ∃ c rest, inner = keyword ++ c :: rest ∧ c ≠ ' ' ∧ c ≠ '\t' := by
  rw [argument?_eq, h.trim_eq]
  by_cases hkeyword : keyword <+: inner
  · obtain ⟨rest, rfl⟩ := hkeyword
    have hcut : keyword.isPrefixOf? (keyword ++ rest) = some rest :=
      List.isPrefixOf?_eq_some_iff_append_eq.2 rfl
    rw [hcut, or_iff_right fun hnot => hnot (List.prefix_append keyword rest)]
    cases rest with
    | nil => simp [Option.filter]
    | cons c rest => simp [Option.filter]
  · rw [isPrefixOf?_eq_none hkeyword]
    exact iff_of_true rfl (.inl hkeyword)

theorem names?_eq_none_iff {text : String} (h : Content text.toList inner) :
    names? text = none ↔
      ¬ keyword <+: inner ∨ ∃ c rest, inner = keyword ++ c :: rest ∧ c ≠ ' ' ∧ c ≠ '\t' := by
  rw [names?, Option.map_eq_none_iff, argument?_eq_none_iff h]

/-- A keyword after slashes and spaces is found, and what follows it is trimmed at its end. -/
theorem argument?_written (lead : Nat) (hrest : rest = [] ∨ ∃ r, rest = ' ' :: r) :
    argument? ('/' :: '/' :: (spaces lead ++ keyword ++ rest)) = some (trimRight rest) := by
  have hslashes : ['/', '/'].isPrefixOf? ('/' :: '/' :: (spaces lead ++ keyword ++ rest))
      = some (spaces lead ++ keyword ++ rest) := List.isPrefixOf?_eq_some_iff_append_eq.2 rfl
  -- the first and the last letter of the keyword stop the trimming
  have hinner : trim (spaces lead ++ keyword ++ rest) = keyword ++ trimRight rest := by
    have hleft : trimLeft (keyword ++ rest) = keyword ++ rest :=
      trimLeft_append_cons (c := 'm') (by decide) [] ("ustawait:ignore".toList ++ rest)
    have hright : trimRight (keyword ++ rest) = keyword ++ trimRight rest :=
      trimRight_append_cons (c := 'e') (by decide) "mustawait:ignor".toList rest
    rw [trim, List.append_assoc, trimLeft_blank_append (blank_spaces lead), hleft, hright]
  have hcut : keyword.isPrefixOf? (keyword ++ trimRight rest) = some (trimRight rest) :=
    List.isPrefixOf?_eq_some_iff_append_eq.2 rfl
  have hspace : trimRight rest = [] ∨ ∃ r, trimRight rest = ' ' :: r := by
    rcases hrest with rfl | ⟨r, rfl⟩
    · exact .inl rfl
    · exact trimRight_cons ' ' r
  rw [argument?_eq, hslashes, Option.getD_some, hinner, hcut]
  rcases hspace with hnil | ⟨r, hr⟩
  · rw [hnil]
    rfl
  · rw [hr]
    rfl

/-! ## Reading a directive -/

theorem Trailer.starts {trailer : List Char} (h : Trailer trailer) (gap : Nat) :
    spaces gap ++ trailer = [] ∨ ∃ r, spaces gap ++ trailer = ' ' :: r := by
  cases gap with
  | succ gap => exact .inr ⟨spaces gap ++ trailer, rfl⟩
  | zero =>
    cases h with
    | nothing => exact .inl rfl
    | reason text => exact .inr ⟨_, rfl⟩
    | comment text => exact .inr ⟨_, rfl⟩

theorem names?_of_argument {text : String} {argument core : List Char}
    (hargument : argument? text.toList = some argument) (hcore : withoutReason argument = core)
    (hdash : core ≠ ['-']) : names? text = some (splitNames core) := by
  rw [names?, hargument, Option.map_some, hcore, if_neg hdash]

theorem Written.names?_eq {names : List String} {text : String} (h : Written names text) :
    names? text = some names := by
  cases h with
  | @named _ list trailer lead gap hlist htrailer =>
    have hargument := argument?_written lead (.inr ⟨spaces gap ++ list ++ trailer, rfl⟩)
    have hslashes : ¬ ['/', '/'] <:+: spaces (gap + 1) ++ list := by
      rw [infix_spaces_append (by simp) (by simp)]
      exact hlist.no_slashes
    have hdash : ¬ [' ', '-', ' '] <:+: ' ' :: list ++ [' '] := hlist.no_lone_dash 1 1
    have hcore := withoutReason_trailer hlist.trimmed hdash (blank_spaces (gap + 1)) hslashes htrailer
    have hnotDash : list ≠ ['-'] := by
      rintro rfl
      exact hdash (List.infix_refl _)
    rw [names?_of_argument (by rw [String.toList_ofList]; exact hargument) hcore hnotDash]
    exact congrArg some (hlist.splitNames_eq 0)
  | @nameless trailer lead gap htrailer =>
    have hargument := argument?_written lead (htrailer.starts gap)
    have hslashes : ¬ ['/', '/'] <:+: spaces gap ++ [] := by
      rw [infix_spaces_append (by simp) (by simp), List.infix_nil]
      exact List.cons_ne_nil _ _
    have hcore := withoutReason_trailer trimmed_nil (by decide) (blank_spaces gap) hslashes htrailer
    rw [List.append_nil] at hcore
    rw [names?_of_argument (by rw [String.toList_ofList]; exact hargument) hcore (by decide)]
    rfl

/-- **Written directives read back.** A directive with names is read as these names, whatever its
reason or comment says, and one without names as none. A text is no directive exactly if what is left
of it without slashes and outer white space does not start with the keyword, or goes on behind it with
anything but a space or a tab. -/
theorem directive_read_back :
    (∀ names text, Written names text → names? text = some names) ∧
    ∀ text : String, (∃ inner, Content text.toList inner) ∧
      ∀ inner, Content text.toList inner →
        (names? text = none ↔
          ¬ keyword <+: inner ∨ ∃ c rest, inner = keyword ++ c :: rest ∧ c ≠ ' ' ∧ c ≠ '\t') :=
  ⟨fun _ _ h => h.names?_eq, fun text =>
    ⟨exists_content text.toList, fun _ h => names?_eq_none_iff h⟩⟩

/-! ### A reason full of delimiters -/

namespace Delimiters

def sample : String := "//  mustawait:ignore lint/a ,  -x - see // why, - not"

theorem written : Written ["lint/a", "-x"] sample := by
  have hslash : IsName "lint/a" := by decide +kernel
  have hdash : IsName "-x" := by decide +kernel
  have htext : sample = String.ofList ('/' :: '/' :: (spaces 2 ++ keyword ++ (spaces 1
      ++ ("lint/a".toList ++ spaces 1 ++ ',' :: (spaces 2 ++ "-x".toList))
      ++ ' ' :: '-' :: ' ' :: "see // why, - not".toList))) := by decide +kernel
  rw [htext]
  exact .named 2 0 (.cons hslash 1 2 (.one hdash)) (.reason _)

theorem content : Content "//mustawait:ignored".toList "mustawait:ignored".toList := by
  have hword : IsName "mustawait:ignored" := by decide +kernel
  have htext : "//mustawait:ignored".toList
      = '/' :: '/' :: ([] ++ "mustawait:ignored".toList ++ []) := by decide +kernel
  exact .slashes htext (blank_spaces 0) hword.trimmed (blank_spaces 0)

end Delimiters

open Delimiters in
/-- Commas, dashes and slashes in a reason belong to the reason, and single ones in a name to the
name. A longer word that starts like the keyword is no directive. -/
theorem read_back_past_delimiters :
    Written ["lint/a", "-x"] sample ∧ names? sample = some ["lint/a", "-x"] ∧
    Content "//mustawait:ignored".toList "mustawait:ignored".toList ∧
    names? "//mustawait:ignored" = none := by
  have hmore : "mustawait:ignored".toList = keyword ++ ['d'] := by decide +kernel
  refine ⟨written, directive_read_back.1 _ _ written, content, ?_⟩
  refine ((directive_read_back.2 "//mustawait:ignored").2 _ content).2 (.inr ⟨'d', [], hmore, ?_, ?_⟩)
  · decide
  · decide

end AwaitLint.Directive
