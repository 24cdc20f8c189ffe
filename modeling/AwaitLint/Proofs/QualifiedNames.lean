import AwaitLint.Config.TypeName
import AwaitLint.Proofs.CutText

/-!
# AwaitLint — qualified names of tracked types

A qualified name is a path, a dot and an identifier, and both the reader and the comparison divide a
text at its last dot. Paths are full of dots and slashes and may end in a major version themselves,
so what carries everything here is that an identifier has no dot: the division is then the only one
with an identifier behind the dot.

* **`Text.isIdentifier_iff`**, **`Text.Identifier.dot_not_mem`** — what an identifier is made of.
* **`TypeName.ofText?_eq_some_iff`** — a text is read as `n` exactly if it is the written form of `n`
  with white space around it, and `n` is `Proper`.
* **`TypeName.denotes_iff`** — a proper name denotes itself and the same name in any major version of
  its package, and nothing else.
* **`TypeName.qualified_names_exact`** — the headline.
-/

namespace AwaitLint

/-! ## Identifiers -/

namespace Text

/-- A letter or an underscore, then letters, underscores and decimal digits; and no keyword. -/
structure Identifier (s : String) : Prop where
  spelled : ∃ c rest, s.toList = c :: rest ∧ (isLetter c = true ∨ c = '_') ∧
    ∀ d ∈ rest, (isLetter d = true ∨ d = '_') ∨ isDigit d = true
  notKeyword : s ∉ keywords

theorem startsIdentifier_iff (c : Char) :
    startsIdentifier c = true ↔ isLetter c = true ∨ c = '_' := by
  rw [startsIdentifier, Bool.or_eq_true, beq_iff_eq]

theorem continuesIdentifier_iff (c : Char) :
    continuesIdentifier c = true ↔ (isLetter c = true ∨ c = '_') ∨ isDigit c = true := by
  rw [continuesIdentifier, Bool.or_eq_true, startsIdentifier_iff]

theorem isIdentifier_iff (s : String) : isIdentifier s = true ↔ Identifier s := by
  have hkeyword : (!keywords.contains s) = true ↔ s ∉ keywords := by
    rw [Bool.not_eq_true', ← Bool.not_eq_true, List.contains_iff_mem]
  rw [isIdentifier, Bool.and_eq_true, hkeyword]
  cases hs : s.toList with
  | nil =>
    refine ⟨fun h => absurd h.2 Bool.false_ne_true, fun h => ?_⟩
    obtain ⟨c, rest, hcons, -⟩ := h.spelled
    rw [hs] at hcons
    cases hcons
  | cons c rest =>
    show _ ∧ (startsIdentifier c && rest.all continuesIdentifier) = true ↔ _
    rw [Bool.and_eq_true, startsIdentifier_iff, List.all_eq_true]
    simp only [continuesIdentifier_iff]
    constructor
    · intro h
      exact ⟨⟨c, rest, hs, h.2⟩, h.1⟩
    · intro h
      obtain ⟨d, rest', hcons, hspelled⟩ := h.spelled
      rw [hs] at hcons
      cases hcons
      exact ⟨h.notKeyword, hspelled⟩

instance : DecidablePred Identifier := fun s => decidable_of_iff _ (isIdentifier_iff s)

/-- A dot is neither a letter nor a digit. -/
theorem Identifier.dot_not_mem {s : String} (h : Identifier s) : '.' ∉ s.toList := by
  have hletter : ¬ (isLetter '.' = true ∨ '.' = '_') := by decide +kernel
  have hdigit : ¬ isDigit '.' = true := by decide +kernel
  obtain ⟨c, rest, hs, hc, hrest⟩ := h.spelled
  rw [hs, List.mem_cons, not_or]
  constructor
  · intro hdot
    rw [← hdot] at hc
    exact hletter hc
  · intro hdot
    rcases hrest '.' hdot with hmore | hmore
    · exact hletter hmore
    · exact hdigit hmore

end Text

namespace TypeName

open Text

variable {n : TypeName} {s : String}

/-! ## Reading -/

/-- A name that can be written: the path is not empty and does not end in a slash, and the name is an
identifier. -/
structure Proper (n : TypeName) : Prop where
  path : n.pkg ≠ ""
  noSlash : n.pkg.toList.getLast? ≠ some '/'
  ident : Identifier n.name

theorem toList_text (n : TypeName) : n.text.toList = n.pkg.toList ++ '.' :: n.name.toList := by
  simp [text]

/-- What the reader makes of a text that is divided already. -/
theorem ofText?_of_cut {path name : List Char}
    (hcut : cutLast '.' (trim s.toList) = some (path, name)) :
    ofText? s = some n ↔ n.Proper ∧ path = n.pkg.toList ∧ name = n.name.toList := by
  have hparts : n = ⟨String.ofList path, String.ofList name⟩ ↔
      path = n.pkg.toList ∧ name = n.name.toList := by
    constructor
    · intro h
      rw [h, String.toList_ofList, String.toList_ofList]
      exact ⟨rfl, rfl⟩
    · rintro ⟨rfl, rfl⟩
      rw [String.ofList_toList, String.ofList_toList]
  rw [ofText?, hcut]
  dsimp only
  split
  · rename_i hbad
    refine ⟨fun h => absurd h (by simp), ?_⟩
    rintro ⟨hproper, rfl, rfl⟩
    rw [String.ofList_toList, (isIdentifier_iff _).2 hproper.ident] at hbad
    simp [hproper.path, hproper.noSlash] at hbad
  · rename_i hgood
    rw [Option.some.injEq, eq_comm, hparts]
    refine ⟨fun h => ⟨?_, h⟩, fun h => h.2⟩
    obtain ⟨rfl, rfl⟩ := h
    rw [String.ofList_toList] at hgood
    simp only [Bool.or_eq_true, not_or, decide_eq_true_eq, Bool.not_eq_true', Bool.not_eq_false,
      isIdentifier_iff] at hgood
    obtain ⟨⟨hempty, hslash⟩, hident⟩ := hgood
    refine ⟨fun hpkg => hempty ?_, hslash, hident⟩
    rw [hpkg]
    rfl

theorem ofText?_eq_some_iff : ofText? s = some n ↔ n.Proper ∧ Surrounded s.toList n.text.toList := by
  rw [← trim_eq_iff, toList_text]
  cases hcut : cutLast '.' (trim s.toList) with
  | none =>
    refine ⟨fun h => ?_, fun h => ?_⟩
    · rw [ofText?, hcut] at h
      cases h
    · -- the written form has a dot
      rw [h.2, cutLast_append_cons h.1.ident.dot_not_mem] at hcut
      cases hcut
  | some parts =>
    obtain ⟨path, name⟩ := parts
    rw [ofText?_of_cut hcut]
    refine and_congr_right fun hproper => ?_
    constructor
    · rintro ⟨rfl, rfl⟩
      exact (cutLast_eq_some_iff.1 hcut).1
    · intro htrim
      rw [htrim, cutLast_append_cons hproper.ident.dot_not_mem, Option.some.injEq,
        Prod.mk.injEq] at hcut
      exact ⟨hcut.1.symm, hcut.2.symm⟩

theorem proper_of_ofText? (h : ofText? s = some n) : n.Proper := (ofText?_eq_some_iff.1 h).1

/-! ## Denoting -/

/-- The qualified names of a type: its own, and the same name in a major version of its package. -/
inductive Covers (n : TypeName) : String → Prop
  | same : Covers n (n.pkg ++ "." ++ n.name)
  | major (version : String) (hne : version ≠ "")
      (hdigits : ∀ c ∈ version.toList, '0' ≤ c ∧ c ≤ '9') :
      Covers n (n.pkg ++ "/v" ++ version ++ "." ++ n.name)

theorem samePackage_iff (pkg path : List Char) :
    samePackage pkg path = true ↔ path = pkg ∨
      ∃ version, version ≠ [] ∧ (∀ c ∈ version, '0' ≤ c ∧ c ≤ '9') ∧
        path = pkg ++ '/' :: 'v' :: version := by
  rw [samePackage, Bool.or_eq_true, beq_iff_eq]
  refine or_congr_right ?_
  cases hversion : (pkg ++ ['/', 'v']).isPrefixOf? path with
  | none =>
    refine ⟨fun h => absurd h Bool.false_ne_true, ?_⟩
    rintro ⟨version, -, -, rfl⟩
    have hprefix : (pkg ++ ['/', 'v']).isPrefixOf? (pkg ++ '/' :: 'v' :: version) = some version :=
      List.isPrefixOf?_eq_some_iff_append_eq.2 (by simp)
    rw [hversion] at hprefix
    cases hprefix
  | some rest =>
    have hpath : path = pkg ++ '/' :: 'v' :: rest := by
      rw [← List.isPrefixOf?_eq_some_iff_append_eq.1 hversion]
      simp
    simp [hpath, List.all_eq_true]

theorem denotes_append {path name : String} (hname : '.' ∉ name.toList) :
    n.denotes (path ++ "." ++ name) = true ↔
      samePackage n.pkg.toList path.toList = true ∧ name = n.name := by
  have htext : (path ++ "." ++ name).toList = path.toList ++ '.' :: name.toList := by simp
  rw [denotes, htext, cutLast_append_cons hname]
  show (_ && _) = true ↔ _
  rw [Bool.and_eq_true, beq_iff_eq, String.toList_inj]

theorem denotes_of_dot_not_mem {q : String} (h : '.' ∉ q.toList) : n.denotes q = false := by
  rw [denotes, cutLast_eq_none h]

theorem exists_append_of_denotes {q : String} (h : n.denotes q = true) :
    ∃ path, q = path ++ "." ++ n.name ∧ samePackage n.pkg.toList path.toList = true := by
  rw [denotes] at h
  cases hcut : cutLast '.' q.toList with
  | none =>
    rw [hcut] at h
    cases h
  | some parts =>
    obtain ⟨path, name⟩ := parts
    rw [hcut] at h
    obtain ⟨hpath, hname⟩ := (Bool.and_eq_true _ _).mp h
    rw [beq_iff_eq] at hname
    refine ⟨String.ofList path, String.toList_inj.1 ?_, by rwa [String.toList_ofList]⟩
    rw [(cutLast_eq_some_iff.1 hcut).1, hname]
    simp

theorem denotes_iff (hname : '.' ∉ n.name.toList) (q : String) : n.denotes q = true ↔ n.Covers q := by
  constructor
  · intro h
    obtain ⟨path, rfl, hpath⟩ := exists_append_of_denotes h
    rcases (samePackage_iff _ _).1 hpath with hsame | ⟨version, hne, hdigits, hmajor⟩
    · rw [String.toList_inj.1 hsame]
      exact .same
    · have hversion : path = n.pkg ++ "/v" ++ String.ofList version := by
        apply String.toList_inj.1
        rw [hmajor]
        simp
      rw [hversion]
      refine .major _ (fun hempty => hne ?_) (by rwa [String.toList_ofList])
      rw [← String.toList_ofList (l := version), hempty]
      rfl
  · intro h
    cases h with
    | same => exact (denotes_append hname).2 ⟨(samePackage_iff _ _).2 (.inl rfl), rfl⟩
    | major version hne hdigits =>
      refine (denotes_append hname).2 ⟨(samePackage_iff _ _).2 (.inr ⟨version.toList, ?_⟩), rfl⟩
      refine ⟨fun hnil => hne (String.toList_inj.1 hnil), hdigits, ?_⟩
      simp

/-- **Qualified names are read and compared exactly.** Let `core` be the text without the white space
around it. It is read iff it is the written form of a proper name. The result is then the only such
name, its written form is `core`, and reading that gives the name again. It denotes its own qualified
name and the same name in any major version of its package, and nothing else. -/
theorem qualified_names_exact (s : String) :
    ∃ core : String, Surrounded s.toList core.toList ∧
      ((∃ n, ofText? s = some n) ↔
        ∃ n : TypeName, n.Proper ∧ core = n.pkg ++ "." ++ n.name) ∧
      ∀ n, ofText? s = some n →
        n.Proper ∧
        (∀ m : TypeName, m.Proper → core = m.pkg ++ "." ++ m.name → m = n) ∧
        n.text = core ∧
        ofText? n.text = some n ∧
        ∀ q, n.denotes q = true ↔ n.Covers q := by
  refine ⟨String.ofList (trim s.toList), ?_, ?_⟩
  · rw [String.toList_ofList]
    exact surrounded_trim s.toList
  -- the reader looks at nothing but the trimmed text
  have hread : ∀ n : TypeName, ofText? s = some n ↔
      n.Proper ∧ String.ofList (trim s.toList) = n.text := by
    intro n
    rw [ofText?_eq_some_iff, ← trim_eq_iff, ← String.toList_inj, String.toList_ofList]
  refine ⟨exists_congr hread, fun n hn => ?_⟩
  obtain ⟨hproper, htext⟩ := (hread n).1 hn
  refine ⟨hproper, fun m hm hcore => ?_, htext.symm, ?_, denotes_iff hproper.ident.dot_not_mem⟩
  · have hm : ofText? s = some m := (hread m).2 ⟨hm, hcore⟩
    rw [hn, Option.some.injEq] at hm
    exact hm.symm
  · refine ofText?_eq_some_iff.2 ⟨hproper, trim_eq_iff.1 ?_⟩
    rw [← htext, String.toList_ofList]
    exact (trimmed_trim _).trim_eq

/-! ### A path that ends in a version -/

namespace Versioned

/-- The path has dots and a major version of its own, and the name a letter beyond ASCII. -/
def task : TypeName := ⟨"gopkg.in/task.v3/v2", "Tâche"⟩

def sample : String := "\u00a0 gopkg.in/task.v3/v2.Tâche\t"

theorem ofText?_sample : ofText? sample = some task := by decide +kernel

end Versioned

open Versioned in
/-- A later version is one more segment behind the path, not another number in its last one. -/
theorem versioned_path_read :
    ofText? sample = some task ∧ ofText? task.text = some task ∧
    task.denotes "gopkg.in/task.v3/v2/v10.Tâche" = true ∧
    task.denotes "gopkg.in/task.v3/v10.Tâche" = false := by
  obtain ⟨core, -, -, hread⟩ := qualified_names_exact sample
  obtain ⟨-, -, -, hagain, hdenotes⟩ := hread task ofText?_sample
  have hlater : "gopkg.in/task.v3/v2/v10.Tâche"
      = task.pkg ++ "/v" ++ "10" ++ "." ++ task.name := by decide +kernel
  have hdigits : "10".toList.all (fun c => decide ('0' ≤ c ∧ c ≤ '9')) = true := by decide +kernel
  refine ⟨ofText?_sample, hagain, ?_, ?_⟩
  · rw [hlater, hdenotes]
    exact .major "10" (by decide) fun c hc => of_decide_eq_true (List.all_eq_true.1 hdigits c hc)
  · decide +kernel

end TypeName

end AwaitLint
