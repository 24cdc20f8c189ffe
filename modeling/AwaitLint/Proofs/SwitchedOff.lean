import AwaitLint.Proofs.DirectiveLedger

/-!
# AwaitLint — checks that are listed and switched off

`DirectiveMap.unused` is told which checks ran by a table of names, each on or off. Names of a
directive are looked up in the table, so a name that is off counts like one that is missing. A
directive without names is asked for charges with any name of the table, on or off.

* **`unusedOf?_of_named`** — on directives with names, tables that switch on the same checks agree.
* **`Holds`** — a question about a listed check went to the directive.
* **`unused_eq_iff`** — so two such tables report the same directives exactly when they make the same
  directives without names hold something.
-/

namespace AwaitLint.DirectiveMap

variable {lineAt : Position → Nat} {comments : List Comment} {questions : List Question}
  {enabled enabled' : List (String × Bool)} {d d' : Directive}

/-- The tables switch on the same checks. One may list checks that are off and missing in the
other. -/
def SameOn (enabled enabled' : List (String × Bool)) : Prop :=
  ∀ n, enabled.lookup n = some true ↔ enabled'.lookup n = some true

theorem SameOn.getD_eq (h : SameOn enabled enabled') (n : String) :
    (enabled.lookup n).getD false = (enabled'.lookup n).getD false := by
  have hon : ∀ o : Option Bool, o.getD false = true ↔ o = some true := by
    rintro (_ | _ | _) <;> decide
  rw [Bool.eq_iff_iff, hon, hon]
  exact h n

/-- Checks that are off may be left out. -/
theorem sameOn_filter (hkeys : (enabled.map Prod.fst).Nodup) :
    SameOn enabled (enabled.filter Prod.snd) := by
  intro n
  induction enabled with
  | nil => exact Iff.rfl
  | cons e enabled ih =>
    obtain ⟨name, on⟩ := e
    rw [List.map_cons, List.nodup_cons] at hkeys
    have htail := ih hkeys.2
    by_cases hn : n = name
    · cases on with
      | true => simp [hn]
      | false =>
        -- the name has no other entry
        have hnone : enabled.lookup name = none := by
          rw [List.lookup_eq_none_iff]
          intro e he
          rw [bne_iff_ne]
          intro heq
          exact hkeys.1 (List.mem_map.2 ⟨e, he, heq.symm⟩)
        rw [hn, hnone] at htail
        simpa [hn] using htail
    · have hskip : (n == name) = false := beq_false_of_ne hn
      cases on with
      | true =>
        rw [List.filter_cons_of_pos rfl, List.lookup_cons, List.lookup_cons, hskip]
        exact htail
      | false =>
        rw [List.filter_cons_of_neg Bool.false_ne_true, List.lookup_cons, hskip]
        exact htail

theorem unusedOf?_of_named (h : SameOn enabled enabled') (hnames : d.names ≠ []) :
    unusedOf? enabled d = unusedOf? enabled' d := by
  unfold unusedOf?
  rw [if_neg fun hempty => hnames (List.isEmpty_iff.1 hempty),
    if_neg fun hempty => hnames (List.isEmpty_iff.1 hempty)]
  simp only [h.getD_eq]

/-- Some question about a listed check went to the directive. -/
def Holds (lineAt : Position → Nat) (comments : List Comment) (questions : List Question)
    (listed : List String) (d : Directive) : Prop :=
  ∃ q ∈ questions, q.check ∈ listed ∧ q.ChargedTo lineAt comments d

instance (listed : List String) : Decidable (Holds lineAt comments questions listed d) :=
  inferInstanceAs (Decidable (∃ q ∈ questions, q.check ∈ listed ∧ q.ChargedTo lineAt comments d))

theorem Booked.unusedOf?_nameless (h : Booked lineAt comments questions d d') (hnames : d.names = [])
    {u : UnusedDirective} :
    unusedOf? enabled d' = some u ↔
      u = ⟨d.position, []⟩ ∧ ¬ Holds lineAt comments questions (enabled.map Prod.fst) d := by
  obtain ⟨position, names⟩ := u
  have hnone : ¬ Holds lineAt comments questions (enabled.map Prod.fst) d ↔
      ∀ q ∈ questions, q.check ∈ enabled.map Prod.fst → ¬ q.ChargedTo lineAt comments d := by
    simp only [Holds, not_exists, not_and]
  rw [h.unused_nameless hnames, hnone, UnusedDirective.mk.injEq, and_assoc]

/-! ## After a run -/

/-- The directives of a file after a run of questions. -/
def asked (lineAt : Position → Nat) (comments : List Comment) (questions : List Question) :
    DirectiveMap :=
  ((build lineAt comments).askAll questions).2

theorem keyed_asked (lineAt : Position → Nat) (comments : List Comment)
    (questions : List Question) : (asked lineAt comments questions).Keyed lineAt :=
  (ledger_build lineAt comments questions).2.keyed

theorem at?_asked (lineAt : Position → Nat) (comments : List Comment) (questions : List Question)
    (line : Nat) :
    (asked lineAt comments questions).at? line
      = (Directive.inForce? lineAt comments line).map
          ((build lineAt comments).account questions) := by
  rw [asked, (ledger_build lineAt comments questions).2.at?_eq, at?_build]

theorem exists_booked (questions : List Question)
    (hd : Directive.inForce? lineAt comments (lineAt d.position) = some d) :
    ∃ d', (asked lineAt comments questions).at? (lineAt d.position) = some d' ∧
      Booked lineAt comments questions d d' := by
  refine ⟨(build lineAt comments).account questions d, ?_, ?_⟩
  · rw [at?_asked, hd, Option.map_some]
  · exact booked_account (Directive.charged_of_inForce? hd)

theorem exists_inForce (h : d' ∈ (asked lineAt comments questions).entries) :
    ∃ d, Directive.inForce? lineAt comments (lineAt d.position) = some d ∧
      Booked lineAt comments questions d d' := by
  have hat := (keyed_asked lineAt comments questions).mem_entries_iff.1 h
  rw [at?_asked, Option.map_eq_some_iff] at hat
  obtain ⟨d, hd, rfl⟩ := hat
  rw [position_account] at hd
  exact ⟨d, hd, booked_account (Directive.charged_of_inForce? hd)⟩

theorem mem_unused_nameless
    (hd : Directive.inForce? lineAt comments (lineAt d.position) = some d) (hnames : d.names = []) :
    ⟨d.position, []⟩ ∈ (asked lineAt comments questions).unused enabled ↔
      ¬ Holds lineAt comments questions (enabled.map Prod.fst) d := by
  obtain ⟨d', hat, hbooked⟩ := exists_booked questions hd
  rw [mem_unused (keyed_asked lineAt comments questions), hat]
  simp only [Option.some.injEq, exists_eq_left', hbooked.unusedOf?_nameless hnames, true_and]

/-- **Switched off and left out.** Let two tables switch on the same checks. After any questions to
the directives of a file, whatever lines its places count for, the unused directives by the one and by the other are the same list exactly
if each directive without names holds a question about a check that the one table lists, on or off,
just when it holds one about a check that the other lists. -/
theorem unused_eq_iff (lineAt : Position → Nat) (groups : List (List Comment))
    (questions : List Question) (enabled enabled' : List (String × Bool))
    (hsame : SameOn enabled enabled') :
    (asked lineAt groups.flatten questions).unused enabled
        = (asked lineAt groups.flatten questions).unused enabled' ↔
      ∀ line d, Directive.inForce? lineAt groups.flatten line = some d → d.names = [] →
        (Holds lineAt groups.flatten questions (enabled.map Prod.fst) d ↔
          Holds lineAt groups.flatten questions (enabled'.map Prod.fst) d) := by
  generalize groups.flatten = comments
  constructor
  · intro heq line d hd hnames
    have hat := (at?_build lineAt comments line).trans hd
    have hline := (keyed_build lineAt comments).line_eq d (List.mem_of_find?_eq_some hat)
    rw [← line_of_at? hat, hline] at hd
    rw [← not_iff_not, ← mem_unused_nameless hd hnames, ← mem_unused_nameless hd hnames, heq]
  · intro hheld
    have hentries : ∀ d' ∈ (asked lineAt comments questions).entries,
        unusedOf? enabled d' = unusedOf? enabled' d' := by
      intro d' hmem
      obtain ⟨d, hd, hbooked⟩ := exists_inForce hmem
      by_cases hnames : d.names = []
      · refine Option.ext fun u => ?_
        rw [hbooked.unusedOf?_nameless hnames, hbooked.unusedOf?_nameless hnames,
          hheld _ d hd hnames]
      · exact unusedOf?_of_named hsame fun h => hnames (hbooked.names_eq ▸ h)
    unfold unused
    rw [List.filterMap_congr hentries]

/-! ### A listed check that is off

Line 3 has a directive without names, line 5 one with two names. Of the checks, `lint` is off. -/

namespace SwitchedOff

def groups : List (List Comment) :=
  [[⟨⟨3, 1⟩, "//mustawait:ignore"⟩], [⟨⟨5, 1⟩, "//mustawait:ignore mustawait, lint"⟩]]

def listed : List (String × Bool) := [("mustawait", true), ("lint", false)]

def leftOut : List (String × Bool) := [("mustawait", true)]

/-- The first directive silences both checks. -/
def both : List Question := [⟨3, "mustawait"⟩, ⟨3, "lint"⟩, ⟨5, "lint"⟩]

/-- The first directive silences the check that is off, and no other. -/
def offOnly : List Question := [⟨3, "lint"⟩, ⟨5, "lint"⟩]

/-- The directive on line 3. -/
def nameless : Directive := ⟨3, ⟨3, 1⟩, [], []⟩

theorem sameOn : SameOn listed leftOut := sameOn_filter (by decide)

end SwitchedOff

open SwitchedOff in
/-- The directive without names holds a question about a check that is on, so that `lint` may as well
be left out. -/
theorem unused_eq_of_both :
    SameOn listed leftOut ∧
      (asked Position.line groups.flatten both).unused listed = (asked Position.line groups.flatten both).unused leftOut := by
  have hall : groups.flatten.filterMap (Comment.directive? Position.line)
      = [nameless, ⟨5, ⟨5, 1⟩, ["mustawait", "lint"], []⟩] := by decide +kernel
  have hlisted : Holds Position.line groups.flatten both (listed.map Prod.fst) nameless := by decide +kernel
  have hleftOut : Holds Position.line groups.flatten both (leftOut.map Prod.fst) nameless := by decide +kernel
  refine ⟨sameOn, (unused_eq_iff Position.line groups both listed leftOut sameOn).2 fun line d hd hnames => ?_⟩
  have hmem : d ∈ groups.flatten.filterMap (Comment.directive? Position.line) :=
    List.mem_of_mem_filter (List.mem_of_getLast? hd)
  rw [hall, List.mem_cons, List.mem_singleton] at hmem
  rcases hmem with rfl | rfl
  · exact iff_of_true hlisted hleftOut
  · cases hnames

open SwitchedOff in
/-- The directive without names silenced `lint` alone. It is unused if `lint` is left out, and not if
it is listed and off. -/
theorem unused_ne_of_off_only :
    SameOn listed leftOut ∧
      (asked Position.line groups.flatten offOnly).unused listed
        ≠ (asked Position.line groups.flatten offOnly).unused leftOut := by
  have hforce : Directive.inForce? Position.line groups.flatten 3 = some nameless := by decide +kernel
  have hlisted : Holds Position.line groups.flatten offOnly (listed.map Prod.fst) nameless := by decide +kernel
  have hleftOut : ¬ Holds Position.line groups.flatten offOnly (leftOut.map Prod.fst) nameless := by
    decide +kernel
  refine ⟨sameOn, fun heq => ?_⟩
  have hmem := (mem_unused_nameless hforce rfl).2 hleftOut
  rw [← heq] at hmem
  exact (mem_unused_nameless hforce rfl).1 hmem hlisted

end AwaitLint.DirectiveMap
