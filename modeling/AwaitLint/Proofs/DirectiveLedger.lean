import AwaitLint.Proofs.Suppression
import Mathlib.Data.Option.Basic

/-!
# AwaitLint — directives over whole runs

`DirectiveMap.suppress` answers a question and charges a directive, so a run leaves marks behind that
decide what is unused. This module says what any run of questions about any checks answers and leaves,
in terms of the comments alone.

* **`Question.ChargedTo`** — the rule of charging: a question goes to the directive of its line if
  that one silences the check, else to the directive of the line above. Whether it is silenced at all
  (`Question.Silenced`) does not depend on charges.
* **`Ledger`** — what a map became since the start of a run: every directive stands where it stood,
  charged with the questions of the run that went to it. `Ledger.suppress` is the step and
  `Ledger.askAll` the run.
* **`bookkeeping_exact`** — the headline: the answers, the charges and the unused directives of a run.

As before, `lineAt` is the line that a place counts for. Questions are asked by that line; what is
unused is listed by the place itself.
-/

namespace AwaitLint

variable {lineAt : Position → Nat}

/-- One place comes before another in the text. -/
def Position.Before (a b : Position) : Prop :=
  a.line < b.line ∨ a.line = b.line ∧ a.column < b.column

theorem Position.before_of_le_of_ne {a b : Position} (hle : a.le b = true) (hne : a ≠ b) :
    a.Before b := by
  obtain ⟨line, column⟩ := a
  obtain ⟨line', column'⟩ := b
  simp only [le, Bool.or_eq_true, Bool.and_eq_true, decide_eq_true_eq, beq_iff_eq] at hle
  rw [ne_eq, mk.injEq] at hne
  show line < line' ∨ line = line' ∧ column < column'
  omega

/-- Whether a check is silenced on a line. -/
structure Question where
  line : Nat
  check : String
deriving DecidableEq, Repr

namespace Directive

variable {d : Directive} {check : String}

/-- The directive has no names or lists the check. -/
def Silences (d : Directive) (check : String) : Prop := d.names = [] ∨ check ∈ d.names

theorem suppresses_iff : d.suppresses check = true ↔ d.Silences check := by
  unfold suppresses Silences
  rw [Bool.or_eq_true, List.isEmpty_iff, List.contains_iff_mem]

theorem suppresses_eq_false_iff : d.suppresses check = false ↔ ¬ d.Silences check := by
  rw [← suppresses_iff, Bool.not_eq_true]

theorem mem_charge {n : String} : n ∈ (d.charge check).charged ↔ n ∈ d.charged ∨ n = check := by
  unfold charge
  dsimp only
  split
  · rename_i hold
    rw [List.contains_iff_mem] at hold
    constructor
    · exact .inl
    · rintro (h | rfl)
      · exact h
      · exact hold
  · rw [List.mem_append, List.mem_singleton]

end Directive

/-! ## Where a question goes -/

namespace Question

variable {comments : List Comment} {q : Question} {d : Directive}

/-- The directive in force on the line of the question, or the one on the line above, silences its
check. -/
def Silenced (lineAt : Position → Nat) (comments : List Comment) (q : Question) : Prop :=
  ∃ l d, (l = q.line ∨ l + 1 = q.line) ∧ Directive.inForce? lineAt comments l = some d ∧
    d.Silences q.check

/-- The question goes to `d`: the directive in force on its line if that one silences the check, else
the one on the line above. -/
def ChargedTo (lineAt : Position → Nat) (comments : List Comment) (q : Question)
    (d : Directive) : Prop :=
  d.Silences q.check ∧
    (Directive.inForce? lineAt comments q.line = some d ∨
      ∃ above, above + 1 = q.line ∧ Directive.inForce? lineAt comments above = some d ∧
        ∀ own, Directive.inForce? lineAt comments q.line = some own → ¬ own.Silences q.check)

theorem silenced_iff :
    q.Silenced lineAt comments ↔
      ((DirectiveMap.build lineAt comments).suppressor? q.line q.check).isSome = true := by
  rw [DirectiveMap.suppressor?_isSome_iff]
  simp only [DirectiveMap.at?_build, Directive.suppresses_iff, Silenced]

theorem chargedTo_iff :
    q.ChargedTo lineAt comments d ↔
      (DirectiveMap.build lineAt comments).suppressor? q.line q.check = some d := by
  rw [DirectiveMap.suppressor?_eq_some_iff]
  simp only [DirectiveMap.at?_build, Directive.suppresses_iff, Directive.suppresses_eq_false_iff,
    ChargedTo]

instance : Decidable (q.Silenced lineAt comments) := decidable_of_iff _ silenced_iff.symm

instance : Decidable (q.ChargedTo lineAt comments d) := decidable_of_iff _ chargedTo_iff.symm

end Question

namespace DirectiveMap

variable {m m₀ : DirectiveMap} {asked questions : List Question} {q : Question} {d : Directive}
  {enabled : List (String × Bool)} {u : UnusedDirective}

/-- The answers to questions put one after another, and the directives after the last of them. -/
def askAll (m : DirectiveMap) : List Question → List Bool × DirectiveMap
  | [] => ([], m)
  | q :: questions =>
    let first := m.suppress q.line q.check
    let rest := first.2.askAll questions
    (first.1 :: rest.1, rest.2)

/-! ## The ledger of a run -/

/-- A directive of `m`, charged with those of the questions that go to it. -/
def account (m : DirectiveMap) (asked : List Question) (d : Directive) : Directive :=
  asked.foldl
    (fun e q => if m.suppressor? q.line q.check = some d then e.charge q.check else e) d

theorem account_concat (m : DirectiveMap) (asked : List Question) (q : Question) (d : Directive) :
    m.account (asked ++ [q]) d =
      if m.suppressor? q.line q.check = some d then (m.account asked d).charge q.check
      else m.account asked d := by
  unfold account
  rw [List.foldl_append, List.foldl_cons, List.foldl_nil]

/-- A run changes the charges of a directive and nothing else. -/
theorem account_eq (m : DirectiveMap) (asked : List Question) (d : Directive) :
    m.account asked d = { d with charged := (m.account asked d).charged } := by
  induction asked using List.reverseRecOn with
  | nil => rfl
  | append_singleton asked q ih =>
    rw [account_concat]
    split
    · rw [ih]
      rfl
    · exact ih

theorem line_account (m : DirectiveMap) (asked : List Question) (d : Directive) :
    (m.account asked d).line = d.line := by
  rw [account_eq]

theorem position_account (m : DirectiveMap) (asked : List Question) (d : Directive) :
    (m.account asked d).position = d.position := by
  rw [account_eq]

theorem names_account (m : DirectiveMap) (asked : List Question) (d : Directive) :
    (m.account asked d).names = d.names := by
  rw [account_eq]

theorem mem_charged_account {n : String} :
    n ∈ (m.account asked d).charged ↔
      n ∈ d.charged ∨ ∃ q ∈ asked, q.check = n ∧ m.suppressor? q.line q.check = some d := by
  induction asked using List.reverseRecOn with
  | nil =>
    show n ∈ d.charged ↔ _
    simp
  | append_singleton asked q ih =>
    have hlast : (∃ p ∈ asked ++ [q], p.check = n ∧ m.suppressor? p.line p.check = some d) ↔
        (∃ p ∈ asked, p.check = n ∧ m.suppressor? p.line p.check = some d) ∨
          q.check = n ∧ m.suppressor? q.line q.check = some d := by
      simp only [List.mem_append, List.mem_singleton, or_and_right, exists_or, exists_eq_left]
    rw [account_concat, hlast, ← or_assoc, ← ih]
    split
    · rename_i hgoes
      rw [Directive.mem_charge, and_iff_left hgoes, eq_comm (a := n)]
    · rename_i hnot
      rw [or_iff_left fun h => hnot h.2]

/-- `m` is what `m₀` became when the questions were put. -/
structure Ledger (lineAt : Position → Nat) (m₀ : DirectiveMap) (asked : List Question)
    (m : DirectiveMap) : Prop where
  keyed : m.Keyed lineAt
  at?_eq : ∀ l, m.at? l = (m₀.at? l).map (m₀.account asked)

namespace Ledger

theorem nil (h : m.Keyed lineAt) : Ledger lineAt m [] m := by
  refine ⟨h, fun l => ?_⟩
  show m.at? l = (m.at? l).map id
  rw [Option.map_id_apply]

theorem suppress (h : Ledger lineAt m₀ asked m) (q : Question) :
    (m.suppress q.line q.check).1 = (m₀.suppressor? q.line q.check).isSome ∧
      Ledger lineAt m₀ (asked ++ [q]) (m.suppress q.line q.check).2 := by
  have hsuppresses : ∀ d, (m₀.account asked d).suppresses q.check = d.suppresses q.check := by
    intro d
    unfold Directive.suppresses
    rw [names_account]
  obtain ⟨hanswer, hkeyed, hat⟩ :=
    suppress_map h.keyed h.at?_eq (line_account m₀ asked) hsuppresses q.line
  refine ⟨hanswer, hkeyed, fun l => ?_⟩
  rw [hat, ← funext (account_concat m₀ asked q)]

/-- Every answer of a run is the one that the start of the run would have given. -/
theorem askAll (h : Ledger lineAt m₀ asked m) (questions : List Question) :
    (m.askAll questions).1 = questions.map (fun q => (m₀.suppressor? q.line q.check).isSome) ∧
      Ledger lineAt m₀ (asked ++ questions) (m.askAll questions).2 := by
  induction questions generalizing m asked with
  | nil =>
    rw [List.append_nil]
    exact ⟨rfl, h⟩
  | cons q questions ih =>
    obtain ⟨hanswer, hstep⟩ := h.suppress q
    obtain ⟨hanswers, hrest⟩ := ih hstep
    rw [List.append_assoc, List.singleton_append] at hrest
    refine ⟨?_, hrest⟩
    rw [List.map_cons, ← hanswer, ← hanswers]
    rfl

end Ledger

theorem ledger_build (lineAt : Position → Nat) (comments : List Comment)
    (questions : List Question) :
    ((build lineAt comments).askAll questions).1
        = questions.map (fun q => ((build lineAt comments).suppressor? q.line q.check).isSome) ∧
      Ledger lineAt (build lineAt comments) questions
        ((build lineAt comments).askAll questions).2 :=
  (Ledger.nil (keyed_build lineAt comments)).askAll questions

/-! ## Unused directives when every check is switched on -/

theorem lookup_iff_of_all_on (hon : ∀ e ∈ enabled, e.2 = true) {n : String} :
    (enabled.lookup n).getD false = true ↔ n ∈ enabled.map Prod.fst := by
  induction enabled with
  | nil => simp
  | cons e enabled ih =>
    obtain ⟨name, on⟩ := e
    have hhead : on = true := hon _ List.mem_cons_self
    have htail := ih fun e he => hon e (List.mem_cons_of_mem _ he)
    rw [List.map_cons, List.mem_cons, ← htail, List.lookup_cons]
    by_cases hn : n = name
    · simp [hn, hhead]
    · rw [beq_false_of_ne hn]
      simp [hn]

/-- A directive without names is unused if it was charged with no enabled check. -/
theorem unusedOf?_nameless (hnames : d.names = []) :
    unusedOf? enabled d = some u ↔
      u.position = d.position ∧ u.names = [] ∧ ∀ n ∈ d.charged, n ∉ enabled.map Prod.fst := by
  have hused : (enabled.any fun e => d.charged.contains e.1) = true ↔
      ¬ ∀ n ∈ d.charged, n ∉ enabled.map Prod.fst := by
    simp only [List.any_eq_true, List.contains_iff_mem, List.mem_map, not_forall, not_not]
    exact ⟨fun ⟨e, he, h⟩ => ⟨e.1, h, e, he, rfl⟩, fun ⟨n, h, e, he, hn⟩ => ⟨e, he, hn ▸ h⟩⟩
  obtain ⟨position, names⟩ := u
  unfold unusedOf?
  rw [if_pos (List.isEmpty_iff.2 hnames)]
  split
  · rename_i hany
    exact ⟨nofun, fun h => absurd h.2.2 (hused.1 hany)⟩
  · rename_i hnone
    rw [Option.some.injEq, UnusedDirective.mk.injEq,
      and_iff_left (Decidable.not_not.1 fun h => hnone (hused.2 h))]
    exact and_congr eq_comm eq_comm

/-- Of a directive with names, those are unused that are not enabled or were not charged. -/
theorem unusedOf?_named (hon : ∀ e ∈ enabled, e.2 = true) (hnames : d.names ≠ []) :
    unusedOf? enabled d = some u ↔
      u.position = d.position ∧ u.names ≠ [] ∧
        u.names = d.names.filter fun n => n ∉ enabled.map Prod.fst ∨ n ∉ d.charged := by
  have hfilter : (d.names.filter fun n => !(enabled.lookup n).getD false || !d.charged.contains n)
      = d.names.filter fun n => n ∉ enabled.map Prod.fst ∨ n ∉ d.charged := by
    refine List.filter_congr fun n _ => ?_
    rw [Bool.eq_iff_iff, Bool.or_eq_true, Bool.not_eq_true', Bool.not_eq_true',
      ← Bool.not_eq_true, ← Bool.not_eq_true, lookup_iff_of_all_on hon, List.contains_iff_mem,
      decide_eq_true_iff]
  obtain ⟨position, names⟩ := u
  unfold unusedOf?
  rw [if_neg fun h => hnames (List.isEmpty_iff.1 h), hfilter]
  dsimp only
  split
  · -- all names are used
    rename_i hnone
    rw [List.isEmpty_iff.1 hnone]
    exact ⟨nofun, fun h => absurd h.2.2 h.2.1⟩
  · rename_i hsome
    rw [List.isEmpty_iff] at hsome
    rw [Option.some.injEq, UnusedDirective.mk.injEq]
    constructor
    · rintro ⟨rfl, rfl⟩
      exact ⟨rfl, hsome, rfl⟩
    · rintro ⟨rfl, -, rfl⟩
      exact ⟨rfl, rfl⟩

/-- What a run leaves of a directive: its place, its names, and a charge for every check with which a
question of the run went to it. -/
structure Booked (lineAt : Position → Nat) (comments : List Comment) (questions : List Question)
    (d d' : Directive) : Prop where
  position_eq : d'.position = d.position
  names_eq : d'.names = d.names
  mem_charged : ∀ n, n ∈ d'.charged ↔ ∃ q ∈ questions, q.check = n ∧ q.ChargedTo lineAt comments d

theorem booked_account {comments : List Comment} (hfresh : d.charged = []) :
    Booked lineAt comments questions d ((build lineAt comments).account questions d) := by
  refine ⟨position_account _ _ _, names_account _ _ _, fun n => ?_⟩
  rw [mem_charged_account, hfresh]
  simp only [List.not_mem_nil, false_or, Question.chargedTo_iff]

namespace Booked

variable {comments : List Comment} {d' : Directive}

theorem unused_nameless (h : Booked lineAt comments questions d d') (hnames : d.names = []) :
    unusedOf? enabled d' = some u ↔ u.position = d.position ∧ u.names = [] ∧
      ∀ q ∈ questions, q.check ∈ enabled.map Prod.fst → ¬ q.ChargedTo lineAt comments d := by
  rw [unusedOf?_nameless (h.names_eq.trans hnames), h.position_eq]
  simp only [h.mem_charged]
  refine and_congr_right fun _ => and_congr_right fun _ => ⟨?_, ?_⟩
  · intro hnone q hq hin hto
    exact hnone q.check ⟨q, hq, rfl, hto⟩ hin
  · rintro hnone n ⟨q, hq, rfl, hto⟩ hin
    exact hnone q hq hin hto

theorem unused_named (h : Booked lineAt comments questions d d') (hon : ∀ e ∈ enabled, e.2 = true)
    (hnames : d.names ≠ []) :
    unusedOf? enabled d' = some u ↔ u.position = d.position ∧ u.names ≠ [] ∧
      u.names = d.names.filter fun n => n ∉ enabled.map Prod.fst ∨
        ∀ q ∈ questions, q.check = n → ¬ q.ChargedTo lineAt comments d := by
  -- a name is uncharged when the questions about it all went elsewhere
  have huncharged : ∀ n, n ∉ d'.charged ↔
      ∀ q ∈ questions, q.check = n → ¬ q.ChargedTo lineAt comments d := by
    intro n
    rw [h.mem_charged]
    simp only [not_exists, not_and]
  rw [unusedOf?_named hon (h.names_eq ▸ hnames), h.position_eq, h.names_eq]
  simp only [huncharged]

end Booked

/-- **Bookkeeping is exact.** Put any questions to the directives of a file, whatever lines its places
count for. Each is answered by the directives in force on its line and the line above, whatever was
asked before, and charged to the one that `Question.ChargedTo` names. In the end, with every check of
`enabled` switched on, the unused directives are listed in the order of the text, none twice: those
without names that no question about an enabled check went to, and those with names, cut down to the
names that are not enabled or whose questions all went elsewhere. -/
theorem bookkeeping_exact (lineAt : Position → Nat) (groups : List (List Comment))
    (questions : List Question) (enabled : List (String × Bool))
    (hon : ∀ e ∈ enabled, e.2 = true) :
    ∃ answers after, (build lineAt groups.flatten).askAll questions = (answers, after) ∧
      answers = questions.map (fun q => decide (q.Silenced lineAt groups.flatten)) ∧
      (∀ line, Option.Rel (Booked lineAt groups.flatten questions)
        (Directive.inForce? lineAt groups.flatten line) (after.at? line)) ∧
      (after.unused enabled).Pairwise (fun a b => a.position.Before b.position) ∧
      ∀ u, u ∈ after.unused enabled ↔
        ∃ d, Directive.inForce? lineAt groups.flatten (lineAt u.position) = some d ∧
          u.position = d.position ∧
          (d.names = [] ∧ u.names = [] ∧
              (∀ q ∈ questions, q.check ∈ enabled.map Prod.fst →
                ¬ q.ChargedTo lineAt groups.flatten d) ∨
            d.names ≠ [] ∧ u.names ≠ [] ∧
              u.names = d.names.filter fun n => n ∉ enabled.map Prod.fst ∨
                ∀ q ∈ questions, q.check = n → ¬ q.ChargedTo lineAt groups.flatten d) := by
  generalize groups.flatten = comments
  obtain ⟨hanswers, hledger⟩ := ledger_build lineAt comments questions
  have hat : ∀ line, ((build lineAt comments).askAll questions).2.at? line
      = (Directive.inForce? lineAt comments line).map
          ((build lineAt comments).account questions) := by
    intro line
    rw [hledger.at?_eq, at?_build]
  have hbooked : ∀ {line d}, Directive.inForce? lineAt comments line = some d →
      Booked lineAt comments questions d ((build lineAt comments).account questions d) :=
    fun hd => booked_account (Directive.charged_of_inForce? hd)
  refine ⟨_, _, rfl, ?_, fun line => ?_, ?_, fun u => ?_⟩
  · rw [hanswers]
    refine List.map_congr_left fun q _ => ?_
    rw [Bool.eq_iff_iff, decide_eq_true_iff, Question.silenced_iff]
  · rw [hat]
    cases hd : Directive.inForce? lineAt comments line with
    | none => exact .none
    | some d => exact .some (hbooked hd)
  · -- what counts for different lines stands in different places
    refine (pairwise_unused hledger.keyed enabled).imp fun ⟨hle, hne⟩ => ?_
    exact Position.before_of_le_of_ne hle fun heq => hne (congrArg lineAt heq)
  · rw [mem_unused hledger.keyed, hat]
    simp only [Option.map_eq_some_iff, exists_exists_and_eq_and]
    refine exists_congr fun d => and_congr_right fun hd => ?_
    by_cases hnames : d.names = []
    · rw [(hbooked hd).unused_nameless hnames]
      simp only [hnames, ne_eq, not_true, false_and, or_false, true_and]
    · rw [(hbooked hd).unused_named hon hnames]
      simp only [hnames, ne_eq, not_false_eq_true, false_and, false_or, true_and]

/-! ### Directives on adjacent lines

The text has line directives: its line 5 counts for line 3, and at its lines 10 and 13 counting starts
again at line 2. So line 3 has a directive with two names, which stands before the two of line 2. Of
these the second one, without names, is kept. Only `mustawait` is enabled. -/

namespace Adjacent

def counted (p : Position) : Nat :=
  if p.line < 10 then p.line - 2 else if p.line < 13 then p.line - 8 else p.line - 11

def groups : List (List Comment) :=
  [[⟨⟨5, 1⟩, "//mustawait:ignore mustawait,style - both"⟩],
   [⟨⟨10, 1⟩, "//mustawait:ignore lint"⟩], [⟨⟨13, 1⟩, "//mustawait:ignore"⟩]]

def asks : List Question := [⟨3, "mustawait"⟩, ⟨3, "lint"⟩, ⟨4, "style"⟩, ⟨5, "style"⟩]

def ran : List (String × Bool) := [("mustawait", true)]

end Adjacent

open Adjacent in
/-- Both directives cover line 3, and each is charged with one question about it. The one without
names is unused, as `lint` is not enabled; of the other, `style` is not enabled either. They are
listed as they stand in the text. -/
theorem bookkeeping_on_adjacent_lines :
    (∀ e ∈ ran, e.2 = true) ∧
    ∃ after, (build counted groups.flatten).askAll asks = ([true, true, true, false], after) ∧
      (⟨⟨5, 1⟩, ["style"]⟩ : UnusedDirective) ∈ after.unused ran ∧
      (⟨⟨13, 1⟩, []⟩ : UnusedDirective) ∈ after.unused ran ∧
      (after.unused ran).Pairwise (fun a b => a.position.Before b.position) := by
  have hon : ∀ e ∈ ran, e.2 = true := by decide
  obtain ⟨answers, after, hrun, hanswers, -, hordered, hunused⟩ :=
    bookkeeping_exact counted groups asks ran hon
  have hsilenced : asks.map (fun q => decide (q.Silenced counted groups.flatten))
      = [true, true, true, false] := by decide +kernel
  have hnamed : Directive.inForce? counted groups.flatten 3
      = some ⟨3, ⟨5, 1⟩, ["mustawait", "style"], []⟩ := by decide +kernel
  have hlast : Directive.inForce? counted groups.flatten 2
      = some ⟨2, ⟨13, 1⟩, [], []⟩ := by decide +kernel
  refine ⟨hon, after, ?_, (hunused _).2 ⟨_, hnamed, rfl, .inr ⟨?_, ?_, ?_⟩⟩,
    (hunused _).2 ⟨_, hlast, rfl, .inl ⟨rfl, rfl, ?_⟩⟩, hordered⟩
  · rw [hrun, hanswers, hsilenced]
  all_goals decide +kernel

end DirectiveMap

end AwaitLint
