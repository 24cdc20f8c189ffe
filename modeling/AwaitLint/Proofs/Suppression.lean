import AwaitLint.Directive
import Mathlib.Data.List.Induction
import Mathlib.Data.List.Nodup

/-!
# AwaitLint — what directives silence

The directives of a file are charged while the file is judged, so what is reported at the end
depends on all questions asked before. This module says what a sequence of questions leaves behind,
in terms of the comments alone:

* `Directive.inForce?` is the directive of a line: the last one that a comment which counts for the
  line makes (`DirectiveMap.at?_build`).
* `DirectiveMap.Keyed` is what every map keeps: one directive for a line, under the line that its
  place counts for. So directives stand in different places.
* `DirectiveMap.Asked` relates the directives at the start to those after a check was asked about on
  some lines. `Asked.suppress` takes one question, whatever was asked before: the answer is that of
  the start, and one more directive is charged.
* `Asked.mem_unused` reads off what is unused in the end, `pairwise_unused` its order.

Throughout, `lineAt` is the line that a place counts for.
-/

namespace AwaitLint

variable {lineAt : Position → Nat}

/-! ## Directives in comments -/

/-- The directive that a comment makes. -/
def Comment.directive? (lineAt : Position → Nat) (c : Comment) : Option Directive :=
  (Directive.names? c.text).map fun names =>
    { line := lineAt c.position, position := c.position, names }

/-- The directive in force on a line: the last one that a comment which counts for the line makes. A
comment that makes one runs to the end of its line, so there is no other unless places on different
lines of the text count for one. -/
def Directive.inForce? (lineAt : Position → Nat) (comments : List Comment) (line : Nat) :
    Option Directive :=
  ((comments.filterMap (Comment.directive? lineAt)).filter fun d => d.line == line).getLast?

/-- Nothing was charged to a directive in force. -/
theorem Directive.charged_of_inForce? {comments : List Comment} {line : Nat} {d : Directive}
    (h : inForce? lineAt comments line = some d) : d.charged = [] := by
  have hmem : d ∈ comments.filterMap (Comment.directive? lineAt) :=
    List.mem_of_mem_filter (List.mem_of_getLast? h)
  obtain ⟨c, -, hc⟩ := List.mem_filterMap.1 hmem
  obtain ⟨names, -, rfl⟩ := Option.map_eq_some_iff.1 hc
  rfl

/-- A directive counts for the line that its place does. -/
theorem Comment.line_of_directive? {c : Comment} {d : Directive}
    (h : c.directive? lineAt = some d) : d.line = lineAt d.position := by
  obtain ⟨names, -, rfl⟩ := Option.map_eq_some_iff.1 h
  rfl

theorem Directive.charge_charge (d : Directive) (check : String) :
    (d.charge check).charge check = d.charge check := by
  have hmem : (d.charge check).charged.contains check = true := by
    unfold charge
    dsimp only
    split
    · assumption
    · simp
  rw [charge, if_pos hmem]

namespace DirectiveMap

variable {m m₀ : DirectiveMap} {check : String} {line : Nat} {d : Directive}

/-! ## One directive for a line -/

theorem line_of_at? (h : m.at? line = some d) : d.line = line := by
  have hline := List.find?_some h
  exact beq_iff_eq.1 hline

theorem at?_put (m : DirectiveMap) (d : Directive) (line : Nat) :
    (m.put d).at? line = if line = d.line then some d else m.at? line := by
  unfold put at?
  rw [List.find?_append, List.find?_filter]
  split
  · -- the earlier directive of the line is filtered out
    rename_i heq
    have hnone : m.entries.find? (fun e => decide ((e.line != d.line) = true
        ∧ (e.line == line) = true)) = none := by
      simp [heq]
    rw [hnone]
    simp [heq]
  · -- on another line neither the filter nor the new directive is seen
    rename_i hne
    have hself : (d.line == line) = false := beq_false_of_ne (Ne.symm hne)
    have hother : (fun e : Directive => decide ((e.line != d.line) = true
        ∧ (e.line == line) = true)) = fun e => e.line == line := by
      funext e
      by_cases he : e.line = line
      · simp [he, hne]
      · simp [he]
    rw [hother, List.find?_singleton, hself]
    exact Option.or_none

/-- No two directives count for one line, and each counts for the line that its place does. -/
structure Keyed (lineAt : Position → Nat) (m : DirectiveMap) : Prop where
  nodup : (m.entries.map (·.line)).Nodup
  line_eq : ∀ d ∈ m.entries, d.line = lineAt d.position

namespace Keyed

theorem put (h : m.Keyed lineAt) (hd : d.line = lineAt d.position) : (m.put d).Keyed lineAt := by
  unfold DirectiveMap.put
  constructor
  · show (List.map _ (_ ++ [d])).Nodup
    rw [List.map_append, List.nodup_append]
    refine ⟨h.nodup.sublist (List.filter_sublist.map _), List.nodup_singleton _, ?_⟩
    intro l hl k hk
    obtain ⟨e, he, rfl⟩ := List.mem_map.1 hl
    rw [List.mem_singleton.1 hk]
    simpa using (List.mem_filter.1 he).2
  · intro e he
    rcases List.mem_append.1 he with he | he
    · exact h.line_eq e (List.mem_of_mem_filter he)
    · rw [List.mem_singleton.1 he]
      exact hd

theorem mem_entries_iff (h : m.Keyed lineAt) :
    d ∈ m.entries ↔ m.at? (lineAt d.position) = some d := by
  refine ⟨fun hd => ?_, fun hd => List.mem_of_find?_eq_some hd⟩
  rw [← h.line_eq d hd]
  cases hat : m.at? d.line with
  | none => exact absurd (beq_self_eq_true _) (List.find?_eq_none.1 hat d hd)
  | some e =>
    have he : e ∈ m.entries := List.mem_of_find?_eq_some hat
    rw [List.inj_on_of_nodup_map h.nodup he hd (line_of_at? hat)]

end Keyed

theorem read_eq (m : DirectiveMap) (c : Comment) :
    m.read lineAt c = (c.directive? lineAt).elim m m.put := by
  unfold read Comment.directive?
  cases Directive.names? c.text <;> rfl

theorem build_concat (lineAt : Position → Nat) (cs : List Comment) (c : Comment) :
    build lineAt (cs ++ [c]) = (build lineAt cs).read lineAt c := by
  rw [build, List.foldl_append, List.foldl_cons, List.foldl_nil, build]

theorem keyed_build (lineAt : Position → Nat) (comments : List Comment) :
    (build lineAt comments).Keyed lineAt := by
  induction comments using List.reverseRecOn with
  | nil => exact ⟨List.nodup_nil, nofun⟩
  | append_singleton cs c ih =>
    rw [build_concat, read_eq]
    cases hd : c.directive? lineAt with
    | none => exact ih
    | some d => exact ih.put (Comment.line_of_directive? hd)

theorem at?_build (lineAt : Position → Nat) (comments : List Comment) (line : Nat) :
    (build lineAt comments).at? line = Directive.inForce? lineAt comments line := by
  -- comments are read in order, so the last one is the last to be put
  induction comments using List.reverseRecOn with
  | nil => rfl
  | append_singleton cs c ih =>
    rw [build_concat, read_eq, Directive.inForce?, List.filterMap_append, List.filter_append]
    cases hd : c.directive? lineAt with
    | none =>
      rw [List.filterMap_cons_none hd, List.filterMap_nil, List.filter_nil, List.append_nil]
      exact ih
    | some d =>
      rw [List.filterMap_cons_some hd, List.filterMap_nil]
      show ((build lineAt cs).put d).at? line = _
      rw [at?_put]
      split
      · rename_i heq
        have hself : (d.line == line) = true := beq_iff_eq.2 heq.symm
        rw [List.filter_singleton, hself]
        exact List.getLast?_concat.symm
      · rename_i hne
        have hself : (d.line == line) = false := beq_false_of_ne (Ne.symm hne)
        rw [List.filter_singleton, hself, cond_false, List.append_nil]
        exact ih

/-! ## Who silences a check -/

theorem suppressor?_succ (m : DirectiveMap) (above : Nat) (check : String) :
    m.suppressor? (above + 1) check
      = ((m.at? (above + 1)).filter fun d => d.suppresses check).or
          ((m.at? above).filter fun d => d.suppresses check) := by
  unfold suppressor? covering
  rw [List.findSome?_cons, List.findSome?_singleton]
  cases (m.at? (above + 1)).filter fun d => d.suppresses check <;> rfl

/-- The directive of the line silences a check; the one above does if that of the line does not. -/
theorem suppressor?_eq_some_iff :
    m.suppressor? line check = some d ↔
      d.suppresses check = true ∧ (m.at? line = some d ∨
        ∃ above, above + 1 = line ∧ m.at? above = some d ∧
          ∀ own, m.at? line = some own → own.suppresses check = false) := by
  cases line with
  | zero =>
    have hzero : m.suppressor? 0 check = (m.at? 0).filter fun d => d.suppresses check :=
      List.findSome?_singleton
    rw [hzero, Option.filter_eq_some_iff]
    simp [and_comm]
  | succ above =>
    rw [suppressor?_succ, Option.or_eq_some_iff, Option.filter_eq_some_iff,
      Option.filter_eq_some_iff, Option.filter_eq_none_iff]
    constructor
    · rintro (⟨hat, hd⟩ | ⟨hown, hat, hd⟩)
      · exact ⟨hd, .inl hat⟩
      · exact ⟨hd, .inr ⟨above, rfl, hat, fun own h => Bool.eq_false_iff.2 (hown own h)⟩⟩
    · rintro ⟨hd, hat | ⟨above', heq, hat, hown⟩⟩
      · exact .inl ⟨hat, hd⟩
      · obtain rfl := Nat.succ.inj heq
        exact .inr ⟨fun own h => Bool.eq_false_iff.1 (hown own h), hat, hd⟩

theorem suppressor?_isSome_iff :
    (m.suppressor? line check).isSome = true ↔
      ∃ l d, (l = line ∨ l + 1 = line) ∧ m.at? l = some d ∧ d.suppresses check = true := by
  rw [Option.isSome_iff_exists]
  constructor
  · rintro ⟨d, hd⟩
    obtain ⟨hsup, hat | ⟨above, habove, hat, -⟩⟩ := suppressor?_eq_some_iff.1 hd
    · exact ⟨line, d, .inl rfl, hat, hsup⟩
    · exact ⟨above, d, .inr habove, hat, hsup⟩
  · rintro ⟨l, d, hl, hat, hsup⟩
    -- whatever the line above says, a directive of the line itself comes first
    by_cases hown : ∃ own, m.at? line = some own ∧ own.suppresses check = true
    · obtain ⟨own, hat, hsup⟩ := hown
      exact ⟨own, suppressor?_eq_some_iff.2 ⟨hsup, .inl hat⟩⟩
    · rcases hl with rfl | hl
      · exact absurd ⟨d, hat, hsup⟩ hown
      · refine ⟨d, suppressor?_eq_some_iff.2 ⟨hsup, .inr ⟨l, hl, hat, fun own h => ?_⟩⟩⟩
        exact Bool.eq_false_iff.2 fun hs => hown ⟨own, h, hs⟩

theorem at?_of_suppressor? (h : m.suppressor? line check = some d) :
    m.at? d.line = some d := by
  obtain ⟨-, hat | ⟨above, -, hat, -⟩⟩ := suppressor?_eq_some_iff.1 h
  · rwa [line_of_at? hat]
  · rwa [line_of_at? hat]

/-- Who silences a check does not depend on what was charged. -/
theorem suppressor?_map {g : Directive → Directive} (hat : ∀ l, m.at? l = (m₀.at? l).map g)
    (hg : ∀ d, (g d).suppresses check = d.suppresses check) :
    m.suppressor? line check = (m₀.suppressor? line check).map g := by
  have hfilter : ∀ l, (m.at? l).filter (fun d => d.suppresses check)
      = ((m₀.at? l).filter fun d => d.suppresses check).map g := by
    intro l
    rw [hat, Option.filter_map]
    simp only [Function.comp_def, hg]
  unfold suppressor?
  rw [List.map_findSome?]
  simp only [hfilter, Function.comp_def]

/-- **One question**, put to directives that were charged since `m₀`: it is answered as `m₀` answers
it, and the directive that silences it is charged. -/
theorem suppress_map {g : Directive → Directive} (hkeyed : m.Keyed lineAt)
    (hat : ∀ l, m.at? l = (m₀.at? l).map g) (hline : ∀ d, (g d).line = d.line)
    (hsuppresses : ∀ d, (g d).suppresses check = d.suppresses check) (line : Nat) :
    (m.suppress line check).1 = (m₀.suppressor? line check).isSome ∧
      (m.suppress line check).2.Keyed lineAt ∧
      ∀ l, (m.suppress line check).2.at? l = (m₀.at? l).map fun d =>
        if m₀.suppressor? line check = some d then (g d).charge check else g d := by
  have hsup : m.suppressor? line check = (m₀.suppressor? line check).map g :=
    suppressor?_map hat hsuppresses
  unfold suppress
  cases hd : m₀.suppressor? line check with
  | none =>
    -- nobody is charged
    rw [hd, Option.map_none] at hsup
    rw [hsup]
    refine ⟨rfl, hkeyed, fun l => ?_⟩
    simp only [reduceCtorEq, if_false]
    exact hat l
  | some d =>
    rw [hd, Option.map_some] at hsup
    have hmem : g d ∈ m.entries := List.mem_of_find?_eq_some (at?_of_suppressor? hsup)
    rw [hsup]
    refine ⟨rfl, hkeyed.put (hkeyed.line_eq (g d) hmem), fun l => ?_⟩
    have hcharged : ((g d).charge check).line = d.line := hline d
    show (m.put _).at? l = _
    rw [at?_put, hcharged]
    split
    · -- the line of the directive that is charged
      rename_i heq
      rw [heq, at?_of_suppressor? hd, Option.map_some, if_pos rfl]
    · -- another directive is not the one that silences the question
      rename_i hne
      rw [hat]
      refine Option.map_congr fun e he => ?_
      have hother : d ≠ e := fun heq => hne (heq ▸ (line_of_at? he).symm)
      rw [if_neg fun heq => hother (Option.some.inj heq)]

/-! ## A sequence of questions -/

/-- A directive after a check was asked about on `lines`: it is charged if it silences one of the
questions. -/
def chargedBy (m : DirectiveMap) (check : String) (lines : List Nat) (d : Directive) : Directive :=
  if ∃ l ∈ lines, m.suppressor? l check = some d then d.charge check else d

theorem line_chargedBy (m : DirectiveMap) (check : String) (lines : List Nat) (d : Directive) :
    (m.chargedBy check lines d).line = d.line := by
  unfold chargedBy
  split <;> rfl

theorem suppresses_chargedBy (m : DirectiveMap) (check : String) (lines : List Nat)
    (d : Directive) : (m.chargedBy check lines d).suppresses check = d.suppresses check := by
  unfold chargedBy
  split <;> rfl

/-- One more question charges the directive that silences it. -/
theorem chargedBy_concat (m : DirectiveMap) (check : String) (lines : List Nat) (line : Nat)
    (d : Directive) :
    m.chargedBy check (lines ++ [line]) d
      = if m.suppressor? line check = some d then (m.chargedBy check lines d).charge check
        else m.chargedBy check lines d := by
  unfold chargedBy
  by_cases hline : m.suppressor? line check = some d
  · have hex : ∃ l ∈ lines ++ [line], m.suppressor? l check = some d :=
      ⟨line, List.mem_append_right _ List.mem_cons_self, hline⟩
    rw [if_pos hex, if_pos hline]
    split
    · -- it was charged before, and charging twice is charging once
      rw [Directive.charge_charge]
    · rfl
  · have hiff : (∃ l ∈ lines ++ [line], m.suppressor? l check = some d) ↔
        ∃ l ∈ lines, m.suppressor? l check = some d := by
      simp [or_and_right, exists_or, hline]
    rw [if_neg hline]
    simp only [hiff]

/-- `m` is what `m₀` became when a check was asked about on `lines`. -/
structure Asked (lineAt : Position → Nat) (m₀ : DirectiveMap) (check : String) (lines : List Nat)
    (m : DirectiveMap) : Prop where
  keyed : m.Keyed lineAt
  at?_eq : ∀ l, m.at? l = (m₀.at? l).map (m₀.chargedBy check lines)

namespace Asked

variable {lines : List Nat}

theorem nil (h : m.Keyed lineAt) : Asked lineAt m check [] m := by
  refine ⟨h, fun l => ?_⟩
  have hid : m.chargedBy check [] = id := by
    funext d
    simp [chargedBy]
  rw [hid, Option.map_id_apply]

/-- The next question is answered as it would have been at the start, and charged as well. -/
theorem suppress (h : Asked lineAt m₀ check lines m) (line : Nat) :
    (m.suppress line check).1 = (m₀.suppressor? line check).isSome ∧
      Asked lineAt m₀ check (lines ++ [line]) (m.suppress line check).2 := by
  obtain ⟨hanswer, hkeyed, hat⟩ := suppress_map h.keyed h.at?_eq
    (line_chargedBy m₀ check lines) (suppresses_chargedBy m₀ check lines) line
  refine ⟨hanswer, hkeyed, fun l => ?_⟩
  rw [hat, ← funext (chargedBy_concat m₀ check lines line)]

end Asked

/-! ## What is left unused -/

theorem position_of_unusedOf? {enabled : List (String × Bool)} {u : UnusedDirective}
    (h : unusedOf? enabled d = some u) : u.position = d.position := by
  unfold unusedOf? at h
  dsimp only at h
  split at h
  · split at h
    · cases h
    · exact Option.some.inj h ▸ rfl
  · split at h
    · cases h
    · exact Option.some.inj h ▸ rfl

theorem mem_unused {enabled : List (String × Bool)} {u : UnusedDirective} (h : m.Keyed lineAt) :
    u ∈ m.unused enabled ↔
      ∃ d, m.at? (lineAt u.position) = some d ∧ unusedOf? enabled d = some u := by
  unfold unused
  rw [List.mem_mergeSort, List.mem_filterMap]
  refine exists_congr fun d => and_congr_left fun hu => ?_
  rw [position_of_unusedOf? hu]
  exact h.mem_entries_iff

/-- Unused directives are listed by their place in the text, one for a line. -/
theorem pairwise_unused (h : m.Keyed lineAt) (enabled : List (String × Bool)) :
    (m.unused enabled).Pairwise fun a b =>
      a.position.le b.position = true ∧ lineAt a.position ≠ lineAt b.position := by
  have hsorted : (m.unused enabled).Pairwise fun a b => a.position.le b.position = true := by
    refine List.pairwise_mergeSort (fun a b c hab hbc => ?_) (fun a b => ?_) _
    · simp only [Position.le, Bool.or_eq_true, Bool.and_eq_true, decide_eq_true_eq,
        beq_iff_eq] at hab hbc ⊢
      omega
    · simp only [Position.le, Bool.or_eq_true, Bool.and_eq_true, decide_eq_true_eq, beq_iff_eq]
      omega
  -- sorting leaves the lines as distinct as they are in the map
  have hdistinct : (m.unused enabled).Pairwise fun a b =>
      lineAt a.position ≠ lineAt b.position := by
    refine (List.Perm.pairwise_iff Ne.symm (List.mergeSort_perm _ _)).2 ?_
    rw [List.pairwise_filterMap]
    refine (List.pairwise_map.1 h.nodup).imp_of_mem fun {d e} hd he hne u hu v hv => ?_
    rw [position_of_unusedOf? hu, position_of_unusedOf? hv, ← h.line_eq d hd, ← h.line_eq e he]
    exact hne
  exact hsorted.and hdistinct

section OneCheck

variable {u : UnusedDirective}

/-- A directive that was charged with nothing is unused with all its names. -/
theorem unusedOf?_fresh (hfresh : d.charged = []) :
    unusedOf? [(check, true)] d = some ⟨d.position, d.names⟩ := by
  unfold unusedOf?
  by_cases hnames : d.names = []
  · simp [hnames, hfresh]
  · simp [hnames, hfresh]

/-- A directive that was charged with the check is unused for its other names. -/
theorem unusedOf?_charge (hfresh : d.charged = []) :
    unusedOf? [(check, true)] (d.charge check) = some u ↔
      u.position = d.position ∧ u.names = d.names.filter (· != check) ∧ u.names ≠ [] := by
  have hcharged : (d.charge check).charged = [check] := by
    simp [Directive.charge, hfresh]
  have hfilter : (d.names.filter fun n => !(List.lookup n [(check, true)]).getD false
      || !(d.charge check).charged.contains n) = d.names.filter (· != check) := by
    refine List.filter_congr fun n _ => ?_
    rw [hcharged]
    by_cases hn : n = check
    · simp [hn]
    · simp [List.lookup_cons, hn]
  have hposition : (d.charge check).position = d.position := rfl
  have hnames : (d.charge check).names = d.names := rfl
  unfold unusedOf?
  dsimp only
  rw [hposition, hnames, hfilter]
  obtain ⟨position, names⟩ := u
  split
  · -- without names it stands for the check, so it is used up
    rename_i hempty
    rw [List.isEmpty_iff.1 hempty]
    simp [hcharged]
  · split
    · rename_i hempty
      rw [List.isEmpty_iff.1 hempty]
      simp
    · rename_i hne
      rw [List.isEmpty_iff] at hne
      simp only [Option.some.injEq, UnusedDirective.mk.injEq]
      constructor
      · rintro ⟨rfl, rfl⟩
        exact ⟨rfl, rfl, hne⟩
      · rintro ⟨rfl, rfl, -⟩
        exact ⟨rfl, rfl⟩

/-- **What is unused in the end**: a directive that silenced no question, with all its names, and of
one that did the names other than the check. -/
theorem Asked.mem_unused {lines : List Nat} (h : Asked lineAt m₀ check lines m)
    (hfresh : ∀ l d, m₀.at? l = some d → d.charged = []) :
    u ∈ m.unused [(check, true)] ↔
      ∃ d, m₀.at? (lineAt u.position) = some d ∧ u.position = d.position ∧
        ((¬ ∃ l ∈ lines, m₀.suppressor? l check = some d) ∧ u.names = d.names ∨
          (∃ l ∈ lines, m₀.suppressor? l check = some d) ∧
            u.names = d.names.filter (· != check) ∧ u.names ≠ []) := by
  rw [DirectiveMap.mem_unused h.keyed, h.at?_eq]
  simp only [Option.map_eq_some_iff, exists_exists_and_eq_and]
  refine exists_congr fun d => and_congr_right fun hd => ?_
  have hcharged := hfresh _ d hd
  unfold chargedBy
  split
  · rename_i hex
    rw [unusedOf?_charge hcharged]
    simp only [hex, not_true, false_and, false_or, true_and]
  · rename_i hex
    rw [unusedOf?_fresh hcharged]
    simp only [hex, not_false_eq_true, true_and, false_and, or_false, Option.some.injEq]
    obtain ⟨position, names⟩ := u
    rw [UnusedDirective.mk.injEq]
    exact and_congr eq_comm eq_comm

end OneCheck

end DirectiveMap

end AwaitLint
