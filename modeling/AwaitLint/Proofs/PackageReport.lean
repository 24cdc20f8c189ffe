import AwaitLint.Proofs.Identities
import AwaitLint.Proofs.LoweredFunctions
import AwaitLint.Proofs.Suppression
import AwaitLint.Report

/-!
# AwaitLint — the report on a package

What a run over a package reports, said without the run: `package_report_exact`. The state that a
run carries along is the report on the current file; what it holds after some values were judged is
`FileReport.Records`, and the layers of the run each extend it:

* `Records.judge` for one value, `Records.checkFunction` for a function, `SourceFile.check_records`
  for a file, with `Records.foldlM` between them. All of them have a result, since every value of a
  lowered function is decided (`Function.decide_ofDecl_ok`).
* `Package.nodup_reported`: a value is reported once, because lowering gives no two nodes one
  identity (`count_ids_lowerDecl`).
-/

namespace AwaitLint

open Source

/-! ## What a report is about -/

/-- `t` is a tracked value in the tree of a function of the file, and some path drops it. -/
def SourceFile.Drops (c : Config) (f : SourceFile) (t : Node) : Prop :=
  ∃ d ∈ f.functions, d.body ≠ none ∧
    Reaches Node.Child (Function.ofDecl c d).root t ∧
    c.isCandidate (Function.ofDecl c d).links t = true ∧
    c.isConsumed (Function.ofDecl c d).frontEnd t = .ok false

/-- A report on `line` is charged to `d`: the directive of the line, or else the one above, if that
of the line does not silence the check. -/
def SourceFile.Charges (f : SourceFile) (line : Nat) (d : Directive) : Prop :=
  d.suppresses Directive.mustAwait = true ∧
    (Directive.inForce? Position.line f.comments line = some d ∨
      ∃ above, above + 1 = line ∧ Directive.inForce? Position.line f.comments above = some d ∧
        ∀ own, Directive.inForce? Position.line f.comments line = some own →
          own.suppresses Directive.mustAwait = false)

/-- The numbers of all syntax in the functions of a package. -/
def Package.numbers (p : Package) : List Nat :=
  p.files.flatMap fun f => f.functions.flatMap FuncDecl.numbers

/-- The values that a function drops, in the order of its tree. -/
def droppedBy (c : Config) (d : FuncDecl) : List Node :=
  if d.body.isNone then []
  else
    let f := Function.ofDecl c d
    (FileReport.targets c f).filter fun t => (c.isConsumed f.frontEnd t).toOption == some false

namespace SourceFile

/-- The values that a file drops. -/
def dropped (c : Config) (f : SourceFile) : List Node := f.functions.flatMap (droppedBy c)

/-- No directive silences a report on the line. -/
def isLoud (f : SourceFile) (line : Nat) : Bool :=
  ((DirectiveMap.build Position.line f.comments).suppressor? line Directive.mustAwait).isNone

variable {c : Config} {f : SourceFile} {t : Node} {line : Nat} {d : Directive}

theorem mem_dropped : t ∈ f.dropped c ↔ f.Drops c t := by
  unfold dropped Drops
  rw [List.mem_flatMap]
  refine exists_congr fun d => and_congr_right fun _ => ?_
  unfold droppedBy
  cases hbody : d.body with
  | none => simp
  | some body =>
    have hconsumed : ∀ r : Except Fault Bool, (r.toOption == some false) = true ↔ r = .ok false :=
      fun r => ⟨fun h => eq_ok_of_toOption (beq_iff_eq.1 h), fun h => h ▸ rfl⟩
    rw [Option.isNone_some, if_neg Bool.false_ne_true]
    unfold FileReport.targets
    rw [List.mem_filter, List.mem_filter, Node.mem_preorder_iff, hconsumed, and_assoc]
    exact (and_iff_right (Option.some_ne_none body)).symm

theorem charges_iff :
    f.Charges line d ↔
      (DirectiveMap.build Position.line f.comments).suppressor? line Directive.mustAwait = some d := by
  rw [DirectiveMap.suppressor?_eq_some_iff]
  simp only [DirectiveMap.at?_build, Charges]

theorem exists_charges_iff :
    (∃ l ∈ (f.dropped c).map (·.span.line),
        (DirectiveMap.build Position.line f.comments).suppressor? l Directive.mustAwait = some d) ↔
      ∃ t, f.Drops c t ∧ f.Charges t.span.line d := by
  simp only [List.mem_map, exists_exists_and_eq_and, mem_dropped, charges_iff]

theorem isLoud_iff :
    f.isLoud line = true ↔
      ∀ l d, l = line ∨ l + 1 = line → Directive.inForce? Position.line f.comments l = some d →
        d.suppresses Directive.mustAwait = false := by
  rw [isLoud, Option.isNone_iff_eq_none, ← Option.not_isSome_iff_eq_none,
    DirectiveMap.suppressor?_isSome_iff]
  simp only [DirectiveMap.at?_build, not_exists, not_and, Bool.not_eq_true]

end SourceFile

/-! ## One file -/

/-- The report on a file once the values `ts` were found to be dropped. -/
structure FileReport.Records (f : SourceFile) (ts : List Node) (r : FileReport) : Prop where
  asked : (DirectiveMap.build Position.line f.comments).Asked Position.line Directive.mustAwait
    (ts.map (·.span.line)) r.directives
  unawaited : r.unawaited
    = (ts.filter fun t => f.isLoud t.span.line).map fun t => .unawaited f.name t.span

namespace FileReport.Records

variable {f : SourceFile} {ts : List Node} {r : FileReport} {c : Config}

/-- **One value**: it is recorded unless it is consumed. -/
theorem judge (h : r.Records f ts) {fe : FrontEnd} {t : Node} {decision : Decision}
    (hd : c.decide fe t = .ok decision) :
    ∃ r', r.judge c f.name fe t = .ok r' ∧
      r'.Records f (ts ++ if decision.verdict.isConsumed then [] else [t]) := by
  obtain ⟨hanswer, hasked⟩ := h.asked.suppress t.span.line
  unfold FileReport.judge
  rw [hd]
  show ∃ r', (if decision.verdict.isConsumed = true then _ else _) = _ ∧ _
  split
  · exact ⟨_, rfl, by rw [List.append_nil]; exact ⟨h.asked, h.unawaited⟩⟩
  · refine ⟨_, rfl, ?_, ?_⟩
    · rw [List.map_append]
      exact hasked
    · -- the answer does not depend on the charges so far, so it is that of the comments
      have hloud : f.isLoud t.span.line
          = !(r.directives.suppress t.span.line Directive.mustAwait).1 := by
        rw [hanswer, Option.not_isSome]
        rfl
      rw [List.filter_append, List.map_append, ← h.unawaited, List.filter_singleton, hloud]
      show r.unawaited ++ (if (r.directives.suppress t.span.line Directive.mustAwait).1 then _
        else _) = _
      cases (r.directives.suppress t.span.line Directive.mustAwait).1 <;> rfl

/-- What one step records, a sequence of steps records one after the other. -/
theorem foldlM {α : Type} {step : FileReport → α → Except Fault FileReport} {out : α → List Node}
    {xs : List α}
    (hstep : ∀ x ∈ xs, ∀ ts r, r.Records f ts →
      ∃ r', step r x = .ok r' ∧ r'.Records f (ts ++ out x)) (h : r.Records f ts) :
    ∃ r', xs.foldlM step r = .ok r' ∧ r'.Records f (ts ++ xs.flatMap out) := by
  induction xs generalizing ts r with
  | nil =>
    refine ⟨r, rfl, ?_⟩
    rwa [List.flatMap_nil, List.append_nil]
  | cons x xs ih =>
    obtain ⟨hx, hxs⟩ := List.forall_mem_cons.1 hstep
    obtain ⟨r₁, hr₁, h₁⟩ := hx ts r h
    obtain ⟨r₂, hr₂, h₂⟩ := ih hxs h₁
    refine ⟨r₂, ?_, ?_⟩
    · rw [List.foldlM_cons]
      exact bind_eq_ok.2 ⟨r₁, hr₁, hr₂⟩
    · rwa [List.flatMap_cons, ← List.append_assoc]

/-- **One function**: the values that it drops are recorded. -/
theorem checkFunction (h : r.Records f ts) (c : Config) (d : FuncDecl) :
    ∃ r', r.checkFunction c f.name d = .ok r' ∧ r'.Records f (ts ++ droppedBy c d) := by
  unfold FileReport.checkFunction droppedBy
  split
  · exact ⟨r, rfl, by rwa [List.append_nil]⟩
  · dsimp only
    split
    · rename_i hnone
      exact ⟨r, rfl, by rwa [hnone, List.filter_nil, List.append_nil]⟩
    · -- the entry in the log changes neither the directives nor the findings
      have hstart : ∀ entry, FileReport.Records f ts { r with log := r.log ++ [entry] } :=
        fun _ => ⟨h.asked, h.unawaited⟩
      have hstep : ∀ t ∈ targets c (Function.ofDecl c d), ∀ ts (r : FileReport), r.Records f ts →
          ∃ r', r.judge c f.name (Function.ofDecl c d).frontEnd t = .ok r' ∧
            r'.Records f (ts ++ [t].filter fun t =>
              (c.isConsumed (Function.ofDecl c d).frontEnd t).toOption == some false) := by
        intro t _ ts r hr
        obtain ⟨decision, hd⟩ := Function.decide_ofDecl_ok c d t
        obtain ⟨r', hr', h'⟩ := hr.judge hd
        refine ⟨r', hr', ?_⟩
        have hconsumed : c.isConsumed (Function.ofDecl c d).frontEnd t
            = .ok decision.verdict.isConsumed := bind_eq_ok.2 ⟨decision, hd, rfl⟩
        rw [List.filter_singleton, hconsumed]
        cases hverdict : decision.verdict.isConsumed <;> rwa [hverdict] at h'
      obtain ⟨r', hr', h'⟩ := foldlM hstep (hstart _)
      refine ⟨r', hr', ?_⟩
      rwa [← List.filter_flatMap, List.flatMap_singleton'] at h'

end FileReport.Records

/-- **One file**: checking it has a result, which records all values that the file drops. -/
theorem SourceFile.check_records (c : Config) (f : SourceFile) :
    ∃ r, f.check c = .ok r ∧ r.Records f (f.dropped c) := by
  have hstart : FileReport.Records f [] { directives := DirectiveMap.build Position.line f.comments } :=
    ⟨.nil (DirectiveMap.keyed_build Position.line f.comments), rfl⟩
  exact FileReport.Records.foldlM (fun d _ ts r h => h.checkFunction c d) hstart

/-! ## One report for a value -/

theorem count_flatMap_le {α : Type} {g k : α → List Nat} {x y : Nat} {l l' : List α}
    (hl : l.Sublist l') (h : ∀ a, (g a).count x ≤ (k a).count y) :
    (l.flatMap g).count x ≤ (l'.flatMap k).count y := by
  induction hl with
  | slnil => exact Nat.le_refl 0
  | cons a _ ih =>
    rw [List.flatMap_cons, List.count_append]
    exact Nat.le_add_left_of_le ih
  | cons_cons a _ ih =>
    rw [List.flatMap_cons, List.flatMap_cons, List.count_append, List.count_append]
    exact Nat.add_le_add (h a) ih

theorem count_droppedBy (c : Config) (x : Nat) (d : FuncDecl) :
    ((droppedBy c d).map Node.id).count x ≤ d.numbers.count (x / 2) := by
  refine Nat.le_trans (List.Sublist.count_le x ?_) (count_ids_lowerDecl x c d)
  unfold droppedBy
  split
  · exact List.nil_sublist _
  · exact (List.filter_sublist.trans List.filter_sublist).map Node.id

theorem SourceFile.count_dropped (c : Config) (x : Nat) (f : SourceFile) :
    ((f.dropped c).map Node.id).count x ≤ (f.functions.flatMap FuncDecl.numbers).count (x / 2) := by
  unfold dropped
  rw [List.map_flatMap]
  exact count_flatMap_le (.refl _) (count_droppedBy c x)

/-! ## The package -/

/-- The values of a package that are reported, each with its file. -/
def Package.reported (c : Config) (p : Package) : List (SourceFile × Node) :=
  (p.files.filter (!·.isGenerated)).flatMap fun f =>
    ((f.dropped c).filter fun t => f.isLoud t.span.line).map fun t => (f, t)

theorem Package.mem_reported {c : Config} {p : Package} {f : SourceFile} {t : Node} :
    (f, t) ∈ p.reported c ↔
      f ∈ p.files ∧ f.isGenerated = false ∧ f.Drops c t ∧ f.isLoud t.span.line = true := by
  unfold reported
  rw [List.mem_flatMap]
  constructor
  · rintro ⟨g, hg, hmem⟩
    obtain ⟨s, hs, heq⟩ := List.mem_map.1 hmem
    obtain ⟨rfl, rfl⟩ := Prod.mk.inj heq
    obtain ⟨hdropped, hloud⟩ := List.mem_filter.1 hs
    obtain ⟨hfile, hgenerated⟩ := List.mem_filter.1 hg
    exact ⟨hfile, by simpa using hgenerated, SourceFile.mem_dropped.1 hdropped, hloud⟩
  · rintro ⟨hfile, hgenerated, hdrops, hloud⟩
    refine ⟨f, List.mem_filter.2 ⟨hfile, by simp [hgenerated]⟩, List.mem_map.2 ⟨t, ?_, rfl⟩⟩
    exact List.mem_filter.2 ⟨SourceFile.mem_dropped.2 hdrops, hloud⟩

/-- No value is reported twice. -/
theorem Package.nodup_reported {p : Package} (hnumbers : p.numbers.Nodup) (c : Config) :
    ((p.reported c).map (·.2.id)).Nodup := by
  rw [List.nodup_iff_count_le_one]
  intro x
  -- what a file reports is a part of what it drops, and that a part of its trees
  have hfile : ∀ f : SourceFile,
      (((f.dropped c).filter fun t => f.isLoud t.span.line).map Node.id).count x
        ≤ (f.functions.flatMap FuncDecl.numbers).count (x / 2) := fun f =>
    Nat.le_trans ((List.filter_sublist.map _).count_le x) (f.count_dropped c x)
  have hids : (p.reported c).map (·.2.id)
      = (p.files.filter (!·.isGenerated)).flatMap fun f =>
          ((f.dropped c).filter fun t => f.isLoud t.span.line).map Node.id := by
    unfold reported
    rw [List.map_flatMap]
    simp only [List.map_map, Function.comp_def]
  calc ((p.reported c).map (·.2.id)).count x
    _ ≤ p.numbers.count (x / 2) := by
        rw [hids]
        exact count_flatMap_le List.filter_sublist hfile
    _ ≤ 1 := List.nodup_iff_count_le_one.1 hnumbers _

/-- The findings about a package are those about its files, the dropped values first. -/
theorem Package.check_ok {c : Config} {report : SourceFile → FileReport}
    (hcheck : ∀ f : SourceFile, f.check c = .ok (report f)) (p : Package) :
    ∃ r, p.check c = .ok r ∧
      r.diagnostics = (p.files.filter (!·.isGenerated)).flatMap (fun f => (report f).unawaited)
        ++ (p.files.filter (!·.isGenerated)).flatMap fun f => (report f).unused f.name := by
  have hfiles : ∀ files : List SourceFile,
      (files.mapM fun f => do return (f.name, ← f.check c) : Except Fault _)
        = .ok (files.map fun f => (f.name, report f)) := by
    intro files
    simp only [hcheck]
    exact List.mapM_pure
  refine ⟨_, bind_eq_ok.2 ⟨_, hfiles _, rfl⟩, ?_⟩
  dsimp only
  rw [List.flatMap_map, List.flatMap_map]

/-- **The report on a package is exact.** When no two pieces of its syntax have one number, a run
has a result. It reports first, once each, the values that a function of a file drops, generated
files left out, where no directive of the file on the line of the value or on the line above
silences the check. Then it reports by file, from top to bottom, the directives that no dropped
value is charged to, with all their names, and of the others the names apart from the check. -/
theorem package_report_exact (c : Config) (p : Package) (hnumbers : p.numbers.Nodup) :
    ∃ (r : Report) (reported : List (SourceFile × Node))
        (unused : SourceFile → List UnusedDirective),
      Run.check none (.ok c) p = .ok r ∧
      r.diagnostics = reported.map (fun e => .unawaited e.1.name e.2.span)
        ++ (p.files.filter (!·.isGenerated)).flatMap
            (fun f => (unused f).map (.unusedDirective f.name)) ∧
      (reported.map (·.2.id)).Nodup ∧
      (∀ f t, (f, t) ∈ reported ↔
        f ∈ p.files ∧ f.isGenerated = false ∧ f.Drops c t ∧
          ∀ l d, l = t.span.line ∨ l + 1 = t.span.line →
            Directive.inForce? Position.line f.comments l = some d →
            d.suppresses Directive.mustAwait = false) ∧
      ∀ f,
        (unused f).Pairwise (fun a b => a.position.line < b.position.line) ∧
        ∀ u, u ∈ unused f ↔
          ∃ d, Directive.inForce? Position.line f.comments u.position.line = some d ∧ u.position = d.position ∧
            ((¬ ∃ t, f.Drops c t ∧ f.Charges t.span.line d) ∧ u.names = d.names ∨
              (∃ t, f.Drops c t ∧ f.Charges t.span.line d) ∧
                u.names = d.names.filter (· != Directive.mustAwait) ∧ u.names ≠ []) := by
  -- no file fails, so each has its own report whatever comes before it
  choose report hcheck hrecords using SourceFile.check_records c
  obtain ⟨r, hr, hdiagnostics⟩ := Package.check_ok hcheck p
  have hrun : Run.check none (.ok c) p = .ok r := by
    simp only [Run.check, hr]
  have hreported : (p.files.filter (!·.isGenerated)).flatMap (fun f => (report f).unawaited)
      = (p.reported c).map fun e => .unawaited e.1.name e.2.span := by
    unfold Package.reported
    rw [List.map_flatMap]
    simp only [(hrecords _).unawaited, List.map_map, Function.comp_def]
  refine ⟨r, p.reported c, fun f => (report f).directives.unused [(Directive.mustAwait, true)],
    hrun, hdiagnostics.trans (congrArg (· ++ _) hreported), p.nodup_reported hnumbers c,
    fun f t => ?_, fun f => ⟨?_, fun u => ?_⟩⟩
  · rw [Package.mem_reported, SourceFile.isLoud_iff]
  · -- places count for the lines they stand on, so by place is from top to bottom
    refine (DirectiveMap.pairwise_unused (hrecords f).asked.keyed _).imp fun ⟨hle, hne⟩ => ?_
    simp only [Position.le, Bool.or_eq_true, Bool.and_eq_true, decide_eq_true_eq, beq_iff_eq] at hle
    omega
  · rw [(hrecords f).asked.mem_unused fun l d hd =>
      Directive.charged_of_inForce? (DirectiveMap.at?_build Position.line f.comments l ▸ hd)]
    simp only [SourceFile.exists_charges_iff, DirectiveMap.at?_build]

/-! A file that drops three tasks: one is reported, one is silenced from the line above, and one by
a directive that also names a check which never runs. The same code in a generated file. -/

namespace Jobs

def task : GoType := .named (some "github.com/mpyw/mustawait/future") "Task" .struct

def place (line : Nat) : Span := ⟨line, 2, line, 9⟩

/-- `fetch()` as a statement. -/
def fetch (number line : Nat) : Stmt :=
  .expr ⟨number, place line⟩
    (.call { number := number + 1, span := place line, type := some task }
      (.ident { number := number + 2, span := ⟨line, 2, line, 7⟩ } "fetch" none) []
      (some (.func ⟨"fetch", "jobs", false⟩)))

def start (number : Nat) : FuncDecl where
  piece := ⟨number, ⟨2, 1, 9, 2⟩⟩
  name := "start"
  params := []
  body := some [fetch (number + 1) 3, fetch (number + 4) 5, fetch (number + 7) 7]
  graph := some [⟨[.piece (number + 1), .piece (number + 4), .piece (number + 7),
    .implicitReturn], [], true⟩]

def comments : List Comment :=
  [⟨⟨4, 2⟩, "//mustawait:ignore"⟩, ⟨⟨7, 10⟩, "//mustawait:ignore mustawait,other"⟩]

def written : SourceFile := ⟨"jobs.go", false, comments, [start 0]⟩

def generated : SourceFile := ⟨"jobs_gen.go", true, comments, [start 10]⟩

def package : Package := ⟨"jobs", [written, generated]⟩

theorem dropped_on (line : Nat) (h : line ∈ [3, 5, 7]) :
    ∃ t, written.Drops .default t ∧ t.span = place line := by
  have hspans : (written.dropped .default).map (·.span) = [3, 5, 7].map place := by decide +kernel
  have hmem : place line ∈ (written.dropped .default).map (·.span) :=
    hspans ▸ List.mem_map_of_mem h
  obtain ⟨t, ht, hspan⟩ := List.mem_map.1 hmem
  exact ⟨t, SourceFile.mem_dropped.1 ht, hspan⟩

end Jobs

/-- The first call is reported and the second is not; of the directive that silences the third, one
name is unused; nothing is said about the generated file. -/
theorem jobs_report_exact :
    Jobs.package.numbers.Nodup ∧
      ∃ r, Run.check none (.ok .default) Jobs.package = .ok r ∧
        .unawaited "jobs.go" (Jobs.place 3) ∈ r.diagnostics ∧
        .unawaited "jobs.go" (Jobs.place 5) ∉ r.diagnostics ∧
        .unusedDirective "jobs.go" ⟨⟨7, 10⟩, ["other"]⟩ ∈ r.diagnostics ∧
        ∀ d ∈ r.diagnostics, d.file = "jobs.go" := by
  have hnumbers : Jobs.package.numbers.Nodup := by decide +kernel
  have hfiles : Jobs.package.files.filter (!·.isGenerated) = [Jobs.written] := rfl
  obtain ⟨r, reported, unused, hrun, hdiagnostics, -, hreported, hunused⟩ :=
    package_report_exact .default Jobs.package hnumbers
  have hwritten : ∀ e ∈ reported, e.1 = Jobs.written := by
    intro e he
    obtain ⟨hfile, hgenerated, -⟩ := (hreported e.1 e.2).1 he
    exact List.mem_singleton.1 (hfiles ▸ List.mem_filter.2 ⟨hfile, by simp [hgenerated]⟩)
  rw [hfiles, List.flatMap_singleton] at hdiagnostics
  refine ⟨hnumbers, r, hrun, ?_, ?_, ?_, ?_⟩ <;> rw [hdiagnostics]
  · -- neither line 3 nor line 2 has a directive
    obtain ⟨t, hdrops, hspan⟩ := Jobs.dropped_on 3 (by decide)
    refine List.mem_append_left _ (List.mem_map.2 ⟨(Jobs.written, t), ?_, by rw [hspan]; rfl⟩)
    refine (hreported _ _).2 ⟨List.mem_cons_self, rfl, hdrops, fun l d hl hd => ?_⟩
    rw [hspan] at hl
    have hnone : Directive.inForce? Position.line Jobs.comments l = none := by
      obtain rfl | rfl : l = 3 ∨ l = 2 := hl.imp_right Nat.succ.inj
      all_goals decide +kernel
    exact absurd (hnone.symm.trans hd) nofun
  · -- the directive on line 4 silences line 5
    intro hmem
    rcases List.mem_append.1 hmem with hmem | hmem
    · obtain ⟨⟨f, t⟩, he, heq⟩ := List.mem_map.1 hmem
      obtain rfl : f = Jobs.written := hwritten _ he
      have hspan : t.span = Jobs.place 5 := (Diagnostic.unawaited.inj heq).2
      obtain ⟨-, -, -, hsilent⟩ := (hreported _ _).1 he
      have hforce : Directive.inForce? Position.line Jobs.comments 4 = some ⟨4, ⟨4, 2⟩, [], []⟩ := by
        decide +kernel
      have hsup := hsilent 4 _ (.inr (by rw [hspan]; rfl)) hforce
      cases hsup
    · obtain ⟨u, -, heq⟩ := List.mem_map.1 hmem
      cases heq
  · -- the directive on line 7 is charged with the call on its own line
    obtain ⟨t, hdrops, hspan⟩ := Jobs.dropped_on 7 (by decide)
    have hforce : Directive.inForce? Position.line Jobs.comments 7
        = some ⟨7, ⟨7, 10⟩, ["mustawait", "other"], []⟩ := by decide +kernel
    refine List.mem_append_right _ (List.mem_map.2 ⟨_, ((hunused _).2 _).2 ?_, rfl⟩)
    refine ⟨_, hforce, rfl, .inr ⟨⟨t, hdrops, ?_⟩, by decide, nofun⟩⟩
    rw [hspan]
    exact ⟨by decide, .inl hforce⟩
  · intro d hd
    rcases List.mem_append.1 hd with hd | hd
    · obtain ⟨e, he, rfl⟩ := List.mem_map.1 hd
      exact congrArg SourceFile.name (hwritten e he)
    · obtain ⟨u, -, rfl⟩ := List.mem_map.1 hd
      rfl

end AwaitLint
