import AwaitLint.Proofs.ReachingDefinitions

/-!
# AwaitLint — reaching definitions along paths

What the sets and queries of `DataFlow.solve` mean on the block graph, whatever the graph looks like:
blocks may be unreachable, loops may have several entries.

* **`reach_exact_along_paths`** — an instruction is in the set of a block when it is a last writer of
  its own block and some path to the block passes no other block that writes one of its variables.
  The sets are the only solution in which every member has such a path (`Solved.unique`), so any
  order of visiting the blocks ends with them.
* **`reachingFrom_exact`** — for an instruction that writes one variable, the sets of instructions are
  as good as sets of definitions (`mem_definitionsAt_of_single`): the uses that it reaches are those
  with a clear path, also when the path leads round a loop and back to the instruction itself.
* **`queries_agree`** — asking a definition for its uses and a use for its definitions gives the
  same pairs, although the two take different variables when none are named.
-/

namespace AwaitLint.DataFlow

variable {df df' : DataFlow} {fe : FrontEnd} {b : Body} {d i s : Instr} {k o : Nat}
  {v : Option Variable}

/-! ## One solution -/

/-- `df` solves the equations from the empty sets of `start` on, and holds only what arrives. -/
structure Solved (start df : DataFlow) : Prop where
  below : Below start df
  settled : Settled df
  justified : Justified df

/-- Sweeps that visit every block end with a solution. -/
theorem solved_saturateIn {order : Nat → List Nat}
    (hall : ∀ k o, o < b.blocks.length → o ∈ order k) :
    Solved (resolved fe b) ((resolved fe b).saturateIn order) := by
  obtain ⟨-, hbelow, hsettled⟩ := (Ascending.resolved fe b).saturateIn hall
  exact ⟨hbelow, hsettled, (Justified.resolved fe b).saturateIn (.resolved fe b) order⟩

/-- A set of a solution lists its instructions in the order of the body. -/
theorem reach_eq_select (h : Settled df) (ho : o < df.body.blocks.length) :
    df.reach o = df.select fun i => (df.reach o).contains i.id := by
  rw [← h o ho]
  show (df.body.instrs.filter _).map _ = (df.body.instrs.filter _).map _
  refine congrArg _ (List.filter_congr fun i hi => ?_)
  have hmem : i.id ∈ df.incoming o ↔ _ := id_mem_select hi
  rw [Bool.eq_iff_iff]
  exact (List.contains_iff_mem.trans hmem).symm

namespace Solved

variable {start : DataFlow}

theorem eq_sets (h : Solved start df) (h' : Solved start df') :
    df' = { df with reachSets := df'.reachSets } := by
  rw [h'.below.eq, h.below.eq]

theorem subset (h : Solved start df) (h' : Solved start df') (ho : o < df.body.blocks.length)
    (hk : k ∈ df.reach o) : k ∈ df'.reach o := by
  have hbody : df'.body = df.body := by rw [h.eq_sets h']
  obtain ⟨i, hi, rfl, harr⟩ := h.justified o k hk
  exact (harr.of_sets (h.eq_sets h')).mem_reach h'.settled (hbody ▸ hi) (hbody ▸ ho)

theorem reach_eq (h : Solved start df) (h' : Solved start df') (ho : o < df.body.blocks.length) :
    df'.reach o = df.reach o := by
  have hbody : df'.body = df.body := by rw [h.eq_sets h']
  have ho' : o < df'.body.blocks.length := hbody ▸ ho
  rw [reach_eq_select h.settled ho, reach_eq_select h'.settled ho']
  unfold select
  rw [hbody]
  refine congrArg _ (List.filter_congr fun i _ => ?_)
  rw [Bool.eq_iff_iff, List.contains_iff_mem, List.contains_iff_mem]
  exact ⟨h'.subset h ho', h.subset h' ho⟩

/-- There is only one solution. -/
theorem unique (hlen : start.reachSets.length = start.body.blocks.length) (h : Solved start df)
    (h' : Solved start df') : df' = df := by
  have hbody : df.body = start.body := by rw [h.below.eq]
  have hsets : df'.reachSets = df.reachSets := by
    refine List.ext_getElem (h'.below.length_eq.trans h.below.length_eq.symm) fun o ho' ho => ?_
    have hlt : o < df.body.blocks.length := by
      rw [hbody, ← hlen, ← h.below.length_eq]
      exact ho
    simpa [reach, ho, ho'] using h.reach_eq h' hlt
  rw [h.eq_sets h', hsets]

end Solved

/-- Sweeps that visit every block end with the sets of `solve`, in whatever order they do so. -/
theorem saturateIn_eq_solve {order : Nat → List Nat}
    (hall : ∀ k o, o < b.blocks.length → o ∈ order k) :
    (resolved fe b).saturateIn order = solve fe b := by
  rw [solve_eq_saturateIn]
  exact (solved_saturateIn fun _ _ ho => List.mem_range.2 ho).unique
    (Ascending.resolved fe b).length_eq (solved_saturateIn hall)

/-! ## Paths of blocks -/

theorem mem_defs_solve (hd : d ∈ b.instrs) :
    d.id ∈ (solve fe b).defs d.block ↔
      ∃ v, Writes fe v d ∧ ∀ t ∈ b.instrs, t.block = d.block → d.index < t.index →
        ¬ Writes fe v t := by
  rw [mem_defs (by rwa [body_solve]), and_iff_right rfl]
  refine exists_congr fun v => and_congr (defines_solve hd) ?_
  rw [rewrittenAfter_eq_false, body_solve]
  refine forall_congr' fun t => forall_congr' fun ht => ?_
  rw [defines_solve_eq_false ht]

theorem not_mem_kills_solve (hd : d ∈ b.instrs) :
    d.id ∉ (solve fe b).kills o ↔
      (o ≠ d.block → ∀ t ∈ b.instrs, t.block = o → ∀ w, Writes fe w d → ¬ Writes fe w t) := by
  rw [mem_kills (by rwa [body_solve])]
  simp only [writes_eq_true, body_solve, not_and, not_exists]
  constructor
  · intro hnot hne t ht hblock w hw hwt
    exact hnot hne.symm w ((defines_solve hd).2 hw) t ht hblock ((defines_solve ht).2 hwt)
  · intro hnot hne w hw t ht hblock hwt
    exact hnot hne.symm t ht hblock w ((defines_solve hd).1 hw) ((defines_solve ht).1 hwt)

/-- **The sets mean paths.** An instruction `d` is in the set of block `o` exactly when it is the last
writer in its block of some variable, and some path of at least one edge leads from its block to `o`
on which no block strictly inside, other than the block of `d`, writes a variable that `d` writes.
Sweeps in any order, as long as each visits every block, end with the same sets. -/
theorem reach_exact_along_paths (fe : FrontEnd) (b : Body) :
    (∀ d ∈ b.instrs, ∀ o, o < b.blocks.length →
      (d.id ∈ (solve fe b).reach o ↔
        (∃ v, Writes fe v d ∧ ∀ t ∈ b.instrs, t.block = d.block → d.index < t.index →
          ¬ Writes fe v t) ∧
        ∃ inner, Walk b.Edge d.block o (d.block :: (inner ++ [o])) ∧
          ∀ x ∈ inner, x ≠ d.block → ∀ t ∈ b.instrs, t.block = x → ∀ w, Writes fe w d →
            ¬ Writes fe w t)) ∧
    ∀ order : Nat → List Nat, (∀ k o, o < b.blocks.length → o ∈ order k) →
      (resolved fe b).saturateIn order = solve fe b := by
  refine ⟨fun d hd o ho => ?_, fun order hall => saturateIn_eq_solve hall⟩
  rw [mem_reach_solve hd ho, ← mem_defs_solve hd]
  constructor
  · intro harr
    obtain ⟨inner, hwalk, hinner⟩ := harr.exists_walk
    rw [body_solve] at hwalk
    exact ⟨harr.last, inner, hwalk, fun x hx => (not_mem_kills_solve hd).1 (hinner x hx).2⟩
  · rintro ⟨hlast, inner, hwalk, hinner⟩
    refine arrives_of_walk hlast (by rwa [body_solve]) fun x hx => ?_
    exact (not_mem_kills_solve hd).2 (hinner x hx)

/-! ### A loop that counts

The body of `n = 0; for { n = n + 1 }; report(n)`, where the loop may also be passed by. -/

namespace Counting

def counter : Variable := ⟨0, "n", .local, .named "int"⟩

/-- `n = 0`. -/
def start : Node :=
  .mk { id := 0, kind := .assign, name := "=" } none [.ref 1 counter]
    [.leaf { id := 2, kind := .other }] []

/-- `n = n + 1`. -/
def bump : Node :=
  .mk { id := 3, kind := .assign, name := "=" } none [.ref 4 counter]
    [.mk { id := 5, kind := .other, name := "+" } (some (.ref 6 counter)) [] [] []] []

def report : Node := .mk { id := 7, kind := .exprStmt } (some (.ref 8 counter)) [] [] []

def func : Node :=
  .mk { id := 9, kind := .func, name := "count" } none [] [] [start, bump, report]

def looped : Body :=
  .framed 0 func
    [{ nodes := [start], fall := some 1, cond := some 2 },
     { nodes := [bump], fall := some 2, cond := some 1 }, { nodes := [report] }] []

def frontEnd : FrontEnd := (Registry.add {} looped).frontEnd (Links.link {} func)

def bumping : Instr := ⟨1, 2, 0, bump⟩

theorem bumping_mem : bumping ∈ looped.instrs := List.mem_of_getElem? (i := 1) rfl

/-- The loop is the block of `n = n + 1` alone. -/
theorem walk_loop : Walk looped.Edge 2 2 [2, 2] :=
  .cons (Body.edge_iff.2 ⟨_, rfl, List.mem_cons_of_mem _ List.mem_cons_self⟩) (.single 2)

end Counting

open Counting in
/-- Round the loop, `n = n + 1` reaches its own block; a sweep from the last block to the first finds
the same. -/
theorem bump_reaches_its_block :
    bumping ∈ looped.instrs ∧ 2 < looped.blocks.length ∧ bumping.id ∈ (solve frontEnd looped).reach 2 ∧
    (∀ o, o < looped.blocks.length → o ∈ looped.ordinals.reverse) ∧
    (resolved frontEnd looped).saturateIn (fun _ => looped.ordinals.reverse) = solve frontEnd looped := by
  have hlast : Writes frontEnd (some counter) bumping ∧ ∀ t ∈ looped.instrs, t.block = bumping.block →
      bumping.index < t.index → ¬ Writes frontEnd (some counter) t := by decide +kernel
  have hall : ∀ o, o < looped.blocks.length → o ∈ looped.ordinals.reverse := by decide
  obtain ⟨hreach, horder⟩ := reach_exact_along_paths frontEnd looped
  refine ⟨bumping_mem, by decide, (hreach _ bumping_mem 2 (by decide)).2 ⟨⟨_, hlast⟩, ?_⟩, hall,
    horder _ fun _ => hall⟩
  exact ⟨[], walk_loop, nofun⟩

/-! ## Paths of instructions -/

theorem clearPath_solve :
    (solve fe b).ClearPath v d s ↔
      ∃ trace, b.Between d s trace ∧ ∀ t ∈ trace, ¬ Writes fe v t := by
  unfold ClearPath
  rw [body_solve]
  refine exists_congr fun trace => and_congr_right fun hpath => ?_
  refine forall_congr' fun t => forall_congr' fun ht => ?_
  rw [defines_solve_eq_false (hpath.mem_instrs ht)]

/-- An instruction that writes `v` only leaves its block when it is the last writer of `v`, and is
killed by writers of `v` only. -/
theorem mem_definitionsAt_of_single (hd : d ∈ b.instrs) (hs : s ∈ b.instrs) (hv : Writes fe v d)
    (hsingle : ∀ w, Writes fe w d → w = v) :
    d.id ∈ (solve fe b).definitionsAt s v ↔ (solve fe b).ClearPath v d s := by
  have hd' : d ∈ (solve fe b).body.instrs := by rwa [body_solve]
  have hs' : s ∈ (solve fe b).body.instrs := by rwa [body_solve]
  have hwrites : (solve fe b).defines v d.id = true := (defines_solve hd).2 hv
  have honly : ∀ w, (solve fe b).defines w d.id = true → w = v :=
    fun w hw => hsingle w ((defines_solve hd).1 hw)
  rw [mem_definitionsAt_solve hd hs]
  constructor
  · rintro (hshadows | ⟨hfree, -, harr⟩)
    · exact (undisturbedPath_of_shadows hs' hshadows).clear
    · -- the variable that lets `d` leave its block is `v`
      obtain ⟨-, w, hw, hkept⟩ := (mem_defs hd').1 harr.last
      rw [honly w hw] at hkept
      exact (undisturbedPath_of_arrives hd' hs' hwrites hfree hkept harr).clear
  · rintro ⟨trace, hpath, hclear⟩
    have hundisturbed : (solve fe b).UndisturbedPath v d s := by
      refine ⟨trace, hpath, fun t ht => ⟨hclear t ht, .inr (.inr fun w hw => ?_)⟩⟩
      rw [honly w hw]
      exact hclear t ht
    exact (arrives_of_undisturbedPath hd' hs' hwrites hundisturbed).imp_right fun h =>
      ⟨h.1, hwrites, h.2⟩

/-- Without symbols, the uses of an instruction are those of the variables that it writes; an
instruction that writes nothing has none. -/
theorem mem_reachingFrom_nil :
    s ∈ df.reachingFrom k [] ↔ s ∈ df.body.instrs ∧
      ∃ v, df.defines v k = true ∧ df.reads v s.id = true ∧ k ∈ df.definitionsAt s v := by
  unfold reachingFrom
  rw [List.mem_filter, List.contains_iff_mem]
  show _ ∧ k ∈ df.reachingTo s (df.defUse k).defs ↔ _
  rw [mem_reachingTo_symbols]
  refine and_congr_right fun _ => exists_congr fun v => ⟨?_, ?_⟩
  · rintro ⟨-, hreads, hk⟩
    exact ⟨defines_of_mem_definitionsAt hk, hreads, hk⟩
  · rintro ⟨hwrites, hreads, hk⟩
    exact ⟨.inr (mem_defs_of_defines.1 hwrites), hreads, hk⟩

theorem pairwise_reachingFrom (df : DataFlow) (k : Nat) (symbols : List (Option Variable)) :
    (df.reachingFrom k symbols).Pairwise fun s t => s.id < t.id :=
  df.body.pairwise_instrs.filter _

/-- **The uses of a single variable are exact.** Let `d` write at most one variable. Then the uses that
`d` reaches are listed by increasing number, each once, and they are the instructions that read the
variable of `d` and to which some path leads from `d` on which nothing in between writes it. The path
may lead back to `d`. -/
theorem reachingFrom_exact (fe : FrontEnd) (b : Body) (d : Instr) (hd : d ∈ b.instrs)
    (hsingle : ∀ v w, Writes fe v d → Writes fe w d → v = w) :
    ((solve fe b).reachingFrom d.id []).Pairwise (fun s t => s.id < t.id) ∧
      ∀ s, s ∈ (solve fe b).reachingFrom d.id [] ↔
        s ∈ b.instrs ∧ ∃ v, Writes fe v d ∧ Reads fe v s ∧
          ∃ trace, b.Between d s trace ∧ ∀ t ∈ trace, ¬ Writes fe v t := by
  refine ⟨pairwise_reachingFrom _ _ _, fun s => ?_⟩
  rw [mem_reachingFrom_nil, body_solve]
  refine and_congr_right fun hs => exists_congr fun v => ?_
  rw [defines_solve hd, reads_solve hs]
  refine and_congr_right fun hv => and_congr_right fun _ => ?_
  rw [mem_definitionsAt_of_single hd hs hv fun w hw => hsingle w v hw hv, clearPath_solve]

open Counting in
/-- `n = n + 1` reads what it has written the time before. -/
theorem bump_reads_its_own_value :
    bumping ∈ looped.instrs ∧
    (∀ v w, Writes frontEnd v bumping → Writes frontEnd w bumping → v = w) ∧
    bumping ∈ (solve frontEnd looped).reachingFrom bumping.id [] := by
  have hdefs : (resolve frontEnd bumping.node).defs = [some counter] := by decide +kernel
  have hsingle : ∀ v w, Writes frontEnd v bumping → Writes frontEnd w bumping → v = w := by
    intro v w hv hw
    unfold Writes at hv hw
    rw [hdefs, List.mem_singleton] at hv hw
    rw [hv, hw]
  obtain ⟨-, hmem⟩ := reachingFrom_exact frontEnd looped bumping bumping_mem hsingle
  refine ⟨bumping_mem, hsingle, (hmem bumping).2 ⟨bumping_mem, some counter, ?_, ?_, ?_⟩⟩
  · decide +kernel
  · decide +kernel
  · exact ⟨[], ⟨2, [2], [], walk_loop, rfl⟩, nofun⟩

/-! ## The two queries -/

variable {symbols : List (Option Variable)}

/-- With symbols, both queries look at the same variables. -/
theorem mem_reachingFrom_iff (hs : s ∈ df.body.instrs) (hsymbols : symbols ≠ []) :
    s ∈ df.reachingFrom k symbols ↔ k ∈ df.reachingTo s symbols := by
  have hasked : symbols.isEmpty = false := List.isEmpty_eq_false_iff.2 hsymbols
  unfold reachingFrom
  rw [List.mem_filter, List.contains_iff_mem, and_iff_right hs, hasked]
  rfl

/-- Without symbols, one query goes through what `k` writes and the other through what `s` reads:
both keep the variables that `k` writes and `s` reads. -/
theorem mem_reachingFrom_nil_iff (hs : s ∈ df.body.instrs) :
    s ∈ df.reachingFrom k [] ↔ k ∈ df.reachingTo s [] := by
  rw [mem_reachingFrom_nil, mem_reachingTo_symbols, and_iff_right hs]
  refine exists_congr fun v => ⟨?_, ?_⟩
  · rintro ⟨-, hreads, hk⟩
    exact ⟨.inl rfl, hreads, hk⟩
  · rintro ⟨-, hreads, hk⟩
    exact ⟨defines_of_mem_definitionsAt hk, hreads, hk⟩

/-- Several variables are asked one by one. -/
theorem mem_reachingTo_iff_exists (hsymbols : symbols ≠ []) :
    k ∈ df.reachingTo s symbols ↔ ∃ v ∈ symbols, k ∈ df.reachingTo s [v] := by
  rw [mem_reachingTo_symbols]
  refine exists_congr fun v => ?_
  rw [mem_reachingTo, or_iff_right hsymbols]

theorem nodup_eraseDups (ks : List Nat) : ks.eraseDups.Nodup := by
  induction ks using List.reverseRecOn with
  | nil => exact List.nodup_nil
  | append_singleton ks k ih =>
    rw [List.eraseDups_append]
    by_cases hk : k ∈ ks
    · have hnone : [k].removeAll ks = [] := by simp [List.removeAll, hk]
      rwa [hnone, List.eraseDups_nil, List.append_nil]
    · have hone : [k].removeAll ks = [k] := by simp [List.removeAll, hk]
      rw [hone, List.eraseDups_cons, List.filter_nil, List.eraseDups_nil]
      refine ih.append (List.nodup_singleton k) (List.disjoint_singleton.2 ?_)
      rwa [List.mem_eraseDups]

theorem nodup_reachingTo (df : DataFlow) (s : Instr) (symbols : List (Option Variable)) :
    (df.reachingTo s symbols).Nodup :=
  nodup_eraseDups _

theorem nodup_reachingFrom (df : DataFlow) (k : Nat) (symbols : List (Option Variable)) :
    (df.reachingFrom k symbols).Nodup :=
  df.body.nodup_instrs.filter _

/-- What a query finds for a variable is an instruction that writes it. -/
theorem exists_writer_of_mem_reachingTo (hk : k ∈ (solve fe b).reachingTo s [v]) :
    ∃ d ∈ b.instrs, d.id = k ∧ Writes fe v d := by
  obtain ⟨-, hdef⟩ := mem_reachingTo.1 hk
  obtain ⟨d, hd, rfl⟩ := exists_instr_of_mem_definitionsAt hdef
  exact ⟨d, hd, rfl, (defines_solve hd).1 (defines_of_mem_definitionsAt hdef)⟩

/-- **The queries agree.** An instruction `s` is among the uses of `d` exactly when `d` is among the
definitions of `s`: without symbols, also when `d` writes nothing or `s` reads nothing, and for
every list of symbols. The definitions for several symbols are those for each of them together. No
answer names an instruction twice, and a definition found for a variable writes it. -/
theorem queries_agree (fe : FrontEnd) (b : Body) (d s : Instr) (hs : s ∈ b.instrs)
    (symbols : List (Option Variable)) :
    (s ∈ (solve fe b).reachingFrom d.id [] ↔ d.id ∈ (solve fe b).reachingTo s []) ∧
      (symbols ≠ [] →
        (s ∈ (solve fe b).reachingFrom d.id symbols ↔ d.id ∈ (solve fe b).reachingTo s symbols) ∧
          ∀ k, k ∈ (solve fe b).reachingTo s symbols ↔
            ∃ v ∈ symbols, k ∈ (solve fe b).reachingTo s [v]) ∧
      ((solve fe b).reachingTo s symbols).Nodup ∧ ((solve fe b).reachingFrom d.id symbols).Nodup ∧
      ∀ v, ∀ k ∈ (solve fe b).reachingTo s [v], ∃ t ∈ b.instrs, t.id = k ∧ Writes fe v t := by
  have hs' : s ∈ (solve fe b).body.instrs := by rwa [body_solve]
  refine ⟨mem_reachingFrom_nil_iff hs', fun hsymbols => ?_, nodup_reachingTo _ _ _,
    nodup_reachingFrom _ _ _, fun v k => exists_writer_of_mem_reachingTo⟩
  exact ⟨mem_reachingFrom_iff hs' hsymbols, fun k => mem_reachingTo_iff_exists hsymbols⟩

open Counting in
/-- `n = n + 1` is a definition and a use of itself, also when other variables are asked as well. -/
theorem bump_answers_both_queries :
    bumping ∈ looped.instrs ∧ [none, some counter] ≠ [] ∧
    bumping.id ∈ (solve frontEnd looped).reachingTo bumping [] ∧
    bumping ∈ (solve frontEnd looped).reachingFrom bumping.id [] ∧
    bumping.id ∈ (solve frontEnd looped).reachingTo bumping [some counter] ∧
    bumping ∈ (solve frontEnd looped).reachingFrom bumping.id [none, some counter] ∧
    ∃ t ∈ looped.instrs, t.id = bumping.id ∧ Writes frontEnd (some counter) t := by
  have hone : bumping.id ∈ (solve frontEnd looped).reachingTo bumping [some counter] := by
    decide +kernel
  have hall : bumping.id ∈ (solve frontEnd looped).reachingTo bumping [] := by decide +kernel
  obtain ⟨hdefault, hasked, -, -, hwriter⟩ :=
    queries_agree frontEnd looped bumping bumping bumping_mem [none, some counter]
  obtain ⟨hfrom, hunion⟩ := hasked (List.cons_ne_nil _ _)
  refine ⟨bumping_mem, List.cons_ne_nil _ _, hall, hdefault.2 hall, hone, ?_,
    hwriter (some counter) _ hone⟩
  exact hfrom.2 ((hunion _).2 ⟨some counter, by decide, hone⟩)

end AwaitLint.DataFlow
