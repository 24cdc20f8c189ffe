import AwaitLint.Proofs.ReachFixpoint

/-!
# AwaitLint — definitions that reach a use

A definition `d` of a variable `v` reaches a use `s` when some path leads from `d` to `s` on which
nothing in between writes `v` (`ClearPath`). The sets behind `DataFlow.reachingTo` hold instructions
and not pairs of an instruction and a variable, so for an instruction that writes several variables
the answers are off in both directions. This module says exactly when.

* **`definition_found_iff`** — a definition with a clear path to a use is found when some path is
  also free of writes to the *other* variables of the definition (`UndisturbedPath`); a block that
  overwrites one of them hides the definition as a whole (`hidden_by_second_variable`).
* **`reaching_definition_valid_iff`** — a definition that is reported has a clear path to the use,
  unless its own block overwrites the variable again: an instruction leaves its block when it is the
  last writer of *any* of its variables (`reported_after_overwriting`).

Both rest on two ways to a use (`mem_definitionsAt`): the nearest earlier writer of its block
(`Shadows`), else what arrives at the block (`Arrives`).
-/

namespace AwaitLint.DataFlow

variable {df : DataFlow} {fe : FrontEnd} {b : Body} {d s t : Instr} {k : Nat}
  {v : Option Variable}

/-- On some path from `d` to `s` nothing in between writes `v`. -/
def ClearPath (df : DataFlow) (v : Option Variable) (d s : Instr) : Prop :=
  ∃ trace, df.body.Between d s trace ∧ ∀ t ∈ trace, df.defines v t.id = false

/-- On some path from `d` to `s` nothing in between writes `v`, and, outside the blocks of `d` and
`s`, nothing in between writes any variable that `d` writes. -/
def UndisturbedPath (df : DataFlow) (v : Option Variable) (d s : Instr) : Prop :=
  ∃ trace, df.body.Between d s trace ∧ ∀ t ∈ trace, df.defines v t.id = false ∧
    (t.block = d.block ∨ t.block = s.block ∨
      ∀ w, df.defines w d.id = true → df.defines w t.id = false)

theorem UndisturbedPath.clear (h : df.UndisturbedPath v d s) : df.ClearPath v d s := by
  obtain ⟨trace, hpath, hclear⟩ := h
  exact ⟨trace, hpath, fun t ht => (hclear t ht).1⟩

/-! ## The nearest earlier definition -/

/-- `d` is the nearest writer of `v` before `s` in the block of `s`. -/
structure Shadows (df : DataFlow) (v : Option Variable) (d s : Instr) : Prop where
  block : d.block = s.block
  before : d.index < s.index
  writes : df.defines v d.id = true
  nearest : ∀ t ∈ df.body.instrs, t.block = s.block → d.index < t.index → t.index < s.index →
    df.defines v t.id = false

/-- Nothing before `s` in its block writes `v`. -/
def Unshadowed (df : DataFlow) (v : Option Variable) (s : Instr) : Prop :=
  ∀ t ∈ df.body.instrs, t.block = s.block → t.index < s.index → df.defines v t.id = false

theorem previousDef?_eq_none : df.previousDef? s v = none ↔ df.Unshadowed v s := by
  unfold previousDef? Unshadowed
  rw [Option.map_eq_none_iff, List.getLast?_eq_none_iff, List.filter_eq_nil_iff]
  simp [Body.mem_instrsOf]

theorem shadows_of_previousDef? (h : df.previousDef? s v = some k) :
    ∃ d ∈ df.body.instrs, d.id = k ∧ df.Shadows v d s := by
  obtain ⟨d, hlast, rfl⟩ := Option.map_eq_some_iff.1 h
  obtain ⟨front, hfront⟩ := List.getLast?_eq_some_iff.1 hlast
  have hmem := List.mem_of_getLast? hlast
  simp only [List.mem_filter, Body.mem_instrsOf, Bool.and_eq_true, decide_eq_true_eq] at hmem
  obtain ⟨⟨hd, hblock⟩, hbefore, hwrites⟩ := hmem
  refine ⟨d, hd, rfl, hblock, hbefore, hwrites, fun t ht htblock hdt hts => ?_⟩
  by_contra hnot
  rw [Bool.not_eq_false] at hnot
  -- a later writer would stand behind the last one
  have hin : t ∈ front ++ [d] := by
    rw [← hfront]
    simp [Body.mem_instrsOf, ht, htblock, hts, hnot]
  have hsorted := (df.body.pairwise_instrsOf s.block).filter
    (p := fun j => decide (j.index < s.index) && df.defines v j.id)
  rw [hfront] at hsorted
  rcases List.mem_append.1 hin with hin | hin
  · have := (List.pairwise_append.1 hsorted).2.2 t hin d (List.mem_singleton_self d)
    omega
  · rw [List.mem_singleton.1 hin] at hdt
    omega

theorem Shadows.previousDef?_eq (hd : d ∈ df.body.instrs) (h : df.Shadows v d s) :
    df.previousDef? s v = some d.id := by
  cases hprev : df.previousDef? s v with
  | none =>
    have := previousDef?_eq_none.1 hprev d hd h.block h.before
    rw [h.writes] at this
    cases this
  | some k =>
    obtain ⟨j, hj, rfl, hshadows⟩ := shadows_of_previousDef? hprev
    -- of two different writers, one would stand between the other and `s`
    have hindex : j.index = d.index := by
      by_contra hne
      rcases Nat.lt_or_gt_of_ne hne with hlt | hgt
      · have := hshadows.nearest d hd h.block hlt h.before
        rw [h.writes] at this
        cases this
      · have := h.nearest j hj hshadows.block hgt hshadows.before
        rw [hshadows.writes] at this
        cases this
    rw [Body.eq_of_place_eq hj hd (hshadows.block.trans h.block.symm) hindex]

/-- The definitions at a use: the nearest earlier writer of its block, else what reaches the
block. -/
theorem mem_definitionsAt (hd : d ∈ df.body.instrs) :
    d.id ∈ df.definitionsAt s v ↔ df.Shadows v d s ∨
      df.Unshadowed v s ∧ df.defines v d.id = true ∧ d.id ∈ df.reach s.block := by
  unfold definitionsAt
  cases hprev : df.previousDef? s v with
  | none =>
    have hfree := previousDef?_eq_none.1 hprev
    show d.id ∈ (df.reach s.block).filter (df.defines v) ↔ _
    rw [List.mem_filter]
    constructor
    · intro ⟨hreach, hwrites⟩
      exact .inr ⟨hfree, hwrites, hreach⟩
    · rintro (hshadows | ⟨-, hwrites, hreach⟩)
      · rw [hshadows.previousDef?_eq hd] at hprev
        cases hprev
      · exact ⟨hreach, hwrites⟩
  | some k =>
    show d.id ∈ [k] ↔ _
    rw [List.mem_singleton]
    constructor
    · intro hk
      obtain ⟨j, hj, hjk, hshadows⟩ := shadows_of_previousDef? hprev
      rw [Body.eq_of_id_eq hj hd (hjk.trans hk.symm)] at hshadows
      exact .inl hshadows
    · rintro (hshadows | ⟨hfree, -, -⟩)
      · rw [hshadows.previousDef?_eq hd] at hprev
        exact Option.some.inj hprev
      · rw [previousDef?_eq_none.2 hfree] at hprev
        cases hprev

/-! ## Clear paths -/

theorem rewrittenAfter_eq_false :
    df.rewrittenAfter d v = false ↔ ∀ t ∈ df.body.instrs, t.block = d.block → d.index < t.index →
      df.defines v t.id = false := by
  rw [← Bool.not_eq_true, rewrittenAfter_eq_true]
  simp

/-- A block that is no killer of `d` writes none of the variables that `d` writes. -/
theorem defines_eq_false_of_not_mem_kills {o : Nat} {w : Option Variable} (hd : d ∈ df.body.instrs)
    (hne : d.block ≠ o) (hkept : d.id ∉ df.kills o) (hw : df.defines w d.id = true)
    (ht : t ∈ df.body.instrs) (hblock : t.block = o) : df.defines w t.id = false := by
  by_contra hnot
  rw [Bool.not_eq_false] at hnot
  exact hkept ((mem_kills hd).2 ⟨hne, w, hw, writes_eq_true.2 ⟨t, ht, hblock, hnot⟩⟩)

theorem undisturbedPath_of_shadows (hs : s ∈ df.body.instrs) (h : df.Shadows v d s) :
    df.UndisturbedPath v d s := by
  obtain ⟨trace, hpath, hmem⟩ := Body.Between.within hs h.block.symm h.before
  refine ⟨trace, hpath, fun t ht => ?_⟩
  obtain ⟨htin, hblock, hdt, hts⟩ := (hmem t).1 ht
  exact ⟨h.nearest t htin (hblock.trans h.block) hdt hts, .inl hblock⟩

/-- The walk of an arrival is a clear path, if the block of `d` does not overwrite `v` behind `d`. -/
theorem undisturbedPath_of_arrives (hd : d ∈ df.body.instrs) (hs : s ∈ df.body.instrs)
    (hwrites : df.defines v d.id = true) (hfree : df.Unshadowed v s)
    (hkept : df.rewrittenAfter d v = false) (h : df.Arrives d s.block) :
    df.UndisturbedPath v d s := by
  obtain ⟨inner, hwalk, hinner⟩ := h.exists_walk
  obtain ⟨trace, hpath, hmem⟩ := Body.Between.through hs hwalk
  refine ⟨trace, hpath, fun t ht => ?_⟩
  obtain ⟨htin, ⟨hblock, hindex⟩ | hpassed | ⟨hblock, hindex⟩⟩ := (hmem t).1 ht
  · exact ⟨rewrittenAfter_eq_false.1 hkept t htin hblock hindex, .inl hblock⟩
  · obtain ⟨hne, hnot⟩ := hinner t.block hpassed
    have hall : ∀ w, df.defines w d.id = true → df.defines w t.id = false := fun w hw =>
      defines_eq_false_of_not_mem_kills hd hne.symm hnot hw htin rfl
    exact ⟨hall v hwrites, .inr (.inr hall)⟩
  · exact ⟨hfree t htin hblock hindex, .inr (.inl hblock)⟩

/-- A clear path stays in one block, or leaves the block of `d` with the value of `v` in place. -/
theorem ClearPath.shadows_or_kept (hwrites : df.defines v d.id = true) (h : df.ClearPath v d s) :
    df.Shadows v d s ∨ df.rewrittenAfter d v = false := by
  obtain ⟨trace, hpath, hclear⟩ := h
  rcases hpath.cases with ⟨hblock, hindex, hmem⟩ | ⟨inner, -, hmem⟩
  · refine .inl ⟨hblock.symm, hindex, hwrites, fun t ht htblock hdt hts => ?_⟩
    exact hclear t ((hmem t).2 ⟨ht, htblock.trans hblock, hdt, hts⟩)
  · refine .inr (rewrittenAfter_eq_false.2 fun t ht hblock hindex => ?_)
    exact hclear t ((hmem t).2 ⟨ht, .inl ⟨hblock, hindex⟩⟩)

/-! ## The solved data flow -/

theorem lt_length_of_mem_instrs (hs : s ∈ b.instrs) : s.block < b.blocks.length := by
  obtain ⟨blk, hblk, -⟩ := Body.mem_instrs.1 hs
  exact (List.getElem?_eq_some_iff.1 hblk).1

/-- Along an undisturbed path the definition arrives: up to the first execution of `s`, the path
passes neither the block of `s` nor that of `d`, which writes `v`. -/
theorem arrives_of_undisturbedPath (hd : d ∈ df.body.instrs) (hs : s ∈ df.body.instrs)
    (hwrites : df.defines v d.id = true) (h : df.UndisturbedPath v d s) :
    df.Shadows v d s ∨ df.Unshadowed v s ∧ df.Arrives d s.block := by
  obtain ⟨trace, hpath, hundisturbed⟩ := h
  obtain ⟨l, hfirst, hnot, hsub⟩ := hpath.first
  have hclear : ∀ t ∈ l, df.defines v t.id = false := fun t ht => (hundisturbed t (hsub t ht)).1
  rcases hfirst.cases with ⟨hblock, hindex, hmem⟩ | ⟨inner, hwalk, hmem⟩
  · refine .inl ⟨hblock.symm, hindex, hwrites, fun t ht htblock hdt hts => ?_⟩
    exact hclear t ((hmem t).2 ⟨ht, htblock.trans hblock, hdt, hts⟩)
  · right
    refine ⟨fun t ht hblock hindex => hclear t ((hmem t).2 ⟨ht, .inr (.inr ⟨hblock, hindex⟩)⟩), ?_⟩
    have hkept : df.rewrittenAfter d v = false := by
      refine rewrittenAfter_eq_false.2 fun t ht hblock hindex => ?_
      exact hclear t ((hmem t).2 ⟨ht, .inl ⟨hblock, hindex⟩⟩)
    refine arrives_of_walk ((mem_defs hd).2 ⟨rfl, v, hwrites, hkept⟩) hwalk fun x hx hkill => ?_
    obtain ⟨-, w, hw, hwritten⟩ := (mem_kills hd).1 hkill
    obtain ⟨t, ht, rfl, hdefines⟩ := writes_eq_true.1 hwritten
    have htl : t ∈ l := (hmem t).2 ⟨ht, .inr (.inl hx)⟩
    rcases (hundisturbed t (hsub t htl)).2 with hblock | hblock | hall
    · -- the block of `d` would be passed as a whole, and `d` with it
      have hdl : d ∈ l := (hmem d).2 ⟨hd, .inr (.inl (hblock ▸ hx))⟩
      rw [hclear d hdl] at hwrites
      cases hwrites
    · exact hnot ((hmem s).2 ⟨hs, .inr (.inl (hblock ▸ hx))⟩)
    · rw [hall w hw] at hdefines
      cases hdefines

/-- Where a definition that is found comes from. -/
theorem mem_definitionsAt_solve (hd : d ∈ b.instrs) (hs : s ∈ b.instrs) :
    d.id ∈ (solve fe b).definitionsAt s v ↔ (solve fe b).Shadows v d s ∨
      (solve fe b).Unshadowed v s ∧ (solve fe b).defines v d.id = true ∧
        (solve fe b).Arrives d s.block := by
  rw [mem_definitionsAt (by rwa [body_solve]), mem_reach_solve hd (lt_length_of_mem_instrs hs)]

theorem exists_instr_of_mem_definitionsAt (h : k ∈ (solve fe b).definitionsAt s v) :
    ∃ d ∈ b.instrs, d.id = k := by
  unfold definitionsAt at h
  cases hprev : (solve fe b).previousDef? s v with
  | none =>
    rw [hprev] at h
    obtain ⟨d, hd, hid, -⟩ := exists_of_mem_reach (List.mem_filter.1 h).1
    exact ⟨d, hd, hid⟩
  | some j =>
    rw [hprev] at h
    obtain ⟨d, hd, hid, -⟩ := shadows_of_previousDef? hprev
    rw [body_solve] at hd
    exact ⟨d, hd, hid.trans (List.mem_singleton.1 h).symm⟩

/-- **No definition is lost on an undisturbed path.** Let `d` write `v`, let `s` read `v`, and let a
clear path lead from `d` to `s`. Then `d` is found among the definitions that reach `s`, and `s` among
the uses that `d` reaches, exactly when some path is undisturbed. -/
theorem definition_found_iff (fe : FrontEnd) (b : Body) (d s : Instr) (v : Option Variable)
    (hd : d ∈ b.instrs) (hs : s ∈ b.instrs) (hwrites : (solve fe b).defines v d.id = true)
    (hreads : (solve fe b).reads v s.id = true) (hpath : (solve fe b).ClearPath v d s) :
    d.id ∈ (solve fe b).reachingTo s [v] ∧ s ∈ (solve fe b).reachingFrom d.id [v] ↔
      (solve fe b).UndisturbedPath v d s := by
  have hd' : d ∈ (solve fe b).body.instrs := by rwa [body_solve]
  have hs' : s ∈ (solve fe b).body.instrs := by rwa [body_solve]
  rw [mem_reachingTo, mem_reachingFrom, mem_definitionsAt_solve hd hs]
  constructor
  · rintro ⟨⟨-, hshadows | ⟨hfree, -, harr⟩⟩, -⟩
    · exact undisturbedPath_of_shadows hs' hshadows
    · rcases hpath.shadows_or_kept hwrites with hshadows | hkept
      · exact undisturbedPath_of_shadows hs' hshadows
      · exact undisturbedPath_of_arrives hd' hs' hwrites hfree hkept harr
  · intro hundisturbed
    have hfound : (solve fe b).Shadows v d s ∨ (solve fe b).Unshadowed v s ∧
        (solve fe b).defines v d.id = true ∧ (solve fe b).Arrives d s.block :=
      (arrives_of_undisturbedPath hd' hs' hwrites hundisturbed).imp_right fun h =>
        ⟨h.1, hwrites, h.2⟩
    exact ⟨⟨hreads, hfound⟩, hs', hreads, hfound⟩

/-! ### An instruction that writes two variables

`t, err = f()` in one block, `err = g()` in a second one, and a use of `t` in a third. -/

namespace Paired

def task : Variable := Sample.taskNamed "t"

def failure : Variable := ⟨1, "err", .local, .named "error"⟩

/-- `t, err = f()`. -/
def storeBoth : Node :=
  .mk { id := 0, kind := .assign, name := "=" } none [.ref 1 task, .ref 2 failure]
    [.leaf { id := 3, kind := .call, name := "f" }] []

/-- `v = g()`. -/
def storeOne (v : Variable) : Node :=
  .mk { id := 4, kind := .assign, name := "=" } none [.ref 5 v]
    [.leaf { id := 6, kind := .call, name := "g" }] []

def useTask : Node := .mk { id := 7, kind := .exprStmt } (some (.ref 8 task)) [] [] []

def func (second : Node) : Node :=
  .mk { id := 9, kind := .func, name := "h" } none [] [] [storeBoth, second, useTask]

def frontEnd (second : Node) (b : Body) : FrontEnd :=
  (Registry.add {} b).frontEnd (Links.link {} (func second))

/-- The three blocks in a row; with `detour`, the second one may be left out. -/
def inRow (detour : Bool) : Body :=
  .framed 0 (func (storeOne failure))
    [{ nodes := [storeBoth], fall := some 1, cond := if detour then some 2 else none },
     { nodes := [storeOne failure], fall := some 2 }, { nodes := [useTask] }] []

def flowInRow (detour : Bool) : DataFlow :=
  solve (frontEnd (storeOne failure) (inRow detour)) (inRow detour)

def definition : Instr := ⟨0, 1, 0, storeBoth⟩

def use : Instr := ⟨2, 3, 0, useTask⟩

theorem definition_mem (detour : Bool) : definition ∈ (inRow detour).instrs :=
  List.mem_of_getElem? (i := 0) rfl

theorem use_mem (detour : Bool) : use ∈ (inRow detour).instrs :=
  List.mem_of_getElem? (i := 2) rfl

/-- The path through the second block, which writes `err` only. -/
theorem clearPath (detour : Bool) : (flowInRow detour).ClearPath (some task) definition use := by
  have hbody : (flowInRow detour).body = inRow detour := body_solve _ _
  refine ⟨[⟨1, 2, 0, storeOne failure⟩], ⟨3, [2, 3], [], ?_, ?_⟩, ?_⟩
  · rw [hbody]
    cases detour <;>
      exact .cons (Body.edge_iff.2 ⟨_, rfl, List.mem_cons_self⟩)
        (.cons (Body.edge_iff.2 ⟨_, rfl, List.mem_cons_self⟩) (.single 3))
  · rw [hbody]
    rfl
  · cases detour <;> decide +kernel

end Paired

open Paired in
/-- With a way round the second block, the definition is found along it. -/
theorem definition_found_on_detour :
    definition ∈ (inRow true).instrs ∧ use ∈ (inRow true).instrs ∧
    (flowInRow true).defines (some task) definition.id = true ∧
    (flowInRow true).reads (some task) use.id = true ∧
    (flowInRow true).ClearPath (some task) definition use ∧
    definition.id ∈ (flowInRow true).reachingTo use [some task] ∧
    use ∈ (flowInRow true).reachingFrom definition.id [some task] := by
  have hwrites : (flowInRow true).defines (some task) definition.id = true := by decide +kernel
  have hreads : (flowInRow true).reads (some task) use.id = true := by decide +kernel
  have hundisturbed : (flowInRow true).UndisturbedPath (some task) definition use := by
    refine ⟨[], ⟨3, [3], [], ?_, ?_⟩, nofun⟩
    · rw [show (flowInRow true).body = inRow true from body_solve _ _]
      exact .cons (Body.edge_iff.2 ⟨_, rfl, List.mem_cons_of_mem _ List.mem_cons_self⟩) (.single 3)
    · rw [show (flowInRow true).body = inRow true from body_solve _ _]
      rfl
  have hfound := (definition_found_iff _ _ _ _ _ (definition_mem true) (use_mem true) hwrites hreads
    (clearPath true)).2 hundisturbed
  exact ⟨definition_mem true, use_mem true, hwrites, hreads, clearPath true, hfound⟩

open Paired in
/-- Without the way round, the block that overwrites `err` hides the definition of `t`. -/
theorem hidden_by_second_variable :
    definition ∈ (inRow false).instrs ∧ use ∈ (inRow false).instrs ∧
    (flowInRow false).defines (some task) definition.id = true ∧
    (flowInRow false).reads (some task) use.id = true ∧
    (flowInRow false).ClearPath (some task) definition use ∧
    definition.id ∉ (flowInRow false).reachingTo use [some task] ∧
    use ∉ (flowInRow false).reachingFrom definition.id [some task] := by
  have hlost : (flowInRow false).reachingTo use [some task] = [] := by decide +kernel
  refine ⟨definition_mem false, use_mem false, by decide +kernel, by decide +kernel,
    clearPath false, ?_, ?_⟩
  · rw [hlost]
    exact nofun
  · intro hmem
    have hdef := mem_reachingTo.2 (mem_reachingFrom.1 hmem).2
    rw [hlost] at hdef
    cases hdef

/-- **What is reported reaches the use, unless it is overwritten in its own block.** Every reported
definition `d` of `v` writes `v`, and `s` reads it. A clear path leads from `d` to `s` exactly when
`d` stands before `s` in one block, or nothing behind `d` in its block writes `v`. -/
theorem reaching_definition_valid_iff (fe : FrontEnd) (b : Body) (s : Instr) (v : Option Variable)
    (k : Nat) (hs : s ∈ b.instrs) (hk : k ∈ (solve fe b).reachingTo s [v]) :
    ∃ d ∈ b.instrs, d.id = k ∧ (solve fe b).defines v k = true ∧
      (solve fe b).reads v s.id = true ∧
      ((solve fe b).ClearPath v d s ↔ d.block = s.block ∧ d.index < s.index ∨
        ∀ t ∈ b.instrs, t.block = d.block → d.index < t.index →
          (solve fe b).defines v t.id = false) := by
  have hs' : s ∈ (solve fe b).body.instrs := by rwa [body_solve]
  obtain ⟨hreads, hk⟩ := mem_reachingTo.1 hk
  have hwrites := defines_of_mem_definitionsAt hk
  obtain ⟨d, hd, rfl⟩ := exists_instr_of_mem_definitionsAt hk
  have hd' : d ∈ (solve fe b).body.instrs := by rwa [body_solve]
  refine ⟨d, hd, rfl, hwrites, hreads, ?_⟩
  have hkept_iff : (solve fe b).rewrittenAfter d v = false ↔ ∀ t ∈ (solve fe b).body.instrs,
      t.block = d.block → d.index < t.index → (solve fe b).defines v t.id = false :=
    rewrittenAfter_eq_false
  rw [body_solve] at hkept_iff
  rw [← hkept_iff]
  constructor
  · intro hpath
    exact (hpath.shadows_or_kept hwrites).imp_left fun h => ⟨h.block, h.before⟩
  · intro hplace
    rcases (mem_definitionsAt_solve hd hs).1 hk with hshadows | ⟨hfree, -, harr⟩
    · exact (undisturbedPath_of_shadows hs' hshadows).clear
    · rcases hplace with ⟨hblock, hindex⟩ | hkept
      · -- nothing before `s` writes `v`, so `d` cannot stand there
        rw [hfree d hd' hblock hindex] at hwrites
        cases hwrites
      · exact (undisturbedPath_of_arrives hd' hs' hwrites hfree hkept harr).clear

/-! ### A variable that is overwritten in its own block

`t, err = f(); t = g()` in one block and a use of `t` in the next. -/

namespace Paired

def restored : Body :=
  .framed 0 (func (storeOne task))
    [{ nodes := [storeBoth, storeOne task], fall := some 1 }, { nodes := [useTask] }] []

def flowRestored : DataFlow := solve (frontEnd (storeOne task) restored) restored

def lateUse : Instr := ⟨2, 2, 0, useTask⟩

theorem lateUse_mem : lateUse ∈ restored.instrs := List.mem_of_getElem? (i := 2) rfl

end Paired

open Paired in
/-- The second definition of `t` is reported, and a clear path leads from it to the use. -/
theorem overwriting_definition_valid :
    lateUse ∈ restored.instrs ∧ 1 ∈ flowRestored.reachingTo lateUse [some task] ∧
    ∃ d ∈ restored.instrs, d.id = 1 ∧ flowRestored.ClearPath (some task) d lateUse := by
  have hreported : 1 ∈ flowRestored.reachingTo lateUse [some task] := by decide +kernel
  obtain ⟨d, hd, hid, -, -, hvalid⟩ :=
    reaching_definition_valid_iff _ _ _ _ _ lateUse_mem hreported
  obtain rfl : d = ⟨1, 1, 1, storeOne task⟩ :=
    Body.eq_of_id_eq hd (List.mem_of_getElem? (i := 1) rfl) hid
  have hlast : ∀ t ∈ restored.instrs, t.block = 1 → 1 < t.index →
      flowRestored.defines (some task) t.id = false := by decide +kernel
  exact ⟨lateUse_mem, hreported, _, hd, rfl, hvalid.2 (.inr hlast)⟩

open Paired in
/-- The first definition is reported as well, although every path from it to the use overwrites
`t`. -/
theorem reported_after_overwriting :
    lateUse ∈ restored.instrs ∧ definition ∈ restored.instrs ∧
    definition.id ∈ flowRestored.reachingTo lateUse [some task] ∧
    ¬ flowRestored.ClearPath (some task) definition lateUse := by
  refine ⟨lateUse_mem, List.mem_of_getElem? (i := 0) rfl, by decide +kernel, fun hpath => ?_⟩
  have hrewritten : flowRestored.rewrittenAfter definition (some task) = true := by decide +kernel
  rcases hpath.shadows_or_kept (by decide +kernel) with hshadows | hkept
  · exact absurd hshadows.block (by decide)
  · rw [hrewritten] at hkept
    cases hkept

end AwaitLint.DataFlow
