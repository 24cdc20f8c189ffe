import AwaitLint.Proofs.Acceptance

/-!
# AwaitLint — what an accepted value comes to on every walk

Two guarantees behind the verdicts about variables and lists, for any front end, configuration
and body.

* **`read_iff_not_overwritten`** — the fate of a value stored in an accepted variable. Uses are
  found by a may-analysis (some path leads from the source to the use) and placed by a
  must-analysis (the use post-dominates the source); neither asks whether the value survives in
  between. So a walk reads the value first exactly when it does not overwrite it first, and
  `overwritten_on_a_branch` is an accepted value that one branch overwrites unread. Values that
  bypass the must-analysis are set apart (`Bypass`): `untouched_past_a_conversion` is one that a walk
  leaves untouched. `ReadFirst` and `OverwrittenFirst` say so of a trace, and `fate` computes which
  of them holds.
* **`await_on_every_walk`** — no value is dropped silently: after the source of an accepted
  variable every walk to the exit executes an await or a return of the variable, and after the add
  site of an accepted list item it executes an await of a whole list.
-/

namespace AwaitLint

/-! ## The fate of a value along a trace -/

/-- What first happens to the value of a variable. -/
inductive Fate where
  | read
  | overwritten
  /-- The trace ends with the value neither read nor overwritten. -/
  | untouched
deriving DecidableEq, Repr

namespace DataFlow

variable {df : DataFlow} {v : Variable} {s t : Instr} {trace rest : List Instr}

/-- Some instruction of the trace reads the value of `v`, and none before it writes `v`. -/
def ReadFirst (df : DataFlow) (v : Variable) (trace : List Instr) : Prop :=
  ∃ before s after, trace = before ++ s :: after ∧ df.reads (some v) s.id = true ∧
    ∀ t ∈ before, df.defines (some v) t.id = false

/-- Some instruction of the trace writes `v`, and up to and including it none reads the value. -/
def OverwrittenFirst (df : DataFlow) (v : Variable) (trace : List Instr) : Prop :=
  ∃ before s after, trace = before ++ s :: after ∧ df.defines (some v) s.id = true ∧
    df.reads (some v) s.id = false ∧ ∀ t ∈ before, df.reads (some v) t.id = false

/-- What first happens to the value of `v` on a trace. An instruction reads before it writes. -/
def fate (df : DataFlow) (v : Variable) : List Instr → Fate
  | [] => .untouched
  | s :: rest =>
    if df.reads (some v) s.id then .read
    else if df.defines (some v) s.id then .overwritten
    else df.fate v rest

theorem readFirst_cons :
    df.ReadFirst v (t :: rest) ↔ df.reads (some v) t.id = true ∨
      df.defines (some v) t.id = false ∧ df.ReadFirst v rest := by
  constructor
  · intro ⟨before, s, after, htrace, hreads, hbefore⟩
    cases before with
    | nil =>
      obtain ⟨rfl, -⟩ := List.cons.inj htrace
      exact .inl hreads
    | cons u before =>
      obtain ⟨rfl, hrest⟩ := List.cons.inj htrace
      rw [List.forall_mem_cons] at hbefore
      exact .inr ⟨hbefore.1, before, s, after, hrest, hreads, hbefore.2⟩
  · intro h
    rcases h with hreads | ⟨hkept, before, s, after, hrest, hreads, hbefore⟩
    · exact ⟨[], t, rest, rfl, hreads, nofun⟩
    · refine ⟨t :: before, s, after, by rw [hrest]; rfl, hreads, ?_⟩
      exact List.forall_mem_cons.2 ⟨hkept, hbefore⟩

theorem overwrittenFirst_cons :
    df.OverwrittenFirst v (t :: rest) ↔ df.reads (some v) t.id = false ∧
      (df.defines (some v) t.id = true ∨ df.OverwrittenFirst v rest) := by
  constructor
  · intro ⟨before, s, after, htrace, hdefines, hunread, hbefore⟩
    cases before with
    | nil =>
      obtain ⟨rfl, -⟩ := List.cons.inj htrace
      exact ⟨hunread, .inl hdefines⟩
    | cons u before =>
      obtain ⟨rfl, hrest⟩ := List.cons.inj htrace
      rw [List.forall_mem_cons] at hbefore
      exact ⟨hbefore.1, .inr ⟨before, s, after, hrest, hdefines, hunread, hbefore.2⟩⟩
  · intro ⟨hunread, h⟩
    rcases h with hdefines | ⟨before, s, after, hrest, hdefines, hs, hbefore⟩
    · exact ⟨[], t, rest, rfl, hdefines, hunread, nofun⟩
    · refine ⟨t :: before, s, after, by rw [hrest]; rfl, hdefines, hs, ?_⟩
      exact List.forall_mem_cons.2 ⟨hunread, hbefore⟩

theorem fate_eq_read_iff : df.fate v trace = .read ↔ df.ReadFirst v trace := by
  induction trace with
  | nil => exact ⟨nofun, fun ⟨before, _, _, h, _⟩ => absurd h (by simp)⟩
  | cons t rest ih =>
    rw [readFirst_cons, ← ih, fate]
    by_cases hreads : df.reads (some v) t.id = true
    · simp [hreads]
    · by_cases hdefines : df.defines (some v) t.id = true <;> simp [hreads, hdefines]

theorem fate_eq_overwritten_iff : df.fate v trace = .overwritten ↔ df.OverwrittenFirst v trace := by
  induction trace with
  | nil => exact ⟨nofun, fun ⟨before, _, _, h, _⟩ => absurd h (by simp)⟩
  | cons t rest ih =>
    rw [overwrittenFirst_cons, ← ih, fate]
    by_cases hreads : df.reads (some v) t.id = true
    · simp [hreads]
    · by_cases hdefines : df.defines (some v) t.id = true <;> simp [hreads, hdefines]

theorem fate_ne_untouched (hs : s ∈ trace) (hreads : df.reads (some v) s.id = true) :
    df.fate v trace ≠ .untouched := by
  induction trace with
  | nil => cases hs
  | cons t rest ih =>
    unfold fate
    split
    · exact nofun
    · rename_i hnot
      split
      · exact nofun
      · rcases List.mem_cons.1 hs with rfl | hs
        · exact absurd hreads hnot
        · exact ih hs

/-- A trace that reads the variable at all reads the value first or overwrites it first. -/
theorem readFirst_iff_not_overwrittenFirst (hs : s ∈ trace)
    (hreads : df.reads (some v) s.id = true) :
    df.ReadFirst v trace ↔ ¬ df.OverwrittenFirst v trace := by
  have htouched := fate_ne_untouched hs hreads
  rw [← fate_eq_read_iff, ← fate_eq_overwritten_iff]
  cases hfate : df.fate v trace with
  | read => exact ⟨fun _ => nofun, fun _ => rfl⟩
  | overwritten => exact ⟨nofun, fun h => absurd rfl h⟩
  | untouched => exact absurd hfate htouched

end DataFlow

namespace Analysis

variable {a : Analysis} {b : Body} {source s owner : Instr} {v : Variable} {exit : Nat}
  {q : List Nat} {target : Node}

/-- Why a use that puts `v` into a list may miss a walk. -/
inductive Detour (a : Analysis) (v : Variable) (s : Instr) : Prop where
  /-- The reference is converted, and a converted item is not checked to be reached. -/
  | converted (ref site : Node) (first : s.node.localRef? v = some ref)
      (parent : a.links.parent? ref = some site) (conversion : site.kind = .conversion)
  /-- The add site belongs to an instruction that does not count as a reader of `v`. -/
  | elsewhere (ref site : Node) (owner : Instr) (first : s.node.localRef? v = some ref)
      (parent : a.links.parent? ref = some site) (owns : a.df.owner? site = some owner)
      (unread : a.df.reads (some v) owner.id = false)

/-- Why a walk may leave the value in `v` untouched although the source is accepted. -/
inductive Bypass (a : Analysis) (source : Instr) (v : Variable) : Prop where
  /-- The variables of another instruction, which evaluates the node of the source as well, are
  judged in the place of those of the source. -/
  | shared (missed : some v ∉ a.df.definedAt source.node) (other : Instr)
      (mem : other ∈ a.df.body.instrs) (ne : other ≠ source)
      (writes : (a.df.defUse other.id).defs ≠ [])
      (evaluates : other.node.contains source.node = true)
  /-- The uses are not accepted directly, and each is a detour through a list. -/
  | detours (indirect : a.consumedDirectly source v (a.df.reachingFrom source.id [some v]) = false)
      (all : ∀ s ∈ a.df.reachingFrom source.id [some v], a.Detour v s)

/-- The add site of a plain reference that is accepted through a list post-dominates every
definition of the variable. -/
theorem exists_site {ref : Node} (hcf : ControlFlow.ofBody b = .ok a.cf) (hbody : a.df.body = b)
    (hsource : source ∈ b.instrs) (hdef : a.df.defines (some v) source.id = true)
    (hkind : ref.kind = .localRef) (hvar : ref.var = some v)
    (hplain : ∀ p, a.links.parent? ref = some p → p.kind ≠ .conversion)
    (h : a.viaList ref = .ok true) :
    ∃ site list o, a.links.parent? ref = some site ∧ a.df.owner? site = some o ∧
      o ∈ a.cf.postDominators source ∧ a.listAwaitedAfter list o = .ok true := by
  obtain ⟨site, list, o, hsite, -, howner, hreaches, hawaited⟩ := viaList_inv h
  rw [placed_eq_self hplain] at hsite hreaches
  have ho : o ∈ b.instrs := hbody ▸ DataFlow.owner?_mem howner
  exact ⟨site, list, o, hsite, howner,
    reachesSite_inv hcf hbody hreaches hkind hvar ho hsource hdef, hawaited⟩

/-- A variable accepted directly, or with a use that is no detour, has a reader that post-dominates
the source. -/
theorem exists_reader (hcf : ControlFlow.ofBody b = .ok a.cf) (hbody : a.df.body = b)
    (hsource : source ∈ b.instrs) (h : a.consumedIn source v = .ok true)
    (hplain : a.consumedDirectly source v (a.df.reachingFrom source.id [some v]) = true ∨
      ∃ s ∈ a.df.reachingFrom source.id [some v], ¬ a.Detour v s) :
    ∃ s ∈ a.cf.postDominators source, a.df.reads (some v) s.id = true := by
  obtain ⟨huses, hall⟩ := consumedIn_inv h
  have hin : ∀ s ∈ a.df.reachingFrom source.id [some v], s ∈ b.instrs :=
    fun s hs => hbody ▸ DataFlow.mem_instrs_of_mem_reachingFrom hs
  by_cases hdirect : a.consumedDirectly source v (a.df.reachingFrom source.id [some v]) = true
  · -- any use will do
    obtain ⟨s, hs⟩ := List.exists_mem_of_ne_nil _ huses
    obtain ⟨-, hreads, -⟩ := DataFlow.mem_reachingFrom.1 hs
    exact ⟨s, (consumedDirectly_inv hcf hdirect hs (hin s hs)).1, hreads⟩
  · -- the owner of the add site of a use that is no detour
    obtain ⟨s, hs, hnot⟩ := hplain.resolve_left hdirect
    obtain ⟨-, -, hdef⟩ := DataFlow.mem_reachingFrom.1 hs
    obtain ⟨ref, href, hlist⟩ := hall.resolve_left hdirect s hs
    obtain ⟨hkind, hvar⟩ := localRef?_some href
    obtain ⟨site, -, o, hsite, howner, hpost, -⟩ := exists_site hcf hbody hsource
      (DataFlow.defines_of_mem_definitionsAt hdef) hkind hvar
      (fun p hp hconv => hnot (.converted ref p href hp hconv)) hlist
    refine ⟨o, hpost, ?_⟩
    by_contra hunread
    rw [Bool.not_eq_true] at hunread
    exact hnot (.elsewhere ref site o href hsite howner hunread)

end Analysis

/-- **A stored value is read unless it is overwritten.** Let a value be accepted through the
variables of `source`, and let `v` be a tracked variable that `source` writes. Unless `v` is
bypassed, a walk from `source` to the exit reads the stored value first exactly when it does not
overwrite it first. -/
theorem read_iff_not_overwritten (c : Config) (fe : FrontEnd) (target : Node) (d : Decision)
    (hd : c.decide fe target = .ok d) (hverdict : d.verdict = .viaVariable) :
    ∃ a owner, Analysis.around c fe target = .ok a ∧ a.df.owner? target = some owner ∧
      ∀ source v exit q, source = a.source owner target → c.tracks v.type = true →
        a.df.defines (some v) source.id = true → ¬ a.Bypass source v →
        a.cf.body.exit? = some exit →
        Walk a.cf.body.FlowEdge source.block exit (source.block :: q) →
          (a.df.ReadFirst v (a.cf.body.executedAfter source q) ↔
            ¬ a.df.OverwrittenFirst v (a.cf.body.executedAfter source q)) := by
  obtain ⟨a, owner, ha, howner, hjudge⟩ := Config.decide_judged hd (.inl hverdict)
  obtain ⟨b, hcf, hbody, hconfig, -⟩ := Analysis.around_inv ha
  refine ⟨a, owner, ha, howner, ?_⟩
  intro source v exit q hsource htracks hdef hnot hexit hwalk
  rw [hverdict] at hjudge
  obtain ⟨vars, hne, hvars, hall⟩ := Analysis.judge_viaVariable hjudge
  rw [← hsource] at hvars hall
  obtain ⟨hkind, hmem⟩ := Analysis.sourceVars_inv hvars hne
  have hin : source ∈ b.instrs := by
    rw [hsource]
    exact Analysis.source_mem hcf (hbody ▸ DataFlow.owner?_mem howner)
  -- `v` is one of the judged variables, since no other instruction stands in for the source
  have hv : v ∈ vars := by
    by_contra hmissed
    have hmissed : some v ∉ a.df.definedAt source.node :=
      fun hat => hmissed ((hmem v).2 ⟨hat, hconfig ▸ htracks⟩)
    obtain ⟨j, hj, hji, hwrites, hcontains⟩ :=
      (DataFlow.mem_definedAt_or_shared (hbody ▸ hin) hkind hdef).resolve_left hmissed
    exact hnot (.shared hmissed j hj hji hwrites hcontains)
  have hplain : a.consumedDirectly source v (a.df.reachingFrom source.id [some v]) = true ∨
      ∃ s ∈ a.df.reachingFrom source.id [some v], ¬ a.Detour v s := by
    by_contra hcontra
    rw [not_or, Bool.not_eq_true] at hcontra
    refine hnot (.detours hcontra.1 fun s hs => ?_)
    by_contra hdetour
    exact hcontra.2 ⟨s, hs, hdetour⟩
  obtain ⟨s, hs, hreads⟩ := Analysis.exists_reader hcf hbody hin (hall v hv) hplain
  rw [ControlFlow.body_eq hcf] at hexit hwalk ⊢
  have hafter := ControlFlow.executedAfter_of_mem_postDominators hcf hexit hs hwalk
  exact DataFlow.readFirst_iff_not_overwrittenFirst hafter hreads

/-! ### Nodes of sample programs -/

namespace Sample

def task : Variable := taskNamed "v"

/-- `v = callee()`, with three identities from `id`. -/
def store (id : Nat) (callee : String) : Node :=
  .mk { id, kind := .assign, name := "=" } none [.ref (id + 1) task]
    [.leaf { id := id + 2, kind := .call, name := callee, type := task.type }] []

def produced : Node := .leaf { id := 2, kind := .call, name := "f", type := task.type }

def condition : Node := .leaf { id := 6, kind := .other, name := "c" }

def tasks : Variable := ⟨1, "tasks", .local, .listOf task.type⟩

/-- `tasks = append(tasks, item)`, with four identities from `id`. -/
def collect (id : Nat) (item : Node) : Node :=
  .mk { id, kind := .assign, name := "=" } none [.ref (id + 1) tasks]
    [.mk { id := id + 2, kind := .call, name := "append", type := tasks.type }
      (some (.ref (id + 3) tasks)) [] [] [item]] []

/-- `await WhenAll(tasks)`. -/
def awaitAll : Node :=
  .mk { id := 30, kind := .exprStmt }
    (some (.mk { id := 31, kind := .await, name := "await" }
      (some (.mk { id := 32, kind := .call, name := "WhenAll", type := task.type } none [] []
        [.ref 33 tasks])) [] [] [])) [] [] []

/-- The analysis around a node for which there is one. -/
def analysisOf (fe : FrontEnd) (target : Node)
    (h : (Analysis.around .default fe target).toOption.isSome = true) : Analysis :=
  (Analysis.around .default fe target).toOption.get h

theorem around_eq {fe : FrontEnd} {target : Node}
    (h : (Analysis.around .default fe target).toOption.isSome = true) :
    Analysis.around .default fe target = .ok (analysisOf fe target h) :=
  eq_ok_of_toOption (Option.some_get h).symm

theorem edge_of_contains {b : Body} {u v : Nat} (h : b.edges.contains (u, v) = true) : b.Edge u v :=
  List.contains_iff_mem.1 h

end Sample

/-! ### A value that one branch overwrites

The body of `v = f(); if c { v = g() }; await v`, with the value of `f` as the target: the await
post-dominates both assignments, and both reach it. -/

namespace Overwriting

open Sample

def awaiting : Node :=
  .mk { id := 7, kind := .exprStmt }
    (some (.mk { id := 8, kind := .await, name := "await" } (some (.ref 9 task)) [] [] [])) [] [] []

def func : Node :=
  .mk { id := 10, kind := .func, name := "h" } none [] []
    [store 0 "f", condition, store 3 "g", awaiting]

def body : Body :=
  .framed 0 func
    [{ nodes := [store 0 "f"], branch := some condition, fall := some 2, cond := some 1 },
     { nodes := [store 3 "g"], fall := some 2 }, { nodes := [awaiting] }] []

def frontEnd : FrontEnd := (Registry.add {} body).frontEnd (Links.link {} func)

theorem decide_eq : Config.default.decide frontEnd produced = .ok ⟨.viaVariable, none⟩ :=
  eq_ok_of_toOption (by decide +kernel)

def analysis : Analysis := analysisOf frontEnd produced (by decide +kernel)

def owner : Instr := (analysis.df.owner? produced).get (by decide +kernel)

theorem owner_eq : analysis.df.owner? produced = some owner := (Option.some_get _).symm

def source : Instr := analysis.source owner produced

/-- The walk on which the condition fails, from the assignment of `f` in block 1. -/
theorem walk_straight : Walk analysis.cf.body.Edge source.block 4 (source.block :: [3, 4]) := by
  have hblock : source.block = 1 := by decide +kernel
  rw [hblock]
  exact .cons (edge_of_contains (by decide +kernel))
    (.cons (edge_of_contains (by decide +kernel)) (.single 4))

/-- The walk through the block that assigns `g`. -/
theorem walk_branch : Walk analysis.cf.body.Edge source.block 4 (source.block :: [2, 3, 4]) := by
  have hblock : source.block = 1 := by decide +kernel
  rw [hblock]
  exact .cons (edge_of_contains (by decide +kernel))
    (.cons (edge_of_contains (by decide +kernel))
      (.cons (edge_of_contains (by decide +kernel)) (.single 4)))

/-- `v` is found through its assignment, and its one use is accepted directly. -/
theorem not_bypass : ¬ analysis.Bypass source task := by
  intro hbypass
  cases hbypass with
  | shared hmissed =>
    have hfound : some task ∈ analysis.df.definedAt source.node := by decide +kernel
    exact hmissed hfound
  | detours hindirect =>
    have hdirect : analysis.consumedDirectly source task
        (analysis.df.reachingFrom source.id [some task]) = true := by decide +kernel
    rw [hdirect] at hindirect
    cases hindirect

end Overwriting

open Sample Overwriting in
/-- On the straight walk nothing overwrites the value of `f`, so it is read. -/
theorem read_when_not_overwritten :
    Config.default.decide frontEnd produced = .ok ⟨.viaVariable, none⟩ ∧
    ∃ a owner, Analysis.around .default frontEnd produced = .ok a ∧
      a.df.owner? produced = some owner ∧
      ∃ source exit q, source = a.source owner produced ∧ ¬ a.Bypass source task ∧
        a.cf.body.exit? = some exit ∧
        Walk a.cf.body.FlowEdge source.block exit (source.block :: q) ∧
        ¬ a.df.OverwrittenFirst task (a.cf.body.executedAfter source q) ∧
        a.df.ReadFirst task (a.cf.body.executedAfter source q) := by
  obtain ⟨a, i, ha, hi, hall⟩ := read_iff_not_overwritten _ _ _ _ decide_eq rfl
  obtain rfl : analysis = a := Except.ok.inj ((around_eq _).symm.trans ha)
  obtain rfl : owner = i := Option.some.inj (owner_eq.symm.trans hi)
  have hexit : analysis.cf.body.exit? = some 4 := by decide +kernel
  have hwalk : Walk analysis.cf.body.FlowEdge source.block 4 (source.block :: [3, 4]) :=
    walk_straight.mono Or.inl
  have hkept : ¬ analysis.df.OverwrittenFirst task
      (analysis.cf.body.executedAfter source [3, 4]) := by
    rw [← DataFlow.fate_eq_overwritten_iff]
    decide +kernel
  have hread := (hall source task 4 [3, 4] rfl (by decide +kernel) (by decide +kernel) not_bypass
    hexit hwalk).2 hkept
  exact ⟨decide_eq, analysis, owner, around_eq _, owner_eq, source, 4, [3, 4], rfl, not_bypass, hexit,
    hwalk, hkept, hread⟩

open Sample Overwriting in
/-- The value of `f` is accepted, and the walk through the branch overwrites it unread. -/
theorem overwritten_on_a_branch :
    Config.default.decide frontEnd produced = .ok ⟨.viaVariable, none⟩ ∧
    ∃ a owner, Analysis.around .default frontEnd produced = .ok a ∧
      a.df.owner? produced = some owner ∧
      ∃ source v exit q, source = a.source owner produced ∧
        Config.default.tracks v.type = true ∧ a.df.defines (some v) source.id = true ∧
        ¬ a.Bypass source v ∧ a.cf.body.exit? = some exit ∧
        Walk a.cf.body.Edge source.block exit (source.block :: q) ∧
        ¬ a.df.ReadFirst v (a.cf.body.executedAfter source q) ∧
        a.df.OverwrittenFirst v (a.cf.body.executedAfter source q) := by
  have hfate : analysis.df.fate task (analysis.cf.body.executedAfter source [2, 3, 4])
      = .overwritten := by decide +kernel
  refine ⟨decide_eq, analysis, owner, around_eq _, owner_eq, source, task, 4, [2, 3, 4], rfl,
    by decide +kernel, by decide +kernel, not_bypass, by decide +kernel, walk_branch, ?_, ?_⟩
  · rw [← DataFlow.fate_eq_read_iff, hfate]
    exact nofun
  · exact DataFlow.fate_eq_overwritten_iff.1 hfate

/-! ### A value that one branch converts

The body of `v = f(); if c { tasks = append(tasks, T(v)) }; await WhenAll(tasks)`: the item that is
added is the conversion, which is no local, so nothing checks that the branch is taken. -/

namespace Converting

open Sample

def converted : Node :=
  .mk { id := 14, kind := .conversion, name := "T", type := task.type } (some (.ref 15 task)) [] [] []

def func : Node :=
  .mk { id := 40, kind := .func, name := "h" } none [] []
    [store 0 "f", condition, collect 10 converted, awaitAll]

def body : Body :=
  .framed 0 func
    [{ nodes := [store 0 "f"], branch := some condition, fall := some 2, cond := some 1 },
     { nodes := [collect 10 converted], fall := some 2 }, { nodes := [awaitAll] }] []

def frontEnd : FrontEnd := (Registry.add {} body).frontEnd (Links.link {} func)

def analysis : Analysis := analysisOf frontEnd produced (by decide +kernel)

def owner : Instr := (analysis.df.owner? produced).get (by decide +kernel)

def source : Instr := analysis.source owner produced

theorem walk_straight : Walk analysis.cf.body.Edge source.block 4 (source.block :: [3, 4]) := by
  have hblock : source.block = 1 := by decide +kernel
  rw [hblock]
  exact .cons (edge_of_contains (by decide +kernel))
    (.cons (edge_of_contains (by decide +kernel)) (.single 4))

end Converting

open Sample Converting in
/-- A detour misses a walk: the value of `f` is accepted, and the walk past the branch neither reads
nor overwrites it. -/
theorem untouched_past_a_conversion :
    Config.default.decide frontEnd produced = .ok ⟨.viaVariable, none⟩ ∧
    ∃ a owner, Analysis.around .default frontEnd produced = .ok a ∧
      a.df.owner? produced = some owner ∧
      ∃ source v exit q, source = a.source owner produced ∧
        Config.default.tracks v.type = true ∧ a.df.defines (some v) source.id = true ∧
        a.cf.body.exit? = some exit ∧
        Walk a.cf.body.Edge source.block exit (source.block :: q) ∧
        ¬ a.df.ReadFirst v (a.cf.body.executedAfter source q) ∧
        ¬ a.df.OverwrittenFirst v (a.cf.body.executedAfter source q) := by
  have hfate : analysis.df.fate task (analysis.cf.body.executedAfter source [3, 4])
      = .untouched := by decide +kernel
  refine ⟨eq_ok_of_toOption (by decide +kernel), analysis, owner, around_eq _,
    (Option.some_get _).symm, source, task, 4, [3, 4], rfl, by decide +kernel, by decide +kernel,
    by decide +kernel, walk_straight, ?_, ?_⟩
  · rw [← DataFlow.fate_eq_read_iff, hfate]
    exact nofun
  · rw [← DataFlow.fate_eq_overwritten_iff, hfate]
    exact nofun

/-! ## Awaits on every walk -/

/-- Nothing that the body evaluates is a conversion or stands directly under one. -/
def Body.ConversionFree (b : Body) (links : Links) : Prop :=
  ∀ i ∈ b.instrs, ∀ n ∈ i.node.preorder fun _ => true,
    n.kind ≠ .conversion ∧ ∀ p ∈ links.parent? n, p.kind ≠ .conversion

instance (b : Body) (links : Links) : Decidable (b.ConversionFree links) :=
  inferInstanceAs (Decidable (∀ i ∈ b.instrs, ∀ n ∈ i.node.preorder fun _ => true,
    n.kind ≠ .conversion ∧ ∀ p ∈ links.parent? n, p.kind ≠ .conversion))

/-- Without conversions, a return of `v` has a reference to `v` among its results. -/
theorem Node.returnsVar_inv {n : Node} {v : Variable} (h : n.returnsVar v = true)
    (hfree : ∀ r ∈ n.args, r.kind ≠ .conversion) :
    n.isReturn = true ∧ ∃ r ∈ n.args, r.kind = .localRef ∧ r.var = some v := by
  unfold Node.returnsVar at h
  rw [Bool.and_eq_true, List.any_eq_true] at h
  obtain ⟨hreturn, r, hr, hresult⟩ := h
  refine ⟨hreturn, r, hr, ?_⟩
  dsimp only at hresult
  rw [if_neg (hfree r hr), Option.any_some, Bool.and_eq_true, decide_eq_true_eq,
    beq_iff_eq] at hresult
  exact hresult

namespace Analysis

variable {a : Analysis} {b : Body} {source s owner : Instr} {v list : Variable} {exit : Nat}
  {q : List Nat}

/-- After the owner of an accepted add site, every walk awaits a whole list. -/
theorem awaitsWholeList_after (hcf : ControlFlow.ofBody b = .ok a.cf) (hbody : a.df.body = b)
    (hexit : b.exit? = some exit) (h : a.listAwaitedAfter list owner = .ok true)
    (hwalk : Walk b.FlowEdge owner.block exit (owner.block :: q)) :
    ∃ s ∈ b.executedAfter owner q, ∃ n ∈ s.node.children, a.config.AwaitsWholeList n := by
  obtain ⟨-, -, s, -, hs, hawaits⟩ := listAwaitedAfter_inv hcf hbody h
  exact ⟨s, ControlFlow.executedAfter_of_mem_postDominators hcf hexit hs hwalk, hawaits⟩

/-- An accepted variable without conversions: every walk from the source awaits or returns it. -/
theorem consumed_after_source (hcf : ControlFlow.ofBody b = .ok a.cf) (hbody : a.df.body = b)
    (hexit : b.exit? = some exit) (hsource : source ∈ b.instrs)
    (hfree : b.ConversionFree a.links) (h : a.consumedIn source v = .ok true)
    (hwalk : Walk b.FlowEdge source.block exit (source.block :: q)) :
    ∃ s ∈ b.executedAfter source q, s.node.hasDirectAwait = true ∨
      s.node.isReturn = true ∧ ∃ r ∈ s.node.args, r.kind = .localRef ∧ r.var = some v ∧
        a.df.defines (some v) source.id = true := by
  obtain ⟨huses, haccepted⟩ := consumedIn_inv h
  obtain ⟨s, hs⟩ := List.exists_mem_of_ne_nil _ huses
  obtain ⟨hin, -, hdef⟩ := DataFlow.mem_reachingFrom.1 hs
  rw [hbody] at hin
  -- a use that the source reaches makes the source a definition
  have hdef := DataFlow.defines_of_mem_definitionsAt hdef
  have hclean : ∀ n, Reaches Node.Child s.node n → n.kind ≠ .conversion ∧
      ∀ p, a.links.parent? n = some p → p.kind ≠ .conversion :=
    fun n hn => hfree s hin n (Node.mem_preorder_of_reaches hn)
  rcases haccepted with hdirect | hlists
  · obtain ⟨hpost, haccept⟩ := consumedDirectly_inv hcf hdirect hs hin
    refine ⟨s, ControlFlow.executedAfter_of_mem_postDominators hcf hexit hpost hwalk, ?_⟩
    rcases haccept with hawait | hreturns
    · exact .inl hawait
    · right
      have hargs : ∀ r ∈ s.node.args, r.kind ≠ .conversion := by
        intro r hr
        have hchild : Node.Child s.node r := List.mem_append_right _ hr
        exact (hclean r ((Reaches.refl _ _).tail hchild)).1
      obtain ⟨hreturn, r, hr, hkind, hvar⟩ := Node.returnsVar_inv hreturns hargs
      exact ⟨hreturn, r, hr, hkind, hvar, hdef⟩
  · obtain ⟨ref, href, hlist⟩ := hlists s hs
    obtain ⟨hkind, hvar⟩ := localRef?_some href
    obtain ⟨-, list, o, -, -, hpost, hawaited⟩ := exists_site hcf hbody hsource hdef hkind hvar
      (hclean ref (Node.find?_some href).2).2 hlist
    -- first to the add site, then on from there to the await of the list
    have hsite := ControlFlow.executedAfter_of_mem_postDominators hcf hexit hpost hwalk
    obtain ⟨r, hrest, hsub⟩ := Body.exists_walk_from_executedAfter hsite hwalk
    obtain ⟨t, ht, n, hn, hawaits, -⟩ := awaitsWholeList_after hcf hbody hexit hawaited hrest
    refine ⟨t, hsub t ht, .inl ?_⟩
    exact List.any_eq_true.2 ⟨n, hn, decide_eq_true hawaits⟩

end Analysis

/-- **No value is dropped silently.** When a value is accepted through the variables of `source`
and no conversion is involved, every walk from `source` to the exit executes, after `source`, an
instruction with a direct await, or a return with a direct reference to a variable that `source`
writes. When a value is accepted as a list item, with conversions or without, every walk from the
owner of its add site to the exit executes, after the owner, an instruction with a direct await of
a whole list. The walks include the additional edge from the entry to the exit. -/
theorem await_on_every_walk (c : Config) (fe : FrontEnd) (target : Node) (d : Decision)
    (hd : c.decide fe target = .ok d) :
    (d.verdict = .viaVariable →
      ∃ a owner, Analysis.around c fe target = .ok a ∧ a.df.owner? target = some owner ∧
        ∀ source exit q, source = a.source owner target → a.cf.body.ConversionFree fe.links →
          a.cf.body.exit? = some exit →
          Walk a.cf.body.FlowEdge source.block exit (source.block :: q) →
          ∃ s ∈ a.cf.body.executedAfter source q, s.node.hasDirectAwait = true ∨
            s.node.isReturn = true ∧ ∃ r ∈ s.node.args, r.kind = .localRef ∧
              ∃ v, r.var = some v ∧ a.df.defines (some v) source.id = true) ∧
    (d.verdict = .viaList →
      ∃ a item site list owner, Analysis.around c fe target = .ok a ∧
        (item = target ∨ fe.links.parent? target = some item ∧ item.kind = .conversion) ∧
        fe.links.parent? item = some site ∧ a.listAt site item = .ok (some list) ∧
        a.df.owner? site = some owner ∧
        ∀ exit q, a.cf.body.exit? = some exit →
          Walk a.cf.body.FlowEdge owner.block exit (owner.block :: q) →
          ∃ s ∈ a.cf.body.executedAfter owner q, ∃ n ∈ s.node.children,
            c.AwaitsWholeList n) := by
  constructor
  · intro hverdict
    obtain ⟨a, owner, ha, howner, hjudge⟩ := Config.decide_judged hd (.inl hverdict)
    obtain ⟨b, hcf, hbody, -, hlinks⟩ := Analysis.around_inv ha
    rw [hverdict] at hjudge
    obtain ⟨vars, hne, -, hall⟩ := Analysis.judge_viaVariable hjudge
    obtain ⟨v, hv⟩ := List.exists_mem_of_ne_nil _ hne
    refine ⟨a, owner, ha, howner, ?_⟩
    intro source exit q hsource hfree hexit hwalk
    have hin : source ∈ b.instrs :=
      hsource ▸ Analysis.source_mem hcf (hbody ▸ DataFlow.owner?_mem howner)
    rw [ControlFlow.body_eq hcf] at hfree hexit hwalk ⊢
    obtain ⟨s, hs, hawait | ⟨hreturn, r, hr, hkind, hvar, hdef⟩⟩ :=
      Analysis.consumed_after_source hcf hbody hexit hin (hlinks ▸ hfree) (hsource ▸ hall v hv) hwalk
    · exact ⟨s, hs, .inl hawait⟩
    · exact ⟨s, hs, .inr ⟨hreturn, r, hr, hkind, v, hvar, hdef⟩⟩
  · intro hverdict
    obtain ⟨a, owner, ha, -, hjudge⟩ := Config.decide_judged hd (.inr hverdict)
    obtain ⟨b, hcf, hbody, hconfig, hlinks⟩ := Analysis.around_inv ha
    rw [hverdict] at hjudge
    obtain ⟨site, list, o, hsite, hlist, howner, -, hawaited⟩ :=
      Analysis.viaList_inv (Analysis.judge_viaList hjudge)
    rw [← hlinks, ← hconfig]
    refine ⟨a, a.placed target, site, list, o, ?_, a.placed_cases target, hsite, hlist, howner, ?_⟩
    · rw [hconfig]
      exact ha
    · intro exit q hexit hwalk
      rw [ControlFlow.body_eq hcf] at hexit hwalk ⊢
      exact Analysis.awaitsWholeList_after hcf hbody hexit hawaited hwalk

/-! ### Values that are collected and awaited together

The body of `v = f(); if c { … }; tasks = append(tasks, v); tasks = append(tasks, g());
await WhenAll(tasks)`. -/

namespace Collecting

open Sample

def gathered : Node := .leaf { id := 24, kind := .call, name := "g", type := task.type }

def idle : Node := .leaf { id := 7, kind := .other }

def func : Node :=
  .mk { id := 40, kind := .func, name := "h" } none [] []
    [store 0 "f", condition, idle, collect 10 (.ref 14 task), collect 20 gathered, awaitAll]

def body : Body :=
  .framed 0 func
    [{ nodes := [store 0 "f"], branch := some condition, fall := some 2, cond := some 1 },
     { nodes := [idle], fall := some 2 },
     { nodes := [collect 10 (.ref 14 task), collect 20 gathered, awaitAll] }] []

def frontEnd : FrontEnd := (Registry.add {} body).frontEnd (Links.link {} func)

theorem decide_produced : Config.default.decide frontEnd produced = .ok ⟨.viaVariable, none⟩ :=
  eq_ok_of_toOption (by decide +kernel)

theorem decide_gathered : Config.default.decide frontEnd gathered = .ok ⟨.viaList, none⟩ :=
  eq_ok_of_toOption (by decide +kernel)

def producedAnalysis : Analysis := analysisOf frontEnd produced (by decide +kernel)

def gatheredAnalysis : Analysis := analysisOf frontEnd gathered (by decide +kernel)

end Collecting

open Sample Collecting in
/-- The value of `f` is awaited through its variable and the list, the value of `g` through the
list. -/
theorem await_of_collected :
    Config.default.decide frontEnd produced = .ok ⟨.viaVariable, none⟩ ∧
    Config.default.decide frontEnd gathered = .ok ⟨.viaList, none⟩ ∧
    (∃ a owner source q, Analysis.around .default frontEnd produced = .ok a ∧
      a.df.owner? produced = some owner ∧ source = a.source owner produced ∧
      a.cf.body.ConversionFree frontEnd.links ∧ a.cf.body.exit? = some 4 ∧
      Walk a.cf.body.FlowEdge source.block 4 (source.block :: q) ∧
      ∃ s ∈ a.cf.body.executedAfter source q, s.node.hasDirectAwait = true ∨
        s.node.isReturn = true ∧ ∃ r ∈ s.node.args, r.kind = .localRef ∧
          ∃ v, r.var = some v ∧ a.df.defines (some v) source.id = true) ∧
    (∃ a site owner q, Analysis.around .default frontEnd gathered = .ok a ∧
      frontEnd.links.parent? gathered = some site ∧ a.df.owner? site = some owner ∧
      a.cf.body.exit? = some 4 ∧ Walk a.cf.body.FlowEdge owner.block 4 (owner.block :: q) ∧
      ∃ s ∈ a.cf.body.executedAfter owner q, ∃ n ∈ s.node.children,
        Config.default.AwaitsWholeList n) := by
  refine ⟨decide_produced, decide_gathered, ?_, ?_⟩
  · obtain ⟨a, owner, ha, howner, hall⟩ :=
      (await_on_every_walk _ _ _ _ decide_produced).1 rfl
    obtain rfl : producedAnalysis = a := Except.ok.inj ((around_eq _).symm.trans ha)
    have hblock : ∀ o ∈ producedAnalysis.df.owner? produced,
        (producedAnalysis.source o produced).block = 1 := by decide +kernel
    have hexit : producedAnalysis.cf.body.exit? = some 4 := by decide +kernel
    have hfree : producedAnalysis.cf.body.ConversionFree frontEnd.links := by decide +kernel
    have hwalk : Walk producedAnalysis.cf.body.FlowEdge
        (producedAnalysis.source owner produced).block 4
        ((producedAnalysis.source owner produced).block :: [3, 4]) := by
      rw [hblock owner howner]
      exact .cons (.inl (edge_of_contains (by decide +kernel)))
        (.cons (.inl (edge_of_contains (by decide +kernel))) (.single 4))
    exact ⟨_, owner, _, [3, 4], ha, howner, rfl, hfree, hexit, hwalk,
      hall _ 4 [3, 4] rfl hfree hexit hwalk⟩
  · obtain ⟨a, item, site, list, owner, ha, hitem, hsite, -, howner, hall⟩ :=
      (await_on_every_walk _ _ _ _ decide_gathered).2 rfl
    obtain rfl : gatheredAnalysis = a := Except.ok.inj ((around_eq _).symm.trans ha)
    have hplain : ∀ p ∈ frontEnd.links.parent? gathered, p.kind ≠ .conversion := by decide +kernel
    obtain rfl : item = gathered := hitem.resolve_right fun h => hplain item h.1 h.2
    have hblock : ∀ p ∈ frontEnd.links.parent? gathered, ∀ o ∈ gatheredAnalysis.df.owner? p,
        o.block = 3 := by decide +kernel
    have hexit : gatheredAnalysis.cf.body.exit? = some 4 := by decide +kernel
    have hwalk : Walk gatheredAnalysis.cf.body.FlowEdge owner.block 4 (owner.block :: [4]) := by
      rw [hblock site hsite owner howner]
      exact .cons (.inl (edge_of_contains (by decide +kernel))) (.single 4)
    exact ⟨_, site, owner, [4], ha, hsite, howner, hexit, hwalk, hall 4 [4] hexit hwalk⟩

end AwaitLint
