import AwaitLint.Proofs.Consumption

/-!
# AwaitLint — what a credited await awaits

A variable is accepted directly when each of its uses awaits something or returns the variable
(`Analysis.consumedDirectly`). The test looks at the children of a use and at what it reads, but not
at whether the two belong together.

* **`ReadBeside`** — the places where an instruction can read a variable without awaiting it: another
  child, the instruction itself, or the word of the front end.
* **`awaits_variable_iff`** — an accepted use returns the variable or has an await that refers to it,
  unless all its awaits are of other values and the variable is read beside them (`AwaitsOther`).
  `credited_with_another_await` is a use of that kind.
-/

namespace AwaitLint

/-! ## References in a tree -/

namespace Node

variable {n m : Node} {v : Variable}

/-- The node is a reference to `v`. -/
def RefersTo (n : Node) (v : Variable) : Prop :=
  (n.kind = .localRef ∨ n.kind = .fieldRef) ∧ n.var = some v

instance : Decidable (n.RefersTo v) :=
  inferInstanceAs (Decidable ((n.kind = .localRef ∨ n.kind = .fieldRef) ∧ n.var = some v))

/-- Some node of the tree is a reference to `v`; functions inside count. -/
def Mentions (n : Node) (v : Variable) : Prop := ∃ m, Reaches Child n m ∧ m.RefersTo v

theorem mentions_iff_mem :
    n.Mentions v ↔ ∃ m ∈ n.preorder (fun _ => true), m.RefersTo v := by
  simp only [mem_preorder_iff, Mentions]

instance : Decidable (n.Mentions v) := decidable_of_iff _ mentions_iff_mem.symm

/-- A reference is the root of the tree or lies under one of its children. -/
theorem mentions_iff : n.Mentions v ↔ n.RefersTo v ∨ ∃ c ∈ n.children, c.Mentions v := by
  constructor
  · rintro ⟨m, hm, href⟩
    rcases Reaches.head_iff.1 hm with rfl | ⟨c, hc, hcm⟩
    · exact .inl href
    · exact .inr ⟨c, hc, m, hcm, href⟩
  · rintro (href | ⟨c, hc, m, hcm, href⟩)
    · exact ⟨n, Reaches.refl _ n, href⟩
    · exact ⟨m, Reaches.head_iff.2 (.inr ⟨c, hc, hcm⟩), href⟩

end Node

/-! ## Reads beside awaits -/

variable {fe : FrontEnd} {n : Node} {v : Variable}

/-- How an instruction reads `v` outside its awaits. -/
inductive ReadBeside (fe : FrontEnd) (v : Variable) (n : Node) : Prop where
  | child (c : Node) (mem : c ∈ n.children) (plain : c.kind ≠ .await) (mentions : c.Mentions v)
  | root (refers : n.RefersTo v)
  /-- The front end reports `v` as read, and nothing in the tree refers to it. -/
  | reported (uses : some v ∈ (fe.defUse n).uses) (absent : ¬ n.Mentions v)

/-- The instruction awaits, but only other values, and reads `v` beside its awaits. -/
structure AwaitsOther (fe : FrontEnd) (v : Variable) (n : Node) : Prop where
  awaits : n.hasDirectAwait = true
  others : ∀ c ∈ n.children, c.kind = .await → ¬ c.Mentions v
  kept : n.returnsVar v = false
  beside : ReadBeside fe v n

theorem reported_or_mentions (h : some v ∈ (DataFlow.resolve fe n).uses) :
    some v ∈ (fe.defUse n).uses ∨ n.Mentions v := by
  refine (DataFlow.mem_uses_resolve.1 h).imp_right ?_
  rintro ⟨c, hc, hvar⟩
  obtain ⟨hin, hfield⟩ := List.mem_filter.1 hc
  simp only [Bool.and_eq_true, decide_eq_true_eq] at hfield
  exact ⟨c, Node.reaches_of_mem_preorder hin, .inr hfield.1.1, hvar⟩

/-- A variable that is read is read under an await or beside the awaits. -/
theorem mentions_or_readBeside (h : some v ∈ (DataFlow.resolve fe n).uses) :
    (∃ c ∈ n.children, c.kind = .await ∧ c.Mentions v) ∨ ReadBeside fe v n := by
  by_cases hmentions : n.Mentions v
  · rcases Node.mentions_iff.1 hmentions with hroot | ⟨c, hc, hcv⟩
    · exact .inr (.root hroot)
    · by_cases hawait : c.kind = .await
      · exact .inl ⟨c, hc, hawait, hcv⟩
      · exact .inr (.child c hc hawait hcv)
  · exact .inr (.reported ((reported_or_mentions h).resolve_right hmentions) hmentions)

/-- **A credited await is of the variable, unless it is of another value.** Let `v` be accepted
directly: every use that `source` reaches comes after it on every path, and awaits something or returns
`v`. Then a use returns `v` or has a direct await with a reference to `v` exactly when it is not a
use that awaits other values only and reads `v` beside them. -/
theorem awaits_variable_iff (fe : FrontEnd) (b : Body) (a : Analysis)
    (hcf : ControlFlow.ofBody b = .ok a.cf) (hdf : a.df = DataFlow.solve fe b) (source s : Instr)
    (v : Variable)
    (hdirect : a.consumedDirectly source v (a.df.reachingFrom source.id [some v]) = true)
    (hs : s ∈ a.df.reachingFrom source.id [some v]) :
    s ∈ a.cf.postDominators source ∧
      ((s.node.returnsVar v = true ∨ ∃ n ∈ s.node.children, n.kind = .await ∧ n.Mentions v) ↔
        ¬ AwaitsOther fe v s.node) := by
  obtain ⟨hin, hreads, -⟩ := DataFlow.mem_reachingFrom.1 hs
  rw [hdf, DataFlow.body_solve] at hin
  obtain ⟨hpost, haccept⟩ := Analysis.consumedDirectly_inv hcf hdirect hs hin
  rw [hdf, DataFlow.reads_solve hin] at hreads
  refine ⟨hpost, ?_, ?_⟩
  · rintro (hreturns | ⟨n, hn, hawait, hmentions⟩) hother
    · rw [hother.kept] at hreturns
      cases hreturns
    · exact hother.others n hn hawait hmentions
  · intro hnot
    by_contra hmissed
    rw [not_or, Bool.not_eq_true] at hmissed
    obtain ⟨hkept, hunawaited⟩ := hmissed
    -- without a return the use was accepted for an await, and `v` is read somewhere else
    have hawaits : s.node.hasDirectAwait = true := by
      rw [hkept] at haccept
      exact haccept.resolve_right Bool.false_ne_true
    have hbeside := (mentions_or_readBeside hreads).resolve_left hunawaited
    exact hnot ⟨hawaits, fun n hn hawait hmentions => hunawaited ⟨n, hn, hawait, hmentions⟩, hkept,
      hbeside⟩

/-! ### Two uses that await

The bodies of `v = f(); await v` and of `v = f(); x, y = describe(v), await u`, with the value of `f`
as the target. -/

namespace Crediting

open Sample

def other : Variable := ⟨2, "u", .param, task.type⟩

def text : Variable := ⟨3, "x", .local, .named "string"⟩

def failure : Variable := ⟨4, "y", .local, .named "error"⟩

/-- `await v`. -/
def awaiting : Node :=
  .mk { id := 10, kind := .exprStmt }
    (some (.mk { id := 11, kind := .await, name := "await" } (some (.ref 12 task)) [] [] [])) [] [] []

/-- `x, y = describe(v), await u`. -/
def describing : Node :=
  .mk { id := 10, kind := .assign, name := "=" } none [.ref 11 text, .ref 12 failure]
    [.mk { id := 13, kind := .call, name := "describe", type := text.type } none [] [] [.ref 14 task],
     .mk { id := 15, kind := .await, name := "await", type := failure.type } (some (.ref 16 other))
       [] [] []] []

def func (use : Node) : Node :=
  .mk { id := 20, kind := .func, name := "h" } none [] [] [store 0 "f", use]

def body (use : Node) : Body := .framed 0 (func use) [{ nodes := [store 0 "f", use] }] []

def frontEnd (use : Node) : FrontEnd :=
  (Registry.add {} (body use)).frontEnd (Links.link {} (func use))

def source : Instr := ⟨0, 1, 0, store 0 "f"⟩

def useOf (use : Node) : Instr := ⟨1, 1, 1, use⟩

/-- The analysis of the body, whose exit is block 2. -/
def analysis (use : Node) : Analysis :=
  let graph := ControlFlow.prune (ControlFlow.blockGraph (body use) 0 2)
  { config := .default
    links := (frontEnd use).links
    cf := ⟨body use, graph, DomTree.build graph.reverse 2⟩
    df := DataFlow.solve (frontEnd use) (body use) }

theorem ofBody_body (use : Node) : ControlFlow.ofBody (body use) = .ok (analysis use).cf := rfl

/-- The second instruction is a use that the first one reaches if it is found there by number. -/
theorem useOf_mem (use : Node)
    (h : ((analysis use).df.reachingFrom source.id [some task]).map (·.id) = [1]) :
    useOf use ∈ (analysis use).df.reachingFrom source.id [some task] := by
  obtain ⟨s, hs, hid⟩ : ∃ s ∈ (analysis use).df.reachingFrom source.id [some task], s.id = 1 :=
    List.mem_map.1 (h ▸ List.mem_singleton_self 1)
  have hin : s ∈ (body use).instrs := by
    have := DataFlow.mem_instrs_of_mem_reachingFrom hs
    rwa [show (analysis use).df.body = body use from DataFlow.body_solve _ _] at this
  have huse : useOf use ∈ (body use).instrs := List.mem_of_getElem? (i := 1) rfl
  rwa [← Body.eq_of_id_eq hin huse hid]

end Crediting

open Sample Crediting in
/-- `await v` is credited with its own await: nothing reads `v` beside it. -/
theorem credited_with_its_own_await :
    ControlFlow.ofBody (body awaiting) = .ok (analysis awaiting).cf ∧
    (analysis awaiting).df = DataFlow.solve (frontEnd awaiting) (body awaiting) ∧
    (analysis awaiting).consumedDirectly source task
      ((analysis awaiting).df.reachingFrom source.id [some task]) = true ∧
    useOf awaiting ∈ (analysis awaiting).df.reachingFrom source.id [some task] ∧
    ¬ AwaitsOther (frontEnd awaiting) task awaiting ∧
    ∃ n ∈ awaiting.children, n.kind = .await ∧ n.Mentions task := by
  have hdirect : (analysis awaiting).consumedDirectly source task
      ((analysis awaiting).df.reachingFrom source.id [some task]) = true := by decide +kernel
  have hmem := useOf_mem awaiting (by decide +kernel)
  have hnot : ¬ AwaitsOther (frontEnd awaiting) task awaiting := by
    intro hother
    cases hother.beside with
    | child c hc hplain hmentions =>
      have hawaits : ∀ c ∈ awaiting.children, c.kind = .await := by decide
      exact hplain (hawaits c hc)
    | root hrefers => exact absurd hrefers (by decide)
    | reported _ habsent => exact habsent (by decide +kernel)
  have hcredited := ((awaits_variable_iff _ _ _ (ofBody_body awaiting) rfl _ _ _ hdirect hmem).2).2 hnot
  exact ⟨ofBody_body awaiting, rfl, hdirect, hmem, hnot,
    hcredited.resolve_left (by decide +kernel)⟩

open Sample Crediting in
/-- `x, y = describe(v), await u` is credited with the await of `u`: the value of `f` is accepted, and
no await of its only use refers to `v`. -/
theorem credited_with_another_await :
    Config.default.decide (frontEnd describing) produced = .ok ⟨.viaVariable, none⟩ ∧
    ControlFlow.ofBody (body describing) = .ok (analysis describing).cf ∧
    (analysis describing).df = DataFlow.solve (frontEnd describing) (body describing) ∧
    (analysis describing).viaVariable source [task] = .ok true ∧
    (analysis describing).consumedDirectly source task
      ((analysis describing).df.reachingFrom source.id [some task]) = true ∧
    useOf describing ∈ (analysis describing).df.reachingFrom source.id [some task] ∧
    describing.returnsVar task = false ∧
    ∀ n ∈ describing.children, n.kind = .await → ¬ n.Mentions task := by
  exact ⟨eq_ok_of_toOption (by decide +kernel), ofBody_body describing, rfl,
    eq_ok_of_toOption (by decide +kernel), by decide +kernel, useOf_mem _ (by decide +kernel),
    by decide +kernel, by decide +kernel⟩

end AwaitLint
