import AwaitLint.Proofs.CreditedAwait

/-!
# AwaitLint — which list is awaited

An item of a list is accepted when some definition of the list reaches an instruction that awaits a
whole list and that is executed after the add site on every path (`Analysis.viaList`). Neither the
awaited list nor the writes in between are looked at.

* **`Until`** — something happens on a trace, and up to there something else holds.
* **`Node.Extends`**, **`Analysis.Replaces`** — the writes of a list that keep its items, and the
  others.
* **`list_awaited_iff`** — every walk from an accepted add site awaits the list with its items,
  unless it replaces the list first or awaits other lists only. `replaced_or_mistaken` has a walk of
  each kind.
-/

namespace AwaitLint

/-! ## Traces -/

section Until

variable {α : Type} {safe goal bad : α → Prop} {t : α} {l : List α}

/-- Some member of the list satisfies `goal`, and all before it satisfy `safe`. -/
def Until (safe goal : α → Prop) (l : List α) : Prop :=
  ∃ before s after, l = before ++ s :: after ∧ goal s ∧ ∀ t ∈ before, safe t

theorem not_until_nil : ¬ Until safe goal [] := by
  rintro ⟨before, s, after, h, -⟩
  simp at h

theorem until_cons : Until safe goal (t :: l) ↔ goal t ∨ safe t ∧ Until safe goal l := by
  constructor
  · rintro ⟨before, s, after, hl, hgoal, hbefore⟩
    cases before with
    | nil =>
      obtain ⟨rfl, -⟩ := List.cons.inj hl
      exact .inl hgoal
    | cons u before =>
      obtain ⟨rfl, hrest⟩ := List.cons.inj hl
      rw [List.forall_mem_cons] at hbefore
      exact .inr ⟨hbefore.1, before, s, after, hrest, hgoal, hbefore.2⟩
  · rintro (hgoal | ⟨hsafe, before, s, after, rfl, hgoal, hbefore⟩)
    · exact ⟨[], t, l, rfl, hgoal, nofun⟩
    · exact ⟨t :: before, s, after, rfl, hgoal, List.forall_mem_cons.2 ⟨hsafe, hbefore⟩⟩

instance decidableUntil [DecidablePred safe] [DecidablePred goal] :
    (l : List α) → Decidable (Until safe goal l)
  | [] => isFalse not_until_nil
  | _ :: l =>
    have : Decidable (Until safe goal l) := decidableUntil l
    decidable_of_iff _ until_cons.symm

theorem Until.exists_mem (h : Until safe goal l) : ∃ s ∈ l, goal s := by
  obtain ⟨before, s, after, rfl, hgoal, -⟩ := h
  exact ⟨s, List.mem_append_right _ List.mem_cons_self, hgoal⟩

/-- Where the goal is met, it is met with nothing bad before it, or something bad comes first. -/
theorem until_iff_not_until (h : ∃ s ∈ l, goal s) :
    Until (¬ bad ·) goal l ↔ ¬ Until (¬ goal ·) (fun s => bad s ∧ ¬ goal s) l := by
  induction l with
  | nil => simp at h
  | cons t l ih =>
    rw [until_cons, until_cons]
    by_cases hgoal : goal t
    · simp [hgoal]
    · have hl : ∃ s ∈ l, goal s := by
        obtain ⟨s, hs, hgs⟩ := h
        rcases List.mem_cons.1 hs with rfl | hs
        · exact absurd hgs hgoal
        · exact ⟨s, hs, hgs⟩
      rw [ih hl]
      simp [hgoal]

end Until

/-! ## Writes and awaits of a list -/

namespace Node

/-- A call that adds to `list`: its receiver is a reference to the variable. -/
def AddsTo (c : Config) (list : Variable) (n : Node) : Prop :=
  n.kind = .call ∧ c.isAddMethod n.name = true ∧
    ∃ r ∈ n.operand, r.kind = .localRef ∧ r.var = some list

/-- An assignment to `list`, each time of the result of a call that adds to it. -/
def Extends (c : Config) (list : Variable) (n : Node) : Prop :=
  n.kind = .assign ∧ (∃ t ∈ n.targets, t.RefersTo list) ∧
    ∀ p ∈ n.targets.zipIdx, p.1.RefersTo list → ∃ value ∈ n.values[p.2]?, value.AddsTo c list

/-- A child of the node is an await whose operand mentions `v`. -/
def AwaitsOn (v : Variable) (n : Node) : Prop :=
  ∃ m ∈ n.children, m.kind = .await ∧ ∃ x ∈ m.operand, x.Mentions v

instance (c : Config) (list : Variable) : DecidablePred (AddsTo c list) := fun n =>
  inferInstanceAs (Decidable (n.kind = .call ∧ c.isAddMethod n.name = true ∧
    ∃ r ∈ n.operand, r.kind = .localRef ∧ r.var = some list))

instance (c : Config) (list : Variable) : DecidablePred (Extends c list) := fun n =>
  inferInstanceAs (Decidable (n.kind = .assign ∧ (∃ t ∈ n.targets, t.RefersTo list) ∧
    ∀ p ∈ n.targets.zipIdx, p.1.RefersTo list → ∃ value ∈ n.values[p.2]?, value.AddsTo c list))

instance (v : Variable) : DecidablePred (AwaitsOn v) := fun n =>
  inferInstanceAs (Decidable (∃ m ∈ n.children, m.kind = .await ∧ ∃ x ∈ m.operand, x.Mentions v))

end Node

namespace Analysis

variable {a : Analysis} {b : Body} {list : Variable} {owner : Instr} {trace : List Instr}

/-- The instruction writes `list` other than by adding to it. -/
def Replaces (a : Analysis) (list : Variable) (s : Instr) : Prop :=
  a.df.defines (some list) s.id = true ∧ ¬ s.node.Extends a.config list

instance (a : Analysis) (list : Variable) : DecidablePred (a.Replaces list) := fun s =>
  inferInstanceAs (Decidable (a.df.defines (some list) s.id = true ∧
    ¬ s.node.Extends a.config list))

/-- The trace awaits `list`, and nothing before that replaces it. -/
def AwaitedIntact (a : Analysis) (list : Variable) (trace : List Instr) : Prop :=
  Until (¬ a.Replaces list ·) (fun s => s.node.AwaitsOn list) trace

/-- The trace replaces `list`, and up to and including that instruction nothing awaits it. -/
def ReplacedFirst (a : Analysis) (list : Variable) (trace : List Instr) : Prop :=
  Until (fun s => ¬ s.node.AwaitsOn list)
    (fun s => a.Replaces list s ∧ ¬ s.node.AwaitsOn list) trace

/-- The trace awaits whole lists, none of them `list`. -/
structure AwaitsOthers (a : Analysis) (list : Variable) (trace : List Instr) : Prop where
  awaits : ∃ s ∈ trace, ∃ n ∈ s.node.children, a.config.AwaitsWholeList n
  others : ∀ s ∈ trace, ¬ s.node.AwaitsOn list

instance : Decidable (a.AwaitedIntact list trace) := decidableUntil trace

instance : Decidable (a.ReplacedFirst list trace) := decidableUntil trace

/-- On a trace that awaits a whole list, the list keeps its items until it is awaited, or it is
replaced first, or only other lists are awaited. -/
theorem awaitedIntact_iff (h : ∃ s ∈ trace, ∃ n ∈ s.node.children, a.config.AwaitsWholeList n) :
    a.AwaitedIntact list trace ↔ ¬ a.ReplacedFirst list trace ∧ ¬ a.AwaitsOthers list trace := by
  by_cases hawaited : ∃ s ∈ trace, s.node.AwaitsOn list
  · have hnot : ¬ a.AwaitsOthers list trace := by
      intro hothers
      obtain ⟨s, hs, hon⟩ := hawaited
      exact hothers.others s hs hon
    rw [and_iff_left hnot]
    exact until_iff_not_until hawaited
  · constructor
    · intro hintact
      exact absurd hintact.exists_mem hawaited
    · rintro ⟨-, hnot⟩
      exact absurd ⟨h, fun s hs hon => hawaited ⟨s, hs, hon⟩⟩ hnot

end Analysis

/-- **An accepted list is awaited, unless it is replaced or mistaken.** Let `item` be accepted as an
item of `list`. The await that it is credited with is executed on every walk from the owner of the
add site to the exit, and such a walk awaits `list` with nothing but additions before that exactly
when it neither replaces `list` first nor awaits other lists only. -/
theorem list_awaited_iff (b : Body) (a : Analysis) (hcf : ControlFlow.ofBody b = .ok a.cf)
    (hbody : a.df.body = b) (item : Node) (h : a.viaList item = .ok true) :
    ∃ site list owner, a.links.parent? (a.placed item) = some site ∧
      a.listAt site (a.placed item) = .ok (some list) ∧ a.df.owner? site = some owner ∧
      ∃ d ∈ a.df.definitionsOf (some list), ∃ s ∈ a.df.reachingFrom d.id [],
        (∃ n ∈ s.node.children, a.config.AwaitsWholeList n) ∧
        ∀ exit q, b.exit? = some exit →
          Walk b.FlowEdge owner.block exit (owner.block :: q) →
          s ∈ b.executedAfter owner q ∧
            (a.AwaitedIntact list (b.executedAfter owner q) ↔
              ¬ a.ReplacedFirst list (b.executedAfter owner q) ∧
                ¬ a.AwaitsOthers list (b.executedAfter owner q)) := by
  obtain ⟨site, list, owner, hsite, hlist, howner, -, hawaited⟩ := Analysis.viaList_inv h
  obtain ⟨d, hd, s, hs, hpost, hcredited⟩ := Analysis.listAwaitedAfter_inv hcf hbody hawaited
  refine ⟨site, list, owner, hsite, hlist, howner, d, hd, s, hs, hcredited, ?_⟩
  intro exit q hexit hwalk
  have hafter := ControlFlow.executedAfter_of_mem_postDominators hcf hexit hpost hwalk
  exact ⟨hafter, Analysis.awaitedIntact_iff ⟨s, hafter, hcredited⟩⟩

open Sample Collecting in
/-- The value of `g` in `Collecting` is added behind the value of `f`, and the list with both is
awaited. -/
theorem gathered_list_awaited :
    gatheredAnalysis.viaList gathered = .ok true ∧
    ∃ site owner q, gatheredAnalysis.links.parent? gathered = some site ∧
      gatheredAnalysis.listAt site gathered = .ok (some tasks) ∧
      gatheredAnalysis.df.owner? site = some owner ∧
      Walk gatheredAnalysis.cf.body.FlowEdge owner.block 4 (owner.block :: q) ∧
      gatheredAnalysis.AwaitedIntact tasks (gatheredAnalysis.cf.body.executedAfter owner q) := by
  have hvia : gatheredAnalysis.viaList gathered = .ok true := eq_ok_of_toOption (by decide +kernel)
  have haround : Analysis.around .default frontEnd gathered = .ok gatheredAnalysis := around_eq _
  obtain ⟨b, hcf, hbody, -⟩ := Analysis.around_inv haround
  obtain rfl : gatheredAnalysis.cf.body = b := ControlFlow.body_eq hcf
  obtain ⟨site, list, owner, hsite, hlist, howner, _, _, _, _, _, hall⟩ :=
    list_awaited_iff _ _ hcf hbody gathered hvia
  have hplaced : gatheredAnalysis.placed gathered = gathered := by
    refine Analysis.placed_eq_self fun p hp => ?_
    have hplain : ∀ p ∈ gatheredAnalysis.links.parent? gathered, p.kind ≠ .conversion := by
      decide +kernel
    exact hplain p hp
  rw [hplaced] at hsite hlist
  have htasks : ∀ p ∈ gatheredAnalysis.links.parent? gathered,
      (gatheredAnalysis.listAt p gathered).toOption = some (some tasks) := by decide +kernel
  obtain rfl : list = tasks := by
    have h := htasks site hsite
    rw [hlist] at h
    exact Option.some.inj (Option.some.inj h)
  have hexit : gatheredAnalysis.cf.body.exit? = some 4 := by decide +kernel
  have hafter : ∀ p ∈ gatheredAnalysis.links.parent? gathered,
      ∀ o ∈ gatheredAnalysis.df.owner? p, o.block = 3 ∧
        ¬ gatheredAnalysis.ReplacedFirst tasks
          (gatheredAnalysis.cf.body.executedAfter o [4]) ∧
        ∃ s ∈ gatheredAnalysis.cf.body.executedAfter o [4], s.node.AwaitsOn tasks := by
    decide +kernel
  obtain ⟨hblock, hkept, s, hs, hon⟩ := hafter site hsite owner howner
  have hwalk : Walk gatheredAnalysis.cf.body.FlowEdge owner.block 4 (owner.block :: [4]) := by
    rw [hblock]
    exact .cons (.inl (edge_of_contains (by decide +kernel))) (.single 4)
  refine ⟨hvia, site, owner, [4], hsite, hlist, howner, hwalk, ?_⟩
  exact (hall 4 [4] hexit hwalk).2.2 ⟨hkept, fun hothers => hothers.others s hs hon⟩

/-! ### Lists that are not awaited

The bodies of `tasks = append(tasks, g()); tasks = nil; await WhenAll(tasks)` and of
`tasks = append(tasks, g()); n, err = len(tasks), await WhenAll(others)`. -/

/-- An item is accepted, and a walk from its add site does not await its list with its items. -/
def Config.LosesItem (c : Config) (fe : FrontEnd) (item : Node) : Prop :=
  c.decide fe item = .ok ⟨.viaList, none⟩ ∧
    ∃ a site list owner exit q, Analysis.around c fe item = .ok a ∧
      fe.links.parent? item = some site ∧ a.listAt site item = .ok (some list) ∧
      a.df.owner? site = some owner ∧ a.cf.body.exit? = some exit ∧
      Walk a.cf.body.Edge owner.block exit (owner.block :: q) ∧
      ¬ a.AwaitedIntact list (a.cf.body.executedAfter owner q)

namespace Losing

open Sample Collecting

def others : Variable := ⟨2, "others", .param, tasks.type⟩

def number : Variable := ⟨3, "n", .local, .named "int"⟩

def failure : Variable := ⟨4, "err", .local, .named "error"⟩

/-- `tasks = nil`. -/
def reset : Node :=
  .mk { id := 50, kind := .assign, name := "=" } none [.ref 51 tasks]
    [.leaf { id := 52, kind := .other, name := "nil" }] []

/-- `n, err = len(tasks), await WhenAll(others)`. -/
def awaitOthers : Node :=
  .mk { id := 60, kind := .assign, name := "=" } none [.ref 61 number, .ref 62 failure]
    [.mk { id := 63, kind := .call, name := "len", type := number.type } none [] [] [.ref 64 tasks],
     .mk { id := 65, kind := .await, name := "await" }
      (some (.mk { id := 66, kind := .call, name := "WhenAll", type := task.type } none [] []
        [.ref 67 others])) [] [] []] []

def func (stmts : List Node) : Node := .mk { id := 40, kind := .func, name := "h" } none [] [] stmts

def body (stmts : List Node) : Body := .framed 0 (func stmts) [{ nodes := stmts }] []

def frontEnd (stmts : List Node) : FrontEnd :=
  (Registry.add {} (body stmts)).frontEnd (Links.link {} (func stmts))

def replacing : List Node := [collect 20 gathered, reset, awaitAll]

def mistaking : List Node := [collect 20 gathered, awaitOthers]

/-- The one walk of a body in a row. -/
theorem loses {stmts : List Node} {site : Node} {owner : Instr}
    (hdecide : Config.default.decide (frontEnd stmts) gathered = .ok ⟨.viaList, none⟩)
    (haround : (Analysis.around .default (frontEnd stmts) gathered).toOption.isSome = true)
    (hsite : (frontEnd stmts).links.parent? gathered = some site)
    (hlist : (analysisOf (frontEnd stmts) gathered haround).listAt site gathered
      = .ok (some tasks))
    (howner : (analysisOf (frontEnd stmts) gathered haround).df.owner? site = some owner)
    (hexit : (analysisOf (frontEnd stmts) gathered haround).cf.body.exit? = some 2)
    (hblock : owner.block = 1)
    (hedge : (analysisOf (frontEnd stmts) gathered haround).cf.body.edges.contains (1, 2) = true)
    (hlost : ¬ (analysisOf (frontEnd stmts) gathered haround).AwaitedIntact tasks
      ((analysisOf (frontEnd stmts) gathered haround).cf.body.executedAfter owner [2])) :
    Config.default.LosesItem (frontEnd stmts) gathered := by
  refine ⟨hdecide, _, site, tasks, owner, 2, [2], around_eq haround, hsite, hlist, howner, hexit, ?_,
    hlost⟩
  rw [hblock]
  exact .cons (edge_of_contains hedge) (.single 2)

end Losing

open Losing in
/-- The list is emptied before the await, or another list is awaited where this one is read. -/
theorem replaced_or_mistaken :
    Config.default.LosesItem (frontEnd replacing) Collecting.gathered ∧
      Config.default.LosesItem (frontEnd mistaking) Collecting.gathered := by
  constructor
  · exact loses (eq_ok_of_toOption (by decide +kernel)) (by decide +kernel)
      (Option.some_get (by decide +kernel)).symm (eq_ok_of_toOption (by decide +kernel))
      (Option.some_get (by decide +kernel)).symm (by decide +kernel) (by decide +kernel)
      (by decide +kernel) (by decide +kernel)
  · exact loses (eq_ok_of_toOption (by decide +kernel)) (by decide +kernel)
      (Option.some_get (by decide +kernel)).symm (eq_ok_of_toOption (by decide +kernel))
      (Option.some_get (by decide +kernel)).symm (by decide +kernel) (by decide +kernel)
      (by decide +kernel) (by decide +kernel)

end AwaitLint
