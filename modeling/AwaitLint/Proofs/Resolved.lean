import AwaitLint.Proofs.Acceptance

/-!
# AwaitLint — decisions that have an answer

A decision is a `Fault` when the type of a reference without a variable is asked for. When every
local reference and every written variable is known (`Analysis.Resolved`), no question on the way
fails, so each of them has an answer (`viaList_ok`, `judge_ok`), and the order in which a list of
questions is asked does not matter (`allM_congr`, `anyM_congr`). A front end that knows its
references (`FrontEnd.Resolved`) therefore decides every value (`Config.decide_ok`).
-/

namespace AwaitLint

/-! ## Lists of questions that have answers -/

section Faults

variable {ε α β : Type} {f : α → Except ε Bool} {g : β → Except ε Bool} {l : List α} {l' : List β}

theorem allM_ok (h : ∀ x ∈ l, ∃ r, f x = .ok r) : ∃ r, l.allM f = .ok r := by
  induction l with
  | nil => exact ⟨true, rfl⟩
  | cons x l ih =>
    obtain ⟨hx, hl⟩ := List.forall_mem_cons.1 h
    obtain ⟨r, hr⟩ := hx
    rw [List.allM, hr]
    cases r with
    | false => exact ⟨false, rfl⟩
    | true => exact ih hl

theorem anyM_ok (h : ∀ x ∈ l, ∃ r, f x = .ok r) : ∃ r, l.anyM f = .ok r := by
  induction l with
  | nil => exact ⟨false, rfl⟩
  | cons x l ih =>
    obtain ⟨hx, hl⟩ := List.forall_mem_cons.1 h
    obtain ⟨r, hr⟩ := hx
    rw [List.anyM, hr]
    cases r with
    | false => exact ih hl
    | true => exact ⟨true, rfl⟩

theorem anyM_eq_true (h : ∀ x ∈ l, ∃ r, f x = .ok r) :
    l.anyM f = .ok true ↔ ∃ x ∈ l, f x = .ok true := by
  refine ⟨exists_of_anyM_eq_true, fun hex => ?_⟩
  induction l with
  | nil => simp at hex
  | cons x l ih =>
    obtain ⟨hx, hl⟩ := List.forall_mem_cons.1 h
    obtain ⟨r, hr⟩ := hx
    rw [List.anyM, hr]
    cases r with
    | true => rfl
    | false =>
      refine ih hl ?_
      obtain ⟨y, hy, hfy⟩ := hex
      rcases List.mem_cons.1 hy with rfl | hy
      · rw [hr] at hfy
        cases hfy
      · exact ⟨y, hy, hfy⟩

/-- Two answers are one when they agree on yes. -/
theorem eq_of_eq_true_iff {x y : Except ε Bool} (hx : ∃ r, x = .ok r) (hy : ∃ r, y = .ok r)
    (h : x = .ok true ↔ y = .ok true) : x = y := by
  obtain ⟨r, rfl⟩ := hx
  obtain ⟨r', rfl⟩ := hy
  have hrr : r = true ↔ r' = true := by simpa using h
  rw [Bool.eq_iff_iff.2 hrr]

/-- Questions with answers, asked of lists whose members correspond, give one answer. -/
theorem allM_congr (h : ∀ x ∈ l, ∃ r, f x = .ok r) (hto : ∀ x ∈ l, ∃ y ∈ l', g y = f x)
    (hfrom : ∀ y ∈ l', ∃ x ∈ l, g y = f x) : l'.allM g = l.allM f := by
  have hg : ∀ y ∈ l', ∃ r, g y = .ok r := by
    intro y hy
    obtain ⟨x, hx, heq⟩ := hfrom y hy
    rw [heq]
    exact h x hx
  refine eq_of_eq_true_iff (allM_ok hg) (allM_ok h) ?_
  rw [allM_eq_true, allM_eq_true]
  constructor
  · intro hall x hx
    obtain ⟨y, hy, heq⟩ := hto x hx
    rw [← heq]
    exact hall y hy
  · intro hall y hy
    obtain ⟨x, hx, heq⟩ := hfrom y hy
    rw [heq]
    exact hall x hx

theorem anyM_congr (h : ∀ x ∈ l, ∃ r, f x = .ok r) (hto : ∀ x ∈ l, ∃ y ∈ l', g y = f x)
    (hfrom : ∀ y ∈ l', ∃ x ∈ l, g y = f x) : l'.anyM g = l.anyM f := by
  have hg : ∀ y ∈ l', ∃ r, g y = .ok r := by
    intro y hy
    obtain ⟨x, hx, heq⟩ := hfrom y hy
    rw [heq]
    exact h x hx
  refine eq_of_eq_true_iff (anyM_ok hg) (anyM_ok h) ?_
  rw [anyM_eq_true hg, anyM_eq_true h]
  constructor
  · rintro ⟨y, hy, hyes⟩
    obtain ⟨x, hx, heq⟩ := hfrom y hy
    exact ⟨x, hx, heq ▸ hyes⟩
  · rintro ⟨x, hx, hyes⟩
    obtain ⟨y, hy, heq⟩ := hto x hx
    exact ⟨y, hy, heq ▸ hyes⟩

end Faults

/-! ## Resolved trees -/

/-- Every local reference in the tree has a variable. -/
def Node.Resolved (n : Node) : Prop :=
  ∀ m, Reaches Node.Child n m → m.kind = .localRef → ∃ v, m.var = some v

namespace Node.Resolved

variable {n m : Node}

theorem var (h : n.Resolved) (hkind : n.kind = .localRef) : ∃ v, n.var = some v :=
  h n (Reaches.refl _ n) hkind

theorem child (h : n.Resolved) (hm : m ∈ n.children) : m.Resolved := by
  intro x ⟨p, hp⟩ hkind
  exact h x ⟨_, .cons hm hp⟩ hkind

theorem operand (h : n.Resolved) (hm : n.operand = some m) : m.Resolved := by
  refine h.child ?_
  simp [children, hm]

/-- A form that can be evaluated for a given tree. -/
theorem of_preorder
    (h : (n.preorder fun _ => true).all (fun m => m.kind != .localRef || m.var.isSome) = true) :
    n.Resolved := by
  intro m hm hkind
  have hmem := List.all_eq_true.1 h m (mem_preorder_of_reaches hm)
  rw [hkind] at hmem
  exact Option.isSome_iff_exists.1 (by simpa using hmem)

end Node.Resolved

/-- A parent is listed with its child. -/
theorem Links.mem_entries_of_parent? {links : Links} {n p : Node} (h : links.parent? n = some p) :
    (n.id, p) ∈ links.entries := by
  obtain ⟨before, after, hsplit, -⟩ := List.lookup_eq_some_iff.1 h
  rw [hsplit]
  exact List.mem_append_right _ List.mem_cons_self

/-! ## Answers -/

/-- Every local reference that a decision may ask about has a variable, and so does every fact on
what an instruction writes. -/
structure Analysis.Resolved (a : Analysis) : Prop where
  facts : ∀ i ∈ a.df.body.instrs, none ∉ (a.df.defUse i.id).defs
  nodes : ∀ i ∈ a.df.body.instrs, i.node.Resolved
  parents : ∀ n p, a.links.parent? n = some p → p.Resolved

namespace Analysis

variable {a : Analysis} {owner source : Instr} {v : Variable} {item site n target : Node}

theorem varsWhere_ok {p : ValueType → Bool} {vs : List (Option Variable)} (h : none ∉ vs) :
    ∃ found, varsWhere p vs = .ok found := by
  induction vs with
  | nil => exact ⟨[], rfl⟩
  | cons w vs ih =>
    rw [List.mem_cons, not_or] at h
    cases w with
    | none => exact absurd rfl h.1
    | some w =>
      obtain ⟨found, hfound⟩ := ih h.2
      unfold varsWhere
      rw [hfound]
      exact ⟨_, rfl⟩

theorem consumedByLists_eq_allM (a : Analysis) (v : Variable) (uses : List Instr) :
    a.consumedByLists v uses
      = uses.allM fun s => (s.node.localRef? v).elim (.ok false) a.viaList := by
  unfold consumedByLists
  congr 1
  funext s
  cases s.node.localRef? v <;> rfl

namespace Resolved

theorem definedAt (h : a.Resolved) (n : Node) : none ∉ a.df.definedAt n := by
  unfold DataFlow.definedAt
  split
  · rename_i i hi
    exact h.facts i (DataFlow.ownerWhere?_some hi).1
  · exact List.not_mem_nil

theorem awaitsList_ok (hn : n.Resolved) : ∃ r, a.awaitsList n = .ok r := by
  rw [awaitsList_eq]
  split
  · exact ⟨false, rfl⟩
  · split
    · exact ⟨false, rfl⟩
    · rename_i x hx
      have hx' : (unconverted x).Resolved := by
        rcases unconverted_cases x with hsame | ⟨-, hop⟩
        · rw [hsame]
          exact hn.operand hx
        · exact (hn.operand hx).operand hop
      split
      · exact ⟨_, rfl⟩
      · rename_i hkind
        obtain ⟨v, hv⟩ := hx'.var hkind
        rw [hv]
        exact ⟨_, rfl⟩
      · exact ⟨false, rfl⟩

theorem listAt_ok (h : a.Resolved) (hsite : site.Resolved) (item : Node) :
    ∃ r, a.listAt site item = .ok r := by
  unfold listAt
  split
  · split
    · exact ⟨none, rfl⟩
    · obtain ⟨found, hfound⟩ := varsWhere_ok (p := a.config.isList) (h.definedAt site)
      rw [hfound]
      split
      · cases ‹Except.ok _ = Except.error _›
      · exact ⟨_, rfl⟩
      · exact ⟨_, rfl⟩
  · split
    · exact ⟨none, rfl⟩
    · split
      · exact ⟨none, rfl⟩
      · rename_i recv hrecv
        split
        · exact ⟨none, rfl⟩
        · rename_i hkind
          obtain ⟨v, hv⟩ := (hsite.operand hrecv).var (Decidable.not_not.1 hkind)
          rw [hv]
          exact ⟨_, rfl⟩
  · exact ⟨none, rfl⟩

/-- Whether an instruction awaits a list, if it is one of the later ones. -/
theorem awaitsLater_ok (h : a.Resolved) (later : List Instr) {s : Instr}
    (hs : s ∈ a.df.body.instrs) :
    ∃ r, (if listed later s then s.node.children.anyM a.awaitsList else .ok false) = .ok r := by
  split
  · exact anyM_ok fun n hn => awaitsList_ok ((h.nodes s hs).child hn)
  · exact ⟨false, rfl⟩

theorem listAwaitedAfter_ok (h : a.Resolved) (list : Variable) (owner : Instr) :
    ∃ r, a.listAwaitedAfter list owner = .ok r := by
  refine anyM_ok fun d _ => anyM_ok fun s hs => ?_
  exact h.awaitsLater_ok _ (DataFlow.mem_instrs_of_mem_reachingFrom hs)

theorem viaList_ok (h : a.Resolved) (item : Node) : ∃ r, a.viaList item = .ok r := by
  rw [viaList_eq]
  split
  · exact ⟨false, rfl⟩
  · rename_i site hsite
    obtain ⟨r, hr⟩ := h.listAt_ok (h.parents _ _ hsite) (a.placed item)
    rw [hr]
    split
    · cases ‹Except.ok _ = Except.error _›
    · exact ⟨false, rfl⟩
    · split
      · exact ⟨false, rfl⟩
      · split
        · exact h.listAwaitedAfter_ok _ _
        · exact ⟨false, rfl⟩

/-- Whether an instruction adds a variable to an awaited list. -/
theorem addsTo_ok (h : a.Resolved) (v : Variable) (s : Instr) :
    ∃ r, (s.node.localRef? v).elim (.ok false) a.viaList = .ok r := by
  cases s.node.localRef? v with
  | none => exact ⟨false, rfl⟩
  | some ref => exact h.viaList_ok ref

theorem consumedIn_ok (h : a.Resolved) (source : Instr) (v : Variable) :
    ∃ r, a.consumedIn source v = .ok r := by
  unfold consumedIn
  dsimp only
  split
  · exact ⟨false, rfl⟩
  · split
    · exact ⟨true, rfl⟩
    · rw [consumedByLists_eq_allM]
      exact allM_ok fun s _ => h.addsTo_ok v s

theorem sourceVars_ok (h : a.Resolved) (source : Instr) :
    ∃ vars, a.sourceVars source = .ok vars := by
  unfold sourceVars
  split
  · exact varsWhere_ok (h.definedAt source.node)
  · exact ⟨[], rfl⟩

theorem judge_ok (h : a.Resolved) (owner : Instr) (target : Node) :
    ∃ verdict, a.judge owner target = .ok verdict := by
  obtain ⟨vars, hvars⟩ := h.sourceVars_ok (a.source owner target)
  cases vars with
  | nil =>
    obtain ⟨r, hr⟩ := h.viaList_ok target
    exact ⟨_, bind_eq_ok.2 ⟨[], hvars, bind_eq_ok.2 ⟨r, hr, rfl⟩⟩⟩
  | cons v vs =>
    obtain ⟨r, hr⟩ : ∃ r, a.viaVariable (a.source owner target) (v :: vs) = .ok r :=
      allM_ok fun w _ => h.consumedIn_ok _ w
    exact ⟨_, bind_eq_ok.2 ⟨v :: vs, hvars, bind_eq_ok.2 ⟨r, hr, rfl⟩⟩⟩

end Resolved

end Analysis

/-! ## Decisions -/

namespace DefUse

variable {du : DefUse}

theorem none_not_mem_define {v : Option Variable} (hdu : none ∉ du.defs) (hv : v ≠ none) :
    none ∉ (du.define v).defs := by
  show none ∉ insertOnce du.defs v
  unfold insertOnce
  split
  · exact hdu
  · rw [List.mem_append, List.mem_singleton, not_or]
    exact ⟨hdu, Ne.symm hv⟩

theorem none_not_mem_foldl {α : Type} {step : DefUse → α → DefUse} {xs : List α}
    (hstep : ∀ x ∈ xs, ∀ du : DefUse, none ∉ du.defs → none ∉ (step du x).defs)
    (hdu : none ∉ du.defs) : none ∉ (xs.foldl step du).defs := by
  induction xs generalizing du with
  | nil => exact hdu
  | cons x xs ih =>
    obtain ⟨hx, hxs⟩ := List.forall_mem_cons.1 hstep
    exact ih hxs (hx du hdu)

end DefUse

namespace FrontEnd

variable {fe : FrontEnd} {b : Body}

/-- The local references that a decision may ask about have a variable, and so do the facts on what
the instructions of a body write. -/
structure Resolved (fe : FrontEnd) (b : Body) : Prop where
  facts : ∀ i ∈ b.instrs, none ∉ (fe.defUse i.node).defs
  nodes : ∀ i ∈ b.instrs, i.node.Resolved
  parents : ∀ n p, fe.links.parent? n = some p → p.Resolved

/-- Only members with a variable are added to what a node writes. -/
theorem none_not_mem_resolve {n : Node} (h : none ∉ (fe.defUse n).defs) :
    none ∉ (DataFlow.resolve fe n).defs := by
  unfold DataFlow.resolve
  dsimp only
  refine DefUse.none_not_mem_foldl (fun c _ du hdu => hdu) ?_
  refine DefUse.none_not_mem_foldl (fun t ht du hdu => ?_) h
  have hvar : t.var ≠ none := by
    split at ht
    · have hfield := (List.mem_filter.1 ht).2
      rw [Bool.and_eq_true] at hfield
      exact Option.isSome_iff_ne_none.1 hfield.2
    · cases ht
  exact DefUse.none_not_mem_define hdu hvar

theorem Resolved.analysis (h : fe.Resolved b) (c : Config) (cf : ControlFlow) :
    Analysis.Resolved ⟨c, fe.links, cf, DataFlow.solve fe b⟩ := by
  refine ⟨fun i hi => ?_, fun i hi => ?_, h.parents⟩
  · replace hi : i ∈ b.instrs := DataFlow.body_solve fe b ▸ hi
    show none ∉ ((DataFlow.solve fe b).defUse i.id).defs
    rw [DataFlow.defUse_solve hi]
    exact none_not_mem_resolve (h.facts i hi)
  · exact h.nodes i (DataFlow.body_solve fe b ▸ hi)

end FrontEnd

/-- Only a body without blocks has neither an entry nor an exit. -/
theorem ControlFlow.ofBody_ne_noBlocks {b : Body} (hne : b.blocks ≠ []) :
    ControlFlow.ofBody b ≠ .error .noBlocks := by
  have hempty : b.blocks.isEmpty = false := List.isEmpty_eq_false_iff.2 hne
  have hentry : ∃ entry, b.entry? = some entry := by
    unfold Body.entry?
    split
    · exact ⟨_, rfl⟩
    · rw [hempty]
      exact ⟨0, rfl⟩
  have hexit : ∃ exit, b.exit? = some exit := by
    unfold Body.exit?
    split
    · exact ⟨_, rfl⟩
    · rw [hempty]
      exact ⟨_, rfl⟩
  obtain ⟨entry, hentry⟩ := hentry
  obtain ⟨exit, hexit⟩ := hexit
  unfold ControlFlow.ofBody
  rw [hentry, hexit]
  split <;> exact nofun

/-- The control flow around a node is that of a body, or it is missing for a reason that is itself a
verdict. -/
theorem ControlFlow.around_cases {fe : FrontEnd}
    (h : ∀ fn b, fe.body fn = .ok b → b.blocks ≠ [] ∧ fe.Resolved b) (target : Node) :
    (∃ b cf, fe.Resolved b ∧ ofBody b = .ok cf ∧ around fe target = .ok cf) ∨
      ∃ e, e ≠ .noBlocks ∧ around fe target = .error e := by
  unfold around
  dsimp only
  split
  · exact .inr ⟨.noEnclosingFunction, nofun, rfl⟩
  · rename_i fn _
    split
    · rename_i cause _
      exact .inr ⟨.noBody cause, nofun, rfl⟩
    · rename_i b hb
      obtain ⟨hne, hres⟩ := h fn b hb
      cases hcf : ofBody b with
      | ok cf => exact .inl ⟨b, cf, hres, hcf, rfl⟩
      | error e =>
        refine .inr ⟨e, fun he => ofBody_ne_noBlocks hne ?_, rfl⟩
        rw [hcf, he]

/-- **Every value is decided** when the bodies of a program have blocks and all that is asked about
is resolved. -/
theorem Config.decide_ok {fe : FrontEnd}
    (h : ∀ fn b, fe.body fn = .ok b → b.blocks ≠ [] ∧ fe.Resolved b) (c : Config)
    (target : Node) : ∃ d, c.decide fe target = .ok d := by
  unfold Config.decide Analysis.around
  split
  · exact ⟨_, rfl⟩
  split
  · exact ⟨_, rfl⟩
  split
  · exact ⟨_, rfl⟩
  rcases ControlFlow.around_cases h target with ⟨b, cf, hres, hcf, hcf'⟩ | ⟨e, hne, he⟩
  · simp only [hcf', ControlFlow.body_eq hcf]
    split
    · exact ⟨_, rfl⟩
    · rename_i owner _
      obtain ⟨verdict, hverdict⟩ := (hres.analysis c cf).judge_ok owner target
      exact ⟨_, bind_eq_ok.2 ⟨verdict, hverdict, rfl⟩⟩
  · rw [he]
    cases e with
    | noBlocks => exact absurd rfl hne
    | noEnclosingFunction | noBody | exceptionRegions => exact ⟨_, rfl⟩

end AwaitLint
