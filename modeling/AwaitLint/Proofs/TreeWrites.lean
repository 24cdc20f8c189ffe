import AwaitLint.Proofs.FlowSimulation

/-!
# AwaitLint — what a tree says is written

The front end of lowered functions reads off the tree which locals a node writes: it goes by the
kinds of nodes and the spelling of operators (`Function.addFacts`). Here the walk over the tree is
taken apart: what is left is that some node, outside functions nested in the tree, assigns to a
reference or takes its address.

* **`Node.Writes`** — the local is written within the tree.
* **`mem_defs_iff`** — the locals reported for a node of a tree without repeated identities.
* **`nodup_defs`** — none is reported twice.
-/

namespace AwaitLint

open Source Source.Function

/-! ## Written locals -/

namespace Node

variable {w : Variable} {n m p c : Node}

/-- The node is a reference to the local `w`. -/
def IsLocal (w : Variable) (n : Node) : Prop := n.kind = .localRef ∧ n.var = some w

/-- `c` is a child of `p` and no function. -/
def InnerChild (p c : Node) : Prop := c ∈ p.children ∧ c.kind ≠ .func

/-- The node assigns to its child, or takes the address of it. -/
def WritesChild (p c : Node) : Prop :=
  p.kind = .assign ∧ c ∈ p.targets ∨ isAddressOf p = true ∧ c ∈ p.children

/-- A node of the tree, outside functions nested in it, writes a reference to `w`. -/
def Writes (w : Variable) (n : Node) : Prop :=
  ∃ p c, Reaches InnerChild n p ∧ p.WritesChild c ∧ c.IsLocal w

theorem WritesChild.mem_children (h : p.WritesChild c) : c ∈ p.children := by
  rcases h with ⟨-, htarget⟩ | ⟨-, hchild⟩
  · exact mem_children_of_mem_targets htarget
  · exact hchild

theorem InnerChild.reaches (h : Reaches InnerChild n m) : Reaches Child n m := by
  obtain ⟨q, hq⟩ := h
  exact ⟨q, hq.mono fun hstep => hstep.1⟩

/-- What a tree writes is written by its root, or by a child that is no function. -/
theorem writes_iff :
    n.Writes w ↔ (∃ c, n.WritesChild c ∧ c.IsLocal w) ∨
      ∃ c ∈ n.children, c.kind ≠ .func ∧ c.Writes w := by
  constructor
  · rintro ⟨p, c, hp, hwrites, hlocal⟩
    rcases Reaches.head_iff.1 hp with rfl | ⟨m, ⟨hm, hkind⟩, hmp⟩
    · exact .inl ⟨c, hwrites, hlocal⟩
    · exact .inr ⟨m, hm, hkind, p, c, hmp, hwrites, hlocal⟩
  · rintro (⟨c, hwrites, hlocal⟩ | ⟨m, hm, hkind, p, c, hmp, hwrites, hlocal⟩)
    · exact ⟨n, c, Reaches.refl _ n, hwrites, hlocal⟩
    · exact ⟨p, c, Reaches.head_iff.2 (.inr ⟨m, ⟨hm, hkind⟩, hmp⟩), hwrites, hlocal⟩

end Node

/-! ## The walk -/

namespace DefUse

variable {du : DefUse} {v u : Option Variable}

theorem mem_defs_define : v ∈ (du.define u).defs ↔ v ∈ du.defs ∨ v = u := by
  show v ∈ insertOnce du.defs u ↔ _
  unfold insertOnce
  split
  · rename_i hu
    refine ⟨.inl, fun h => h.elim id fun heq => ?_⟩
    exact heq ▸ hu
  · rw [List.mem_append, List.mem_singleton]

theorem nodup_defs_define (h : du.defs.Nodup) : (du.define u).defs.Nodup := by
  show (insertOnce du.defs u).Nodup
  unfold insertOnce
  split
  · exact h
  · rename_i hu
    refine List.nodup_append.2 ⟨h, List.nodup_singleton u, fun x hx y hy heq => hu ?_⟩
    rw [List.mem_singleton] at hy
    exact hy ▸ heq ▸ hx

end DefUse

namespace Source.Function

open Node

variable {links : Links} {du : DefUse} {w : Variable} {root n m : Node} {nested : Bool}

/-- The links say that the node is assigned or that its address is taken. -/
def LinkedWrite (links : Links) (n : Node) : Prop :=
  links.isAssignTarget n = true ∨ (links.parent? n).any isAddressOf = true

/-- A node adds its variable to what is written, if it is a reference that is written outside nested
functions; else it adds nothing. -/
theorem defs_addFacts (links : Links) (du : DefUse) (n : Node) (nested : Bool) :
    (nested = false ∧ n.kind = .localRef ∧ n.var.isSome = true ∧ LinkedWrite links n ∧
      (addFacts links du n nested).defs = (du.define n.var).defs) ∨
    (¬ (nested = false ∧ n.kind = .localRef ∧ n.var.isSome = true ∧ LinkedWrite links n) ∧
      (addFacts links du n nested).defs = du.defs) := by
  unfold addFacts
  dsimp only
  split
  · rename_i hother
    refine .inr ⟨fun ⟨_, hkind, hvar, _⟩ => ?_, rfl⟩
    simp [hkind, Option.isSome_iff_ne_none.1 hvar] at hother
  · rename_i href
    obtain ⟨hkind, hvar⟩ : n.kind = .localRef ∧ n.var.isSome = true := by
      simpa [Option.isSome_iff_ne_none] using href
    split
    · rename_i hnested
      refine .inr ⟨fun h => ?_, ?_⟩
      · rw [h.1] at hnested
        cases hnested
      · split <;> rfl
    · rename_i houtside
      have houtside : nested = false := Bool.eq_false_iff.2 houtside
      split
      · rename_i htarget
        refine .inl ⟨houtside, hkind, hvar, .inl htarget, ?_⟩
        split <;> rfl
      · rename_i htarget
        split
        · rename_i haddress
          exact .inl ⟨houtside, hkind, hvar, .inr haddress, rfl⟩
        · rename_i haddress
          exact .inr ⟨fun h => h.2.2.2.elim htarget haddress, rfl⟩

theorem mem_defs_addFacts :
    some w ∈ (addFacts links du n nested).defs ↔
      some w ∈ du.defs ∨ nested = false ∧ n.IsLocal w ∧ LinkedWrite links n := by
  rcases defs_addFacts links du n nested with ⟨hnested, hkind, -, hwrite, heq⟩ | ⟨hnot, heq⟩
  · rw [heq, DefUse.mem_defs_define]
    refine or_congr_right ⟨fun hw => ⟨hnested, ⟨hkind, hw.symm⟩, hwrite⟩, fun hw => ?_⟩
    exact hw.2.1.2.symm
  · rw [heq]
    refine ⟨.inl, fun hw => hw.resolve_right fun ⟨hnested, ⟨hkind, hvar⟩, hwrite⟩ => hnot ?_⟩
    exact ⟨hnested, hkind, by rw [hvar]; rfl, hwrite⟩

theorem nodup_defs_addFacts (h : du.defs.Nodup) : (addFacts links du n nested).defs.Nodup := by
  rcases defs_addFacts links du n nested with ⟨-, -, -, -, heq⟩ | ⟨-, heq⟩
  · rw [heq]
    exact DefUse.nodup_defs_define h
  · rw [heq]
    exact h

/-- The walk lists the root, and then what it lists of the children. -/
theorem withNesting_eq (root : Nat) (nested : Bool) (n : Node) :
    withNesting root nested n
      = (n, nested || (decide (n.kind = .func) && decide (n.id ≠ root))) ::
        n.children.flatMap
          (withNesting root (nested || (decide (n.kind = .func) && decide (n.id ≠ root)))) := by
  rw [withNesting]
  simp

/-- Inside a nested function everything is nested. -/
theorem nested_of_mem_withNesting {root : Nat} (n : Node)
    (h : (m, nested) ∈ withNesting root true n) : nested = true := by
  rw [withNesting_eq, List.mem_cons, Bool.true_or] at h
  rcases h with heq | h
  · exact (Prod.mk.inj heq).2
  · obtain ⟨c, hc, hm⟩ := List.mem_flatMap.1 h
    exact nested_of_mem_withNesting c hm
termination_by n.size
decreasing_by exact size_lt_of_mem_children hc

/-- Below the root, what is not nested is reached along children that are no functions. -/
theorem mem_withNesting_below {root : Nat} (n : Node) (hroot : ∀ c, Reaches Child n c → c.id ≠ root) :
    (m, false) ∈ withNesting root false n ↔ n.kind ≠ .func ∧ Reaches InnerChild n m := by
  have hself : n.id ≠ root := hroot n (Reaches.refl _ n)
  rw [withNesting_eq, List.mem_cons, Bool.false_or, decide_eq_true hself, Bool.and_true]
  by_cases hkind : n.kind = .func
  · rw [decide_eq_true hkind]
    refine ⟨fun h => ?_, fun h => absurd hkind h.1⟩
    rcases h with heq | h
    · cases (Prod.mk.inj heq).2
    · obtain ⟨c, -, hm⟩ := List.mem_flatMap.1 h
      cases nested_of_mem_withNesting c hm
  · rw [decide_eq_false hkind, List.mem_flatMap, Reaches.head_iff, and_iff_right hkind]
    refine or_congr ⟨fun h => (Prod.mk.inj h).1.symm, fun h => by rw [h]⟩ ?_
    constructor
    · rintro ⟨c, hc, hm⟩
      have hbelow := fun d hd => hroot d (Reaches.head_iff.2 (.inr ⟨c, hc, hd⟩))
      obtain ⟨hfunc, hreach⟩ := (mem_withNesting_below c hbelow).1 hm
      exact ⟨c, ⟨hc, hfunc⟩, hreach⟩
    · rintro ⟨c, ⟨hc, hfunc⟩, hreach⟩
      have hbelow := fun d hd => hroot d (Reaches.head_iff.2 (.inr ⟨c, hc, hd⟩))
      exact ⟨c, hc, (mem_withNesting_below c hbelow).2 ⟨hfunc, hreach⟩⟩
termination_by n.size
decreasing_by all_goals exact size_lt_of_mem_children hc

/-- The root of the walk may be a function itself. -/
theorem mem_withNesting (hids : n.ids.Nodup) :
    (m, false) ∈ withNesting n.id false n ↔ Reaches InnerChild n m := by
  have hbelow : ∀ c ∈ n.children, ∀ d, Reaches Child c d → d.id ≠ n.id := by
    intro c hc d hd
    rcases Reaches.tail_iff.1 hd with rfl | ⟨p, hp, hpd⟩
    · exact Links.child_ne_root hids (Reaches.refl _ n) hc
    · exact Links.child_ne_root hids (Reaches.head_iff.2 (.inr ⟨c, hc, hp⟩)) hpd
  rw [withNesting_eq, List.mem_cons, Bool.false_or, decide_eq_false (not_not_intro rfl),
    Bool.and_false, List.mem_flatMap, Reaches.head_iff]
  refine or_congr ⟨fun h => (Prod.mk.inj h).1.symm, fun h => by rw [h]⟩ (exists_congr fun c => ?_)
  constructor
  · rintro ⟨hc, hm⟩
    obtain ⟨hfunc, hreach⟩ := (mem_withNesting_below c (hbelow c hc)).1 hm
    exact ⟨⟨hc, hfunc⟩, hreach⟩
  · rintro ⟨⟨hc, hfunc⟩, hreach⟩
    exact ⟨hc, (mem_withNesting_below c (hbelow c hc)).2 ⟨hfunc, hreach⟩⟩

/-! ## The facts on a node -/

theorem defUseIn_eq (links : Links) (n : Node) :
    defUseIn links n
      = (withNesting n.id false n).foldl (fun du e => addFacts links du e.1 e.2) {} := rfl

theorem mem_defs_foldl {l : List (Node × Bool)} {du : DefUse} :
    some w ∈ (l.foldl (fun du e => addFacts links du e.1 e.2) du).defs ↔
      some w ∈ du.defs ∨ ∃ m, (m, false) ∈ l ∧ m.IsLocal w ∧ LinkedWrite links m := by
  induction l generalizing du with
  | nil => simp
  | cons e l ih =>
    obtain ⟨c, nested⟩ := e
    rw [List.foldl_cons, ih, mem_defs_addFacts, or_assoc]
    refine or_congr_right ?_
    constructor
    · rintro (⟨rfl, hlocal⟩ | ⟨m, hm, hlocal⟩)
      · exact ⟨c, List.mem_cons_self, hlocal⟩
      · exact ⟨m, List.mem_cons_of_mem _ hm, hlocal⟩
    · rintro ⟨m, hm, hlocal⟩
      rcases List.mem_cons.1 hm with heq | hm
      · obtain ⟨rfl, rfl⟩ := Prod.mk.inj heq
        exact .inl ⟨rfl, hlocal⟩
      · exact .inr ⟨m, hm, hlocal⟩

theorem nodup_defs (links : Links) (n : Node) : (defUseIn links n).defs.Nodup := by
  have hfold : ∀ (l : List (Node × Bool)) (du : DefUse), du.defs.Nodup →
      (l.foldl (fun du e => addFacts links du e.1 e.2) du).defs.Nodup := by
    intro l
    induction l with
    | nil => exact fun _ h => h
    | cons e l ih => exact fun du h => ih _ (nodup_defs_addFacts h)
  exact hfold _ _ List.nodup_nil

/-- In a linked tree, a node is written by its parent. -/
theorem linkedWrite_iff (hids : root.ids.Nodup) (hn : Reaches Child root n) (hm : m ∈ n.children) :
    LinkedWrite (({} : Links).link root) m ↔ n.WritesChild m := by
  have hparent := Links.parent?_of_child (l := {}) hids hn hm
  have htarget : m.isOneOf n.targets = true ↔ m ∈ n.targets := by
    constructor
    · intro h
      obtain ⟨t, ht, hsame⟩ := List.any_eq_true.1 h
      have ht' : Reaches Child root t := hn.tail (mem_children_of_mem_targets ht)
      exact Links.eq_of_id_eq hids ht' (hn.tail hm) (beq_iff_eq.1 hsame) ▸ ht
    · exact fun h => List.any_eq_true.2 ⟨m, h, beq_self_eq_true m.id⟩
  unfold LinkedWrite Links.isAssignTarget
  rw [hparent]
  show (decide (n.kind = .assign) && m.isOneOf n.targets) = true ∨ isAddressOf n = true ↔ _
  rw [Bool.and_eq_true, decide_eq_true_eq, htarget]
  exact or_congr_right (and_iff_left hm).symm

/-- **The locals reported as written**: those that the tree of the node writes, and its own if the
node is itself a reference that is written. -/
theorem mem_defs_iff (hids : root.ids.Nodup) (hn : Reaches Child root n) :
    some w ∈ (defUseIn (({} : Links).link root) n).defs ↔
      n.Writes w ∨ n.IsLocal w ∧ LinkedWrite (({} : Links).link root) n := by
  have hids' : n.ids.Nodup := hids.sublist (Links.ids_sublist_of_reaches hn)
  rw [defUseIn_eq, mem_defs_foldl, or_iff_right (List.not_mem_nil)]
  simp only [mem_withNesting hids']
  constructor
  · rintro ⟨m, hm, hlocal, hwrite⟩
    rcases Reaches.tail_iff.1 hm with rfl | ⟨p, hp, hpm, -⟩
    · exact .inr ⟨hlocal, hwrite⟩
    · have hroot : Reaches Child root p := hn.trans (InnerChild.reaches hp)
      exact .inl ⟨p, m, hp, (linkedWrite_iff hids hroot hpm).1 hwrite, hlocal⟩
  · rintro (⟨p, m, hp, hwrites, hlocal⟩ | ⟨hlocal, hwrite⟩)
    · have hroot : Reaches Child root p := hn.trans (InnerChild.reaches hp)
      have hfunc : m.kind ≠ .func := by
        rw [hlocal.1]
        decide
      exact ⟨m, hp.tail ⟨hwrites.mem_children, hfunc⟩, hlocal,
        (linkedWrite_iff hids hroot hwrites.mem_children).2 hwrites⟩
    · exact ⟨n, Reaches.refl _ n, hlocal, hwrite⟩

end Source.Function

end AwaitLint
