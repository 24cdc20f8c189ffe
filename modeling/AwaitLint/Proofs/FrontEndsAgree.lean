import AwaitLint.Proofs.TreeWrites

/-!
# AwaitLint — two ways to read facts off a tree

A front end over registered bodies reads off a tree what a node writes and reads by a search with a
stack, and sorts the references that it finds. The front end of lowered functions walks the tree by
recursion and has more cases: functions within functions, addresses, assignments that also read. On
trees in which none of these occurs the two say the same, in the same order.

* **`preorder_inScope`** — without inner functions, the search lists the whole tree.
* **`withNesting_eq_preorder`** — and so does the walk, nothing being nested.
* **`addFacts_of_ordinary`** — at a node whose parent is ordinary, the cases of the walk come down to
  those of the search.
* **`frontEnds_agree`** — the headline, at any node; **`frontEnds_agree_root`** — at the root of a
  function, where less is asked.
-/

namespace AwaitLint

open Source Source.Function

namespace Node

variable {enter enter' : Node → Bool} {n m : Node}

/-! ## Trees without special cases -/

/-- No function lies strictly below the node. -/
def NoInnerFunction (n : Node) : Prop :=
  ∀ c ∈ n.children, ∀ m, Reaches Child c m → m.kind ≠ .func

instance : Decidable n.NoInnerFunction :=
  decidable_of_iff (∀ c ∈ n.children, ∀ m ∈ c.preorder fun _ => true, m.kind ≠ .func) (by
    simp only [mem_preorder_iff, NoInnerFunction])

/-- The node does not take an address, and if it is an assignment it only writes. -/
structure Ordinary (n : Node) : Prop where
  noAddress : ¬ (n.kind = .other ∧ n.name = "&")
  onlyWrites : n.kind = .assign → n.name ∈ ["=", ":=", "var", "range"]

instance : Decidable n.Ordinary :=
  decidable_of_iff (¬ (n.kind = .other ∧ n.name = "&") ∧
    (n.kind = .assign → n.name ∈ ["=", ":=", "var", "range"]))
    ⟨fun h => ⟨h.1, h.2⟩, fun h => ⟨h.noAddress, h.onlyWrites⟩⟩

/-! ## The order of the search -/

theorem visit_congr {stack : List Node}
    (h : ∀ r ∈ stack, ∀ m, Reaches Child r m → enter m = enter' m) :
    visit enter stack = visit enter' stack := by
  induction stack using visit.induct enter with
  | case1 => rw [visit, visit]
  | case2 n stack henter ih =>
    have hself := h n List.mem_cons_self n (Reaches.refl _ n)
    rw [visit, visit, if_pos henter, if_pos (hself ▸ henter), ih]
    intro r hr m hm
    rcases List.mem_append.1 hr with hr | hr
    · exact h n List.mem_cons_self m (Reaches.head_iff.2 (.inr ⟨r, hr, hm⟩))
    · exact h r (List.mem_cons_of_mem _ hr) m hm
  | case3 n stack hnot ih =>
    have hself := h n List.mem_cons_self n (Reaches.refl _ n)
    rw [visit, visit, if_neg hnot, if_neg (hself ▸ hnot), ih]
    exact fun r hr m hm => h r (List.mem_cons_of_mem _ hr) m hm

theorem preorder_inScope (h : n.NoInnerFunction) :
    n.preorder n.inScope = n.preorder fun _ => true := by
  refine visit_congr fun r hr m hm => ?_
  rw [List.mem_singleton.1 hr] at hm
  rcases Reaches.head_iff.1 hm with rfl | ⟨c, hc, hcm⟩
  · -- the root is entered even if it is a function
    simp [inScope, same]
  · simp [inScope, h c hc m hcm]

end Node

namespace Source.Function

open Node

variable {links : Links} {n m : Node}

theorem withNesting_eq_preorder_below (root : Nat) (n : Node)
    (h : ∀ m, Reaches Child n m → m.kind ≠ .func) :
    withNesting root false n = (n.preorder fun _ => true).map fun m => (m, false) := by
  have hself : n.kind ≠ .func := h n (Reaches.refl _ n)
  rw [withNesting_eq, preorder_eq, decide_eq_false hself, Bool.false_and, Bool.or_false,
    List.map_cons, List.map_flatMap]
  refine congrArg _ (List.flatMap_congr fun c hc => ?_)
  exact withNesting_eq_preorder_below root c fun m hm => h m (Reaches.head_iff.2 (.inr ⟨c, hc, hm⟩))
termination_by n.size
decreasing_by exact size_lt_of_mem_children hc

theorem withNesting_eq_preorder (h : n.NoInnerFunction) :
    withNesting n.id false n = (n.preorder fun _ => true).map fun m => (m, false) := by
  rw [withNesting_eq, preorder_eq, decide_eq_false (not_not_intro rfl), Bool.and_false,
    Bool.or_false, List.map_cons, List.map_flatMap]
  exact congrArg _ (List.flatMap_congr fun c hc => withNesting_eq_preorder_below _ c (h c hc))

/-! ## The facts of one node -/

section OneNode

variable (hparent : ∀ p, links.parent? m = some p → p.Ordinary)
include hparent

theorem only_written_of_isAssignTarget (h : links.isAssignTarget m = true) :
    (links.parent? m).any (fun p => plainAssignments.contains p.name) = true := by
  unfold Links.isAssignTarget at h
  cases hp : links.parent? m with
  | none =>
    rw [hp] at h
    cases h
  | some p =>
    rw [hp] at h
    have hkind : p.kind = .assign := of_decide_eq_true (Bool.and_eq_true_iff.1 h).1
    exact List.contains_iff_mem.2 ((hparent p hp).onlyWrites hkind)

theorem not_any_isAddressOf : (links.parent? m).any isAddressOf = false := by
  cases hp : links.parent? m with
  | none => rfl
  | some p =>
    have hnot := (hparent p hp).noAddress
    show (decide (p.kind = .other) && p.name == "&") = false
    rw [Bool.eq_false_iff, ne_eq, Bool.and_eq_true, decide_eq_true_eq, beq_iff_eq]
    exact hnot

end OneNode

theorem addFacts_of_ordinary (du : DefUse) (hvar : m.kind = .localRef → ∃ v, m.var = some v)
    (hparent : m.kind = .localRef → ∀ p, links.parent? m = some p → p.Ordinary) :
    addFacts links du m false
      = if m.kind = .localRef then
          if links.isAssignTarget m then du.define m.var else du.use m.var
        else du := by
  unfold addFacts
  by_cases hkind : m.kind = .localRef
  · obtain ⟨v, hv⟩ := hvar hkind
    rw [if_neg (by simp [hkind, hv]), if_neg Bool.false_ne_true, if_pos hkind]
    split
    · rename_i htarget
      exact if_pos (only_written_of_isAssignTarget (hparent hkind) htarget)
    · rw [not_any_isAddressOf (hparent hkind)]
      exact if_neg Bool.false_ne_true
  · rw [if_pos (by simp [hkind]), if_neg hkind]

/-! ## The facts of a tree -/

/-- The links of the nodes below `n` lead to nodes of its tree. -/
def LinkedWithin (links : Links) (n : Node) : Prop :=
  ∀ p c q, Reaches Child n p → c ∈ p.children → links.parent? c = some q → Reaches Child n q

/-- In a linked tree without repeated identities, a link leads to the node above. -/
theorem linkedWithin_of_reaches {root : Node} (hids : root.ids.Nodup) (hn : Reaches Child root n) :
    LinkedWithin (({} : Links).link root) n := by
  intro p c q hp hc hq
  rw [Links.parent?_of_child hids (hn.trans hp) hc] at hq
  exact Option.some.inj hq ▸ hp

theorem treeDefUse_eq_defUseIn (hlinked : LinkedWithin links n)
    (hself : n.kind = .localRef → ∀ p, links.parent? n = some p → p.Ordinary)
    (hfunctions : n.NoInnerFunction) (hordinary : ∀ m, Reaches Child n m → m.Ordinary)
    (hresolved : n.Resolved) :
    Registry.treeDefUse links n = defUseIn links n := by
  have hparent : ∀ m, Reaches Child n m → m.kind = .localRef →
      ∀ p, links.parent? m = some p → p.Ordinary := by
    intro m hm hkind p hp
    rcases Reaches.tail_iff.1 hm with rfl | ⟨q, hq, hc⟩
    · exact hself hkind p hp
    · exact hordinary p (hlinked q m p hq hc hp)
  have hnode : ∀ (du : DefUse), ∀ m ∈ n.preorder (fun _ => true),
      (if decide (m.kind = .localRef) = true then
          if links.isAssignTarget m then du.define m.var else du.use m.var
        else du) = addFacts links du m false := by
    intro du m hm
    have hm := mem_preorder_iff.1 hm
    rw [addFacts_of_ordinary du (hresolved m hm) (hparent m hm)]
    simp only [decide_eq_true_eq]
  rw [Registry.treeDefUse, findAll, preorder_inScope hfunctions, List.foldl_filter, defUseIn_eq,
    withNesting_eq_preorder hfunctions, List.foldl_map]
  exact List.foldl_ext _ _ _ hnode

theorem defUse_frontEnd_of_lookup {r : Registry} (hgiven : r.given.lookup n.id = none) :
    (r.frontEnd links).defUse n = Registry.treeDefUse links n := by
  show (r.given.lookup n.id).getD (Registry.treeDefUse links n) = _
  rw [hgiven, Option.getD_none]

/-- **The front ends agree.** Take a linked tree with no function strictly below its root, without
addresses and with plain assignments only, and a variable for every local reference. A front end over
registered bodies, with no facts given for the root, and the front end of a lowered function say that
the root writes the same variables and reads the same variables, in the same order. If the root is
itself a reference and stands under another node, that node is to be ordinary as well. -/
theorem frontEnds_agree (r : Registry) (f : Function) (n : Node)
    (hgiven : r.given.lookup n.id = none) (hlinked : LinkedWithin f.links n)
    (hself : n.kind = .localRef → ∀ p, f.links.parent? n = some p → p.Ordinary)
    (hfunctions : n.NoInnerFunction) (hordinary : ∀ m, Reaches Child n m → m.Ordinary)
    (hresolved : n.Resolved) :
    (r.frontEnd f.links).defUse n = f.frontEnd.defUse n := by
  rw [defUse_frontEnd_of_lookup hgiven]
  exact treeDefUse_eq_defUseIn hlinked hself hfunctions hordinary hresolved

/-- **At the root of a function.** If the tree was linked on its own, every link leads to a node of it.
So nothing is asked of what stands above the root, and identities may be repeated. -/
theorem frontEnds_agree_root (r : Registry) (f : Function)
    (hlinks : f.links = ({} : Links).link f.root) (hgiven : r.given.lookup f.root.id = none)
    (hfunctions : f.root.NoInnerFunction)
    (hordinary : ∀ m, Reaches Child f.root m → m.Ordinary) (hresolved : f.root.Resolved) :
    (r.frontEnd f.links).defUse f.root = f.frontEnd.defUse f.root := by
  have hwithin : ∀ m p, f.links.parent? m = some p → Reaches Child f.root p :=
    fun _ _ hp => Links.reaches_of_parent? (hlinks ▸ hp)
  rw [defUse_frontEnd_of_lookup hgiven]
  exact treeDefUse_eq_defUseIn (fun _ c q _ _ hq => hwithin c q hq)
    (fun _ p hp => hordinary p (hwithin _ p hp)) hfunctions hordinary hresolved

/-! ### A function with two statements

`x := f(y)` and then `g(x, y)`, and beside them `x += y` as a tree of its own. -/

namespace TwoStatements

def x : Variable := ⟨0, "x", .local, .unknown⟩

def y : Variable := ⟨1, "y", .param, .unknown⟩

def fetch : Node :=
  .mk { id := 2, kind := .assign, name := ":=" } none [.ref 3 x]
    [.mk { id := 4, kind := .call, name := "f" } none [] [] [.ref 5 y]] []

def report : Node :=
  .mk { id := 6, kind := .exprStmt }
    (some (.mk { id := 7, kind := .call, name := "g" } none [] [] [.ref 8 x, .ref 9 y])) [] [] []

def func : Node := .mk { id := 1, kind := .func, name := "h" } none [] [] [fetch, report]

def lowered : Function := ⟨func, {}, ({} : Links).link func⟩

theorem ordinary (m : Node) (hm : Reaches Child func m) : m.Ordinary := by
  have hall : ∀ m ∈ func.preorder fun _ => true, m.Ordinary := by decide +kernel
  exact hall m (mem_preorder_of_reaches hm)

end TwoStatements

open TwoStatements in
theorem func_facts_agree :
    LinkedWithin lowered.links func ∧ func.NoInnerFunction ∧
    (∀ m, Reaches Child func m → m.Ordinary) ∧ func.Resolved ∧
    (Registry.frontEnd {} lowered.links).defUse func = lowered.frontEnd.defUse func ∧
    lowered.frontEnd.defUse func = ⟨[some x], [some y, some x]⟩ := by
  have hlinked : LinkedWithin lowered.links func :=
    linkedWithin_of_reaches (by decide +kernel) (Reaches.refl _ func)
  have hfunctions : func.NoInnerFunction := by decide +kernel
  have hresolved : func.Resolved := .of_preorder (by decide +kernel)
  exact ⟨hlinked, hfunctions, ordinary, hresolved,
    frontEnds_agree {} lowered func rfl hlinked nofun hfunctions ordinary hresolved,
    by decide +kernel⟩

open TwoStatements in
/-- The target of `x += y`, taken alone, is read by the one and not by the other. -/
example :
    let add : Node := .mk { id := 1, kind := .assign, name := "+=" } none [.ref 2 x] [.ref 3 y] []
    (Registry.frontEnd {} (({} : Links).link add)).defUse (.ref 2 x) = ⟨[some x], []⟩ ∧
      defUseIn (({} : Links).link add) (.ref 2 x) = ⟨[some x], [some x]⟩ := by
  decide +kernel

end Source.Function

end AwaitLint
