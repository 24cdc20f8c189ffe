import AwaitLint.Proofs.LinkedTree
import AwaitLint.Proofs.ReachingUses

/-!
# AwaitLint — searching down agrees with climbing up

`Node.contains` searches the tree below a node and stops at functions, though not at the node that
it starts from. `Links.parent?` climbs from a node, and `Links.enclosingFunc?` stops at functions
on the way. This module shows that the two agree on every pair of nodes of a linked tree.

* **`Node.mem_preorder_iff_walk`** — a walk lists the nodes to which a path leads on which every
  node but the last is entered.
* **`Links.walk_child_iff`** — the paths down a tree are the climbs along its links, turned round.
  The way up from the root has to end: a climb that passed the root could otherwise come back to
  the tree.
* **`search_agrees_with_climb`** — the headline: what is contained, and what this means for the
  instruction that owns a node.
-/

namespace AwaitLint

/-! ## Paths down -/

namespace Node

variable {enter : Node → Bool} {root n m : Node}

/-- A walk lists what lies below entered nodes only. -/
theorem mem_preorder_iff_walk :
    m ∈ n.preorder enter ↔
      ∃ path, Walk Child n m (path ++ [m]) ∧ ∀ x ∈ path, enter x = true := by
  constructor
  · intro hm
    induction hn : n.size using Nat.strongRecOn generalizing n with
    | ind k ih =>
      subst hn
      rw [preorder_eq_cons] at hm
      rcases List.mem_cons.1 hm with rfl | hm
      · exact ⟨[], .single m, nofun⟩
      · split at hm
        · rename_i henter
          obtain ⟨c, hc, hm⟩ := List.mem_flatMap.1 hm
          obtain ⟨path, hpath, hall⟩ := ih _ (size_lt_of_mem_children hc) hm rfl
          exact ⟨n :: path, .cons hc hpath, List.forall_mem_cons.2 ⟨henter, hall⟩⟩
        · cases hm
  · rintro ⟨path, hpath, hall⟩
    induction path generalizing n with
    | nil =>
      obtain ⟨_, heq⟩ := hpath.exists_eq_cons
      rw [(List.cons.inj heq).1, preorder_eq_cons]
      exact List.mem_cons_self
    | cons x path ih =>
      obtain ⟨rfl, c, edge, rest⟩ := hpath.uncons (List.append_ne_nil_of_right_ne_nil _ nofun)
      obtain ⟨henter, hall⟩ := List.forall_mem_cons.1 hall
      rw [preorder_eq_cons, if_pos henter]
      exact List.mem_cons_of_mem _ (List.mem_flatMap.2 ⟨c, edge, ih rest hall⟩)

theorem contains_iff_mem :
    n.contains m = true ↔ ∃ x ∈ n.preorder n.inScope, m.id = x.id := by
  rw [contains, find?_eq_find?_preorder, List.find?_isSome]
  simp [same]

theorem size_le_of_reaches (h : Reaches Child n m) : m.size ≤ n.size := by
  obtain ⟨path, hpath⟩ := h
  induction hpath with
  | single => exact Nat.le_refl _
  | cons edge _ ih => exact ih.trans (size_lt_of_mem_children edge).le

/-- What lies strictly below a node of a tree has another identity. -/
theorem id_ne_of_below (hids : root.ids.Nodup) (hn : Reaches Child root n) {c : Node}
    (hc : Child n c) (hm : Reaches Child c m) : m.id ≠ n.id := by
  intro hid
  have hlt := (size_le_of_reaches hm).trans_lt (size_lt_of_mem_children hc)
  rw [Links.eq_of_id_eq hids (hn.trans (Reaches.head_iff.2 (.inr ⟨c, hc, hm⟩))) hn hid] at hlt
  exact Nat.lt_irrefl _ hlt

/-- A search finds a node of its tree if no function lies on the path in between. -/
theorem contains_iff_walk (hids : root.ids.Nodup) (hn : Reaches Child root n)
    (hm : Reaches Child root m) :
    n.contains m = true ↔
      m = n ∨ ∃ inner, Walk Child n m (n :: (inner ++ [m])) ∧ ∀ x ∈ inner, x.kind ≠ .func := by
  rw [contains_iff_mem]
  constructor
  · rintro ⟨x, hx, hid⟩
    rw [← Links.eq_of_id_eq hids hm (hn.trans (reaches_of_mem_preorder hx)) hid] at hx
    obtain ⟨path, hpath, hall⟩ := mem_preorder_iff_walk.1 hx
    cases path with
    | nil =>
      obtain ⟨_, heq⟩ := hpath.exists_eq_cons
      exact .inl (List.cons.inj heq).1
    | cons y inner =>
      obtain ⟨rfl, c, edge, rest⟩ := hpath.uncons (List.append_ne_nil_of_right_ne_nil _ nofun)
      refine .inr ⟨inner, hpath, fun x hx => ?_⟩
      -- a node below `n` is not `n`, so it is entered only if it is no function
      obtain ⟨_, _, -, hto, -⟩ := rest.split (List.mem_append_left _ hx)
      have hne := id_ne_of_below hids hn edge ⟨_, hto⟩
      have henter := hall x (List.mem_cons_of_mem _ hx)
      simpa [inScope, same, hne] using henter
  · rintro (rfl | ⟨inner, hpath, hall⟩)
    · refine ⟨m, ?_, rfl⟩
      rw [preorder_eq_cons]
      exact List.mem_cons_self
    · refine ⟨m, mem_preorder_iff_walk.2 ⟨n :: inner, hpath, ?_⟩, rfl⟩
      refine List.forall_mem_cons.2 ⟨by simp [inScope, same], fun x hx => ?_⟩
      simp [inScope, hall x hx]

end Node

/-! ## Climbs -/

namespace Links

variable {l : Links} {root n m : Node} {path way inner : List Node}

theorem exists_wayUp (hids : root.ids.Nodup) (hway : (l.link root).WayUp root way)
    (hn : Reaches Node.Child root n) : ∃ way', (l.link root).WayUp n way' := by
  obtain ⟨path, hpath⟩ := hn
  exact ⟨_, .of_walk (walk_above hids (Reaches.refl _ root) hpath.reverse) hway⟩

/-- A climb between nodes of a tree stays in the tree. -/
theorem walk_child_of_above (hids : root.ids.Nodup) (hway : (l.link root).WayUp root way)
    (hm : Reaches Node.Child root m) (hn : Reaches Node.Child root n)
    (h : Walk (l.link root).Above m n path) : Walk (fun a b => Node.Child b a) m n path := by
  induction h with
  | single v => exact .single v
  | @cons u v n path edge rest ih =>
    rcases Reaches.tail_iff.1 hm with rfl | ⟨p, hp, hc⟩
    · -- beyond the root there is no way back to `n`, from where the root is reached
      obtain ⟨down, hdown⟩ := hn
      have hup := walk_above (l := l) hids (Reaches.refl _ root) hdown.reverse
      exact absurd ⟨_, rest.append hup⟩ (hway.not_reaches_back edge)
    · obtain rfl := Option.some.inj (edge.symm.trans (parent?_of_child hids hp hc))
      exact .cons hc (ih hp hn)

theorem walk_child_iff (hids : root.ids.Nodup) (hway : (l.link root).WayUp root way)
    (hm : Reaches Node.Child root m) (hn : Reaches Node.Child root n) :
    Walk Node.Child n m path ↔ Walk (l.link root).Above m n path.reverse := by
  constructor
  · intro h
    exact walk_above hids hn h.reverse
  · intro h
    have hdown := (walk_child_of_above hids hway hm hn h).reverse
    rwa [List.reverse_reverse] at hdown

theorem contains_iff_climb (hids : root.ids.Nodup) (hway : (l.link root).WayUp root way)
    (hn : Reaches Node.Child root n) (hm : Reaches Node.Child root m) :
    n.contains m = true ↔
      m = n ∨ ∃ inner, Walk (l.link root).Above m n (m :: (inner ++ [n])) ∧
        ∀ x ∈ inner, x.kind ≠ .func := by
  have hturn (inner : List Node) :
      (n :: (inner ++ [m])).reverse = m :: (inner.reverse ++ [n]) := by simp
  rw [Node.contains_iff_walk hids hn hm]
  refine or_congr_right ⟨?_, ?_⟩
  · rintro ⟨inner, hpath, hall⟩
    rw [walk_child_iff hids hway hm hn, hturn] at hpath
    exact ⟨inner.reverse, hpath, fun x hx => hall x (List.mem_reverse.1 hx)⟩
  · rintro ⟨inner, hpath, hall⟩
    refine ⟨inner.reverse, ?_, fun x hx => hall x (List.mem_reverse.1 hx)⟩
    rw [walk_child_iff hids hway hm hn, hturn, List.reverse_reverse]
    exact hpath

/-- Between a node and a node above it that is no function, no function is left out. -/
theorem enclosingFunc?_eq_of_walk (hway : l.WayUp n way)
    (h : Walk l.Above m n (m :: (inner ++ [n]))) (hinner : ∀ x ∈ inner, x.kind ≠ .func)
    (hkind : n.kind ≠ .func) : l.enclosingFunc? m = l.enclosingFunc? n := by
  have hnone : (inner ++ [n]).find? (fun p => p.kind = .func) = none := by
    rw [List.find?_eq_none]
    intro x hx
    rcases List.mem_append.1 hx with hx | hx
    · simp [hinner x hx]
    · simp [List.mem_singleton.1 hx, hkind]
  unfold enclosingFunc?
  rw [(WayUp.of_walk h hway).ancestors_eq, hway.ancestors_eq, List.tail_cons, List.find?_append,
    hnone]
  rfl

end Links

/-! ## The headline -/

/-- **Searching down agrees with climbing up.** Link a tree in which no identity repeats; the way
up from its root has to end, as it does at once for a root without a parent. A node of the tree
contains another exactly when following the parents from that one reaches it, in any number of
steps, with no function strictly in between. So if the instructions of a body are nodes of the tree
that are no functions, the owner of a node, unless that is a collection literal in a creation,
evaluates the node or one of its ancestors, is enclosed by the same function, and is the first that
contains the node. -/
theorem search_agrees_with_climb (l : Links) (root : Node) (hids : root.ids.Nodup)
    (hway : ∃ way, (l.link root).WayUp root way) :
    (∀ n m, Reaches Node.Child root n → Reaches Node.Child root m →
      (n.contains m = true ↔
        m = n ∨ ∃ inner, Walk (l.link root).Above m n (m :: (inner ++ [n])) ∧
          ∀ x ∈ inner, x.kind ≠ .func)) ∧
    ∀ df : DataFlow, df.links = l.link root →
      (∀ i ∈ df.body.instrs, Reaches Node.Child root i.node ∧ i.node.kind ≠ .func) →
      ∀ m i, Reaches Node.Child root m →
        ¬ (m.kind = .collection ∧ ∃ p, df.links.parent? m = some p ∧ p.kind = .new) →
        df.owner? m = some i →
          i.node ∈ m :: df.links.ancestors m ∧
          df.links.enclosingFunc? m = df.links.enclosingFunc? i.node ∧
          ∀ j ∈ df.body.instrs, j.id < i.id → j.node.contains m = false := by
  obtain ⟨way, hway⟩ := hway
  refine ⟨fun n m hn hm => Links.contains_iff_climb hids hway hn hm,
    fun df hlinks hnodes m i hm hplain howner => ?_⟩
  have hanchor := DataFlow.anchor_eq_self hplain
  obtain ⟨hi, -, hcontains⟩ := DataFlow.ownerWhere?_some howner
  obtain ⟨hin, hkind⟩ := hnodes i hi
  have hfirst : ∀ j ∈ df.body.instrs, j.id < i.id → j.node.contains m = false := by
    intro j hj hlt
    have hnot := DataFlow.owner?_first howner hj hlt
    rwa [hanchor] at hnot
  rw [hanchor] at hcontains
  rw [hlinks]
  rcases (Links.contains_iff_climb hids hway hin hm).1 hcontains with rfl | ⟨inner, hpath, hall⟩
  · exact ⟨List.mem_cons_self, rfl, hfirst⟩
  · obtain ⟨above, habove⟩ := Links.exists_wayUp hids hway hin
    have hfunc := Links.enclosingFunc?_eq_of_walk habove hpath hall hkind
    have hmem : i.node ∈ (l.link root).ancestors m := by
      rw [(Links.WayUp.of_walk hpath habove).ancestors_eq]
      simp
    exact ⟨List.mem_cons_of_mem _ hmem, hfunc, hfirst⟩

/-! ### A function inside a call

The body of `spawn(func() { work() })`. -/

namespace Spawning

def work : Node := .leaf { id := 0, kind := .call, name := "work" }

def statement : Node := .mk { id := 1, kind := .exprStmt } (some work) [] [] []

/-- `func() { work() }`. -/
def literal : Node := .mk { id := 2, kind := .func } none [] [] [statement]

def spawn : Node := .mk { id := 3, kind := .call, name := "spawn" } none [] [] [literal]

def spawning : Node := .mk { id := 4, kind := .exprStmt } (some spawn) [] [] []

def func : Node := .mk { id := 5, kind := .func, name := "start" } none [] [] [spawning]

def body : Body := .framed 0 func [{ nodes := [spawning] }] []

def program : FrontEnd := (Registry.add {} body).frontEnd (Links.link {} func)

/-- `spawn(func() { work() })` as the only instruction. -/
def instr : Instr := ⟨0, 1, 0, spawning⟩

theorem reaches_spawning : Reaches Node.Child func spawning :=
  Reaches.head_iff.2 (.inr ⟨spawning, List.mem_singleton_self _, .refl _ _⟩)

theorem reaches_literal : Reaches Node.Child func literal :=
  reaches_spawning.trans (Reaches.head_iff.2 (.inr ⟨spawn, List.mem_singleton_self _,
    Reaches.head_iff.2 (.inr ⟨literal, List.mem_singleton_self _, .refl _ _⟩)⟩))

theorem reaches_instrs :
    ∀ i ∈ body.instrs, Reaches Node.Child func i.node ∧ i.node.kind ≠ .func := by
  intro i hi
  rw [show body.instrs = [instr] from rfl, List.mem_singleton] at hi
  rw [hi]
  exact ⟨reaches_spawning, nofun⟩

end Spawning

open Spawning in
/-- The function literal is part of the statement that spawns it, which owns it, and both are
enclosed by `start`. -/
theorem literal_owned_by_spawning :
    func.ids.Nodup ∧ (∃ way, (({} : Links).link func).WayUp func way) ∧
    spawning.contains literal = true ∧
    (∀ i ∈ body.instrs, Reaches Node.Child func i.node ∧ i.node.kind ≠ .func) ∧
    (DataFlow.solve program body).owner? literal = some instr ∧
    spawning ∈ literal :: (({} : Links).link func).ancestors literal ∧
    (({} : Links).link func).enclosingFunc? literal
      = (({} : Links).link func).enclosingFunc? spawning := by
  have hids : func.ids.Nodup := by decide +kernel
  have hway : ∃ way, (({} : Links).link func).WayUp func way :=
    ⟨[], .top (Links.parent?_root hids)⟩
  obtain ⟨hsearch, howner⟩ := search_agrees_with_climb {} func hids hway
  have hclimb : Walk (({} : Links).link func).Above literal spawning [literal, spawn, spawning] :=
    Links.walk_above hids reaches_spawning
      (.cons (List.mem_singleton_self _) (.cons (List.mem_singleton_self _) (.single _)))
  have hcontains : spawning.contains literal = true :=
    (hsearch _ _ reaches_spawning reaches_literal).2 (.inr ⟨[spawn], hclimb, by decide⟩)
  have hbody : (DataFlow.solve program body).body = body := DataFlow.body_solve program body
  have hlinks : (DataFlow.solve program body).links = ({} : Links).link func :=
    DataFlow.links_solve program body
  have hkind : literal.kind ≠ .collection := by decide
  have hfound : (DataFlow.solve program body).owner? literal = some instr := by
    unfold DataFlow.owner? DataFlow.ownerWhere?
    rw [hbody, DataFlow.anchor_eq_self fun h => hkind h.1]
    exact List.find?_cons_of_pos hcontains
  obtain ⟨habove, hfunc, -⟩ := howner (DataFlow.solve program body) hlinks
    (by rw [hbody]; exact reaches_instrs) literal instr reaches_literal (fun h => hkind h.1) hfound
  rw [hlinks] at habove hfunc
  exact ⟨hids, hway, hcontains, reaches_instrs, hfound, habove, hfunc⟩

end AwaitLint
