import AwaitLint.Proofs.BodyWalk
import AwaitLint.Proofs.LoweredTree
import Mathlib.Data.List.Forall2
import Mathlib.Data.Set.Function

/-!
# AwaitLint — bodies simulate flow graphs

`Function.bodyOf` turns the flow graph of a function into a body: dead blocks are left out, an entry
and an exit are put around the others, the successors of a branch change places, and the last node
of a block may become its branch value. The body still runs as the graph does.

* **`FlowGraph.place`** — where a live block of the graph stands in the body.
* **`executes_evaluated`** — a block evaluates what its nodes became, in order, but for targets of
  assignments.
* **`Realizes`** — the shape of the body, block by block; `realizes_blocksOf` says that it has it.
* **`Realizes.edge_place_iff`** — one step of the body is one step of the graph, or a return.
* **`Realizes.bijOn_placed`** — so its walks from the entry to the exit are the returning walks of
  the graph, one to one.
-/

namespace AwaitLint.Source

/-! ## Flow graphs -/

namespace FlowGraph

variable {g : FlowGraph} {u v : Nat} {flow : FlowBlock}

def Live (g : FlowGraph) (u : Nat) : Prop := ∃ flow, g[u]? = some flow ∧ flow.live = true

/-- What holds of the graphs of functions: the first block is live, live blocks lead to live blocks,
to two at most, and to none after a return. -/
structure WellFormed (g : FlowGraph) : Prop where
  start : g.Live 0
  succs : ∀ flow ∈ g, flow.live = true → ∀ v ∈ flow.succs, g.Live v
  twoWays : ∀ flow ∈ g, flow.live = true → flow.succs.length ≤ 2
  returned : ∀ flow ∈ g, flow.live = true → flow.returns = true → flow.succs = []

instance (g : FlowGraph) (u : Nat) : Decidable (g.Live u) :=
  decidable_of_iff ((g[u]?).any (·.live) = true) (by simp [Live, Option.any_eq_true])

instance (g : FlowGraph) : Decidable g.WellFormed :=
  decidable_of_iff
    (g.Live 0 ∧ ∀ flow ∈ g, flow.live = true → (∀ v ∈ flow.succs, g.Live v) ∧
      flow.succs.length ≤ 2 ∧ (flow.returns = true → flow.succs = []))
    ⟨fun ⟨hstart, h⟩ => ⟨hstart, fun flow hmem hlive => (h flow hmem hlive).1,
        fun flow hmem hlive => (h flow hmem hlive).2.1,
        fun flow hmem hlive => (h flow hmem hlive).2.2⟩,
      fun h => ⟨h.start, fun flow hmem hlive =>
        ⟨h.succs flow hmem hlive, h.twoWays flow hmem hlive, h.returned flow hmem hlive⟩⟩⟩

def Edge (g : FlowGraph) (u v : Nat) : Prop := ∃ flow, g[u]? = some flow ∧ v ∈ flow.succs

instance (g : FlowGraph) (u v : Nat) : Decidable (g.Edge u v) :=
  decidable_of_iff ((g[u]?).any (v ∈ ·.succs) = true) (by simp [Edge, Option.any_eq_true])

/-- Block `u` ends in a return. -/
def ReturnsAt (g : FlowGraph) (u : Nat) : Prop := ∃ flow, g[u]? = some flow ∧ flow.returns = true

/-- The ordinal of a live block: one more than the live blocks before it, for the entry. -/
def place (g : FlowGraph) (u : Nat) : Nat := ((g.take u).filter (·.live)).length + 1

/-- The ordinal of the exit. -/
def exitPlace (g : FlowGraph) : Nat := (g.filter (·.live)).length + 1

theorem Live.of_edge (hwf : g.WellFormed) (hu : g.Live u) (h : g.Edge u v) : g.Live v := by
  obtain ⟨flow, hflow, hlive⟩ := hu
  obtain ⟨flow', hflow', hv⟩ := h
  obtain rfl := Option.some.inj (hflow.symm.trans hflow')
  exact hwf.succs flow (List.mem_of_getElem? hflow) hlive v hv

/-! ### Places -/

/-- A live block stands among the live blocks after those before it. -/
theorem getElem?_filter_live (h : g[u]? = some flow) (hlive : flow.live = true) :
    (g.filter (·.live))[((g.take u).filter (·.live)).length]? = some flow := by
  obtain ⟨hlt, rfl⟩ := List.getElem?_eq_some_iff.1 h
  have hsplit : g.filter (·.live)
      = (g.take u).filter (·.live) ++ g[u] :: (g.drop (u + 1)).filter (·.live) := by
    rw [← List.filter_cons_of_pos hlive, ← List.filter_append, ← List.drop_eq_getElem_cons hlt,
      List.take_append_drop]
  rw [hsplit, List.getElem?_append_right (Nat.le_refl _), Nat.sub_self]
  rfl

theorem place_lt_exitPlace (h : g.Live u) : g.place u < g.exitPlace := by
  obtain ⟨flow, hflow, hlive⟩ := h
  have hlt := (List.getElem?_eq_some_iff.1 (getElem?_filter_live hflow hlive)).1
  exact Nat.succ_lt_succ hlt

theorem place_lt_place (hu : g.Live u) (huv : u < v) : g.place u < g.place v := by
  obtain ⟨flow, hflow, hlive⟩ := hu
  have hstep : (g.take (u + 1)).filter (·.live) = (g.take u).filter (·.live) ++ [flow] := by
    rw [List.take_add_one, List.filter_append, hflow]
    simp [hlive]
  have hsub : ((g.take (u + 1)).filter (·.live)).Sublist ((g.take v).filter (·.live)) :=
    (List.take_sublist_take_left huv).filter _
  have hle := hsub.length_le
  rw [hstep, List.length_append, List.length_singleton] at hle
  exact Nat.succ_lt_succ hle

theorem place_inj (hu : g.Live u) (hv : g.Live v) (h : g.place u = g.place v) : u = v := by
  rcases Nat.lt_trichotomy u v with hlt | heq | hlt
  · have := place_lt_place hu hlt
    omega
  · exact heq
  · have := place_lt_place hv hlt
    omega

theorem ordinal?_eq (h : g.Live u) : Function.ordinal? g u = some (g.place u) := by
  obtain ⟨flow, hflow, hlive⟩ := h
  unfold Function.ordinal?
  rw [hflow]
  exact if_pos hlive

end FlowGraph

/-! ## What blocks evaluate -/

/-- The node is a target of an assignment in the tree of `root`. -/
def IsTarget (root n : Node) : Prop :=
  ∃ p, Reaches Node.Child root p ∧ p.kind = .assign ∧ n ∈ p.targets

/-- The node that a node of a flow graph became. -/
def Function.flowTarget? (f : Function) : FlowNode → Option Node
  | .piece number | .returnStmt number => f.nodeOf? number
  | .implicitReturn => none

/-- The nodes `ns` are what the nodes of a flow graph became, in order. Left out are those without a
node and those that come with their assignment. -/
inductive Executes (f : Function) : List FlowNode → List Node → Prop where
  | nil : Executes f [] []
  | node {x : FlowNode} {n : Node} {xs : List FlowNode} {ns : List Node}
      (hx : f.flowTarget? x = some n) (hn : ¬ IsTarget f.root n) (rest : Executes f xs ns) :
      Executes f (x :: xs) (n :: ns)
  | unlowered {x : FlowNode} {xs : List FlowNode} {ns : List Node} (hx : f.flowTarget? x = none)
      (rest : Executes f xs ns) : Executes f (x :: xs) ns
  | target {x : FlowNode} {n : Node} {xs : List FlowNode} {ns : List Node}
      (hx : f.flowTarget? x = some n) (hn : IsTarget f.root n) (rest : Executes f xs ns) :
      Executes f (x :: xs) ns

theorem mem_children_of_mem_targets {p n : Node} (h : n ∈ p.targets) : n ∈ p.children :=
  List.mem_append_left _ (List.mem_append_left _ (List.mem_append_right _ h))

/-- The links tell the targets of assignments, since a node stands at one place. -/
theorem isAssignTarget_iff {root n : Node} (hids : root.ids.Nodup)
    (hn : Reaches Node.Child root n) :
    (({} : Links).link root).isAssignTarget n = true ↔ IsTarget root n := by
  unfold Links.isAssignTarget
  by_cases hne : n.id = root.id
  · -- the root is nobody's child
    have hparent : (({} : Links).link root).parent? n = none := by
      have hroot := Links.parent?_root hids
      unfold Links.parent? at hroot ⊢
      rwa [hne]
    rw [hparent]
    refine ⟨nofun, fun ⟨p, hp, _, htarget⟩ => ?_⟩
    exact absurd hne (Links.child_ne_root hids hp (mem_children_of_mem_targets htarget))
  · obtain ⟨p, i, hplace, hparent⟩ := Links.exists_onlyPlace hids hn hne
    rw [hparent]
    constructor
    · intro h
      obtain ⟨hkind, hone⟩ := Bool.and_eq_true_iff.1 h
      obtain ⟨m, hm, hsame⟩ := List.any_eq_true.1 hone
      obtain ⟨j, hj⟩ := List.mem_iff_getElem?.1 (mem_children_of_mem_targets hm)
      obtain ⟨-, -, rfl⟩ := hplace.unique p j m hplace.reached hj (beq_iff_eq.1 hsame)
      exact ⟨p, hplace.reached, of_decide_eq_true hkind, hm⟩
    · rintro ⟨q, hq, hkind, htarget⟩
      obtain ⟨j, hj⟩ := List.mem_iff_getElem?.1 (mem_children_of_mem_targets htarget)
      obtain ⟨rfl, -, -⟩ := hplace.unique q j n hq hj rfl
      refine Bool.and_eq_true_iff.2 ⟨decide_eq_true hkind, ?_⟩
      exact List.any_eq_true.2 ⟨n, htarget, beq_self_eq_true n.id⟩

namespace Function

variable {c : Config} {d : FuncDecl} {f : Function}

theorem flowTarget?_eq (x : FlowNode) : f.flowTarget? x = (f.flowNode? x).map (·.node) := by
  cases x <;> rfl

theorem reaches_of_flowNode? {x : FlowNode} {l : Lowered}
    (h : (ofDecl c d).flowNode? x = some l) : Reaches Node.Child (ofDecl c d).root l.node := by
  cases x with
  | implicitReturn => cases h
  | piece number | returnStmt number => exact reaches_of_lowered? h

theorem executes_evaluated (hids : (ofDecl c d).root.ids.Nodup) (nodes : List FlowNode) :
    Executes (ofDecl c d) nodes ((ofDecl c d).evaluated nodes) := by
  induction nodes with
  | nil => exact .nil
  | cons x nodes ih =>
    unfold evaluated
    cases hx : (ofDecl c d).flowNode? x with
    | none =>
      rw [List.filterMap_cons_none hx]
      exact .unlowered (by rw [flowTarget?_eq, hx]; rfl) ih
    | some l =>
      have hnode : (ofDecl c d).flowTarget? x = some l.node := by rw [flowTarget?_eq, hx]; rfl
      have htarget : (ofDecl c d).links.isAssignTarget l.node = true ↔ _ :=
        isAssignTarget_iff hids (reaches_of_flowNode? hx)
      rw [List.filterMap_cons_some hx, List.map_cons, List.filter_cons]
      by_cases hassigned : IsTarget (ofDecl c d).root l.node
      · rw [htarget.2 hassigned]
        exact .target hnode hassigned ih
      · rw [Bool.eq_false_iff.2 fun h => hassigned (htarget.1 h)]
        exact .node hnode hassigned ih

end Function

/-! ## The body of a flow graph -/

/-- How the block that stands for `flow` goes on. It goes to the exit after a return, nowhere where
the graph ends otherwise, and of two successors it falls through to the second. -/
inductive Continues (g : FlowGraph) (flow : FlowBlock) (blk : Block) : Prop where
  | returns (hsuccs : flow.succs = []) (hreturns : flow.returns = true)
      (hfall : blk.fall = some g.exitPlace) (hcond : blk.cond = none)
  | stops (hsuccs : flow.succs = []) (hreturns : flow.returns = false)
      (hfall : blk.fall = none) (hcond : blk.cond = none)
  | goes (v : Nat) (hsuccs : flow.succs = [v]) (hreturns : flow.returns = false)
      (hfall : blk.fall = some (g.place v)) (hcond : blk.cond = none)
  | branches (v w : Nat) (hsuccs : flow.succs = [v, w]) (hreturns : flow.returns = false)
      (hfall : blk.fall = some (g.place w)) (hcond : blk.cond = some (g.place v))

theorem Continues.mem_succs_iff {g : FlowGraph} {flow : FlowBlock} {blk : Block}
    (h : Continues g flow blk) (o : Nat) :
    o ∈ blk.succs ↔
      (∃ v ∈ flow.succs, o = g.place v) ∨ flow.returns = true ∧ o = g.exitPlace := by
  unfold Block.succs
  cases h with
  | returns hsuccs hreturns hfall hcond | stops hsuccs hreturns hfall hcond
  | goes v hsuccs hreturns hfall hcond =>
    rw [hsuccs, hreturns, hfall, hcond]
    simp
  | branches v w hsuccs hreturns hfall hcond =>
    rw [hsuccs, hreturns, hfall, hcond]
    simp [or_comm]

/-- The block `blk` of a body stands for the block `flow` of the graph. -/
structure StandsFor (f : Function) (g : FlowGraph) (flow : FlowBlock) (blk : Block) : Prop where
  kind : blk.kind = .normal
  continues : Continues g flow blk
  executes : Executes f flow.nodes blk.evaluated

/-- The body is an entry, a block for each live block of the graph in order, and an exit. -/
def Realizes (f : Function) (g : FlowGraph) (b : Body) : Prop :=
  ∃ blks, b.blocks = { kind := .entry, fall := some (g.place 0) } :: blks ++ [{ kind := .exit }] ∧
    List.Forall₂ (StandsFor f g) (g.filter (·.live)) blks

namespace Realizes

variable {f : Function} {g : FlowGraph} {b : Body} {u o : Nat} {flow : FlowBlock} {blk : Block}

theorem entry (h : Realizes f g b) :
    b.blocks[0]? = some { kind := .entry, fall := some (g.place 0) } := by
  obtain ⟨blks, hblocks, -⟩ := h
  rw [hblocks]
  rfl

theorem exit (h : Realizes f g b) : b.blocks[g.exitPlace]? = some { kind := .exit } := by
  obtain ⟨blks, hblocks, hall⟩ := h
  rw [hblocks, FlowGraph.exitPlace, hall.length_eq]
  simp

theorem exists_block (h : Realizes f g b) (hflow : g[u]? = some flow) (hlive : flow.live = true) :
    ∃ blk, b.blocks[g.place u]? = some blk ∧ StandsFor f g flow blk := by
  obtain ⟨blks, hblocks, hall⟩ := h
  obtain ⟨hlt, hget⟩ :=
    List.getElem?_eq_some_iff.1 (FlowGraph.getElem?_filter_live hflow hlive)
  obtain ⟨hlength, hstands⟩ := List.forall₂_iff_get.1 hall
  have hlt' := hlength ▸ hlt
  have hstand := hstands _ hlt hlt'
  rw [List.get_eq_getElem, hget] at hstand
  refine ⟨_, ?_, hstand⟩
  rw [hblocks]
  -- the entry takes the first place
  show (blks ++ [_])[((g.take u).filter (·.live)).length]? = _
  rw [List.getElem?_append_left hlt', List.getElem?_eq_getElem hlt']
  rfl

/-- Besides the exit, no block is one. -/
theorem eq_exitPlace (h : Realizes f g b) (hblk : b.blocks[o]? = some blk)
    (hkind : blk.kind = .exit) : o = g.exitPlace := by
  obtain ⟨blks, hblocks, hall⟩ := h
  rw [FlowGraph.exitPlace, hall.length_eq]
  rw [hblocks] at hblk
  cases o with
  | zero =>
    cases hblk
    cases hkind
  | succ k =>
    rcases Nat.lt_trichotomy k blks.length with hlt | rfl | hgt
    · -- a block in between stands for a live block, so it is a normal one
      obtain ⟨hlength, hstands⟩ := List.forall₂_iff_get.1 hall
      have hnormal := (hstands k (hlength ▸ hlt) hlt).kind
      have hget : blks[k]? = some blk := by
        rw [← List.getElem?_append_left hlt]
        exact hblk
      rw [List.getElem?_eq_getElem hlt, Option.some.injEq] at hget
      rw [List.get_eq_getElem, hget, hkind] at hnormal
      cases hnormal
    · rfl
    · rw [List.getElem?_eq_none (by simp; omega)] at hblk
      cases hblk

theorem wellFormed (h : Realizes f g b) : b.WellFormed where
  entry_first := by
    obtain ⟨blks, hblocks, -⟩ := h
    unfold Body.entry?
    rw [hblocks]
    rfl
  one_exit := ⟨g.exitPlace, ⟨_, h.exit, rfl⟩, fun _ ⟨_, hblk, hkind⟩ => h.eq_exitPlace hblk hkind⟩

theorem exit?_eq (h : Realizes f g b) : b.exit? = some g.exitPlace :=
  h.wellFormed.exit_eq h.exit rfl

theorem executes_instrsOf (h : Realizes f g b) (hflow : g[u]? = some flow)
    (hlive : flow.live = true) :
    Executes f flow.nodes ((b.instrsOf (g.place u)).map (·.node)) := by
  obtain ⟨blk, hblk, hstands⟩ := h.exists_block hflow hlive
  rw [Body.map_node_instrsOf hblk]
  exact hstands.executes

/-! ### Edges and walks -/

theorem edge_entry_iff (h : Realizes f g b) : b.Edge 0 o ↔ o = g.place 0 := by
  rw [Body.edge_iff]
  constructor
  · rintro ⟨blk, hblk, ho⟩
    rw [h.entry] at hblk
    cases hblk
    exact List.mem_singleton.1 ho
  · rintro rfl
    exact ⟨_, h.entry, List.mem_singleton_self _⟩

theorem not_edge_exit (h : Realizes f g b) : ¬ b.Edge g.exitPlace o := by
  rw [Body.edge_iff]
  rintro ⟨blk, hblk, ho⟩
  rw [h.exit] at hblk
  cases hblk
  cases ho

theorem edge_place_iff (h : Realizes f g b) (hu : g.Live u) :
    b.Edge (g.place u) o ↔
      (∃ v, g.Edge u v ∧ o = g.place v) ∨ g.ReturnsAt u ∧ o = g.exitPlace := by
  obtain ⟨flow, hflow, hlive⟩ := hu
  obtain ⟨blk, hblk, hstands⟩ := h.exists_block hflow hlive
  simp only [Body.edge_iff, FlowGraph.Edge, FlowGraph.ReturnsAt, hblk, hflow, Option.some.injEq,
    exists_eq_left']
  exact hstands.continues.mem_succs_iff o

/-- **One step of the graph is one step of the body**, so are the walks that go on to a return. -/
theorem walk_place (h : Realizes f g b) (hwf : g.WellFormed) {r : Nat} {p : List Nat}
    (hp : Walk g.Edge u r p) (hu : g.Live u) (hr : g.ReturnsAt r) :
    Walk b.Edge (g.place u) g.exitPlace (p.map g.place ++ [g.exitPlace]) := by
  induction hp with
  | single u => exact .cons ((h.edge_place_iff hu).2 (.inr ⟨hr, rfl⟩)) (.single _)
  | cons edge _ ih =>
    exact .cons ((h.edge_place_iff hu).2 (.inl ⟨_, edge, rfl⟩)) (ih (hu.of_edge hwf edge) hr)

theorem exists_walk (h : Realizes f g b) (hwf : g.WellFormed) {q : List Nat}
    (hq : Walk b.Edge (g.place u) g.exitPlace q) (hu : g.Live u) :
    ∃ p r, Walk g.Edge u r p ∧ g.ReturnsAt r ∧ q = p.map g.place ++ [g.exitPlace] := by
  generalize ho : g.place u = o at hq
  generalize hw : g.exitPlace = w at hq
  induction hq generalizing u with
  | single o =>
    have := FlowGraph.place_lt_exitPlace hu
    omega
  | @cons o o' w q edge rest ih =>
    subst ho hw
    rcases (h.edge_place_iff hu).1 edge with ⟨v, hv, hplace⟩ | ⟨hreturn, rfl⟩
    · obtain ⟨p, r, hp, hr, rfl⟩ := ih (hu.of_edge hwf hv) hplace.symm rfl
      exact ⟨u :: p, r, .cons hv hp, hr, rfl⟩
    · -- the exit leads nowhere
      cases rest with
      | single => exact ⟨[u], u, .single u, hreturn, rfl⟩
      | cons edge _ => exact absurd edge h.not_edge_exit

end Realizes

namespace FlowGraph

variable {g : FlowGraph}

/-- The blocks from the start to a return, on some walk. -/
def Returning (g : FlowGraph) (p : List Nat) : Prop := ∃ r, Walk g.Edge 0 r p ∧ g.ReturnsAt r

/-- The blocks of a body that stand for `p`, between the entry and the exit. -/
def placed (g : FlowGraph) (p : List Nat) : List Nat := 0 :: p.map g.place ++ [g.exitPlace]

theorem Returning.live (hwf : g.WellFormed) {p : List Nat} (h : g.Returning p) :
    ∀ u ∈ p, g.Live u := by
  obtain ⟨r, hp, -⟩ := h
  exact (hp.transfer (fun hu edge => ⟨Live.of_edge hwf hu edge, edge⟩) hwf.start).2

theorem eq_of_map_place_eq {p q : List Nat} (hp : ∀ u ∈ p, g.Live u) (hq : ∀ u ∈ q, g.Live u)
    (h : p.map g.place = q.map g.place) : p = q := by
  induction p generalizing q with
  | nil => exact (List.map_eq_nil_iff.1 h.symm).symm
  | cons u p ih =>
    cases q with
    | nil => cases h
    | cons v q =>
      obtain ⟨hhead, htail⟩ := List.cons.inj h
      rw [List.forall_mem_cons] at hp hq
      rw [place_inj hp.1 hq.1 hhead, ih hp.2 hq.2 htail]

end FlowGraph

/-- The returning walks of the graph are the walks through the body, one to one. -/
theorem Realizes.bijOn_placed {f : Function} {g : FlowGraph} {b : Body} (h : Realizes f g b)
    (hwf : g.WellFormed) :
    Set.BijOn g.placed {p | g.Returning p} {q | Walk b.Edge 0 g.exitPlace q} := by
  refine ⟨?_, ?_, ?_⟩
  · rintro p ⟨r, hp, hr⟩
    exact .cons (h.edge_entry_iff.2 rfl) (h.walk_place hwf hp hwf.start hr)
  · intro p hp q hq heq
    have hmap := List.append_cancel_right (List.cons.inj heq).2
    exact FlowGraph.eq_of_map_place_eq (hp.live hwf) (hq.live hwf) hmap
  · intro q hq
    generalize hexit : g.exitPlace = w at hq
    cases hq with
    | single => cases hexit
    | cons edge rest =>
      obtain rfl := h.edge_entry_iff.1 edge
      subst hexit
      obtain ⟨p, r, hp, hr, rfl⟩ := h.exists_walk hwf rest hwf.start
      exact ⟨p, ⟨r, hp, hr⟩, rfl⟩

namespace Function

variable {c : Config} {d : FuncDecl}

theorem continues_blockOf {f : Function} {g : FlowGraph} {flow : FlowBlock} (hwf : g.WellFormed)
    (hmem : flow ∈ g) (hlive : flow.live = true) :
    Continues g flow (f.blockOf g g.exitPlace flow) := by
  have htwo := hwf.twoWays flow hmem hlive
  have hsuccs := hwf.succs flow hmem hlive
  have hreturned : flow.succs ≠ [] → flow.returns = false := fun hne =>
    Bool.eq_false_iff.2 fun h => hne (hwf.returned flow hmem hlive h)
  unfold blockOf
  match heq : flow.succs with
  | [] =>
    cases hreturns : flow.returns with
    | true => exact .returns heq hreturns rfl rfl
    | false => exact .stops heq hreturns rfl rfl
  | [v] =>
    have hv : g.Live v := hsuccs v (heq ▸ List.mem_singleton_self v)
    exact .goes v heq (hreturned (by simp [heq])) (FlowGraph.ordinal?_eq hv) rfl
  | [v, w] =>
    have hv : g.Live v := hsuccs v (by simp [heq])
    have hw : g.Live w := hsuccs w (by simp [heq])
    exact .branches v w heq (hreturned (by simp [heq])) (FlowGraph.ordinal?_eq hw)
      (FlowGraph.ordinal?_eq hv)
  | _ :: _ :: _ :: _ =>
    -- there are no third ways
    rw [heq] at htwo
    simp at htwo

theorem realizes_blocksOf (hids : (ofDecl c d).root.ids.Nodup) {g : FlowGraph}
    (hwf : g.WellFormed) {b : Body} (hblocks : b.blocks = (ofDecl c d).blocksOf g) :
    Realizes (ofDecl c d) g b := by
  have hstart : (if g.isEmpty then some g.exitPlace else ordinal? g 0) = some (g.place 0) := by
    obtain ⟨flow, hflow, -⟩ := hwf.start
    have hne : g.isEmpty = false := by
      cases g with
      | nil => cases hflow
      | cons => rfl
    rw [hne]
    exact FlowGraph.ordinal?_eq hwf.start
  refine ⟨_, by rw [hblocks, ← hstart]; rfl, ?_⟩
  refine List.forall₂_map_right_iff.2 (List.forall₂_same.2 fun flow hflow => ?_)
  obtain ⟨hmem, hlive⟩ := List.mem_filter.1 hflow
  have hcontinues := continues_blockOf (f := ofDecl c d) hwf hmem hlive
  refine ⟨?_, hcontinues, ?_⟩
  · unfold blockOf
    split <;> rfl
  · rw [evaluated_blockOf]
    exact executes_evaluated hids flow.nodes

/-- The source of a declaration is found, whatever functions are nested in it. -/
theorem sourceOf?_root (hids : (ofDecl c d).root.ids.Nodup) :
    (ofDecl c d).sourceOf? (ofDecl c d).root = some ⟨d.body, d.graph⟩ := by
  let root := (ofDecl c d).root
  have htrace : (ofDecl c d).trace.functions
      = (lowerStmts ⟨c, d.params⟩ (d.body.getD [])).trace.functions
        ++ [(root.id, ⟨d.body, d.graph⟩)] := by
    rfl
  have hnested : (lowerStmts ⟨c, d.params⟩ (d.body.getD [])).trace.functions.lookup root.id
      = none := by
    refine List.lookup_eq_none_iff.2 fun e he => ?_
    obtain ⟨n, hn, fn, hfn, hid⟩ := functions_lowerStmts c d e he
    have hne : fn.id ≠ root.id := by
      rcases Reaches.tail_iff.1 hfn with rfl | ⟨p, hp, hc⟩
      · exact Links.child_ne_root hids (.refl _ _) hn
      · exact Links.child_ne_root hids (Reaches.head_iff.2 (.inr ⟨n, hn, hp⟩)) hc
    rw [← hid]
    exact bne_iff_ne.2 hne.symm
  unfold sourceOf?
  rw [htrace, List.lookup_append, hnested, Option.none_or]
  exact List.lookup_cons_self

/-- **The headline.** Let the numbers of a declaration tell its syntax apart. The source of the
declaration is that of its root, and every function in it with a well-formed flow graph has a body.

* The body is an entry, a block for each live block in order, and an exit. Each block goes on as
  the graph does (`Continues`).
* The instructions of a block are what its nodes became, in order, without targets of assignments.
* The walks from the entry to the exit are the returning walks of the graph, block by block. -/
theorem body_simulates_flow_graph (c : Config) (d : FuncDecl) (hnumbers : d.numbers.Nodup) :
    let f := ofDecl c d
    f.sourceOf? f.root = some ⟨d.body, d.graph⟩ ∧
    ∀ fn stmts g, f.sourceOf? fn = some ⟨some stmts, some g⟩ → g.WellFormed →
      ∃ b, f.bodyOf fn = .ok b ∧ Realizes f g b ∧ b.entry? = some 0 ∧
        b.exit? = some g.exitPlace ∧
        (∀ u flow, g[u]? = some flow → flow.live = true →
          Executes f flow.nodes ((b.instrsOf (g.place u)).map (·.node))) ∧
        Set.BijOn g.placed {p | g.Returning p} {q | Walk b.Edge 0 g.exitPlace q} := by
  intro f
  have hids : f.root.ids.Nodup := nodup_ids_lowerDecl c hnumbers
  refine ⟨sourceOf?_root hids, fun fn stmts g hsource hwf => ?_⟩
  have hbody : ∃ b, f.bodyOf fn = .ok b ∧ b.blocks = f.blocksOf g := by
    unfold bodyOf
    rw [hsource]
    exact ⟨_, rfl, rfl⟩
  obtain ⟨b, hb, hblocks⟩ := hbody
  have hrealizes : Realizes f g b := realizes_blocksOf hids hwf hblocks
  exact ⟨b, hb, hrealizes, hrealizes.wellFormed.entry_first, hrealizes.exit?_eq,
    fun u flow => hrealizes.executes_instrsOf, hrealizes.bijOn_placed hwf⟩

/-! ### A loop with a select -/

namespace Drain

def name (k : Nat) (text : String) : Expr := .ident { Piece.onLine k with } text none

/-- `for more { select { case v = <-ch: } }` -/
def loop : Stmt :=
  .loop (.onLine 1) none (some (name 2 "more")) none (.block (.onLine 3) [.select (.onLine 4)
    (.block (.onLine 5) [.commClause (.onLine 6)
      (some (.assign (.onLine 7) "=" [name 8 "v"]
        [.unary { Piece.onLine 9 with } "<-" (name 10 "ch")])) []])])

/-- `if broken { panic() }` -/
def check : Stmt :=
  .cond (.onLine 11) none (name 12 "broken")
    (.block (.onLine 13) [.expr (.onLine 14)
      (.call { Piece.onLine 15 with } (name 16 "panic") [] (some (.builtin "panic")))]) none

/-- The target of the receive is repeated before it. Block 3 follows the select, which has no way
around its case, and block 5 panics. -/
def graph : FlowGraph :=
  [⟨[], [1], true⟩, ⟨[.piece 2], [2, 4], true⟩, ⟨[.piece 8, .piece 7], [1], true⟩,
    ⟨[], [1], false⟩, ⟨[.piece 12], [5, 6], true⟩, ⟨[.piece 14], [], true⟩,
    ⟨[.implicitReturn], [], true⟩]

def decl : FuncDecl where
  piece := .onLine 0
  name := "drain"
  params := []
  body := some [loop, check]
  graph := some graph

/-- Once around the loop, and out. -/
theorem returning : graph.Returning [0, 1, 2, 1, 4, 6] :=
  have hwalk : Walk graph.Edge 0 6 [0, 1, 2, 1, 4, 6] :=
    .cons (by decide) (.cons (by decide) (.cons (by decide) (.cons (by decide) (.cons (by decide)
      (.single 6)))))
  ⟨6, hwalk, ⟨_, rfl, rfl⟩⟩

end Drain

theorem drain_simulates_flow_graph :
    Drain.decl.numbers.Nodup ∧ Drain.graph.WellFormed ∧
    ∃ b, (ofDecl {} Drain.decl).bodyOf (ofDecl {} Drain.decl).root = .ok b ∧
      Executes (ofDecl {} Drain.decl) [.piece 8, .piece 7] ((b.instrsOf 3).map (·.node)) ∧
      Walk b.Edge 0 7 [0, 1, 2, 3, 2, 4, 6, 7] := by
  have hnumbers : Drain.decl.numbers.Nodup := by decide
  have hwf : Drain.graph.WellFormed := by decide
  obtain ⟨hsource, hbodies⟩ := body_simulates_flow_graph {} Drain.decl hnumbers
  obtain ⟨b, hb, -, -, -, hexecutes, hwalks⟩ := hbodies _ _ _ hsource hwf
  exact ⟨hnumbers, hwf, b, hb, hexecutes 2 _ rfl rfl, hwalks.mapsTo Drain.returning⟩

end Function

end AwaitLint.Source
