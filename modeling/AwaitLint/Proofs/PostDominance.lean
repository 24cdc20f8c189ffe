import AwaitLint.Flow.ControlFlow
import AwaitLint.Proofs.BodyWalk
import AwaitLint.Proofs.Dominance

/-!
# AwaitLint — post-dominators are what every walk to the exit executes

`ControlFlow.ofBody` prunes the block graph, turns it round, and takes the dominator tree rooted at
the exit. This module relates its answers to walks along the edges of the body.

* **`walk_prune`** — pruning keeps every walk from a kept block: what block 0 reaches is closed
  under successors.
* **`strictlyDominates_reverse_iff`** — dominance in the reversed graph from the exit is "on every
  walk to the exit" in the body.
* **`executedAfter_of_mem_postDominators`** — soundness for any body at all: a post-dominator of `i`
  is executed after `i` on every walk from `i` to the exit.
* **`postDominators_exact`** — the headline for well-formed bodies: nothing is missing, nothing
  spurious, nothing twice, and blocks that block 0 does not reach have no influence.
-/

namespace AwaitLint.ControlFlow

/-! ## The block graph -/

variable {b : Body} {cf : ControlFlow} {entry exit u v w a : Nat} {p : List Nat}

theorem edge_blockGraph (hentry : b.entry? = some entry) (hexit : b.exit? = some exit) :
    (blockGraph b entry exit).Edge u v ↔ b.FlowEdge u v := by
  rw [Graph.Edge, blockGraph, Graph.mem_edges_build, List.mem_append, List.mem_singleton,
    Prod.mk.injEq, Body.FlowEdge, Body.Edge, hentry, hexit, Option.some.injEq, Option.some.injEq,
    eq_comm (a := u), eq_comm (a := v)]

/-- A body with an entry has a block, so block 0 is a vertex. -/
theorem zero_mem_blockGraph (hentry : b.entry? = some entry) :
    0 ∈ (blockGraph b entry exit).vertices := by
  have hpos : 0 < b.blocks.length := by
    rcases hb : b.blocks with _ | ⟨blk, bs⟩
    · rw [Body.entry?, hb] at hentry
      cases hentry
    · simp
  rw [blockGraph, Graph.mem_vertices_build]
  right
  rw [Body.ordinals, List.mem_range]
  exact hpos

/-! ## Pruning -/

theorem edge_of_edge_prune {g : Graph Nat} (h : (prune g).Edge u v) : g.Edge u v := by
  unfold prune at h
  split at h
  · exact h
  · exact (Graph.mem_edges_induced.1 h).1

/-- The blocks that are kept. -/
theorem mem_prune {g : Graph Nat} (h0 : 0 ∈ g.vertices) :
    v ∈ (prune g).vertices ↔ v ∈ g.vertices ∧ (g.isRooted = true ∨ Reaches g.Edge 0 v) := by
  unfold prune
  split
  · rename_i hrooted
    simp [hrooted]
  · rename_i hrooted
    show v ∈ (g.induced fun x => (g.reachable 0).contains x).vertices ↔ _
    rw [Graph.mem_vertices_induced, List.contains_iff_mem, Graph.mem_reachable h0]
    simp [hrooted]

/-- A kept block keeps its successors, in their order. -/
theorem adjacent_prune {g : Graph Nat} (h0 : 0 ∈ g.vertices) (hv : v ∈ (prune g).vertices) :
    (prune g).adjacent v = g.adjacent v := by
  have hkept := (mem_prune h0).1 hv
  unfold prune
  split
  · rfl
  · rename_i hrooted
    have hreach : Reaches g.Edge 0 v := hkept.2.resolve_left hrooted
    show (g.induced fun x => (g.reachable 0).contains x).adjacent v = _
    have hkeep : ∀ {x}, (g.reachable 0).contains x = true ↔ Reaches g.Edge 0 x := by
      intro x
      rw [List.contains_iff_mem]
      exact Graph.mem_reachable h0
    rw [Graph.adjacent_induced, if_pos (hkeep.2 hreach), List.filter_eq_self]
    exact fun w hw => hkeep.2 (hreach.tail (Graph.mem_adjacent.1 hw))

theorem mem_prune_of_reaches {g : Graph Nat} (h0 : 0 ∈ g.vertices) (hv : Reaches g.Edge 0 v) :
    v ∈ (prune g).vertices :=
  (mem_prune h0).2 ⟨Graph.mem_vertices_of_reaches hv h0, .inr hv⟩

/-- A walk from a kept block stays among the kept blocks. -/
theorem walk_prune {g : Graph Nat} (h0 : 0 ∈ g.vertices) (hv : v ∈ (prune g).vertices)
    (hp : Walk g.Edge v w p) : Walk (prune g).Edge v w p ∧ ∀ x ∈ p, x ∈ (prune g).vertices := by
  by_cases hrooted : g.isRooted = true
  · have hsame : prune g = g := by
      unfold prune
      rw [if_pos hrooted]
    rw [hsame] at hv ⊢
    exact hp.transfer (fun _ hab => ⟨Graph.target_mem hab, hab⟩) hv
  · -- the kept blocks are those that block 0 reaches, a set closed under successors
    have hsame : prune g = g.induced fun x => (g.reachable 0).contains x := by
      unfold prune
      rw [if_neg hrooted]
    have hkeep : ∀ {x}, (g.reachable 0).contains x = true ↔ Reaches g.Edge 0 x := by
      intro x
      rw [List.contains_iff_mem]
      exact Graph.mem_reachable h0
    rw [hsame] at hv ⊢
    have hreach : Reaches g.Edge 0 v := hkeep.1 (Graph.mem_vertices_induced.1 hv).2
    obtain ⟨hwalk, hall⟩ := hp.transfer
      (fun {x y} (hx : Reaches g.Edge 0 x) hxy =>
        ⟨hx.tail hxy, Graph.mem_edges_induced.2 ⟨hxy, hkeep.2 hx, hkeep.2 (hx.tail hxy)⟩⟩) hreach
    refine ⟨hwalk, fun x hx => Graph.mem_vertices_induced.2 ⟨?_, hkeep.2 (hall x hx)⟩⟩
    exact Graph.mem_vertices_of_reaches (hall x hx) h0

/-! ## The flow of a body -/

theorem ofBody_eq_ok (hex : b.hasExceptionRegions = false) (hentry : b.entry? = some entry)
    (hexit : b.exit? = some exit) :
    ofBody b = .ok { body := b, graph := prune (blockGraph b entry exit),
                     tree := DomTree.build (prune (blockGraph b entry exit)).reverse exit } := by
  unfold ofBody
  rw [hex, hentry, hexit]
  rfl

/-- A body with a known control flow has no exception regions, an entry and an exit. -/
theorem ofBody_inv (h : ofBody b = .ok cf) :
    b.hasExceptionRegions = false ∧ ∃ entry exit, b.entry? = some entry ∧ b.exit? = some exit ∧
      cf = { body := b, graph := prune (blockGraph b entry exit),
             tree := DomTree.build (prune (blockGraph b entry exit)).reverse exit } := by
  unfold ofBody at h
  split at h
  · cases h
  · rename_i hex
    split at h
    · rename_i entry exit hentry hexit
      cases h
      exact ⟨Bool.eq_false_iff.2 hex, entry, exit, hentry, hexit, rfl⟩
    · cases h

theorem ofBody_eq (hcf : ofBody b = .ok cf) (hexit : b.exit? = some exit) :
    ∃ entry, b.entry? = some entry ∧
      cf = { body := b, graph := prune (blockGraph b entry exit),
             tree := DomTree.build (prune (blockGraph b entry exit)).reverse exit } := by
  obtain ⟨-, entry, exit', hentry, hexit', rfl⟩ := ofBody_inv hcf
  rw [hexit, Option.some.injEq] at hexit'
  subst hexit'
  exact ⟨entry, hentry, rfl⟩

/-- Walks of the pruned graph from a kept block are walks along the edges of the body. -/
theorem walk_graph_iff (hentry : b.entry? = some entry) (hexit : b.exit? = some exit)
    (hv : v ∈ (prune (blockGraph b entry exit)).vertices) :
    Walk (prune (blockGraph b entry exit)).Edge v w p ↔ Walk b.FlowEdge v w p := by
  constructor
  · intro h
    exact h.mono fun hab => (edge_blockGraph hentry hexit).1 (edge_of_edge_prune hab)
  · intro h
    have hg : Walk (blockGraph b entry exit).Edge v w p :=
      h.mono fun hab => (edge_blockGraph hentry hexit).2 hab
    exact (walk_prune (zero_mem_blockGraph hentry) hv hg).1

theorem reaches_reverse_iff (hentry : b.entry? = some entry) (hexit : b.exit? = some exit)
    (hv : v ∈ (prune (blockGraph b entry exit)).vertices) :
    Reaches (prune (blockGraph b entry exit)).reverse.Edge exit v ↔ Reaches b.FlowEdge v exit := by
  constructor
  · rintro ⟨p, hp⟩
    exact ⟨_, (walk_graph_iff hentry hexit hv).1 (Graph.walk_reverse.1 hp)⟩
  · rintro ⟨p, hp⟩
    refine ⟨p.reverse, Graph.walk_reverse.2 ?_⟩
    rw [List.reverse_reverse]
    exact (walk_graph_iff hentry hexit hv).2 hp

/-- Strict dominance in the reversed graph: on every walk to the exit, and another block. -/
theorem strictlyDominates_reverse_iff (hentry : b.entry? = some entry) (hexit : b.exit? = some exit)
    (hv : v ∈ (prune (blockGraph b entry exit)).vertices) :
    StrictlyDominates (prune (blockGraph b entry exit)).reverse.Edge exit a v ↔
      Reaches b.FlowEdge v exit ∧ (∀ p, Walk b.FlowEdge v exit p → a ∈ p) ∧ a ≠ v := by
  rw [StrictlyDominates, Dominates, reaches_reverse_iff hentry hexit hv, and_assoc]
  refine and_congr_right fun _ => and_congr_left fun _ => ?_
  constructor
  · intro h p hp
    have hrev : Walk (prune (blockGraph b entry exit)).reverse.Edge exit v p.reverse := by
      rw [Graph.walk_reverse, List.reverse_reverse]
      exact (walk_graph_iff hentry hexit hv).2 hp
    exact List.mem_reverse.1 (h _ hrev)
  · intro h p hp
    exact List.mem_reverse.1 (h _ ((walk_graph_iff hentry hexit hv).1 (Graph.walk_reverse.1 hp)))

/-! ## The answers in terms of walks -/

section Answers

variable {i s : Instr} {q : List Nat} {d : Nat}

variable (hcf : ofBody b = .ok cf) (hexit : b.exit? = some exit)

include hcf

theorem body_eq : cf.body = b := by
  obtain ⟨-, entry, exit, -, -, rfl⟩ := ofBody_inv hcf
  rfl

include hexit

/-- A block with a parent in the tree is kept, and so is the exit. -/
theorem mem_graph_of_parent (hp : cf.tree.parent? v = some d) :
    v ∈ cf.graph.vertices ∧ exit ∈ cf.graph.vertices := by
  obtain ⟨entry, hentry, rfl⟩ := ofBody_eq hcf hexit
  have hroot : exit ∈ (prune (blockGraph b entry exit)).reverse.vertices := by
    by_contra hnot
    rw [DomTree.parent?_build_of_not_mem _ hnot] at hp
    cases hp
  obtain ⟨hreach, -⟩ := (DomTree.exists_parent?_build _ hroot).1 ⟨d, hp⟩
  refine ⟨Graph.mem_vertices_reverse.1 ?_, Graph.mem_vertices_reverse.1 hroot⟩
  exact Graph.mem_vertices_of_reaches hreach hroot

/-- A kept block has a parent when it is not the exit and reaches the exit. -/
theorem exists_parent_iff (hv : v ∈ cf.graph.vertices) (he : exit ∈ cf.graph.vertices) :
    (∃ d, cf.tree.parent? v = some d) ↔ Reaches b.FlowEdge v exit ∧ v ≠ exit := by
  obtain ⟨entry, hentry, rfl⟩ := ofBody_eq hcf hexit
  have hroot := Graph.mem_vertices_reverse.2 he
  rw [DomTree.exists_parent?_build _ hroot, reaches_reverse_iff hentry hexit hv]

/-- The post-dominating blocks of a kept block: the other blocks on every walk to the exit. -/
theorem mem_postDominatorBlocks (hv : v ∈ cf.graph.vertices) (he : exit ∈ cf.graph.vertices) :
    a ∈ cf.postDominatorBlocks v ↔
      Reaches b.FlowEdge v exit ∧ (∀ p, Walk b.FlowEdge v exit p → a ∈ p) ∧ a ≠ v := by
  obtain ⟨entry, hentry, rfl⟩ := ofBody_eq hcf hexit
  rw [postDominatorBlocks, DomTree.mem_dominators_build _ (Graph.mem_vertices_reverse.2 he),
    strictlyDominates_reverse_iff hentry hexit hv]

/-- A post-dominating block lies on a walk from a kept block, so it is kept itself. -/
theorem mem_graph_of_mem_postDominatorBlocks (hv : v ∈ cf.graph.vertices)
    (he : exit ∈ cf.graph.vertices) (ha : a ∈ cf.postDominatorBlocks v) :
    a ∈ cf.graph.vertices := by
  obtain ⟨⟨p, hp⟩, hall, -⟩ := (mem_postDominatorBlocks hcf hexit hv he).1 ha
  obtain ⟨entry, hentry, rfl⟩ := ofBody_eq hcf hexit
  have hg : Walk (blockGraph b entry exit).Edge v exit p :=
    hp.mono fun hab => (edge_blockGraph hentry hexit).2 hab
  exact (walk_prune (zero_mem_blockGraph hentry) hv hg).2 a (hall p hp)

/-- Every walk to the exit from a post-dominating block meets those listed behind it. -/
theorem pairwise_postDominatorBlocks (hv : v ∈ cf.graph.vertices) (he : exit ∈ cf.graph.vertices) :
    (cf.postDominatorBlocks v).Pairwise
      fun x y => y ≠ x ∧ ∀ p, Walk b.FlowEdge x exit p → y ∈ p := by
  have hkept := fun {a} => mem_graph_of_mem_postDominatorBlocks (a := a) hcf hexit hv he
  obtain ⟨entry, hentry, rfl⟩ := ofBody_eq hcf hexit
  have hpair := DomTree.pairwise_dominators_build _ (Graph.mem_vertices_reverse.2 he) v
  refine hpair.imp_of_mem fun {x y} hx _ hxy => ?_
  obtain ⟨-, hall, hne⟩ := (strictlyDominates_reverse_iff hentry hexit (hkept hx)).1 hxy
  exact ⟨hne, hall⟩

theorem nodup_postDominatorBlocks (hv : v ∈ cf.graph.vertices) (he : exit ∈ cf.graph.vertices) :
    (cf.postDominatorBlocks v).Nodup :=
  (pairwise_postDominatorBlocks hcf hexit hv he).imp fun hxy => Ne.symm hxy.1

theorem getLast?_postDominatorBlocks (hv : v ∈ cf.graph.vertices) (he : exit ∈ cf.graph.vertices)
    (hreach : Reaches b.FlowEdge v exit) (hne : v ≠ exit) :
    (cf.postDominatorBlocks v).getLast? = some exit := by
  obtain ⟨entry, hentry, rfl⟩ := ofBody_eq hcf hexit
  exact DomTree.getLast?_dominators_build _ (Graph.mem_vertices_reverse.2 he)
    ((reaches_reverse_iff hentry hexit hv).2 hreach) hne

omit hexit

/-- The post-dominators of an instruction are in its post-dominating blocks or follow it. -/
theorem mem_postDominators :
    s ∈ cf.postDominators i ↔ (∃ d, cf.tree.parent? i.block = some d) ∧ s ∈ b.instrs ∧
      (s.block ∈ cf.postDominatorBlocks i.block ∨ s.block = i.block ∧ i.index < s.index) := by
  rw [postDominators, body_eq hcf]
  cases hp : cf.tree.parent? i.block with
  | none => simp
  | some d =>
    show s ∈ (cf.postDominatorBlocks i.block).flatMap b.instrsOf ++ _ ↔ _
    rw [List.mem_append, List.mem_flatMap, Body.mem_drop_instrsOf]
    constructor
    · rintro (⟨o, ho, hs⟩ | ⟨hs, hblock, hindex⟩)
      · obtain ⟨hin, rfl⟩ := Body.mem_instrsOf.1 hs
        exact ⟨⟨d, rfl⟩, hin, .inl ho⟩
      · exact ⟨⟨d, rfl⟩, hs, .inr ⟨hblock, hindex⟩⟩
    · rintro ⟨-, hs, ho | ⟨hblock, hindex⟩⟩
      · exact .inl ⟨s.block, ho, Body.mem_instrsOf.2 ⟨hs, rfl⟩⟩
      · exact .inr ⟨hs, hblock, hindex⟩

include hexit

/-- **Soundness for any body.** A post-dominator of `i` is executed after `i` on every walk from the
block of `i` to the exit. -/
theorem executedAfter_of_mem_postDominators (hs : s ∈ cf.postDominators i)
    (hw : Walk b.FlowEdge i.block exit (i.block :: q)) : s ∈ b.executedAfter i q := by
  obtain ⟨⟨d, hd⟩, hin, hplace⟩ := (mem_postDominators hcf).1 hs
  obtain ⟨hv, he⟩ := mem_graph_of_parent hcf hexit hd
  refine Body.mem_executedAfter.2 ⟨hin, ?_⟩
  rcases hplace with hblock | hsame
  · obtain ⟨-, hall, hne⟩ := (mem_postDominatorBlocks hcf hexit hv he).1 hblock
    exact .inr ((List.mem_cons.1 (hall _ hw)).resolve_left hne)
  · exact .inl hsame

/-- **Completeness.** What is executed after `i` on every walk to the exit is a post-dominator: some
walk does not return to the block of `i`, so an instruction that does not follow `i` in its block
lies in another block, and that block is on every walk. -/
theorem mem_postDominators_of_executedAfter (hv : i.block ∈ cf.graph.vertices)
    (he : exit ∈ cf.graph.vertices) (hne : i.block ≠ exit) (hreach : Reaches b.FlowEdge i.block exit)
    (hall : ∀ q, Walk b.FlowEdge i.block exit (i.block :: q) → s ∈ b.executedAfter i q) :
    s ∈ cf.postDominators i := by
  have hparent := (exists_parent_iff hcf hexit hv he).2 ⟨hreach, hne⟩
  obtain ⟨p, hp⟩ := hreach
  obtain ⟨q, hq, hnot, -⟩ := hp.exists_not_returning hne
  obtain ⟨hin, hplace⟩ := Body.mem_executedAfter.1 (hall q hq)
  refine (mem_postDominators hcf).2 ⟨hparent, hin, ?_⟩
  rcases hplace with hsame | hmem
  · exact .inr hsame
  · have hother : s.block ≠ i.block := by
      intro heq
      exact hnot (heq ▸ hmem)
    refine .inl ((mem_postDominatorBlocks hcf hexit hv he).2 ⟨⟨p, hp⟩, fun r hr => ?_, hother⟩)
    obtain ⟨r, rfl⟩ := hr.exists_eq_cons
    rcases (Body.mem_executedAfter.1 (hall r hr)).2 with ⟨heq, -⟩ | hmem
    · exact absurd heq hother
    · exact List.mem_cons_of_mem _ hmem

/-- No post-dominator is listed twice: the blocks are distinct, and the block of `i` is not among
them. -/
theorem nodup_postDominators (i : Instr) : (cf.postDominators i).Nodup := by
  rw [postDominators, body_eq hcf]
  cases hd : cf.tree.parent? i.block with
  | none => exact List.nodup_nil
  | some d =>
    obtain ⟨hv, he⟩ := mem_graph_of_parent hcf hexit hd
    show ((cf.postDominatorBlocks i.block).flatMap b.instrsOf
      ++ (b.instrsOf i.block).drop (i.index + 1)).Nodup
    have hof : ∀ o, (b.instrsOf o).Nodup := fun o => b.nodup_instrs.filter _
    refine List.nodup_append.2 ⟨List.nodup_flatMap.2 ⟨fun o _ => hof o, ?_⟩, ?_, ?_⟩
    · refine (nodup_postDominatorBlocks hcf hexit hv he).imp fun {x y} hxy s hsx hsy => hxy ?_
      rw [← (Body.mem_instrsOf.1 hsx).2, (Body.mem_instrsOf.1 hsy).2]
    · exact (hof i.block).sublist (List.drop_sublist _ _)
    · rintro s hs _ hs' rfl
      obtain ⟨o, ho, hso⟩ := List.mem_flatMap.1 hs
      have hblock := (Body.mem_drop_instrsOf.1 hs').2.1
      rw [(Body.mem_instrsOf.1 hso).2] at hblock
      rw [hblock] at ho
      exact ((mem_postDominatorBlocks hcf hexit hv he).1 ho).2.2 rfl

end Answers

/-! ## Well-formed bodies

The additional edge leads from block 0 to the exit, so the exit is never pruned. -/

section WellFormed

variable {b' : Body} {cf' : ControlFlow} {i i' : Instr}

theorem mem_graph_of_reaches (hcf : ofBody b = .ok cf) (hv : Reaches b.FlowEdge 0 v) :
    v ∈ cf.graph.vertices := by
  obtain ⟨-, entry, exit, hentry, hexit, rfl⟩ := ofBody_inv hcf
  obtain ⟨p, hp⟩ := hv
  have hreach : Reaches (blockGraph b entry exit).Edge 0 v :=
    ⟨p, hp.mono fun hab => (edge_blockGraph hentry hexit).2 hab⟩
  exact mem_prune_of_reaches (zero_mem_blockGraph hentry) hreach

theorem mem_graph_of_wellFormed (hwf : b.WellFormed) (hcf : ofBody b = .ok cf)
    (hexit : b.exit? = some exit) (hv : Reaches b.FlowEdge 0 v) :
    v ∈ cf.graph.vertices ∧ exit ∈ cf.graph.vertices :=
  ⟨mem_graph_of_reaches hcf hv, mem_graph_of_reaches hcf (hwf.reaches_exit hexit)⟩

theorem postDominatorBlocks_eq_nil (hcf : ofBody b = .ok cf) (hexit : b.exit? = some exit)
    (hv : v ∈ cf.graph.vertices) (he : exit ∈ cf.graph.vertices)
    (hnot : ¬ Reaches b.FlowEdge v exit) : cf.postDominatorBlocks v = [] := by
  rw [List.eq_nil_iff_forall_not_mem]
  intro a ha
  exact hnot ((mem_postDominatorBlocks hcf hexit hv he).1 ha).1

theorem postDominators_eq_nil (hcf : ofBody b = .ok cf) (hexit : b.exit? = some exit)
    (hv : i.block ∈ cf.graph.vertices) (he : exit ∈ cf.graph.vertices)
    (hnot : ¬ Reaches b.FlowEdge i.block exit) : cf.postDominators i = [] := by
  rw [List.eq_nil_iff_forall_not_mem]
  intro s hs
  obtain ⟨hparent, -, -⟩ := (mem_postDominators hcf).1 hs
  exact hnot ((exists_parent_iff hcf hexit hv he).1 hparent).1

/-- Bodies that agree where block 0 of the first reaches have the same post-dominating blocks
there, in the same order: the walks to the exit are the same, and the order of the list is
determined by them. -/
theorem postDominatorBlocks_of_agrees (hwf : b.WellFormed) (hwf' : b'.WellFormed)
    (hagree : b.AgreesWhereReached b') (hcf : ofBody b = .ok cf) (hcf' : ofBody b' = .ok cf')
    (hv : Reaches b.FlowEdge 0 v) : cf'.postDominatorBlocks v = cf.postDominatorBlocks v := by
  obtain ⟨exit, hexit⟩ := hwf.exists_exit
  have hexit' := hagree.exit_eq hwf hwf' hexit
  obtain ⟨hgv, hge⟩ := mem_graph_of_wellFormed hwf hcf hexit hv
  obtain ⟨hgv', hge'⟩ :=
    mem_graph_of_wellFormed hwf' hcf' hexit' (hagree.reaches hwf hwf' hv)
  have hwalk := fun {o w p} (ho : Reaches b.FlowEdge 0 o) =>
    hagree.walk_iff (w := w) (p := p) hwf hwf' ho
  have hreached : ∀ x ∈ cf.postDominatorBlocks v, Reaches b.FlowEdge 0 x ∧
      Reaches b.FlowEdge x exit := by
    intro x hx
    obtain ⟨⟨p, hp⟩, hall, -⟩ := (mem_postDominatorBlocks hcf hexit hgv hge).1 hx
    obtain ⟨p₁, p₂, -, hto, hfrom⟩ := hp.split (hall p hp)
    exact ⟨hv.trans ⟨_, hto⟩, ⟨_, hfrom⟩⟩
  have hperm : (cf'.postDominatorBlocks v).Perm (cf.postDominatorBlocks v) := by
    rw [List.perm_ext_iff_of_nodup (nodup_postDominatorBlocks hcf' hexit' hgv' hge')
      (nodup_postDominatorBlocks hcf hexit hgv hge)]
    intro a
    rw [mem_postDominatorBlocks hcf' hexit' hgv' hge', mem_postDominatorBlocks hcf hexit hgv hge]
    simp only [Reaches, hwalk hv]
  have hpair := pairwise_postDominatorBlocks hcf hexit hgv hge
  have hpair' := pairwise_postDominatorBlocks hcf' hexit' hgv' hge'
  refine List.Perm.eq_of_pairwise (fun x y hx hy hxy hyx => ?_)
    (hpair'.imp_of_mem fun {x y} hx _ hxy => ⟨hxy.1, fun p hp => ?_⟩) hpair hperm
  · -- two blocks that each lie behind the other would be one
    obtain ⟨p, hp⟩ := (hreached y hy).2
    exact (hp.eq_of_mutual hyx.2 hxy.2).symm
  · exact hxy.2 p ((hwalk (hreached x (hperm.subset hx)).1).2 hp)

theorem postDominators_of_agrees (hwf : b.WellFormed) (hwf' : b'.WellFormed)
    (hagree : b.AgreesWhereReached b') (hcf : ofBody b = .ok cf) (hcf' : ofBody b' = .ok cf')
    (hi : Reaches b.FlowEdge 0 i.block) (hblock : i'.block = i.block)
    (hindex : i'.index = i.index) :
    (cf'.postDominators i').map Instr.place = (cf.postDominators i).map Instr.place := by
  obtain ⟨exit, hexit⟩ := hwf.exists_exit
  have hexit' := hagree.exit_eq hwf hwf' hexit
  obtain ⟨hgv, hge⟩ := mem_graph_of_wellFormed hwf hcf hexit hi
  obtain ⟨hgv', hge'⟩ :=
    mem_graph_of_wellFormed hwf' hcf' hexit' (hagree.reaches hwf hwf' hi)
  have hblocks := postDominatorBlocks_of_agrees hwf hwf' hagree hcf hcf' hi
  -- a block has a parent in one tree when it has one in the other
  have hparent : (∃ d, cf'.tree.parent? i.block = some d) ↔
      ∃ d, cf.tree.parent? i.block = some d := by
    rw [exists_parent_iff hcf' hexit' hgv' hge', exists_parent_iff hcf hexit hgv hge]
    simp only [Reaches, hagree.walk_iff hwf hwf' hi]
  have hof : ∀ o ∈ cf.postDominatorBlocks i.block,
      (b'.instrsOf o).map Instr.place = (b.instrsOf o).map Instr.place := by
    intro o ho
    obtain ⟨⟨p, hp⟩, hall, -⟩ := (mem_postDominatorBlocks hcf hexit hgv hge).1 ho
    obtain ⟨p₁, -, -, hto, -⟩ := hp.split (hall p hp)
    exact hagree.map_place_instrsOf (hi.trans ⟨_, hto⟩)
  rw [postDominators, postDominators, body_eq hcf, body_eq hcf', hblock, hindex, hblocks]
  cases hp : cf.tree.parent? i.block with
  | none =>
    have hp' : cf'.tree.parent? i.block = none := by
      rw [Option.eq_none_iff_forall_ne_some]
      intro d hd
      obtain ⟨d', hd'⟩ := hparent.1 ⟨d, hd⟩
      rw [hp] at hd'
      cases hd'
    rw [hp']
  | some d =>
    obtain ⟨d', hp'⟩ := hparent.2 ⟨d, hp⟩
    rw [hp']
    show ((cf.postDominatorBlocks i.block).flatMap b'.instrsOf ++ _).map Instr.place
      = ((cf.postDominatorBlocks i.block).flatMap b.instrsOf ++ _).map Instr.place
    rw [List.map_append, List.map_append, List.map_flatMap, List.map_flatMap, List.map_drop,
      List.map_drop, hagree.map_place_instrsOf hi, List.flatMap_congr hof]

end WellFormed

/-- **Post-dominance is exact.** A well-formed body without exception regions has a control flow.
For an instruction `i` of a block `B` that block 0 reaches, `B` not the exit:

* when `B` reaches the exit, the post-dominators of `i` are the instructions executed after `i` on
  every walk to the exit, none listed twice, and the post-dominating blocks of `B` are the other
  blocks on every walk, nearest first and the exit last;
* when `B` does not reach the exit, there are none;
* another well-formed body with the same blocks where block 0 reaches gives the same answers. -/
theorem postDominators_exact (b : Body) (hwf : b.WellFormed)
    (hex : b.hasExceptionRegions = false) :
    ∃ cf exit, ofBody b = .ok cf ∧ b.exit? = some exit ∧
      ∀ B, Reaches b.FlowEdge 0 B → B ≠ exit →
        (Reaches b.FlowEdge B exit →
          (∀ i ∈ b.instrsOf B, (cf.postDominators i).Nodup ∧
            ∀ s, s ∈ cf.postDominators i ↔
              ∀ q, Walk b.FlowEdge B exit (B :: q) → s ∈ b.executedAfter i q) ∧
          (∀ a, a ∈ cf.postDominatorBlocks B ↔
            a ≠ B ∧ ∀ p, Walk b.FlowEdge B exit p → a ∈ p) ∧
          (cf.postDominatorBlocks B).Pairwise
            (fun x y => y ≠ x ∧ ∀ p, Walk b.FlowEdge x exit p → y ∈ p) ∧
          (cf.postDominatorBlocks B).getLast? = some exit) ∧
        (¬ Reaches b.FlowEdge B exit →
          (∀ i ∈ b.instrsOf B, cf.postDominators i = []) ∧ cf.postDominatorBlocks B = []) ∧
        (∀ b' cf', b'.WellFormed → ofBody b' = .ok cf' → b.AgreesWhereReached b' →
          cf'.postDominatorBlocks B = cf.postDominatorBlocks B ∧
          ∀ i ∈ b.instrsOf B, ∀ i' ∈ b'.instrsOf B, i'.index = i.index →
            (cf'.postDominators i').map Instr.place
              = (cf.postDominators i).map Instr.place) := by
  obtain ⟨exit, hexit⟩ := hwf.exists_exit
  obtain ⟨cf, hcf⟩ : ∃ cf, ofBody b = .ok cf := ⟨_, ofBody_eq_ok hex hwf.entry_first hexit⟩
  refine ⟨cf, exit, hcf, hexit, fun B hB hne => ?_⟩
  obtain ⟨hv, he⟩ := mem_graph_of_wellFormed hwf hcf hexit hB
  refine ⟨fun hreach => ⟨fun i hi => ?_, fun a => ?_, ?_, ?_⟩, fun hnot => ⟨fun i hi => ?_, ?_⟩,
    fun b' cf' hwf' hcf' hagree => ⟨?_, fun i hi i' hi' hindex => ?_⟩⟩
  · obtain ⟨-, rfl⟩ := Body.mem_instrsOf.1 hi
    refine ⟨nodup_postDominators hcf hexit i, fun s => ⟨fun hs q hq => ?_, fun hall => ?_⟩⟩
    · exact executedAfter_of_mem_postDominators hcf hexit hs hq
    · exact mem_postDominators_of_executedAfter hcf hexit hv he hne hreach hall
  · rw [mem_postDominatorBlocks hcf hexit hv he, and_iff_right hreach, and_comm]
  · exact pairwise_postDominatorBlocks hcf hexit hv he
  · exact getLast?_postDominatorBlocks hcf hexit hv he hreach hne
  · obtain ⟨-, rfl⟩ := Body.mem_instrsOf.1 hi
    exact postDominators_eq_nil hcf hexit hv he hnot
  · exact postDominatorBlocks_eq_nil hcf hexit hv he hnot
  · exact postDominatorBlocks_of_agrees hwf hwf' hagree hcf hcf' hB
  · obtain ⟨-, rfl⟩ := Body.mem_instrsOf.1 hi
    obtain ⟨-, hblock⟩ := Body.mem_instrsOf.1 hi'
    exact postDominators_of_agrees hwf hwf' hagree hcf hcf' hB hblock hindex

/-- A loop over blocks 1 and 2 with a way out to block 4 and a way into block 5, which spins for
ever; block 3 is dead and leads into the loop. -/
def loopedBody : Body where
  func := default
  blocks :=
    [{ kind := .entry, fall := some 1 }, { nodes := [default], fall := some 2, cond := some 4 },
     { nodes := [default], fall := some 1, cond := some 5 }, { nodes := [default], fall := some 2 },
     { nodes := [default], fall := some 6 }, { nodes := [default], fall := some 5 },
     { kind := .exit }]

/-- The same body with the dead block emptied and led to the exit. -/
def redirectedBody : Body := { loopedBody with blocks := loopedBody.blocks.set 3 { fall := some 6 } }

theorem flowEdge_loopedBody (h : loopedBody.FlowEdge u v) :
    (u, v) ∈ loopedBody.edges ∨ u = 0 ∧ v = 6 := by
  have hentry : loopedBody.entry? = some 0 := by decide
  have hexit : loopedBody.exit? = some 6 := by decide
  rw [Body.FlowEdge, hentry, hexit, Option.some.injEq, Option.some.injEq] at h
  exact h.imp_right fun hends => ⟨hends.1.symm, hends.2.symm⟩

theorem agrees_redirectedBody : loopedBody.AgreesWhereReached redirectedBody := by
  -- no other block leads to block 3
  have hedges : ∀ e ∈ loopedBody.edges, e.1 ≠ 3 → e.2 ≠ 3 := by decide
  have hstep : ∀ {u v}, u ≠ 3 → loopedBody.FlowEdge u v → v ≠ 3 := by
    intro u v hu huv
    rcases flowEdge_loopedBody huv with hedge | ⟨-, rfl⟩
    · exact hedges _ hedge hu
    · decide
  intro o ho
  have hne : o ≠ 3 := ho.closed (· ≠ 3) hstep (by decide)
  exact List.getElem?_set_ne hne.symm

/-- The way out of the loop post-dominates block 2, whatever the dead block does, and the spinning
block has no post-dominators. -/
theorem postDominators_in_loopedBody :
    loopedBody.WellFormed ∧ redirectedBody.WellFormed ∧
    loopedBody.AgreesWhereReached redirectedBody ∧
    ∃ cf cf', ofBody loopedBody = .ok cf ∧ ofBody redirectedBody = .ok cf' ∧
      (∀ a, a ∈ cf.postDominatorBlocks 2 ↔
        a ≠ 2 ∧ ∀ p, Walk loopedBody.FlowEdge 2 6 p → a ∈ p) ∧
      cf.postDominatorBlocks 5 = [] ∧
      cf'.postDominatorBlocks 2 = cf.postDominatorBlocks 2 := by
  have hwf : loopedBody.WellFormed := .of_kinds 6 (by decide) (by decide) (by decide)
  have hwf' : redirectedBody.WellFormed := .of_kinds 6 (by decide) (by decide) (by decide)
  obtain ⟨cf, exit, hcf, hexit, hall⟩ := postDominators_exact loopedBody hwf rfl
  obtain ⟨cf', exit', hcf', -, -⟩ := postDominators_exact redirectedBody hwf' rfl
  have hsix : loopedBody.exit? = some 6 := by decide
  rw [hsix, Option.some.injEq] at hexit
  subst hexit
  have hedge : ∀ {u v}, (u, v) ∈ loopedBody.edges → loopedBody.FlowEdge u v := Or.inl
  have htwo : Reaches loopedBody.FlowEdge 0 2 :=
    ⟨_, .cons (v := 1) (hedge (by decide)) (.cons (hedge (by decide)) (.single 2))⟩
  have hout : Reaches loopedBody.FlowEdge 2 6 :=
    ⟨_, .cons (v := 1) (hedge (by decide)) (.cons (v := 4) (hedge (by decide))
      (.cons (hedge (by decide)) (.single 6)))⟩
  have hspin : ¬ Reaches loopedBody.FlowEdge 5 6 := by
    have hedges : ∀ e ∈ loopedBody.edges, e.1 = 5 → e.2 = 5 := by decide
    have hstep : ∀ {u v}, u = 5 → loopedBody.FlowEdge u v → v = 5 := by
      intro u v hu huv
      rcases flowEdge_loopedBody huv with hedge | ⟨rfl, -⟩
      · exact hedges _ hedge hu
      · cases hu
    have hstay : ∀ o, Reaches loopedBody.FlowEdge 5 o → o = 5 :=
      fun o ho => ho.closed (· = 5) hstep rfl
    intro hreach
    exact absurd (hstay 6 hreach) (by decide)
  obtain ⟨hlive, -, hdead⟩ := hall 2 htwo (by decide)
  obtain ⟨-, hstuck, -⟩ := hall 5 (htwo.tail (hedge (by decide))) (by decide)
  exact ⟨hwf, hwf', agrees_redirectedBody, cf, cf', hcf, hcf', (hlive hout).2.1, (hstuck hspin).2,
    (hdead _ _ hwf' hcf' agrees_redirectedBody).1⟩

end AwaitLint.ControlFlow
