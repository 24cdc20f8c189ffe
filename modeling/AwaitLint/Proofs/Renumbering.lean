import AwaitLint.Proofs.Correspondence
import AwaitLint.Proofs.ReachingDefinitions
import Mathlib.Logic.Equiv.Basic

/-!
# AwaitLint — block numbers do not matter

The order of the blocks of a body decides the numbers of its instructions, the order in which the
graph is searched, swept and built, and which of several matches a search meets first. None of this
shows in the answers, as long as the first block stays first.

## The architecture

* **`Body.Renumbers`** — `b'` has the blocks of `b` in other places, with their successors renamed.
  `Body.moved` takes an instruction to its new place; `exists_instr` and `forall_instr` move a
  statement about all instructions.
* **`mem_postDominators_moved`** — post-dominance in terms of kept blocks and walks
  (`mem_postDominators_kept`), both of which carry over along the renaming.
* **`adjacent_moved`** — the successors of a kept block carry over in their order, so the search for
  a conditional in the successor blocks meets the same instructions in the same order.
* **`arrives_moved_iff`** — the reaching sets are known by what arrives (`mem_reach_solve`), in
  whatever order the sweeps found it.
* **`Body.Renumbers.corresponds`** — with this the two analyses correspond, and judge alike.
* **`numbering_invisible`** — the headline.
-/

namespace AwaitLint

universe u

/-! ## Walks under a renaming -/

section Renaming

variable {V : Type u} {step step' : V → V → Prop} {f : V → V} {x y : V} {p : List V}

theorem Walk.map (hstep : ∀ x y, step x y → step' (f x) (f y)) (h : Walk step x y p) :
    Walk step' (f x) (f y) (p.map f) := by
  induction h with
  | single v => exact .single (f v)
  | cons edge _ ih => exact .cons (hstep _ _ edge) ih

variable (σ : Equiv.Perm V) (hstep : ∀ x y, step' (σ x) (σ y) ↔ step x y)

include hstep

theorem walk_map_iff : Walk step' (σ x) (σ y) (p.map σ) ↔ Walk step x y p := by
  constructor
  · intro h
    have hback : Walk step (σ.symm (σ x)) (σ.symm (σ y)) ((p.map σ).map σ.symm) :=
      h.map fun u v huv => by rwa [← hstep, Equiv.apply_symm_apply, Equiv.apply_symm_apply]
    simpa using hback
  · exact fun h => h.map fun u v huv => (hstep u v).2 huv

theorem reaches_map_iff : Reaches step' (σ x) (σ y) ↔ Reaches step x y := by
  constructor
  · rintro ⟨p, hp⟩
    refine ⟨p.map σ.symm, (walk_map_iff σ hstep).1 ?_⟩
    simpa using hp
  · rintro ⟨p, hp⟩
    exact ⟨p.map σ, (walk_map_iff σ hstep).2 hp⟩

end Renaming

/-- The block with its successors renamed. -/
def Block.renumber (σ : Nat → Nat) (blk : Block) : Block :=
  { blk with fall := blk.fall.map σ, cond := blk.cond.map σ }

theorem Block.succs_renumber (σ : Nat → Nat) (blk : Block) :
    (blk.renumber σ).succs = blk.succs.map σ := by
  simp [Block.renumber, Block.succs, Option.toList_map]

namespace Body

/-- `b'` has the blocks of `b` at the ordinals that `σ` gives them; the first one stays. -/
structure Renumbers (σ : Equiv.Perm Nat) (b b' : Body) : Prop where
  first : σ 0 = 0
  blocks : ∀ o, b'.blocks[σ o]? = (b.blocks[o]?).map (Block.renumber σ)
  regions : b'.hasExceptionRegions = b.hasExceptionRegions

/-- The instruction of `b` in the place that `σ` gives it in this body. -/
def moved (b : Body) (σ : Equiv.Perm Nat) (i : Instr) : Instr :=
  ⟨b.offset (σ i.block) + i.index, σ i.block, i.index, i.node⟩

/-- The first block is the entry when it is of that kind, or when no block is. -/
theorem entry_first_iff {b : Body} : b.entry? = some 0 ↔
    ∃ blk, b.blocks[0]? = some blk ∧
      (blk.kind = .entry ∨
        ∀ (o : Nat) (blk : Block), b.blocks[o]? = some blk → blk.kind ≠ .entry) := by
  unfold entry?
  cases hfind : b.blocks.findIdx? fun blk => blk.kind = .entry with
  | none =>
    rw [List.findIdx?_eq_none_iff] at hfind
    have hnone : ∀ (o : Nat) (blk : Block), b.blocks[o]? = some blk → blk.kind ≠ .entry := by
      intro o blk hblk
      simpa using hfind blk (List.mem_of_getElem? hblk)
    cases hblocks : b.blocks with
    | nil => simp
    | cons blk bs =>
      rw [hblocks] at hnone
      exact ⟨fun _ => ⟨blk, rfl, .inr hnone⟩, fun _ => rfl⟩
  | some o =>
    obtain ⟨hlt, hkind, hfirst⟩ := List.findIdx?_eq_some_iff_getElem.1 hfind
    have hentry : b.blocks[o].kind = .entry := by simpa using hkind
    show some o = some 0 ↔ _
    rw [Option.some.injEq]
    constructor
    · rintro rfl
      exact ⟨_, List.getElem?_eq_getElem hlt, .inl hentry⟩
    · rintro ⟨blk, hblk, hkind | hnone⟩
      · by_contra hne
        have hpass := hfirst 0 (Nat.pos_of_ne_zero hne)
        obtain ⟨hlt', rfl⟩ := List.getElem?_eq_some_iff.1 hblk
        simp [hkind] at hpass
      · exact absurd hentry (hnone o _ (List.getElem?_eq_getElem hlt))

namespace Renumbers

variable {σ : Equiv.Perm Nat} {b b' : Body} {i j : Instr} {o u v exit : Nat}

theorem symm (h : Renumbers σ b b') : Renumbers σ.symm b' b := by
  refine ⟨?_, fun o => ?_, h.regions.symm⟩
  · rw [Equiv.symm_apply_eq]
    exact h.first.symm
  · have hback : Block.renumber σ.symm ∘ Block.renumber σ = id := by
      funext blk
      simp [Block.renumber, Function.comp_def]
    have ho := h.blocks (σ.symm o)
    rw [Equiv.apply_symm_apply] at ho
    rw [ho, Option.map_map, hback, Option.map_id, id]

/-! ### Instructions -/

theorem moved_mem (h : Renumbers σ b b') (hi : i ∈ b.instrs) : b'.moved σ i ∈ b'.instrs := by
  obtain ⟨blk, hblk, hnode, -⟩ := mem_instrs.1 hi
  refine mem_instrs.2 ⟨blk.renumber σ, ?_, hnode, rfl⟩
  show b'.blocks[σ i.block]? = _
  rw [h.blocks, hblk]
  rfl

theorem moved_symm (h : Renumbers σ b b') (hi : i ∈ b.instrs) :
    b.moved σ.symm (b'.moved σ i) = i := by
  refine eq_of_place_eq (h.symm.moved_mem (h.moved_mem hi)) hi ?_ rfl
  exact σ.symm_apply_apply i.block

theorem exists_of_mem (h : Renumbers σ b b') (hj : j ∈ b'.instrs) :
    ∃ i ∈ b.instrs, b'.moved σ i = j :=
  ⟨b.moved σ.symm j, h.symm.moved_mem hj, h.symm.moved_symm hj⟩

theorem moved_inj (h : Renumbers σ b b') (hi : i ∈ b.instrs) (hj : j ∈ b.instrs)
    (heq : b'.moved σ i = b'.moved σ j) : i = j := by
  rw [← h.moved_symm hi, heq, h.moved_symm hj]

theorem exists_instr (h : Renumbers σ b b') {P : Instr → Prop} :
    (∃ j ∈ b'.instrs, P j) ↔ ∃ i ∈ b.instrs, P (b'.moved σ i) := by
  constructor
  · rintro ⟨j, hj, hP⟩
    obtain ⟨i, hi, rfl⟩ := h.exists_of_mem hj
    exact ⟨i, hi, hP⟩
  · rintro ⟨i, hi, hP⟩
    exact ⟨_, h.moved_mem hi, hP⟩

theorem forall_instr (h : Renumbers σ b b') {P : Instr → Prop} :
    (∀ j ∈ b'.instrs, P j) ↔ ∀ i ∈ b.instrs, P (b'.moved σ i) := by
  constructor
  · exact fun hall i hi => hall _ (h.moved_mem hi)
  · intro hall j hj
    obtain ⟨i, hi, rfl⟩ := h.exists_of_mem hj
    exact hall i hi

theorem map_moved_perm (h : Renumbers σ b b') : (b.instrs.map (b'.moved σ)).Perm b'.instrs := by
  have hnd : (b.instrs.map (b'.moved σ)).Nodup :=
    b.nodup_instrs.map_on fun i hi j hj => h.moved_inj hi hj
  rw [List.perm_ext_iff_of_nodup hnd b'.nodup_instrs]
  intro j
  rw [List.mem_map]
  constructor
  · rintro ⟨i, hi, rfl⟩
    exact h.moved_mem hi
  · exact h.exists_of_mem

theorem instrsOf_eq (h : Renumbers σ b b') (o : Nat) :
    b'.instrsOf (σ o) = (b.instrsOf o).map (b'.moved σ) := by
  have hblk' := h.blocks o
  cases hblk : b.blocks[o]? with
  | none =>
    rw [hblk] at hblk'
    rw [b.instrsOf_eq_nil hblk, b'.instrsOf_eq_nil hblk']
    rfl
  | some blk =>
    rw [hblk] at hblk'
    rw [b.instrsOf_eq hblk, b'.instrsOf_eq hblk']
    refine List.ext_getElem (by simp [Block.evaluated, Block.renumber]) fun k hk hk' => ?_
    simp [moved, Block.evaluated, Block.renumber]

/-! ### Edges -/

theorem lt_length_iff (h : Renumbers σ b b') : σ o < b'.blocks.length ↔ o < b.blocks.length := by
  have hblk := h.blocks o
  rw [← not_iff_not, Nat.not_lt, Nat.not_lt, ← List.getElem?_eq_none_iff,
    ← List.getElem?_eq_none_iff, hblk, Option.map_eq_none_iff]

theorem edge_iff (h : Renumbers σ b b') : b'.Edge (σ u) (σ v) ↔ b.Edge u v := by
  rw [Body.edge_iff, Body.edge_iff, h.blocks]
  cases b.blocks[u]? with
  | none => simp
  | some blk => simp [Block.succs_renumber]

theorem block_of (h : Renumbers σ b b') {blk : Block} (hblk : b'.blocks[o]? = some blk) :
    ∃ blk₀, b.blocks[σ.symm o]? = some blk₀ ∧ blk₀.kind = blk.kind := by
  refine ⟨blk.renumber σ.symm, ?_, rfl⟩
  rw [h.symm.blocks, hblk]
  rfl

theorem wellFormed (h : Renumbers σ b b') (hwf : b.WellFormed) : b'.WellFormed := by
  constructor
  · obtain ⟨blk, hblk, hkind⟩ := entry_first_iff.1 hwf.entry_first
    refine entry_first_iff.2 ⟨blk.renumber σ, ?_, hkind.imp_right fun hnone o blk' hblk' => ?_⟩
    · have := h.blocks 0
      rwa [h.first, hblk] at this
    · obtain ⟨blk₀, hblk₀, hsame⟩ := h.block_of hblk'
      rw [← hsame]
      exact hnone _ _ hblk₀
  · obtain ⟨o, ⟨blk, hblk, hkind⟩, honly⟩ := hwf.one_exit
    refine ⟨σ o, ⟨blk.renumber σ, ?_, hkind⟩, fun o' ⟨blk', hblk', hkind'⟩ => ?_⟩
    · rw [h.blocks, hblk]
      rfl
    · obtain ⟨blk₀, hblk₀, hsame⟩ := h.block_of hblk'
      rw [← honly _ ⟨blk₀, hblk₀, hsame.trans hkind'⟩, Equiv.apply_symm_apply]

theorem exit_eq (h : Renumbers σ b b') (hwf : b.WellFormed) (hexit : b.exit? = some exit) :
    b'.exit? = some (σ exit) := by
  obtain ⟨o, ⟨blk, hblk, hkind⟩, -⟩ := hwf.one_exit
  have ho := hwf.exit_eq hblk hkind
  rw [hexit, Option.some.injEq] at ho
  subst ho
  have hblk' : b'.blocks[σ exit]? = some (blk.renumber σ) := by
    rw [h.blocks, hblk]
    rfl
  exact (h.wellFormed hwf).exit_eq hblk' hkind

theorem flowEdge_iff (h : Renumbers σ b b') (hwf : b.WellFormed) :
    b'.FlowEdge (σ u) (σ v) ↔ b.FlowEdge u v := by
  obtain ⟨exit, hexit⟩ := hwf.exists_exit
  rw [FlowEdge, FlowEdge, h.edge_iff, hwf.entry_first, (h.wellFormed hwf).entry_first, hexit,
    h.exit_eq hwf hexit, Option.some.injEq, Option.some.injEq, Option.some.injEq,
    Option.some.injEq, σ.injective.eq_iff]
  nth_rewrite 1 [← h.first]
  rw [σ.injective.eq_iff]

end Renumbers

end Body

/-! ## Control flow -/

namespace ControlFlow

variable {σ : Equiv.Perm Nat} {g g' : Graph Nat} {v : Nat}

section Prune

variable (hvertex : ∀ v, σ v ∈ g'.vertices ↔ v ∈ g.vertices)
  (hedge : ∀ u v, g'.Edge (σ u) (σ v) ↔ g.Edge u v)

include hvertex hedge

theorem isRooted_iff_of_renaming : g'.isRooted = true ↔ g.isRooted = true := by
  rw [Graph.isRooted_iff, Graph.isRooted_iff, ← σ.exists_congr_right]
  refine exists_congr fun r => and_congr (hvertex r) ?_
  rw [← σ.forall_congr_right]
  exact forall_congr' fun v => imp_congr (hvertex v) (reaches_map_iff σ hedge)

theorem mem_prune_iff_of_renaming (hfirst : σ 0 = 0) (h0 : 0 ∈ g.vertices) :
    σ v ∈ (prune g').vertices ↔ v ∈ (prune g).vertices := by
  have h0' : 0 ∈ g'.vertices := by
    rw [← hfirst]
    exact (hvertex 0).2 h0
  rw [mem_prune h0', mem_prune h0, hvertex, isRooted_iff_of_renaming hvertex hedge]
  refine and_congr_right fun _ => or_congr_right ?_
  nth_rewrite 1 [← hfirst]
  exact reaches_map_iff σ hedge

end Prune

variable {b b' : Body} {cf cf' : ControlFlow} {i s : Instr} {exit : Nat}

theorem mem_blockGraph (hentry : b.entry? = some 0) (hexit : b.exit? = some exit) :
    v ∈ (blockGraph b 0 exit).vertices ↔
      v < b.blocks.length ∨ ∃ u, b.FlowEdge u v ∨ b.FlowEdge v u := by
  constructor
  · intro hv
    rw [blockGraph, Graph.mem_vertices_build, Body.ordinals, List.mem_range] at hv
    rcases hv with ⟨⟨x, y⟩, he, hv⟩ | hv
    · have hxy : b.FlowEdge x y :=
        (edge_blockGraph hentry hexit).1 (Graph.mem_edges_build.2 he)
      rcases hv with rfl | rfl
      · exact .inr ⟨y, .inr hxy⟩
      · exact .inr ⟨x, .inl hxy⟩
    · exact .inl hv
  · rintro (hv | ⟨u, huv | hvu⟩)
    · rw [blockGraph, Graph.mem_vertices_build, Body.ordinals, List.mem_range]
      exact .inr hv
    · exact Graph.target_mem ((edge_blockGraph hentry hexit).2 huv)
    · exact Graph.source_mem ((edge_blockGraph hentry hexit).2 hvu)

theorem graph_eq (hwf : b.WellFormed) (hcf : ofBody b = .ok cf) (hexit : b.exit? = some exit) :
    cf.graph = prune (blockGraph b 0 exit) := by
  obtain ⟨entry, hentry, rfl⟩ := ofBody_eq hcf hexit
  obtain rfl : 0 = entry := Option.some.inj (hwf.entry_first.symm.trans hentry)
  rfl

theorem adjacent_blockGraph (b : Body) (entry exit v : Nat) :
    (blockGraph b entry exit).adjacent v
      = (b.blocks[v]?).elim [] Block.succs ++ if entry = v then [exit] else [] := by
  rw [blockGraph, Graph.adjacent_build, List.filter_append, List.map_append,
    Body.map_snd_filter_edges]
  by_cases hv : entry = v
  · simp [hv]
  · simp [hv]

/-- The kept blocks that reach the exit, the exit apart, are those with a parent. -/
theorem exists_parent_iff_kept (hwf : b.WellFormed) (hcf : ofBody b = .ok cf)
    (hexit : b.exit? = some exit) :
    (∃ d, cf.tree.parent? v = some d) ↔
      v ∈ cf.graph.vertices ∧ Reaches b.FlowEdge v exit ∧ v ≠ exit := by
  constructor
  · rintro ⟨d, hd⟩
    obtain ⟨hv, he⟩ := mem_graph_of_parent hcf hexit hd
    exact ⟨hv, (exists_parent_iff hcf hexit hv he).1 ⟨d, hd⟩⟩
  · rintro ⟨hv, hreach⟩
    have he := mem_graph_of_reaches hcf (hwf.reaches_exit hexit)
    exact (exists_parent_iff hcf hexit hv he).2 hreach

/-- The post-dominators of an instruction in terms of walks and kept blocks alone. -/
theorem mem_postDominators_kept (hwf : b.WellFormed) (hcf : ofBody b = .ok cf)
    (hexit : b.exit? = some exit) (hs : s ∈ b.instrs) :
    s ∈ cf.postDominators i ↔
      (i.block ∈ cf.graph.vertices ∧ Reaches b.FlowEdge i.block exit ∧ i.block ≠ exit) ∧
        ((∀ p, Walk b.FlowEdge i.block exit p → s.block ∈ p) ∧ s.block ≠ i.block ∨
          s.block = i.block ∧ i.index < s.index) := by
  rw [mem_postDominators hcf, exists_parent_iff_kept hwf hcf hexit]
  refine and_congr_right fun ⟨hv, hreach, _⟩ => ?_
  have he := mem_graph_of_reaches hcf (hwf.reaches_exit hexit)
  rw [mem_postDominatorBlocks hcf hexit hv he, and_iff_right hs, and_iff_right hreach]

section Renumbers

variable (h : Body.Renumbers σ b b') (hwf : b.WellFormed) (hcf : ofBody b = .ok cf)
  (hcf' : ofBody b' = .ok cf')

include h hwf hcf hcf'

theorem mem_graph_moved : σ v ∈ cf'.graph.vertices ↔ v ∈ cf.graph.vertices := by
  obtain ⟨exit, hexit⟩ := hwf.exists_exit
  have hwf' := h.wellFormed hwf
  have hexit' := h.exit_eq hwf hexit
  rw [graph_eq hwf hcf hexit, graph_eq hwf' hcf' hexit']
  refine mem_prune_iff_of_renaming (fun x => ?_) (fun x y => ?_) h.first
    (zero_mem_blockGraph hwf.entry_first)
  · rw [mem_blockGraph hwf'.entry_first hexit', mem_blockGraph hwf.entry_first hexit,
      h.lt_length_iff, ← σ.exists_congr_right]
    simp only [h.flowEdge_iff hwf]
  · rw [edge_blockGraph hwf'.entry_first hexit', edge_blockGraph hwf.entry_first hexit,
      h.flowEdge_iff hwf]

theorem adjacent_moved (v : Nat) : cf'.graph.adjacent (σ v) = (cf.graph.adjacent v).map σ := by
  have hkept := mem_graph_moved (v := v) h hwf hcf hcf'
  by_cases hv : v ∈ cf.graph.vertices
  · have hv' := hkept.2 hv
    obtain ⟨exit, hexit⟩ := hwf.exists_exit
    have hwf' := h.wellFormed hwf
    have hexit' := h.exit_eq hwf hexit
    rw [graph_eq hwf hcf hexit] at hv ⊢
    rw [graph_eq hwf' hcf' hexit'] at hv' ⊢
    have hown : (b'.blocks[σ v]?).elim [] Block.succs
        = ((b.blocks[v]?).elim [] Block.succs).map σ := by
      rw [h.blocks]
      cases b.blocks[v]? with
      | none => rfl
      | some blk => exact blk.succs_renumber σ
    have hextra : (if 0 = σ v then [σ exit] else []) = (if 0 = v then [exit] else []).map σ := by
      have hzero : 0 = σ v ↔ 0 = v := by
        nth_rewrite 1 [← h.first]
        exact σ.injective.eq_iff
      simp only [hzero]
      split <;> rfl
    rw [adjacent_prune (zero_mem_blockGraph hwf'.entry_first) hv',
      adjacent_prune (zero_mem_blockGraph hwf.entry_first) hv, adjacent_blockGraph,
      adjacent_blockGraph, hown, hextra, List.map_append]
  · -- a dropped block has no successors
    have hnil : ∀ {g : Graph Nat} {x}, x ∉ g.vertices → g.adjacent x = [] := by
      intro g x hx
      rw [List.eq_nil_iff_forall_not_mem]
      exact fun w hw => hx (Graph.source_mem (Graph.mem_adjacent.1 hw))
    rw [hnil hv, hnil fun hv' => hv (hkept.1 hv')]
    rfl

theorem successorInstrs_moved (i : Instr) :
    cf'.successorInstrs (b'.moved σ i) = (cf.successorInstrs i).map (b'.moved σ) := by
  show (cf'.graph.adjacent (σ i.block)).flatMap cf'.body.instrsOf = _
  rw [adjacent_moved h hwf hcf hcf', body_eq hcf', successorInstrs, body_eq hcf,
    List.flatMap_map, List.map_flatMap]
  exact List.flatMap_congr fun o _ => h.instrsOf_eq o

theorem mem_postDominators_moved (hs : s ∈ b.instrs) :
    b'.moved σ s ∈ cf'.postDominators (b'.moved σ i) ↔ s ∈ cf.postDominators i := by
  obtain ⟨exit, hexit⟩ := hwf.exists_exit
  have hflow : ∀ x y, b'.FlowEdge (σ x) (σ y) ↔ b.FlowEdge x y := fun x y => h.flowEdge_iff hwf
  rw [mem_postDominators_kept (h.wellFormed hwf) hcf' (h.exit_eq hwf hexit) (h.moved_mem hs),
    mem_postDominators_kept hwf hcf hexit hs]
  show (σ i.block ∈ cf'.graph.vertices ∧ Reaches b'.FlowEdge (σ i.block) (σ exit) ∧
      σ i.block ≠ σ exit) ∧
    ((∀ p, Walk b'.FlowEdge (σ i.block) (σ exit) p → σ s.block ∈ p) ∧ σ s.block ≠ σ i.block ∨
      σ s.block = σ i.block ∧ i.index < s.index) ↔ _
  -- a list of ordinals in `b'` is the image of one in `b`
  have hwalks : (∀ p, Walk b'.FlowEdge (σ i.block) (σ exit) p → σ s.block ∈ p) ↔
      ∀ p, Walk b.FlowEdge i.block exit p → s.block ∈ p := by
    constructor
    · intro hall p hp
      simpa using hall _ ((walk_map_iff σ hflow).2 hp)
    · intro hall p hp
      have hp' : Walk b.FlowEdge i.block exit (p.map σ.symm) := by
        rw [← walk_map_iff σ hflow]
        simpa using hp
      have hmem := hall _ hp'
      rw [List.mem_map] at hmem
      obtain ⟨x, hx, hxs⟩ := hmem
      rwa [← hxs, Equiv.apply_symm_apply]
  rw [mem_graph_moved h hwf hcf hcf', reaches_map_iff σ hflow, hwalks, σ.injective.ne_iff,
    σ.injective.ne_iff, σ.injective.eq_iff]

theorem mem_postDominators_moved_iff {t : Instr} :
    t ∈ cf'.postDominators (b'.moved σ i) ↔ ∃ s ∈ cf.postDominators i, b'.moved σ s = t := by
  constructor
  · intro ht
    obtain ⟨s, hs, rfl⟩ := h.exists_of_mem ((mem_postDominators hcf').1 ht).2.1
    exact ⟨s, (mem_postDominators_moved h hwf hcf hcf' hs).1 ht, rfl⟩
  · rintro ⟨s, hs, rfl⟩
    exact (mem_postDominators_moved h hwf hcf hcf' ((mem_postDominators hcf).1 hs).2.1).2 hs

end Renumbers

end ControlFlow

/-! ## Data flow -/

namespace DataFlow

variable {σ : Equiv.Perm Nat} {fe : FrontEnd} {b b' : Body} {d i s : Instr} {o : Nat}
  {v : Option Variable} {symbols : List (Option Variable)}

variable (h : Body.Renumbers σ b b')

include h

theorem defUse_moved (hi : i ∈ b.instrs) :
    (solve fe b').defUse (b'.moved σ i).id = (solve fe b).defUse i.id := by
  rw [defUse_solve (h.moved_mem hi), defUse_solve hi]
  rfl

theorem defines_moved (hi : i ∈ b.instrs) :
    (solve fe b').defines v (b'.moved σ i).id = (solve fe b).defines v i.id := by
  rw [defines, defUse_moved h hi]
  rfl

theorem rewrittenAfter_moved (i : Instr) (v : Option Variable) :
    (solve fe b').rewrittenAfter (b'.moved σ i) v = (solve fe b).rewrittenAfter i v := by
  rw [Bool.eq_iff_iff, rewrittenAfter_eq_true, rewrittenAfter_eq_true, body_solve, body_solve,
    h.exists_instr]
  refine exists_congr fun j => and_congr_right fun hj => ?_
  rw [defines_moved h hj]
  exact and_congr_left' σ.injective.eq_iff

theorem writes_moved (o : Nat) (v : Option Variable) :
    (solve fe b').writes (σ o) v = (solve fe b).writes o v := by
  rw [Bool.eq_iff_iff, writes_eq_true, writes_eq_true, body_solve, body_solve, h.exists_instr]
  refine exists_congr fun j => and_congr_right fun hj => ?_
  rw [defines_moved h hj]
  exact and_congr_left' σ.injective.eq_iff

theorem mem_defs_moved (hi : i ∈ b.instrs) :
    (b'.moved σ i).id ∈ (solve fe b').defs (σ o) ↔ i.id ∈ (solve fe b).defs o := by
  rw [mem_defs (by rw [body_solve]; exact h.moved_mem hi), mem_defs (by rwa [body_solve])]
  simp only [defines_moved h hi, rewrittenAfter_moved h]
  exact and_congr_left' σ.injective.eq_iff

theorem mem_kills_moved (hi : i ∈ b.instrs) :
    (b'.moved σ i).id ∈ (solve fe b').kills (σ o) ↔ i.id ∈ (solve fe b).kills o := by
  rw [mem_kills (by rw [body_solve]; exact h.moved_mem hi), mem_kills (by rwa [body_solve])]
  simp only [defines_moved h hi, writes_moved h]
  exact and_congr_left' σ.injective.ne_iff

theorem edge_moved {p o : Nat} :
    (solve fe b').body.Edge (σ p) (σ o) ↔ (solve fe b).body.Edge p o := by
  rw [body_solve, body_solve, h.edge_iff]

/-- An instruction that arrives at a block arrives there under the new numbers. -/
theorem Arrives.moved (hi : i ∈ b.instrs) (harr : Arrives (solve fe b) i o) :
    Arrives (solve fe b') (b'.moved σ i) (σ o) := by
  induction harr with
  | leave last edge => exact .leave ((mem_defs_moved h hi).2 last) ((edge_moved h).2 edge)
  | pass rest kept edge ih =>
    exact .pass ih (fun hkill => kept ((mem_kills_moved h hi).1 hkill)) ((edge_moved h).2 edge)

theorem arrives_moved_iff (hi : i ∈ b.instrs) :
    Arrives (solve fe b') (b'.moved σ i) (σ o) ↔ Arrives (solve fe b) i o := by
  refine ⟨fun harr => ?_, Arrives.moved h hi⟩
  have hback := Arrives.moved h.symm (h.moved_mem hi) harr
  rwa [h.moved_symm hi, Equiv.symm_apply_apply] at hback

theorem shadows_moved_iff (hd : d ∈ b.instrs) (s : Instr) :
    (solve fe b').Shadows v (b'.moved σ d) (b'.moved σ s) ↔ (solve fe b).Shadows v d s := by
  have hnearest : (∀ t ∈ (solve fe b').body.instrs, t.block = σ s.block → d.index < t.index →
        t.index < s.index → (solve fe b').defines v t.id = false) ↔
      ∀ t ∈ (solve fe b).body.instrs, t.block = s.block → d.index < t.index →
        t.index < s.index → (solve fe b).defines v t.id = false := by
    rw [body_solve, body_solve, h.forall_instr]
    refine forall_congr' fun t => forall_congr' fun ht => ?_
    rw [defines_moved h ht]
    exact imp_congr_left σ.injective.eq_iff
  constructor
  · rintro ⟨hblock, hbefore, hwrites, hall⟩
    rw [defines_moved h hd] at hwrites
    exact ⟨σ.injective hblock, hbefore, hwrites, hnearest.1 hall⟩
  · rintro ⟨hblock, hbefore, hwrites, hall⟩
    rw [← defines_moved h hd] at hwrites
    exact ⟨congrArg σ hblock, hbefore, hwrites, hnearest.2 hall⟩

theorem unshadowed_moved_iff (s : Instr) :
    (solve fe b').Unshadowed v (b'.moved σ s) ↔ (solve fe b).Unshadowed v s := by
  unfold Unshadowed
  rw [body_solve, body_solve, h.forall_instr]
  refine forall_congr' fun t => forall_congr' fun ht => ?_
  rw [defines_moved h ht]
  exact imp_congr_left σ.injective.eq_iff

theorem mem_definitionsAt_moved (hd : d ∈ b.instrs) (hs : s ∈ b.instrs) :
    (b'.moved σ d).id ∈ (solve fe b').definitionsAt (b'.moved σ s) v ↔
      d.id ∈ (solve fe b).definitionsAt s v := by
  rw [mem_definitionsAt_solve (h.moved_mem hd) (h.moved_mem hs), mem_definitionsAt_solve hd hs,
    shadows_moved_iff h hd, unshadowed_moved_iff h, defines_moved h hd]
  exact or_congr_right (and_congr_right fun _ => and_congr_right fun _ => arrives_moved_iff h hd)

theorem mem_reachingTo_moved (hd : d ∈ b.instrs) (hs : s ∈ b.instrs) :
    (b'.moved σ d).id ∈ (solve fe b').reachingTo (b'.moved σ s) symbols ↔
      d.id ∈ (solve fe b).reachingTo s symbols := by
  simp only [mem_reachingTo_symbols, reads, defUse_moved h hs, mem_definitionsAt_moved h hd hs]

theorem mem_reachingFrom_moved (hd : d ∈ b.instrs) (hs : s ∈ b.instrs) :
    b'.moved σ s ∈ (solve fe b').reachingFrom (b'.moved σ d).id symbols ↔
      s ∈ (solve fe b).reachingFrom d.id symbols := by
  unfold reachingFrom
  rw [List.mem_filter, List.mem_filter, body_solve, body_solve, defUse_moved h hd,
    List.contains_iff_mem, List.contains_iff_mem, mem_reachingTo_moved h hd hs,
    and_iff_right (h.moved_mem hs), and_iff_right hs]

theorem mem_reachingFrom_moved_iff (hd : d ∈ b.instrs) {t : Instr} :
    t ∈ (solve fe b').reachingFrom (b'.moved σ d).id symbols ↔
      ∃ s ∈ (solve fe b).reachingFrom d.id symbols, b'.moved σ s = t := by
  have hin : ∀ {c : Body} {k s}, s ∈ (solve fe c).reachingFrom k symbols → s ∈ c.instrs := by
    intro c k s hs
    rw [← body_solve fe c]
    exact mem_instrs_of_mem_reachingFrom hs
  constructor
  · intro ht
    obtain ⟨s, hs, rfl⟩ := h.exists_of_mem (hin ht)
    exact ⟨s, (mem_reachingFrom_moved h hd hs).1 ht, rfl⟩
  · rintro ⟨s, hs, rfl⟩
    exact (mem_reachingFrom_moved h hd (hin hs)).2 hs

theorem mem_reachingTo_moved_iff (hs : s ∈ b.instrs) {k : Nat} :
    k ∈ (solve fe b').reachingTo (b'.moved σ s) symbols ↔
      ∃ d ∈ b.instrs, d.id ∈ (solve fe b).reachingTo s symbols ∧ (b'.moved σ d).id = k := by
  constructor
  · intro hk
    obtain ⟨v, -, -, hdef⟩ := mem_reachingTo_symbols.1 hk
    obtain ⟨d', hd', rfl⟩ := exists_instr_of_mem_definitionsAt hdef
    obtain ⟨d, hd, rfl⟩ := h.exists_of_mem hd'
    exact ⟨d, hd, (mem_reachingTo_moved h hd hs).1 hk, rfl⟩
  · rintro ⟨d, hd, hk, rfl⟩
    exact (mem_reachingTo_moved h hd hs).2 hk

end DataFlow

/-! ## Front ends -/

namespace FrontEnd

/-- `fe'` answers as `fe` does, but may give `b'` where `fe` gives `b`. -/
structure Replaces (fe fe' : FrontEnd) (b b' : Body) : Prop where
  links : fe'.links = fe.links
  defUse : fe'.defUse = fe.defUse
  body : ∀ n, fe'.body n = fe.body n ∨ fe.body n = .ok b ∧ fe'.body n = .ok b'

end FrontEnd

/-! ## The verdict -/

section Verdict

variable {σ : Equiv.Perm Nat} {fe fe' : FrontEnd} {b b' : Body} {cf cf' : ControlFlow}

/-- Analyses of a body under two numberings correspond. -/
theorem Body.Renumbers.corresponds (h : b.Renumbers σ b') (hwf : b.WellFormed)
    (hcf : ControlFlow.ofBody b = .ok cf) (hcf' : ControlFlow.ofBody b' = .ok cf') (c : Config)
    (fe : FrontEnd) :
    Analysis.Corresponds ⟨c, fe.links, cf, DataFlow.solve fe b⟩
      ⟨c, fe.links, cf', DataFlow.solve fe b'⟩ (b'.moved σ) where
  config := rfl
  links := rfl
  facts_links := by
    show (DataFlow.solve fe b').links = (DataFlow.solve fe b).links
    rw [DataFlow.links_solve, DataFlow.links_solve]
  moved i hi := by
    rw [DataFlow.body_solve] at hi ⊢
    exact h.moved_mem hi
  exists_of_mem j hj := by
    rw [DataFlow.body_solve] at hj ⊢
    exact h.exists_of_mem hj
  node _ := rfl
  facts i hi := DataFlow.defUse_moved h (DataFlow.body_solve fe b ▸ hi)
  later i hi s hs := by
    rw [DataFlow.body_solve] at hi hs
    rw [Bool.eq_iff_iff, Analysis.listed_postDominators hcf' (h.moved_mem hs),
      Analysis.listed_postDominators hcf hs]
    exact ControlFlow.mem_postDominators_moved h hwf hcf hcf' hs
  uses d hd s hs symbols := by
    rw [DataFlow.body_solve] at hd hs
    exact DataFlow.mem_reachingFrom_moved h hd hs
  successors i _ := ControlFlow.successorInstrs_moved h hwf hcf hcf' i

theorem FrontEnd.Replaces.solve_eq (h : fe.Replaces fe' b b') (c : Body) :
    DataFlow.solve fe' c = DataFlow.solve fe c := by
  unfold DataFlow.solve DataFlow.resolved DataFlow.resolve
  rw [h.links, h.defUse]

/-- Around a node both front ends give the same control flow, or each that of its own body. -/
theorem FrontEnd.Replaces.around_cases (h : fe.Replaces fe' b b') (target : Node) :
    ControlFlow.around fe' target = ControlFlow.around fe target ∨
      ControlFlow.around fe target = ControlFlow.ofBody b ∧
        ControlFlow.around fe' target = ControlFlow.ofBody b' := by
  unfold ControlFlow.around
  rw [h.links]
  dsimp only
  split
  · exact .inl rfl
  · rename_i fn _
    rcases h.body fn with hsame | ⟨hb, hb'⟩
    · rw [hsame]
      exact .inl rfl
    · rw [hb, hb']
      exact .inr ⟨rfl, rfl⟩

theorem Body.Renumbers.ofBody_cases (h : b.Renumbers σ b') (hwf : b.WellFormed) :
    (ControlFlow.ofBody b = .error .exceptionRegions ∧
      ControlFlow.ofBody b' = .error .exceptionRegions) ∨
    ∃ cf cf', ControlFlow.ofBody b = .ok cf ∧ ControlFlow.ofBody b' = .ok cf' := by
  cases hregions : b.hasExceptionRegions with
  | true =>
    have hregions' : b'.hasExceptionRegions = true := h.regions.trans hregions
    unfold ControlFlow.ofBody
    rw [hregions, hregions']
    exact .inl ⟨rfl, rfl⟩
  | false =>
    obtain ⟨exit, hexit⟩ := hwf.exists_exit
    have hwf' := h.wellFormed hwf
    exact .inr ⟨_, _, ControlFlow.ofBody_eq_ok hregions hwf.entry_first hexit,
      ControlFlow.ofBody_eq_ok (h.regions.trans hregions) hwf'.entry_first (h.exit_eq hwf hexit)⟩

/-- A decision does not depend on the numbers of the blocks. -/
theorem Config.decide_eq_of_renumbers (hren : b.Renumbers σ b') (hwf : b.WellFormed)
    (hun : b.Unshared) (hres : fe.Resolved b) (hrep : fe.Replaces fe' b b') (c : Config)
    (target : Node) : c.decide fe' target = c.decide fe target := by
  unfold Config.decide Analysis.around
  rw [hrep.links]
  rcases hrep.around_cases target with hsame | ⟨haround, haround'⟩
  · simp only [hsame, hrep.solve_eq]
  · rw [haround, haround']
    rcases hren.ofBody_cases hwf with ⟨hb, hb'⟩ | ⟨cf, cf', hcf, hcf'⟩
    · rw [hb, hb']
    · have hbody := ControlFlow.body_eq hcf
      have hbody' := ControlFlow.body_eq hcf'
      have hcor := hren.corresponds hwf hcf hcf' c fe
      have hun' : (DataFlow.solve fe b).body.Unshared := by
        rw [DataFlow.body_solve]
        exact hun
      have howner := hcor.owner?_eq hun' target
      simp only [hcf, hcf', hbody, hbody', hrep.solve_eq, howner]
      cases hfound : (DataFlow.solve fe b).owner? target with
      | none => rfl
      | some owner =>
        have hin := DataFlow.owner?_mem hfound
        have hsource : Analysis.source ⟨c, fe.links, cf, DataFlow.solve fe b⟩ owner target
            ∈ (DataFlow.solve fe b).body.instrs := by
          rw [DataFlow.body_solve] at hin ⊢
          exact Analysis.source_mem hcf hin
        have hjudge := hcor.judge_eq hun' (hres.analysis c cf) hin hsource
        simp only [Option.map_some, hjudge]

end Verdict

/-- **The numbers of the blocks are invisible.** Let `b'` be a well-formed body `b` with the blocks
after the first one in another order. No node may lie in two instructions, and every local reference
and written variable has to be known. Then, whichever of the two bodies a front end gives,

* every value gets the same decision;
* the instructions are the same ones in other places;
* the same instructions post-dominate, and the same definitions reach the same uses, for whatever
  variables are asked. -/
theorem numbering_invisible (σ : Equiv.Perm Nat) (fe fe' : FrontEnd) (b b' : Body)
    (hren : b.Renumbers σ b') (hwf : b.WellFormed) (hun : b.Unshared) (hres : fe.Resolved b)
    (hrep : fe.Replaces fe' b b') :
    (∀ c target, Config.decide c fe' target = Config.decide c fe target) ∧
    (b.instrs.map (b'.moved σ)).Perm b'.instrs ∧
    (∀ cf, ControlFlow.ofBody b = .ok cf → ∃ cf', ControlFlow.ofBody b' = .ok cf' ∧
      ∀ i ∈ b.instrs, ∀ t, t ∈ cf'.postDominators (b'.moved σ i) ↔
        ∃ s ∈ cf.postDominators i, b'.moved σ s = t) ∧
    (∀ s ∈ b.instrs, ∀ symbols k,
      k ∈ (DataFlow.solve fe' b').reachingTo (b'.moved σ s) symbols ↔
        ∃ d ∈ b.instrs, d.id ∈ (DataFlow.solve fe b).reachingTo s symbols ∧
          (b'.moved σ d).id = k) ∧
    ∀ d ∈ b.instrs, ∀ symbols t,
      t ∈ (DataFlow.solve fe' b').reachingFrom (b'.moved σ d).id symbols ↔
        ∃ s ∈ (DataFlow.solve fe b).reachingFrom d.id symbols, b'.moved σ s = t := by
  refine ⟨Config.decide_eq_of_renumbers hren hwf hun hres hrep, hren.map_moved_perm,
    fun cf hcf => ?_, fun s hs symbols k => ?_, fun d hd symbols t => ?_⟩
  · rcases hren.ofBody_cases hwf with ⟨hb, -⟩ | ⟨_, cf', -, hcf'⟩
    · rw [hcf] at hb
      cases hb
    · exact ⟨cf', hcf', fun i _ t => ControlFlow.mem_postDominators_moved_iff hren hwf hcf hcf'⟩
  · rw [hrep.solve_eq]
    exact DataFlow.mem_reachingTo_moved_iff hren hs
  · rw [hrep.solve_eq]
    exact DataFlow.mem_reachingFrom_moved_iff hren hd

/-! ### A store and an await in either order of numbers -/

namespace Swapped

open DataFlow.Paired (task)

def produced : Node := .leaf { id := 2, kind := .call, name := "f", type := task.type }

/-- `t := f()`. -/
def store : Node :=
  .mk { id := 0, kind := .assign, name := ":=" } none [.ref 1 task] [produced] []

def awaiting : Node :=
  .mk { id := 3, kind := .exprStmt }
    (some (.mk { id := 4, kind := .await } (some (.ref 5 task)) [] [] [])) [] [] []

def func : Node := .mk { id := 6, kind := .func, name := "h" } none [] [] [store, awaiting]

/-- The store before the await. -/
def row : Body where
  func := func
  blocks := [{ kind := .entry, fall := some 1 }, { nodes := [store], fall := some 2 },
    { nodes := [awaiting], fall := some 3 }, { kind := .exit }]

/-- The same blocks, the await numbered before the store. -/
def swapped : Body where
  func := func
  blocks := [{ kind := .entry, fall := some 2 }, { nodes := [awaiting], fall := some 3 },
    { nodes := [store], fall := some 1 }, { kind := .exit }]

def frontEnd (b : Body) : FrontEnd := (Registry.add {} b).frontEnd (Links.link {} func)

theorem renumbers : row.Renumbers (Equiv.swap 1 2) swapped := by
  refine ⟨rfl, fun o => ?_, rfl⟩
  match o with
  | 0 | 1 | 2 | 3 => rfl
  | o + 4 =>
    rw [Equiv.swap_apply_of_ne_of_ne (by omega) (by omega)]
    rfl

theorem wellFormed : row.WellFormed :=
  .of_kinds 3 rfl (by decide) (by decide)

theorem unshared : row.Unshared := .of_nodup (by decide +kernel)

theorem resolved : (frontEnd row).Resolved row where
  facts := by decide +kernel
  nodes := by
    intro i hi
    have hall : row.instrs.all (fun i => (i.node.preorder fun _ => true).all
        fun m => m.kind != .localRef || m.var.isSome) = true := by decide +kernel
    exact .of_preorder (List.all_eq_true.1 hall i hi)
  parents := by
    intro n p hp
    have hall : (frontEnd row).links.entries.all (fun e => (e.2.preorder fun _ => true).all
        fun m => m.kind != .localRef || m.var.isSome) = true := by decide +kernel
    exact .of_preorder (List.all_eq_true.1 hall _ (Links.mem_entries_of_parent? hp))

theorem replaces : (frontEnd row).Replaces (frontEnd swapped) row swapped where
  links := rfl
  defUse := rfl
  body n := by
    have hbody : ∀ b : Body, b.func = func →
        (frontEnd b).body n = if func.same n then .ok b else .error .unregistered := by
      intro b hb
      cases hsame : func.same n <;>
        simp [frontEnd, Registry.frontEnd, Registry.bodyOf, Registry.add, hb, hsame]
    rw [hbody row rfl, hbody swapped rfl]
    cases func.same n with
    | true => exact .inr ⟨rfl, rfl⟩
    | false => exact .inl rfl

end Swapped

open Swapped in
/-- The awaited value gets the same verdict, although the numbers of its two instructions are
exchanged. -/
theorem swapped_judged_alike :
    row.Renumbers (Equiv.swap 1 2) swapped ∧ row.WellFormed ∧ row.Unshared ∧
    (frontEnd row).Resolved row ∧ (frontEnd row).Replaces (frontEnd swapped) row swapped ∧
    Config.decide .default (frontEnd swapped) produced
      = Config.decide .default (frontEnd row) produced ∧
    Config.decide .default (frontEnd row) produced = .ok ⟨.viaVariable, none⟩ := by
  have halike := numbering_invisible (Equiv.swap 1 2) (frontEnd row) (frontEnd swapped) row swapped
    renumbers wellFormed unshared resolved replaces
  exact ⟨renumbers, wellFormed, unshared, resolved, replaces, halike.1 .default produced,
    eq_ok_of_toOption (by decide +kernel)⟩

end AwaitLint
