import AwaitLint.Flow.Body
import AwaitLint.Proofs.Walk
import Mathlib.Data.List.Nodup
import Mathlib.Data.List.Range

/-!
# AwaitLint — walking through a body

Instructions are numbered densely in block order (`Body.numbered`). This module reads the numbering
off per block, and says what is executed on a walk along the edges of a body:

* **`instrsOf_eq`** — the instructions of a block evaluate its nodes in order, numbered from the
  offset of the block; `mem_instrs` is the same fact for a single instruction.
* **`map_id_instrs`** — the numbers of all instructions are `0, 1, 2, …`, so an instruction is known
  by its number (`eq_of_id_eq`).
* **`executedAfter`** — the instructions executed after `i` when the walk goes on through the blocks
  `q`: the rest of the block of `i`, then the blocks of `q` in order.
* **`Edge`** and **`FlowEdge`** — the fall-through and conditional edges, without and with the
  additional edge from the entry to the exit.
* **`Between`** — what is executed strictly between two instructions on a path. `Between.cases` reads
  off the two ways to get from one to the other: further down one block, or through other blocks.
-/

namespace AwaitLint

/-- Where an instruction stands and what it evaluates; its number depends on the blocks before. -/
def Instr.place (i : Instr) : Nat × Nat × Node := (i.block, i.index, i.node)

namespace Body

/-! ## The numbering -/

/-- The number of the first instruction of a block. -/
def offset (b : Body) (ordinal : Nat) : Nat :=
  total (fun blk => blk.evaluated.length) (b.blocks.take ordinal)

theorem le_block_of_mem_numbered {bs : List Block} {ordinal next : Nat} {i : Instr}
    (h : i ∈ numbered ordinal next bs) : ordinal ≤ i.block := by
  induction bs generalizing ordinal next with
  | nil => cases h
  | cons blk bs ih =>
    rw [numbered, List.mem_append] at h
    rcases h with h | h
    · obtain ⟨k, hk, rfl⟩ := List.mem_mapIdx.1 h
      exact Nat.le_refl _
    · exact Nat.le_of_succ_le (ih h)

/-- The part of the numbering that belongs to one block. -/
theorem filter_numbered (bs : List Block) (ordinal next k : Nat) :
    (numbered ordinal next bs).filter (fun i => i.block == ordinal + k)
      = (bs[k]?).elim [] fun blk => blk.evaluated.mapIdx fun index node =>
          ⟨next + total (fun blk => blk.evaluated.length) (bs.take k) + index, ordinal + k, index,
            node⟩ := by
  induction bs generalizing ordinal next k with
  | nil => rfl
  | cons blk bs ih =>
    rw [numbered, List.filter_append]
    cases k with
    | zero =>
      -- this block: all of it, and nothing of the later ones
      have hhere : ∀ i ∈ blk.evaluated.mapIdx
          (fun index node => (⟨next + index, ordinal, index, node⟩ : Instr)),
          (i.block == ordinal + 0) = true := by
        intro i hi
        obtain ⟨k, hk, rfl⟩ := List.mem_mapIdx.1 hi
        simp
      have hlater : ∀ i ∈ numbered (ordinal + 1) (next + blk.evaluated.length) bs,
          ¬ (i.block == ordinal + 0) = true := by
        intro i hi
        have := le_block_of_mem_numbered hi
        rw [beq_iff_eq]
        omega
      rw [List.filter_eq_self.2 hhere, List.filter_eq_nil_iff.2 hlater]
      simp
    | succ k =>
      have hhere : ∀ i ∈ blk.evaluated.mapIdx
          (fun index node => (⟨next + index, ordinal, index, node⟩ : Instr)),
          ¬ (i.block == ordinal + (k + 1)) = true := by
        intro i hi
        obtain ⟨j, hj, rfl⟩ := List.mem_mapIdx.1 hi
        rw [beq_iff_eq]
        show ¬ ordinal = ordinal + (k + 1)
        omega
      have hshift : ordinal + (k + 1) = ordinal + 1 + k := by omega
      rw [List.filter_eq_nil_iff.2 hhere, List.nil_append, hshift, ih, List.getElem?_cons_succ,
        List.take_succ_cons, total_cons, Nat.add_assoc next]

/-- The instructions of a block evaluate its nodes in order. -/
theorem instrsOf_eq (b : Body) {o : Nat} {blk : Block} (h : b.blocks[o]? = some blk) :
    b.instrsOf o = blk.evaluated.mapIdx fun index node => ⟨b.offset o + index, o, index, node⟩ := by
  have := filter_numbered b.blocks 0 0 o
  rw [Nat.zero_add, h] at this
  rw [instrsOf, instrs, this]
  simp [offset]

theorem map_node_instrsOf {b : Body} {o : Nat} {blk : Block} (h : b.blocks[o]? = some blk) :
    (b.instrsOf o).map (·.node) = blk.evaluated := by
  rw [b.instrsOf_eq h]
  exact List.ext_getElem (by simp) fun k _ _ => by simp

theorem instrsOf_eq_nil (b : Body) {o : Nat} (h : b.blocks[o]? = none) : b.instrsOf o = [] := by
  have := filter_numbered b.blocks 0 0 o
  rw [Nat.zero_add, h] at this
  rw [instrsOf, instrs, this]
  rfl

theorem mem_instrsOf {b : Body} {o : Nat} {s : Instr} :
    s ∈ b.instrsOf o ↔ s ∈ b.instrs ∧ s.block = o := by
  rw [instrsOf, List.mem_filter, beq_iff_eq]

/-- Where an instruction stands and what it evaluates. -/
theorem mem_instrs {b : Body} {s : Instr} :
    s ∈ b.instrs ↔ ∃ blk, b.blocks[s.block]? = some blk ∧
      blk.evaluated[s.index]? = some s.node ∧ s.id = b.offset s.block + s.index := by
  have hself : s ∈ b.instrs ↔ s ∈ b.instrsOf s.block := by
    rw [mem_instrsOf]
    exact ⟨fun h => ⟨h, rfl⟩, And.left⟩
  rw [hself]
  cases hblk : b.blocks[s.block]? with
  | none =>
    rw [b.instrsOf_eq_nil hblk]
    simp
  | some blk =>
    rw [b.instrsOf_eq hblk, List.mem_mapIdx]
    constructor
    · rintro ⟨k, hk, hs⟩
      refine ⟨blk, rfl, ?_⟩
      rw [← hs]
      exact ⟨List.getElem?_eq_getElem hk, rfl⟩
    · rintro ⟨_, hb, hnode, hid⟩
      cases hb
      obtain ⟨hk, hget⟩ := List.getElem?_eq_some_iff.1 hnode
      refine ⟨s.index, hk, ?_⟩
      rw [hget, ← hid]

theorem map_id_numbered (bs : List Block) (ordinal next : Nat) :
    (numbered ordinal next bs).map (·.id)
      = List.range' next (numbered ordinal next bs).length := by
  induction bs generalizing ordinal next with
  | nil => rfl
  | cons blk bs ih =>
    have hhere : (blk.evaluated.mapIdx
          fun index node => (⟨next + index, ordinal, index, node⟩ : Instr)).map (·.id)
        = List.range' next blk.evaluated.length := by
      refine List.ext_getElem (by simp) fun k hk hk' => ?_
      simp
    rw [numbered, List.map_append, ih, hhere, List.length_append, List.length_mapIdx,
      List.range'_append_1]

/-- The instructions are numbered from zero without gaps. -/
theorem map_id_instrs (b : Body) : b.instrs.map (·.id) = List.range b.instrs.length := by
  rw [List.range_eq_range']
  exact map_id_numbered b.blocks 0 0

theorem eq_of_id_eq {b : Body} {i j : Instr} (hi : i ∈ b.instrs) (hj : j ∈ b.instrs)
    (h : i.id = j.id) : i = j := by
  have hnd : (b.instrs.map (·.id)).Nodup := by
    rw [map_id_instrs]
    exact List.nodup_range
  exact List.inj_on_of_nodup_map hnd hi hj h

/-- The instruction with a number stands at that position. -/
theorem getElem?_instrs {b : Body} {i : Instr} (hi : i ∈ b.instrs) :
    b.instrs[i.id]? = some i := by
  obtain ⟨k, hk⟩ := List.mem_iff_getElem?.1 hi
  have hlt : k < b.instrs.length := (List.getElem?_eq_some_iff.1 hk).1
  have hid : (b.instrs.map (·.id))[k]? = some i.id := by rw [List.getElem?_map, hk]; rfl
  rw [map_id_instrs, List.getElem?_range hlt, Option.some.injEq] at hid
  rw [← hid]
  exact hk

/-- An instruction is known by its block and its index there. -/
theorem eq_of_place_eq {b : Body} {i j : Instr} (hi : i ∈ b.instrs) (hj : j ∈ b.instrs)
    (hblock : i.block = j.block) (hindex : i.index = j.index) : i = j := by
  obtain ⟨-, -, -, hid⟩ := mem_instrs.1 hi
  obtain ⟨-, -, -, hid'⟩ := mem_instrs.1 hj
  exact eq_of_id_eq hi hj (by rw [hid, hid', hblock, hindex])

theorem pairwise_instrs (b : Body) : b.instrs.Pairwise fun s t => s.id < t.id := by
  refine List.pairwise_map.1 ?_
  rw [map_id_instrs]
  exact List.pairwise_lt_range

theorem nodup_instrs (b : Body) : b.instrs.Nodup := by
  refine List.Nodup.of_map (·.id) ?_
  rw [map_id_instrs]
  exact List.nodup_range

/-! ## What a walk executes -/

/-- The instructions executed after `i` when the walk goes on through the blocks `q`. -/
def executedAfter (b : Body) (i : Instr) (q : List Nat) : List Instr :=
  (b.instrsOf i.block).drop (i.index + 1) ++ q.flatMap b.instrsOf

theorem mem_drop_instrsOf {b : Body} {o k : Nat} {s : Instr} :
    s ∈ (b.instrsOf o).drop k ↔ s ∈ b.instrs ∧ s.block = o ∧ k ≤ s.index := by
  rw [← and_assoc, ← mem_instrsOf]
  cases hblk : b.blocks[o]? with
  | none =>
    rw [b.instrsOf_eq_nil hblk]
    simp
  | some blk =>
    rw [b.instrsOf_eq hblk]
    simp only [List.mem_iff_getElem?, List.getElem?_drop, List.getElem?_mapIdx,
      Option.map_eq_some_iff]
    constructor
    · rintro ⟨j, node, hnode, rfl⟩
      exact ⟨⟨k + j, node, hnode, rfl⟩, Nat.le_add_right k j⟩
    · rintro ⟨⟨j, node, hnode, rfl⟩, hk⟩
      have hj : k + (j - k) = j := Nat.add_sub_cancel' hk
      exact ⟨j - k, node, by rw [hj, hnode], by rw [hj]⟩

/-- An instruction is executed after `i` when it follows `i` in its block or lies in a block
visited later. -/
theorem mem_executedAfter {b : Body} {i s : Instr} {q : List Nat} :
    s ∈ b.executedAfter i q ↔
      s ∈ b.instrs ∧ (s.block = i.block ∧ i.index < s.index ∨ s.block ∈ q) := by
  rw [executedAfter, List.mem_append, mem_drop_instrsOf, List.mem_flatMap]
  constructor
  · rintro (⟨hs, hblock, hindex⟩ | ⟨o, ho, hs⟩)
    · exact ⟨hs, .inl ⟨hblock, hindex⟩⟩
    · obtain ⟨hin, rfl⟩ := mem_instrsOf.1 hs
      exact ⟨hin, .inr ho⟩
  · rintro ⟨hs, ⟨hblock, hindex⟩ | hmem⟩
    · exact .inl ⟨hs, hblock, hindex⟩
    · exact .inr ⟨s.block, hmem, mem_instrsOf.2 ⟨hs, rfl⟩⟩

/-- What is executed after `s`, itself executed after `i` on a walk to `exit`, is executed after
`i`: the walk goes on from the block of `s`. -/
theorem exists_walk_from_executedAfter {b : Body} {step : Nat → Nat → Prop} {i s : Instr}
    {q : List Nat} {exit : Nat} (hs : s ∈ b.executedAfter i q)
    (hw : Walk step i.block exit (i.block :: q)) :
    ∃ r, Walk step s.block exit (s.block :: r) ∧
      ∀ t ∈ b.executedAfter s r, t ∈ b.executedAfter i q := by
  obtain ⟨-, ⟨hblock, hindex⟩ | hmem⟩ := mem_executedAfter.1 hs
  · -- further down the same block
    refine ⟨q, hblock ▸ hw, fun t ht => ?_⟩
    obtain ⟨htin, ⟨htblock, htindex⟩ | htmem⟩ := mem_executedAfter.1 ht
    · have hlater : i.index < t.index := by omega
      exact mem_executedAfter.2 ⟨htin, .inl ⟨htblock.trans hblock, hlater⟩⟩
    · exact mem_executedAfter.2 ⟨htin, .inr htmem⟩
  · -- in a block visited later: the walk is split there
    obtain ⟨q₁, q₂, hsplit, -, hfrom⟩ := hw.split (List.mem_cons_of_mem _ hmem)
    have hsub : ∀ o ∈ q₂, o ∈ q := by
      intro o ho
      cases q₁ with
      | nil =>
        rw [(List.cons.inj hsplit).2]
        exact ho
      | cons _ q₁ =>
        rw [(List.cons.inj hsplit).2]
        exact List.mem_append_right _ (List.mem_cons_of_mem _ ho)
    refine ⟨q₂, hfrom, fun t ht => ?_⟩
    obtain ⟨htin, ⟨htblock, -⟩ | htmem⟩ := mem_executedAfter.1 ht
    · exact mem_executedAfter.2 ⟨htin, .inr (htblock ▸ hmem)⟩
    · exact mem_executedAfter.2 ⟨htin, .inr (hsub _ htmem)⟩

/-! ## Edges of a body -/

def Edge (b : Body) (u v : Nat) : Prop := (u, v) ∈ b.edges

/-- The edges of a body with the additional one from the entry to the exit. -/
def FlowEdge (b : Body) (u v : Nat) : Prop :=
  b.Edge u v ∨ b.entry? = some u ∧ b.exit? = some v

theorem edge_iff {b : Body} {u v : Nat} :
    b.Edge u v ↔ ∃ blk, b.blocks[u]? = some blk ∧ v ∈ blk.succs := by
  simp only [Edge, edges, List.mem_flatMap, List.mem_map, Prod.exists,
    List.mem_zipIdx_iff_getElem?, Prod.mk.injEq]
  constructor
  · rintro ⟨blk, o, hblk, s, hs, rfl, rfl⟩
    exact ⟨blk, hblk, hs⟩
  · rintro ⟨blk, hblk, hv⟩
    exact ⟨blk, u, hblk, v, hv, rfl, rfl⟩

/-- The edges that leave a block, in the list of all edges. -/
theorem map_snd_filter_zipIdx (bs : List Block) (first k : Nat) :
    (((bs.zipIdx first).flatMap fun (blk, o) => blk.succs.map fun s => (o, s)).filter
      fun e => e.1 = first + k).map Prod.snd = (bs[k]?).elim [] Block.succs := by
  induction bs generalizing first k with
  | nil => rfl
  | cons blk bs ih =>
    rw [List.zipIdx_cons, List.flatMap_cons, List.filter_append, List.map_append]
    cases k with
    | zero =>
      -- the edges of later blocks leave later ordinals
      have hlater : ((bs.zipIdx (first + 1)).flatMap
          fun (blk, o) => blk.succs.map fun s => (o, s)).filter
            (fun e => decide (e.1 = first + 0)) = [] := by
        rw [List.filter_eq_nil_iff]
        intro e he
        simp only [List.mem_flatMap, List.mem_map, Prod.exists] at he
        obtain ⟨blk', o, ho, s, -, rfl⟩ := he
        have hle := List.le_snd_of_mem_zipIdx ho
        simp only [decide_eq_true_eq]
        omega
      rw [hlater]
      simp [List.filter_map, Function.comp_def]
    | succ k =>
      have hshift : first + (k + 1) = first + 1 + k := by omega
      have hne : first ≠ first + 1 + k := by omega
      rw [hshift, ih]
      simp [List.filter_map, Function.comp_def, hne]

theorem map_snd_filter_edges (b : Body) (u : Nat) :
    (b.edges.filter fun e => e.1 = u).map Prod.snd = (b.blocks[u]?).elim [] Block.succs := by
  have := map_snd_filter_zipIdx b.blocks 0 u
  rwa [Nat.zero_add] at this

/-! ## What is executed between two instructions

A path from `d` to `s` is a walk from the block of `d` with `s` among the instructions executed on
it. Within a block, instructions are told apart by their index, which grows along the block. -/

/-- `trace` is executed strictly between `d` and `s` on some path along the edges of the body. -/
def Between (b : Body) (d s : Instr) (trace : List Instr) : Prop :=
  ∃ o q after, Walk b.Edge d.block o (d.block :: q) ∧
    b.executedAfter d q = trace ++ s :: after

theorem pairwise_instrsOf (b : Body) (o : Nat) :
    (b.instrsOf o).Pairwise fun i j => i.index < j.index := by
  cases hblk : b.blocks[o]? with
  | none =>
    rw [b.instrsOf_eq_nil hblk]
    exact .nil
  | some blk =>
    rw [b.instrsOf_eq hblk, List.pairwise_iff_getElem]
    intro j k hj hk hjk
    simpa using hjk

/-- What stands before `s` in a part of a block. -/
theorem mem_before_iff {part before after : List Instr} {s t : Instr}
    (hpart : part.Pairwise fun i j => i.index < j.index) (h : part = before ++ s :: after) :
    t ∈ before ↔ t ∈ part ∧ t.index < s.index := by
  subst h
  obtain ⟨-, hafter, hbefore⟩ := List.pairwise_append.1 hpart
  have hlater := (List.pairwise_cons.1 hafter).1
  constructor
  · intro ht
    exact ⟨List.mem_append_left _ ht, hbefore t ht s List.mem_cons_self⟩
  · intro ⟨ht, hlt⟩
    rcases List.mem_append.1 ht with ht | ht
    · exact ht
    · rcases List.mem_cons.1 ht with rfl | ht
      · exact absurd hlt (Nat.lt_irrefl _)
      · exact absurd hlt (Nat.lt_asymm (hlater t ht))

/-- A place in the instructions of several blocks is a place in one of them. -/
theorem exists_block_of_flatMap_eq {b : Body} {q : List Nat} {before after : List Instr} {s : Instr}
    (h : q.flatMap b.instrsOf = before ++ s :: after) :
    ∃ inner o rest l r, q = inner ++ o :: rest ∧ b.instrsOf o = l ++ s :: r ∧
      before = inner.flatMap b.instrsOf ++ l := by
  induction q generalizing before with
  | nil => simp at h
  | cons x q ih =>
    rw [List.flatMap_cons, List.append_eq_append_iff] at h
    rcases h with ⟨l, rfl, hrest⟩ | ⟨r, hhere, hrest⟩
    · obtain ⟨inner, o, rest, l', r', rfl, ho, rfl⟩ := ih hrest
      exact ⟨x :: inner, o, rest, l', r', rfl, ho, by simp⟩
    · cases r with
      | nil =>
        -- `s` opens the next block
        rw [List.append_nil] at hhere
        obtain ⟨inner, o, rest, l', r', rfl, ho, hl'⟩ :=
          ih (show q.flatMap b.instrsOf = [] ++ s :: after from hrest.symm)
        refine ⟨x :: inner, o, rest, l', r', rfl, ho, ?_⟩
        rw [List.flatMap_cons, List.append_assoc, ← hl', List.append_nil, hhere]
      | cons s' r =>
        obtain ⟨rfl, -⟩ := List.cons.inj hrest
        exact ⟨[], x, q, before, r, rfl, hhere, rfl⟩

namespace Between

variable {b : Body} {d s t : Instr} {trace before after : List Instr} {inner : List Nat}

theorem pairwise_rest (b : Body) (d : Instr) :
    ((b.instrsOf d.block).drop (d.index + 1)).Pairwise fun i j => i.index < j.index :=
  (b.pairwise_instrsOf d.block).sublist (List.drop_sublist _ _)

/-- What is executed from `d` to `s` in one block. -/
theorem mem_within (h : (b.instrsOf d.block).drop (d.index + 1) = before ++ s :: after) :
    t ∈ before ↔ t ∈ b.instrs ∧ t.block = d.block ∧ d.index < t.index ∧ t.index < s.index := by
  rw [mem_before_iff (pairwise_rest b d) h, mem_drop_instrsOf, Nat.succ_le_iff, and_assoc, and_assoc]

/-- What is executed from `d` to `s` through the blocks `inner`. -/
theorem mem_through (h : b.instrsOf s.block = before ++ s :: after) :
    t ∈ (b.instrsOf d.block).drop (d.index + 1) ++ (inner.flatMap b.instrsOf ++ before) ↔
      t ∈ b.instrs ∧ (t.block = d.block ∧ d.index < t.index ∨ t.block ∈ inner ∨
        t.block = s.block ∧ t.index < s.index) := by
  rw [List.mem_append, List.mem_append, mem_drop_instrsOf, List.mem_flatMap,
    mem_before_iff (b.pairwise_instrsOf _) h, mem_instrsOf]
  constructor
  · rintro (⟨ht, hblock, hindex⟩ | ⟨x, hx, ht⟩ | ⟨⟨ht, hblock⟩, hindex⟩)
    · exact ⟨ht, .inl ⟨hblock, hindex⟩⟩
    · obtain ⟨hin, rfl⟩ := mem_instrsOf.1 ht
      exact ⟨hin, .inr (.inl hx)⟩
    · exact ⟨ht, .inr (.inr ⟨hblock, hindex⟩)⟩
  · rintro ⟨ht, ⟨hblock, hindex⟩ | hx | ⟨hblock, hindex⟩⟩
    · exact .inl ⟨ht, hblock, hindex⟩
    · exact .inr (.inl ⟨t.block, hx, mem_instrsOf.2 ⟨ht, rfl⟩⟩)
    · exact .inr (.inr ⟨⟨ht, hblock⟩, hindex⟩)

/-- A path stays in the block of `d`, or leaves it and passes blocks on the way to that of `s`. -/
theorem cases (h : b.Between d s trace) :
    (s.block = d.block ∧ d.index < s.index ∧ ∀ t, t ∈ trace ↔
      t ∈ b.instrs ∧ t.block = d.block ∧ d.index < t.index ∧ t.index < s.index) ∨
    ∃ inner, Walk b.Edge d.block s.block (d.block :: (inner ++ [s.block])) ∧ ∀ t, t ∈ trace ↔
      t ∈ b.instrs ∧ (t.block = d.block ∧ d.index < t.index ∨ t.block ∈ inner ∨
        t.block = s.block ∧ t.index < s.index) := by
  obtain ⟨o, q, after, hwalk, htrace⟩ := h
  have hthrough : ∀ {l}, trace = (b.instrsOf d.block).drop (d.index + 1) ++ l →
      q.flatMap b.instrsOf = l ++ s :: after →
      ∃ inner, Walk b.Edge d.block s.block (d.block :: (inner ++ [s.block])) ∧ ∀ t, t ∈ trace ↔
        t ∈ b.instrs ∧ (t.block = d.block ∧ d.index < t.index ∨ t.block ∈ inner ∨
          t.block = s.block ∧ t.index < s.index) := by
    intro l hpieces hflat
    obtain ⟨inner, o', rest, l', r', rfl, ho', rfl⟩ := exists_block_of_flatMap_eq hflat
    have hs : s ∈ b.instrsOf o' := by
      rw [ho']
      exact List.mem_append_right _ List.mem_cons_self
    obtain rfl : s.block = o' := (mem_instrsOf.1 hs).2
    refine ⟨inner, ?_, fun t => ?_⟩
    · rw [← List.cons_append] at hwalk
      exact hwalk.cut.1
    · rw [hpieces]
      exact mem_through ho'
  rw [executedAfter, List.append_eq_append_iff] at htrace
  rcases htrace with ⟨l, hpieces, hflat⟩ | ⟨r, hhere, hrest⟩
  · exact .inr (hthrough hpieces hflat)
  · cases r with
    | nil =>
      -- the block of `d` ends here, and `s` comes first in what follows
      rw [List.append_nil] at hhere
      refine .inr (hthrough (l := []) ?_ hrest.symm)
      rw [List.append_nil, hhere]
    | cons s' r =>
      obtain ⟨rfl, -⟩ := List.cons.inj hrest
      have hs : s ∈ (b.instrsOf d.block).drop (d.index + 1) := by
        rw [hhere]
        exact List.mem_append_right _ List.mem_cons_self
      obtain ⟨-, hblock, hindex⟩ := mem_drop_instrsOf.1 hs
      exact .inl ⟨hblock, hindex, fun t => mem_within hhere⟩

theorem mem_instrs (h : b.Between d s trace) (ht : t ∈ trace) : t ∈ b.instrs := by
  rcases h.cases with ⟨-, -, hmem⟩ | ⟨inner, -, hmem⟩
  · exact ((hmem t).1 ht).1
  · exact ((hmem t).1 ht).1

/-- The path to the first time that `s` is executed. -/
theorem first (h : b.Between d s trace) :
    ∃ l, b.Between d s l ∧ s ∉ l ∧ ∀ t ∈ l, t ∈ trace := by
  by_cases hs : s ∈ trace
  · obtain ⟨o, q, after, hwalk, htrace⟩ := h
    obtain ⟨l, r, rfl, hnot⟩ := List.eq_append_cons_of_mem hs
    refine ⟨l, ⟨o, q, r ++ s :: after, hwalk, ?_⟩, hnot, fun t ht => List.mem_append_left _ ht⟩
    rw [htrace, List.append_assoc, List.cons_append]
  · exact ⟨trace, h, hs, fun _ ht => ht⟩

/-- The path from `d` to a later instruction of its block. -/
theorem within (hs : s ∈ b.instrs) (hblock : s.block = d.block) (hindex : d.index < s.index) :
    ∃ trace, b.Between d s trace ∧ ∀ t, t ∈ trace ↔
      t ∈ b.instrs ∧ t.block = d.block ∧ d.index < t.index ∧ t.index < s.index := by
  have hmem : s ∈ (b.instrsOf d.block).drop (d.index + 1) :=
    mem_drop_instrsOf.2 ⟨hs, hblock, hindex⟩
  obtain ⟨before, after, hsplit⟩ := List.append_of_mem hmem
  refine ⟨before, ⟨d.block, [], after, .single _, ?_⟩, fun t => mem_within hsplit⟩
  rw [executedAfter, hsplit]
  simp

/-- The path from `d` to `s` along a walk. -/
theorem through (hs : s ∈ b.instrs)
    (hwalk : Walk b.Edge d.block s.block (d.block :: (inner ++ [s.block]))) :
    ∃ trace, b.Between d s trace ∧ ∀ t, t ∈ trace ↔
      t ∈ b.instrs ∧ (t.block = d.block ∧ d.index < t.index ∨ t.block ∈ inner ∨
        t.block = s.block ∧ t.index < s.index) := by
  obtain ⟨before, after, hsplit⟩ := List.append_of_mem (mem_instrsOf.2 ⟨hs, rfl⟩)
  refine ⟨(b.instrsOf d.block).drop (d.index + 1) ++ (inner.flatMap b.instrsOf ++ before),
    ⟨s.block, inner ++ [s.block], after, hwalk, ?_⟩, fun t => mem_through hsplit⟩
  rw [executedAfter, List.flatMap_append, List.flatMap_singleton, hsplit, List.append_assoc,
    List.append_assoc]

end Between

/-! ## Well-formed bodies -/

/-- Block 0 is the entry, and exactly one block is the exit. Successors need not be blocks: one
that is not has no instructions and no way on. -/
structure WellFormed (b : Body) : Prop where
  entry_first : b.entry? = some 0
  one_exit : ∃! o : Nat, ∃ blk : Block, b.blocks[o]? = some blk ∧ blk.kind = .exit

namespace WellFormed

variable {b : Body} {o exit : Nat} {blk : Block}

/-- A form that can be evaluated for a given body. -/
theorem of_kinds (exit : Nat) (hentry : b.entry? = some 0) (hlt : exit < b.blocks.length)
    (hkinds : ∀ o : Fin b.blocks.length, b.blocks[o].kind = .exit ↔ o.1 = exit) :
    b.WellFormed := by
  refine ⟨hentry, exit, ⟨_, List.getElem?_eq_getElem hlt, (hkinds ⟨exit, hlt⟩).2 rfl⟩, ?_⟩
  intro o ⟨blk, hblk, hkind⟩
  obtain ⟨ho, rfl⟩ := List.getElem?_eq_some_iff.1 hblk
  exact (hkinds ⟨o, ho⟩).1 hkind

theorem exit_eq (hwf : b.WellFormed) (hblk : b.blocks[o]? = some blk) (hkind : blk.kind = .exit) :
    b.exit? = some o := by
  unfold exit?
  cases hfind : b.blocks.findIdx? fun blk => blk.kind = .exit with
  | none =>
    -- the search passes over no exit
    have hpass := List.findIdx?_eq_none_iff.1 hfind blk (List.mem_of_getElem? hblk)
    simp [hkind] at hpass
  | some o' =>
    obtain ⟨hlt, hfound, -⟩ := List.findIdx?_eq_some_iff_getElem.1 hfind
    have hkind' : b.blocks[o'].kind = .exit := by simpa using hfound
    have heq : o' = o :=
      hwf.one_exit.unique ⟨_, List.getElem?_eq_getElem hlt, hkind'⟩ ⟨blk, hblk, hkind⟩
    rw [heq]

theorem exists_exit (hwf : b.WellFormed) : ∃ exit, b.exit? = some exit := by
  obtain ⟨o, ⟨blk, hblk, hkind⟩, -⟩ := hwf.one_exit
  exact ⟨o, hwf.exit_eq hblk hkind⟩

/-- The additional edge leads from block 0 to the exit. -/
theorem reaches_exit (hwf : b.WellFormed) (hexit : b.exit? = some exit) :
    Reaches b.FlowEdge 0 exit :=
  (Reaches.refl _ 0).tail (.inr ⟨hwf.entry_first, hexit⟩)

end WellFormed

/-! ## Bodies that agree where block 0 reaches -/

/-- `b'` has the blocks of `b` that block 0 reaches in `b`; the others are arbitrary. -/
def AgreesWhereReached (b b' : Body) : Prop :=
  ∀ o, Reaches b.FlowEdge 0 o → b'.blocks[o]? = b.blocks[o]?

namespace AgreesWhereReached

variable {b b' : Body} {o w exit : Nat} {p : List Nat}

theorem exit_eq (h : b.AgreesWhereReached b') (hwf : b.WellFormed) (hwf' : b'.WellFormed)
    (hexit : b.exit? = some exit) : b'.exit? = some exit := by
  obtain ⟨o, ⟨blk, hblk, hkind⟩, -⟩ := hwf.one_exit
  have ho := hwf.exit_eq hblk hkind
  rw [hexit, Option.some.injEq] at ho
  subst ho
  have hblk' : b'.blocks[exit]? = some blk := by rw [h exit (hwf.reaches_exit hexit), hblk]
  exact hwf'.exit_eq hblk' hkind

theorem flowEdge_iff (h : b.AgreesWhereReached b') (hwf : b.WellFormed) (hwf' : b'.WellFormed)
    (ho : Reaches b.FlowEdge 0 o) : b'.FlowEdge o w ↔ b.FlowEdge o w := by
  obtain ⟨exit, hexit⟩ := hwf.exists_exit
  rw [FlowEdge, FlowEdge, edge_iff, edge_iff, h o ho, hwf.entry_first, hwf'.entry_first, hexit,
    h.exit_eq hwf hwf' hexit]

/-- Both bodies have the same walks from a block that block 0 reaches. -/
theorem walk_iff (h : b.AgreesWhereReached b') (hwf : b.WellFormed) (hwf' : b'.WellFormed)
    (ho : Reaches b.FlowEdge 0 o) : Walk b'.FlowEdge o w p ↔ Walk b.FlowEdge o w p := by
  constructor
  · intro hp
    refine (hp.transfer (fun {x y} (hx : Reaches b.FlowEdge 0 x) hxy => ?_) ho).1
    have hxy' := (h.flowEdge_iff hwf hwf' hx).1 hxy
    exact ⟨hx.tail hxy', hxy'⟩
  · intro hp
    refine (hp.transfer (fun {x y} (hx : Reaches b.FlowEdge 0 x) hxy => ?_) ho).1
    exact ⟨hx.tail hxy, (h.flowEdge_iff hwf hwf' hx).2 hxy⟩

theorem reaches (h : b.AgreesWhereReached b') (hwf : b.WellFormed) (hwf' : b'.WellFormed)
    (ho : Reaches b.FlowEdge 0 o) : Reaches b'.FlowEdge 0 o := by
  obtain ⟨p, hp⟩ := ho
  exact ⟨p, (h.walk_iff hwf hwf' (Reaches.refl _ 0)).2 hp⟩

theorem map_place_instrsOf (h : b.AgreesWhereReached b') (ho : Reaches b.FlowEdge 0 o) :
    (b'.instrsOf o).map Instr.place = (b.instrsOf o).map Instr.place := by
  have hsame := h o ho
  cases hblk : b.blocks[o]? with
  | none =>
    rw [hblk] at hsame
    rw [b.instrsOf_eq_nil hblk, b'.instrsOf_eq_nil hsame]
  | some blk =>
    rw [hblk] at hsame
    rw [b.instrsOf_eq hblk, b'.instrsOf_eq hsame]
    refine List.ext_getElem (by simp) fun k hk hk' => ?_
    simp [Instr.place]

end AgreesWhereReached

end Body

end AwaitLint
