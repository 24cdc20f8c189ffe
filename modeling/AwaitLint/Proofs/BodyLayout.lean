import AwaitLint.Proofs.Renumbering

/-!
# AwaitLint — the layout of a body

Every set and table of the analyses is indexed by the numbers of instructions and the ordinals of
blocks. They are given out by one pass over the blocks, whatever the blocks evaluate: a node may
occur in several blocks, or several times in one.

* **`Pass`** — the pass: one counter for all blocks, one table of the first instruction of a node.
  `Pass.Kept` is what a visit to a block keeps, and `kept_visits` what a whole run keeps.
* **`Layout`** — where the instructions of a body stand, what they evaluate and which of them is
  found for a node.
* **`Frames`** — what it is to put an entry and an exit around a body: the same instructions, one
  block further down, and the same edges, but blocks that would end lead to the exit.
* **`layout_exact`** — the headline.
-/

namespace AwaitLint

namespace Body

/-! ## One pass over the blocks -/

/-- What a pass has made so far. -/
structure Pass where
  /-- All instructions; their number is the next one to be given out. -/
  instrs : List Instr := []
  /-- The instructions of the block that is being visited. -/
  here : List Instr := []
  /-- What was stored for each visited block: its ordinal and its instructions. -/
  rows : List (Nat × List Instr) := []
  /-- The first instruction that evaluates a node, by the identity of the node. -/
  first : List (Nat × Instr) := []

namespace Pass

variable {s : Pass} {ordinal : Nat} {blk : Block}

/-- Makes the instruction that evaluates `n`. A node that is in the table keeps its entry. -/
def emit (s : Pass) (ordinal : Nat) (n : Node) (index : Nat) : Pass :=
  let i : Instr := ⟨s.instrs.length, ordinal, index, n⟩
  { s with
    instrs := s.instrs ++ [i]
    here := s.here ++ [i]
    first := if (s.first.lookup n.id).isSome then s.first else s.first ++ [(n.id, i)] }

/-- Makes the instructions of `nodes` in order, the first one at the given index. -/
def emits (s : Pass) (ordinal index : Nat) (nodes : List Node) : Pass :=
  (nodes.zipIdx index).foldl (fun t p => t.emit ordinal p.1 p.2) s

/-- Makes the instructions of a block and stores them there. -/
def visit (s : Pass) (blk : Block) (ordinal : Nat) : Pass :=
  let t := { s with here := [] }.emits ordinal 0 blk.evaluated
  { t with rows := t.rows ++ [(ordinal, t.here)] }

/-- Visits `blocks` in order, the first one under the given ordinal. -/
def visits (s : Pass) (ordinal : Nat) (blocks : List Block) : Pass :=
  (blocks.zipIdx ordinal).foldl (fun t p => t.visit p.1 p.2) s

theorem visits_cons (s : Pass) (ordinal : Nat) (blk : Block) (blocks : List Block) :
    s.visits ordinal (blk :: blocks) = (s.visit blk ordinal).visits (ordinal + 1) blocks := rfl

/-- The instructions that evaluate `nodes`, numbered from `next`. -/
def made (next ordinal : Nat) (nodes : List Node) : List Instr :=
  nodes.mapIdx fun index node => ⟨next + index, ordinal, index, node⟩

theorem block_of_mem_made {next : Nat} {nodes : List Node} {i : Instr}
    (h : i ∈ made next ordinal nodes) : i.block = ordinal := by
  obtain ⟨k, hk, rfl⟩ := List.mem_mapIdx.1 h
  rfl

theorem filter_made_self (next ordinal : Nat) (nodes : List Node) :
    (made next ordinal nodes).filter (fun i => i.block == ordinal) = made next ordinal nodes := by
  rw [List.filter_eq_self]
  intro i hi
  rw [block_of_mem_made hi, beq_self_eq_true]

theorem filter_made_of_lt {o : Nat} (next : Nat) (nodes : List Node) (h : o < ordinal) :
    (made next ordinal nodes).filter (fun i => i.block == o) = [] := by
  rw [List.filter_eq_nil_iff]
  intro i hi
  rw [block_of_mem_made hi, beq_iff_eq]
  omega

/-- The loop over the nodes of a block, from any node on. -/
theorem emits_eq (nodes : List Node) (s : Pass) (ordinal index : Nat) :
    let new := nodes.mapIdx fun j n => (⟨s.instrs.length + j, ordinal, index + j, n⟩ : Instr)
    (s.emits ordinal index nodes).instrs = s.instrs ++ new ∧
    (s.emits ordinal index nodes).here = s.here ++ new ∧
    (s.emits ordinal index nodes).rows = s.rows := by
  induction nodes generalizing s index with
  | nil => simp [emits]
  | cons n nodes ih =>
    -- the counter and the index are both one further for the nodes that are left
    have hlength : (s.emit ordinal n index).instrs.length = s.instrs.length + 1 := by simp [emit]
    have hshift : (fun j m => (⟨s.instrs.length + 1 + j, ordinal, index + 1 + j, m⟩ : Instr))
        = fun j m => ⟨s.instrs.length + (j + 1), ordinal, index + (j + 1), m⟩ := by
      funext j m
      rw [Nat.add_right_comm, Nat.add_right_comm index]
      rfl
    have hrest := ih (s.emit ordinal n index) (index + 1)
    rw [hlength, hshift] at hrest
    obtain ⟨hinstrs, hhere, hrows⟩ := hrest
    rw [List.mapIdx_cons]
    refine ⟨hinstrs.trans ?_, hhere.trans ?_, hrows⟩
    · simp [emit]
    · simp [emit]

theorem instrs_visit (s : Pass) (blk : Block) (ordinal : Nat) :
    (s.visit blk ordinal).instrs
      = s.instrs ++ made s.instrs.length ordinal blk.evaluated := by
  have hloop := (emits_eq blk.evaluated { s with here := [] } ordinal 0).1
  simp only [Nat.zero_add] at hloop
  exact hloop

theorem rows_visit (s : Pass) (blk : Block) (ordinal : Nat) :
    (s.visit blk ordinal).rows
      = s.rows ++ [(ordinal, made s.instrs.length ordinal blk.evaluated)] := by
  obtain ⟨-, hhere, hrows⟩ := emits_eq blk.evaluated { s with here := [] } ordinal 0
  simp only [Nat.zero_add, List.nil_append] at hhere
  rw [visit, hhere, hrows]
  rfl

/-- The counter runs on from block to block. -/
theorem instrs_visits (blocks : List Block) (ordinal : Nat) (s : Pass) :
    (s.visits ordinal blocks).instrs = s.instrs ++ numbered ordinal s.instrs.length blocks := by
  induction blocks generalizing ordinal s with
  | nil => simp [visits, numbered]
  | cons blk blocks ih =>
    have hlength : (s.visit blk ordinal).instrs.length
        = s.instrs.length + blk.evaluated.length := by
      simp [instrs_visit, made]
    rw [visits_cons, ih, hlength, instrs_visit, numbered, List.append_assoc]
    rfl

/-! ## What the pass keeps -/

/-- The table knows the first instruction of every node. -/
def FirstWins (s : Pass) : Prop :=
  ∀ n : Node, s.first.lookup n.id = s.instrs.find? fun i => i.node.same n

theorem FirstWins.emit (h : s.FirstWins) (n : Node) (index : Nat) :
    (s.emit ordinal n index).FirstWins := by
  intro m
  show (if (s.first.lookup n.id).isSome then s.first else s.first ++ [(n.id, _)]).lookup m.id
    = (s.instrs ++ [_]).find? fun i => i.node.same m
  rw [List.find?_append, ← h m]
  by_cases hsame : n.id = m.id
  · rw [hsame]
    cases hm : s.first.lookup m.id with
    | some j =>
      -- met before: the entry stays
      simp [hm]
    | none => simp [List.lookup_append, hm, Node.same, hsame]
  · -- another node: neither the table nor the search sees the new instruction
    have hmiss : (m.id == n.id) = false := beq_eq_false_iff_ne.2 (Ne.symm hsame)
    split
    · simp [Node.same, hsame]
    · simp [List.lookup_append, List.lookup_cons, hmiss, Node.same, hsame]

theorem FirstWins.visit (h : s.FirstWins) (blk : Block) (ordinal : Nat) :
    (s.visit blk ordinal).FirstWins := by
  have hloop : ({ s with here := [] }.emits ordinal 0 blk.evaluated).FirstWins := by
    refine List.foldlRecOn _ _ (motive := FirstWins) ?_ fun t ht p _ => ht.emit p.1 p.2
    exact h
  exact hloop

/-- The blocks visited so far have the ordinals `0, 1, 2, …`, and each stores the instructions that
were made for it. -/
structure Kept (s : Pass) : Prop where
  rows : s.rows = (List.range s.rows.length).map fun o => (o, s.instrs.filter fun i => i.block == o)
  block_lt : ∀ i ∈ s.instrs, i.block < s.rows.length
  order : s.instrs = s.rows.flatMap Prod.snd
  first : s.FirstWins

theorem kept_empty : Kept {} := ⟨rfl, by simp, rfl, fun _ => rfl⟩

/-- A block that was not visited yet has no instructions. -/
theorem Kept.filter_eq_nil (h : s.Kept) :
    s.instrs.filter (fun i => i.block == s.rows.length) = [] := by
  rw [List.filter_eq_nil_iff]
  intro i hi
  have hlt := h.block_lt i hi
  rw [beq_iff_eq]
  omega

theorem Kept.visit (h : s.Kept) (blk : Block) : (s.visit blk s.rows.length).Kept := by
  refine ⟨?_, ?_, ?_, h.first.visit blk _⟩
  · rw [rows_visit, instrs_visit, List.length_append, List.length_singleton, List.range_succ,
      List.map_append]
    congr 1
    · -- the earlier blocks get nothing more
      refine h.rows.trans (List.map_congr_left fun o ho => ?_)
      rw [List.filter_append, filter_made_of_lt _ _ (List.mem_range.1 ho), List.append_nil]
    · rw [List.map_singleton, List.filter_append, h.filter_eq_nil, filter_made_self,
        List.nil_append]
  · intro i hi
    rw [rows_visit, List.length_append, List.length_singleton]
    rw [instrs_visit, List.mem_append] at hi
    rcases hi with hi | hi
    · have := h.block_lt i hi
      omega
    · rw [block_of_mem_made hi]
      omega
  · rw [rows_visit, instrs_visit, List.flatMap_append, ← h.order]
    simp

/-- A run gives the blocks the ordinals that follow those already given. -/
theorem kept_visits (blocks : List Block) (h : s.Kept) :
    (s.visits s.rows.length blocks).Kept ∧
      (s.visits s.rows.length blocks).rows.length = s.rows.length + blocks.length := by
  induction blocks generalizing s with
  | nil => exact ⟨h, rfl⟩
  | cons blk blocks ih =>
    have hlength : (s.visit blk s.rows.length).rows.length = s.rows.length + 1 := by
      rw [rows_visit, List.length_append, List.length_singleton]
    have hrest := ih (h.visit blk)
    rw [hlength] at hrest
    rw [visits_cons]
    refine ⟨hrest.1, hrest.2.trans ?_⟩
    rw [List.length_cons]
    omega

end Pass

section

variable (b : Body)

/-- The pass over all blocks of a body. -/
def pass (b : Body) : Pass := ({} : Pass).visits 0 b.blocks

theorem kept_pass : b.pass.Kept ∧ b.pass.rows.length = b.blocks.length := by
  have hrun := Pass.kept_visits b.blocks Pass.kept_empty
  rw [List.length_nil, Nat.zero_add] at hrun
  exact hrun

theorem instrs_pass : b.pass.instrs = b.instrs := Pass.instrs_visits b.blocks 0 {}

/-- The ordinal that a block is given is its position. -/
theorem rows_pass : b.pass.rows = b.ordinals.map fun o => (o, b.instrsOf o) := by
  rw [(kept_pass b).1.rows, (kept_pass b).2, instrs_pass]
  rfl

theorem first_pass (n : Node) : b.pass.first.lookup n.id = b.instrOf? n := by
  rw [(kept_pass b).1.first n, instrs_pass]
  rfl

/-- The instructions of a body are those of its blocks, one block after the other. -/
theorem instrs_eq_flatMap : b.instrs = b.ordinals.flatMap b.instrsOf := by
  have horder := (kept_pass b).1.order
  rw [instrs_pass, rows_pass, List.flatMap_map] at horder
  exact horder

end

/-! ## Where instructions stand -/

section

variable {b : Body} {i : Instr} {n : Node} {blk : Block} {o k : Nat}

theorem getElem?_instrs_iff : b.instrs[k]? = some i ↔ i ∈ b.instrs ∧ i.id = k := by
  constructor
  · intro h
    have hi := List.mem_of_getElem? h
    have hlt := (List.getElem?_eq_some_iff.1 h).1
    -- both positions hold `i`, and no instruction is listed twice
    refine ⟨hi, ((List.getElem?_inj hlt b.nodup_instrs).1 ?_).symm⟩
    rw [h, getElem?_instrs hi]
  · rintro ⟨hi, rfl⟩
    exact getElem?_instrs hi

theorem getElem?_instrsOf_iff :
    (b.instrsOf o)[k]? = some i ↔ i ∈ b.instrs ∧ i.block = o ∧ i.index = k := by
  rw [← and_assoc, ← mem_instrsOf]
  cases hblk : b.blocks[o]? with
  | none =>
    rw [b.instrsOf_eq_nil hblk]
    simp
  | some blk =>
    rw [b.instrsOf_eq hblk]
    simp only [List.mem_iff_getElem?, List.getElem?_mapIdx, Option.map_eq_some_iff]
    constructor
    · rintro ⟨node, hnode, rfl⟩
      exact ⟨⟨k, node, hnode, rfl⟩, rfl⟩
    · rintro ⟨⟨j, node, hnode, rfl⟩, rfl⟩
      exact ⟨node, hnode, rfl⟩

theorem instrOf?_eq_none_iff : b.instrOf? n = none ↔ ∀ i ∈ b.instrs, ¬ i.node.same n := by
  rw [instrOf?, List.find?_eq_none]

/-- What comes first in the list has the smallest number. -/
theorem least_of_instrOf? (h : b.instrOf? n = some i) :
    i ∈ b.instrs ∧ i.node.same n ∧ ∀ j ∈ b.instrs, j.node.same n → i.id ≤ j.id := by
  obtain ⟨hsame, before, after, hsplit, hbefore⟩ := List.find?_eq_some_iff_append.1 h
  have hsorted := b.pairwise_instrs
  rw [hsplit] at hsorted ⊢
  refine ⟨by simp, hsame, fun j hj hjn => ?_⟩
  rcases List.mem_append.1 hj with hj | hj
  · have hmiss := hbefore j hj
    rw [hjn] at hmiss
    cases hmiss
  · rcases List.mem_cons.1 hj with rfl | hj
    · exact Nat.le_refl _
    · have hlater := (List.pairwise_cons.1 (List.pairwise_append.1 hsorted).2.1).1
      exact Nat.le_of_lt (hlater j hj)

theorem instrOf?_eq_some_iff : b.instrOf? n = some i ↔
    i ∈ b.instrs ∧ i.node.same n ∧ ∀ j ∈ b.instrs, j.node.same n → i.id ≤ j.id := by
  refine ⟨least_of_instrOf?, fun ⟨hi, hsame, hleast⟩ => ?_⟩
  cases hfound : b.instrOf? n with
  | none => exact absurd hsame (instrOf?_eq_none_iff.1 hfound i hi)
  | some j =>
    obtain ⟨hj, hjsame, hjleast⟩ := least_of_instrOf? hfound
    have hid : j.id = i.id := Nat.le_antisymm (hjleast i hi hsame) (hleast j hj hjsame)
    rw [eq_of_id_eq hj hi hid]

end

/-- Where the instructions of a body stand, what they evaluate, and which one is found for a
node. -/
structure Layout (b : Body) : Prop where
  numbers : b.instrs.map (·.id) = List.range b.instrs.length
  at_number : ∀ k i, b.instrs[k]? = some i ↔ i ∈ b.instrs ∧ i.id = k
  block_order : b.instrs = b.ordinals.flatMap b.instrsOf
  at_index : ∀ o k i, (b.instrsOf o)[k]? = some i ↔ i ∈ b.instrs ∧ i.block = o ∧ i.index = k
  own_block : ∀ i ∈ b.instrs, ∃ blk, b.blocks[i.block]? = some blk ∧
    (blk.nodes ++ blk.branch.toList)[i.index]? = some i.node
  evaluates : ∀ o blk, b.blocks[o]? = some blk →
    (b.instrsOf o).map (·.node) = blk.nodes ++ blk.branch.toList
  found : ∀ n i, b.instrOf? n = some i ↔
    i ∈ b.instrs ∧ i.node.same n ∧ ∀ j ∈ b.instrs, j.node.same n → i.id ≤ j.id
  not_found : ∀ n, b.instrOf? n = none ↔ ∀ i ∈ b.instrs, ¬ i.node.same n

theorem layout (b : Body) : b.Layout where
  numbers := b.map_id_instrs
  at_number _ _ := getElem?_instrs_iff
  block_order := b.instrs_eq_flatMap
  at_index _ _ _ := getElem?_instrsOf_iff
  own_block i hi := by
    obtain ⟨blk, hblk, hnode, -⟩ := mem_instrs.1 hi
    exact ⟨blk, hblk, hnode⟩
  evaluates _ _ h := map_node_instrsOf h
  found _ _ := instrOf?_eq_some_iff
  not_found _ := instrOf?_eq_none_iff

-- repeated nodes, an empty block and a branch value
example (n m : Node) : (({ func := n, blocks := [{ nodes := [n, m, n] }, {},
      { nodes := [m], branch := some n }] } : Body).instrs.map fun i => (i.id, i.block, i.index))
    = [(0, 0, 0), (1, 0, 1), (2, 0, 2), (3, 2, 0), (4, 2, 1)] := rfl

/-! ## Between an entry and an exit -/

/-- The instruction, one block further down. -/
def pushedDown (i : Instr) : Instr := { i with block := i.block + 1 }

/-- What becomes of the block `q.1` at position `q.2`: its successors are one further down, and it
falls through to `exit` if it would end although it returns. -/
def framedBlock (exit : Nat) (noReturn : List Nat) (q : Block × Nat) : Block :=
  { q.1.renumber (· + 1) with
    fall := if q.1.fall.isNone && q.1.cond.isNone && !noReturn.contains q.2 then some exit
      else q.1.fall.map (· + 1) }

section

variable {label : Nat} {func : Node} {blocks : List Block} {noReturn : List Nat} {blk : Block}
  {p : Nat}

theorem blocks_framed : (framed label func blocks noReturn).blocks
    = { kind := .entry, fall := some 1 }
      :: blocks.zipIdx.map (framedBlock (blocks.length + 1) noReturn) ++ [{ kind := .exit }] := rfl

theorem ends_iff : (blk.fall.isNone && blk.cond.isNone && !noReturn.contains p) = true ↔
    blk.succs = [] ∧ p ∉ noReturn := by
  simp [Block.succs]

theorem cond_eq_none_of_ends (hends : blk.succs = []) : blk.cond = none := by
  simp only [Block.succs, List.append_eq_nil_iff, Option.toList_eq_nil_iff] at hends
  exact hends.2

theorem framedBlock_of_ends {exit : Nat} (hends : blk.succs = []) (hreturns : p ∉ noReturn) :
    framedBlock exit noReturn (blk, p) = { blk with fall := some exit } := by
  have hcond := cond_eq_none_of_ends hends
  rw [framedBlock, if_pos (ends_iff.2 ⟨hends, hreturns⟩), Block.renumber, hcond, Option.map_none,
    ← hcond]

theorem framedBlock_of_kept {exit : Nat} (hkept : blk.succs ≠ [] ∨ p ∈ noReturn) :
    framedBlock exit noReturn (blk, p) = blk.renumber (· + 1) := by
  have hnot : ¬ (blk.succs = [] ∧ p ∉ noReturn) := fun h => hkept.elim (· h.1) h.2
  rw [framedBlock, if_neg (ends_iff.not.2 hnot)]
  rfl

theorem getElem?_framed (h : blocks[p]? = some blk) :
    (framed label func blocks noReturn).blocks[p + 1]?
      = some (framedBlock (blocks.length + 1) noReturn (blk, p)) := by
  have hlt := (List.getElem?_eq_some_iff.1 h).1
  rw [blocks_framed, List.cons_append, List.getElem?_cons_succ,
    List.getElem?_append_left (by simpa using hlt), List.getElem?_map, List.getElem?_zipIdx, h,
    Nat.zero_add]
  rfl

/-- Behind the given blocks there is only the exit. -/
theorem succs_framed_eq_nil {last : Block} (h : blocks[p]? = none)
    (hlast : (framed label func blocks noReturn).blocks[p + 1]? = some last) :
    last.succs = [] := by
  rw [blocks_framed, List.cons_append, List.getElem?_cons_succ,
    List.getElem?_append_right (by simpa using h)] at hlast
  rw [List.mem_singleton.1 (List.mem_of_getElem? hlast)]
  rfl

/-! ### Edges -/

theorem mem_succs_framedBlock {exit v : Nat} :
    v ∈ (framedBlock exit noReturn (blk, p)).succs ↔
      (∃ q ∈ blk.succs, v = q + 1) ∨ blk.succs = [] ∧ p ∉ noReturn ∧ v = exit := by
  by_cases hends : blk.succs = [] ∧ p ∉ noReturn
  · obtain ⟨hnil, hreturns⟩ := hends
    have hsuccs : ({ blk with fall := some exit } : Block).succs = [exit] := by
      simp [Block.succs, cond_eq_none_of_ends hnil]
    rw [framedBlock_of_ends hnil hreturns, hsuccs, hnil]
    simp [hreturns]
  · have hkept : blk.succs ≠ [] ∨ p ∈ noReturn := by
      by_contra hnot
      push Not at hnot
      exact hends hnot
    rw [framedBlock_of_kept hkept, Block.succs_renumber, List.mem_map]
    constructor
    · rintro ⟨q, hq, rfl⟩
      exact .inl ⟨q, hq, rfl⟩
    · rintro (⟨q, hq, rfl⟩ | ⟨hnil, hreturns, -⟩)
      · exact ⟨q, hq, rfl⟩
      · exact absurd ⟨hnil, hreturns⟩ hends

theorem edge_framed_iff (b : Body) (u v : Nat) :
    (framed label b.func b.blocks noReturn).Edge u v ↔
      u = 0 ∧ v = 1 ∨
      (∃ p q, b.Edge p q ∧ u = p + 1 ∧ v = q + 1) ∨
      ∃ p blk, b.blocks[p]? = some blk ∧ blk.succs = [] ∧ p ∉ noReturn ∧
        u = p + 1 ∧ v = b.blocks.length + 1 := by
  rw [edge_iff]
  constructor
  · rintro ⟨blk', hblk', hv⟩
    cases u with
    | zero =>
      cases hblk'
      exact .inl ⟨rfl, List.mem_singleton.1 hv⟩
    | succ p =>
      right
      cases hblk : b.blocks[p]? with
      | none =>
        rw [succs_framed_eq_nil hblk hblk'] at hv
        cases hv
      | some blk =>
        rw [getElem?_framed hblk, Option.some.injEq] at hblk'
        rw [← hblk', mem_succs_framedBlock] at hv
        rcases hv with ⟨q, hq, rfl⟩ | ⟨hnil, hreturns, rfl⟩
        · exact .inl ⟨p, q, edge_iff.2 ⟨blk, hblk, hq⟩, rfl, rfl⟩
        · exact .inr ⟨p, blk, hblk, hnil, hreturns, rfl, rfl⟩
  · rintro (⟨rfl, rfl⟩ | ⟨p, q, hedge, rfl, rfl⟩ | ⟨p, blk, hblk, hnil, hreturns, rfl, rfl⟩)
    · exact ⟨_, rfl, List.mem_singleton.2 rfl⟩
    · obtain ⟨blk, hblk, hq⟩ := edge_iff.1 hedge
      exact ⟨_, getElem?_framed hblk, mem_succs_framedBlock.2 (.inl ⟨q, hq, rfl⟩)⟩
    · exact ⟨_, getElem?_framed hblk, mem_succs_framedBlock.2 (.inr ⟨hnil, hreturns, rfl⟩)⟩

/-! ### Instructions -/

/-- An entry and an exit evaluate nothing, so no number changes. -/
theorem numbered_framed {f : Block × Nat → Block} {last : Block}
    (hf : ∀ q, (f q).evaluated = q.1.evaluated) (hlast : last.evaluated = [])
    (bs : List Block) (k ordinal next : Nat) :
    numbered (ordinal + 1) next ((bs.zipIdx k).map f ++ [last])
      = (numbered ordinal next bs).map pushedDown := by
  induction bs generalizing k ordinal next with
  | nil => simp [numbered, hlast]
  | cons blk bs ih =>
    have hhere : (blk.evaluated.mapIdx
          fun index node => (⟨next + index, ordinal, index, node⟩ : Instr)).map pushedDown
        = blk.evaluated.mapIdx fun index node => ⟨next + index, ordinal + 1, index, node⟩ :=
      List.ext_getElem (by simp) fun j _ _ => by simp [pushedDown]
    rw [List.zipIdx_cons, List.map_cons, List.cons_append, numbered, numbered, hf, ih,
      List.map_append, hhere]

theorem instrs_framed (b : Body) :
    (framed label b.func b.blocks noReturn).instrs = b.instrs.map pushedDown := by
  have hentry : ({ kind := .entry, fall := some 1 } : Block).evaluated = [] := rfl
  have hexit : ({ kind := .exit } : Block).evaluated = [] := rfl
  have hsame : ∀ q, (framedBlock (b.blocks.length + 1) noReturn q).evaluated = q.1.evaluated :=
    fun _ => rfl
  rw [instrs, blocks_framed, List.cons_append, numbered, hentry, List.mapIdx_nil, List.nil_append]
  exact numbered_framed hsame hexit b.blocks 0 0 0

/-! ### Entry and exit -/

/-- The exit is looked for by its role, so a given block with that role comes before the last. -/
theorem exit?_framed : (framed label func blocks noReturn).exit?
    = some ((blocks.findIdx? fun blk => blk.kind = .exit).getD blocks.length + 1) := by
  have hkinds : (blocks.zipIdx.map (framedBlock (blocks.length + 1) noReturn)).findIdx?
        (fun blk => blk.kind = .exit)
      = blocks.findIdx? fun blk => blk.kind = .exit := by
    conv_rhs => rw [← List.zipIdx_map_fst 0 blocks, List.findIdx?_map]
    rw [List.findIdx?_map]
    rfl
  have hfind : (framed label func blocks noReturn).blocks.findIdx? (fun blk => blk.kind = .exit)
      = some ((blocks.findIdx? fun blk => blk.kind = .exit).getD blocks.length + 1) := by
    rw [blocks_framed, List.cons_append, List.findIdx?_cons, List.findIdx?_append, hkinds]
    cases blocks.findIdx? fun blk => blk.kind = .exit with
    | none => simp
    | some o => simp
  rw [exit?, hfind]

end

/-- `b` has the blocks of `inner` between an entry and an exit. The entry falls through to what
comes next, the exit if there are no blocks. An edge of `inner` stays, between the same blocks; only
a block that would end and is not in `noReturn` gets a new one, to the exit behind all blocks. Asked
for its exit, `b` names the first block with that role. -/
structure Frames (inner : Body) (noReturn : List Nat) (b : Body) : Prop where
  length : b.blocks.length = inner.blocks.length + 2
  entry_first : b.blocks.head? = some { kind := .entry, fall := some 1 }
  exit_last : b.blocks.getLast? = some { kind := .exit }
  entry : b.entry? = some 0
  exit : b.exit?
    = some ((inner.blocks.findIdx? fun blk => blk.kind = .exit).getD inner.blocks.length + 1)
  returns : ∀ p blk, inner.blocks[p]? = some blk → blk.succs = [] → p ∉ noReturn →
    b.blocks[p + 1]? = some { blk with fall := some (inner.blocks.length + 1) }
  kept : ∀ p blk, inner.blocks[p]? = some blk → blk.succs ≠ [] ∨ p ∈ noReturn →
    b.blocks[p + 1]? = some (blk.renumber (· + 1))
  edges : ∀ u v, b.Edge u v ↔
    u = 0 ∧ v = 1 ∨
    (∃ p q, inner.Edge p q ∧ u = p + 1 ∧ v = q + 1) ∨
    ∃ p blk, inner.blocks[p]? = some blk ∧ blk.succs = [] ∧ p ∉ noReturn ∧
      u = p + 1 ∧ v = inner.blocks.length + 1
  instrs : b.instrs = inner.instrs.map pushedDown

theorem frames (b : Body) (label : Nat) (noReturn : List Nat) :
    b.Frames noReturn (framed label b.func b.blocks noReturn) where
  length := by simp [blocks_framed]
  entry_first := rfl
  exit_last := by
    rw [blocks_framed, List.getLast?_append]
    rfl
  entry := rfl
  exit := exit?_framed
  returns p blk h hends hreturns := by rw [getElem?_framed h, framedBlock_of_ends hends hreturns]
  kept p blk h hkept := by rw [getElem?_framed h, framedBlock_of_kept hkept]
  edges := edge_framed_iff b
  instrs := instrs_framed b

/-- **The layout of a body.** Instructions are numbered `0, 1, 2, …` in block order, so that each
stands at its number among all instructions and at its index among those of its block; a block
evaluates its nodes and then its branch value; and the instruction found for a node is the one with
the smallest number that evaluates it, if there is one. This is what one pass over the blocks makes,
with one counter and one table in which the first entry wins, and the ordinal it gives to a block is
the position of the block. Framing puts an entry first and an exit last, leads the blocks that would
end to that exit unless they do not return, and changes no other edge and no number. -/
theorem layout_exact (b : Body) :
    b.Layout ∧
    b.pass.instrs = b.instrs ∧
    b.pass.rows = b.ordinals.map (fun o => (o, b.instrsOf o)) ∧
    (∀ n : Node, b.pass.first.lookup n.id = b.instrOf? n) ∧
    ∀ label noReturn, (framed label b.func b.blocks noReturn).Layout ∧
      b.Frames noReturn (framed label b.func b.blocks noReturn) :=
  ⟨b.layout, b.instrs_pass, b.rows_pass, b.first_pass,
    fun label noReturn => ⟨layout _, b.frames label noReturn⟩⟩

end Body

end AwaitLint
