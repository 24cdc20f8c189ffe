import AwaitLint.Proofs.PostDominance
import AwaitLint.Proofs.ReachingDefinitions

/-!
# AwaitLint — lookups that never fail

Blocks, instructions, facts, sets and parents are looked up by number. In `DomTree`, `ControlFlow`
and `DataFlow` a lookup that finds nothing gives an empty answer, so that every question has one.
This module asks the same questions with lookups that fail, and shows that they give the same
answers: no empty answer ever stands for a number out of range or a missing parent.

## The architecture

* **`DomTree.Checked`**, **`ControlFlow.Checked`**, **`DataFlow.Checked`** — the loops and the
  queries over lookups that fail, under the names they have there.
* **`DomTree.Checked.build_eq`** — vertices that climb have a parent with a smaller number, from the
  first tree of a refinement to the last (`DomTree.Refining`).
* **`ControlFlow.lt_length_of_mem_graph`** — if the successors of blocks are blocks, so are the
  vertices of the graph, and with them all members of the chains of post-dominators.
* **`DataFlow.InRange`** — the invariant of the sweeps: the tables have an entry for every number,
  and the sets hold numbers of instructions. One replacement of a set keeps it (`InRange.relax`) and
  fails nowhere (`Checked.relax_eq`), hence so do the sweeps (`Checked.saturate_eq`).
* **`ControlFlow.answers`**, **`DataFlow.InRange.answers`** — the headlines: all queries answer, and
  the instructions they answer with are those of the body, so that they can be asked about in turn.
-/

namespace AwaitLint

/-! ## Lists of lookups -/

section Lookups

variable {α β : Type} {l : List α} {p? : α → Option Bool} {p : α → Bool}

/-- A lookup that succeeds is followed by what depends on it. -/
theorem bind_of_eq_some {x : Option α} {a : α} {f : α → Option β} {r : Option β} (hx : x = some a)
    (hf : f a = r) : (x >>= f) = r := by
  rw [hx]
  exact hf

theorem mapM_eq_some {f? : α → Option β} {f : α → β} (h : ∀ x ∈ l, f? x = some (f x)) :
    l.mapM f? = some (l.map f) := by
  induction l with
  | nil => rfl
  | cons x l ih =>
    obtain ⟨hx, hl⟩ := List.forall_mem_cons.1 h
    rw [List.mapM_cons, hx, ih hl]
    rfl

theorem anyM_eq_some (h : ∀ x ∈ l, p? x = some (p x)) : l.anyM p? = some (l.any p) := by
  induction l with
  | nil => rfl
  | cons x l ih =>
    obtain ⟨hx, hl⟩ := List.forall_mem_cons.1 h
    rw [List.anyM_cons, hx, ih hl, List.any_cons]
    cases p x <;> rfl

theorem filterAuxM_eq_some (h : ∀ x ∈ l, p? x = some (p x)) (acc : List α) :
    l.filterAuxM p? acc = some ((l.filter p).reverse ++ acc) := by
  induction l generalizing acc with
  | nil => rfl
  | cons x l ih =>
    obtain ⟨hx, hl⟩ := List.forall_mem_cons.1 h
    rw [List.filterAuxM, hx]
    show l.filterAuxM p? (cond (p x) (x :: acc) acc) = _
    rw [ih hl, List.filter_cons]
    cases p x <;> simp

theorem filterM_eq_some (h : ∀ x ∈ l, p? x = some (p x)) : l.filterM p? = some (l.filter p) := by
  rw [List.filterM, filterAuxM_eq_some h]
  show some (((l.filter p).reverse ++ []).reverse) = _
  rw [List.append_nil, List.reverse_reverse]

end Lookups

/-! ## Bodies -/

namespace Body

variable {b : Body} {i : Instr} {o u v : Nat}

/-- The instructions of a block, if there is such a block. -/
def instrsAt? (b : Body) (o : Nat) : Option (List Instr) :=
  (b.blocks[o]?).map fun _ => b.instrsOf o

/-- The instructions with the given numbers, if there are such instructions. -/
def instrsNumbered? (b : Body) (ids : List Nat) : Option (List Instr) :=
  ids.mapM fun k => b.instrs[k]?

/-- Every successor of a block is a block. -/
def Closed (b : Body) : Prop := ∀ blk ∈ b.blocks, ∀ o ∈ blk.succs, o < b.blocks.length

instance : Decidable b.Closed :=
  inferInstanceAs (Decidable (∀ blk ∈ b.blocks, ∀ o ∈ blk.succs, o < b.blocks.length))

theorem instrsAt?_eq (ho : o < b.blocks.length) : b.instrsAt? o = some (b.instrsOf o) := by
  rw [instrsAt?, List.getElem?_eq_getElem ho]
  rfl

/-- Numbers of instructions are looked up without a loss. -/
theorem exists_instrsNumbered? {ids : List Nat} (h : ∀ k ∈ ids, ∃ i ∈ b.instrs, i.id = k) :
    ∃ is, b.instrsNumbered? ids = some is ∧ is.map (·.id) = ids ∧ ∀ i ∈ is, i ∈ b.instrs := by
  induction ids with
  | nil => exact ⟨[], rfl, rfl, nofun⟩
  | cons k ids ih =>
    obtain ⟨⟨i, hi, rfl⟩, hids⟩ := List.forall_mem_cons.1 h
    obtain ⟨is, his, hmap, hmem⟩ := ih hids
    refine ⟨i :: is, ?_, by rw [List.map_cons, hmap], List.forall_mem_cons.2 ⟨hi, hmem⟩⟩
    rw [instrsNumbered?] at his ⊢
    rw [List.mapM_cons, getElem?_instrs hi, his]
    rfl

/-- The instructions behind an instruction of a block are a part of the block. -/
theorem index_lt_length (hi : i ∈ b.instrs) : i.index < (b.instrsOf i.block).length := by
  obtain ⟨blk, hblk, hnode, -⟩ := mem_instrs.1 hi
  rw [instrsOf_eq b hblk, List.length_mapIdx]
  exact (List.getElem?_eq_some_iff.1 hnode).1

theorem Closed.target_lt (h : b.Closed) (hedge : b.Edge u v) : v < b.blocks.length := by
  obtain ⟨blk, hblk, hv⟩ := edge_iff.1 hedge
  exact h blk (List.mem_of_getElem? hblk) v hv

theorem entry?_lt (h : b.entry? = some o) : o < b.blocks.length := by
  unfold entry? at h
  split at h
  · rename_i hfind
    cases h
    exact (List.findIdx?_eq_some_iff_getElem.1 hfind).1
  · split at h
    · cases h
    · rename_i hne
      cases h
      exact List.length_pos_iff.2 fun hnil => hne (List.isEmpty_iff.2 hnil)

theorem exit?_lt (h : b.exit? = some o) : o < b.blocks.length := by
  unfold exit? at h
  split at h
  · rename_i hfind
    cases h
    exact (List.findIdx?_eq_some_iff_getElem.1 hfind).1
  · split at h
    · cases h
    · rename_i hne
      cases h
      exact Nat.sub_one_lt fun hzero => hne (List.isEmpty_iff.2 (List.length_eq_zero_iff.1 hzero))

end Body

/-! ## Dominator trees

A vertex without a parent is left where it is by `DomTree.relax` and ends the climb of
`DomTree.meet`. Here both fail. -/

namespace DomTree

variable {V : Type} [DecidableEq V] {g : Graph V} {root v p x y : V} {t : DomTree V}
  {work : List (V × V)}

namespace Checked

/-- `DomTree.meet`; fails at a vertex that has to climb and has no parent with a smaller number. -/
def meet (t : DomTree V) (a b : V) : Option V :=
  if a = b then some a
  else if t.number b < t.number a then (t.above a).bind fun p => meet t p.1 b
  else (t.above b).bind fun p => meet t a p.1
termination_by t.number a + t.number b
decreasing_by
  · exact Nat.add_lt_add_right p.2 _
  · exact Nat.add_lt_add_left p.2 _

def relax (t : DomTree V) (v p : V) : Option (DomTree V) := do
  let d ← t.parent? v
  let m ← meet t d p
  return if m = d then t else t.setParent v m

def sweep (work : List (V × V)) (t : DomTree V) : Option (DomTree V) :=
  work.foldlM (fun t e => relax t e.1 e.2) t

def refine (work : List (V × V)) (t : DomTree V) : Option (DomTree V) := do
  let next ← sweep work t
  if next.rank < t.rank then refine work next else return next
termination_by t.rank

def build (g : Graph V) (root : V) : Option (DomTree V) :=
  refine ((seed g root).agenda g) (seed g root)

/-- The climb finds every parent it asks for. -/
theorem meet_of_meets {m : V} (h : Refining g root t) (hm : Meets t x y m) : meet t x y = some m := by
  induction hm with
  | same => rw [meet, if_pos rfl]
  | left hne _ _ hlt hp _ ih =>
    rw [meet, if_neg hne, if_pos hlt, h.above_of_parent hp]
    exact ih
  | right hne _ _ hge hp _ ih =>
    rw [meet, if_neg hne, if_neg hge, h.above_of_parent hp]
    exact ih

/-- One step: a vertex other than the root has a parent to begin with. -/
theorem relax_eq (h : Refining g root t) (hv : v ∈ t.order) (hne : v ≠ root) (hp : p ∈ t.order) :
    relax t v p = some (t.relax v p) := by
  obtain ⟨d, hd⟩ := h.total hv hne
  have hmeet := meet_of_meets h (h.meets (h.parent_mem hd) hp)
  refine bind_of_eq_some hd (bind_of_eq_some hmeet ?_)
  rw [relax_of_parent hd]
  rfl

theorem sweep_eq (h : Refining g root t) (hwork : IsAgenda g t work)
    (hrest : ∀ e ∈ work, e.1 ∈ t.order ∧ e.1 ≠ root) :
    sweep work t = some (DomTree.sweep work t) := by
  induction work generalizing t with
  | nil => rfl
  | cons e work ih =>
    obtain ⟨edge, hmem⟩ := hwork e List.mem_cons_self
    obtain ⟨⟨hv, hne⟩, hrest⟩ := List.forall_mem_cons.1 hrest
    refine bind_of_eq_some (relax_eq h hv hne hmem) (ih (h.relax edge hmem) hwork.relax ?_)
    intro f hf
    rw [order_relax]
    exact hrest f hf

/-- The whole run. -/
theorem refine_eq (h : Refining g root t) (hwork : IsAgenda g t work)
    (hrest : ∀ e ∈ work, e.1 ∈ t.order ∧ e.1 ≠ root) :
    refine work t = some (DomTree.refine work t) := by
  induction hn : t.rank using Nat.strongRecOn generalizing t with
  | ind n ih =>
    subst hn
    obtain ⟨hsweep, horder⟩ := h.sweep hwork
    rw [refine, DomTree.refine]
    refine bind_of_eq_some (sweep_eq h hwork hrest) ?_
    by_cases hlt : (DomTree.sweep work t).rank < t.rank
    · rw [if_pos hlt, if_pos hlt]
      refine ih _ hlt hsweep (fun e he => ?_) (fun e he => ?_) rfl
      · rw [horder]
        exact hwork e he
      · rw [horder]
        exact hrest e he
    · rw [if_neg hlt, if_neg hlt]
      rfl

theorem build_eq (g : Graph V) (root : V) : build g root = some (DomTree.build g root) := by
  by_cases hroot : root ∈ g.vertices
  · refine refine_eq (refining_seed g hroot) (isAgenda_seed g root) ?_
    rintro ⟨v, p⟩ he
    obtain ⟨hne, hv, -, -⟩ := mem_agenda.1 he
    rw [root_seed] at hne
    exact ⟨hv, hne⟩
  · -- nothing is reached, so there is nothing to do
    rw [build, DomTree.build, agenda_seed_of_not_mem g hroot, refine, DomTree.refine]
    refine bind_of_eq_some rfl ?_
    show (if (seed g root).rank < (seed g root).rank then _ else _)
      = some (if (seed g root).rank < (seed g root).rank then _ else _)
    rw [if_neg (Nat.lt_irrefl _), if_neg (Nat.lt_irrefl _)]
    rfl

end Checked

end DomTree

/-! ## Control flow -/

namespace ControlFlow

namespace Checked

/-- `ControlFlow.postDominators`; fails for a chain that leaves the blocks, and for an instruction
that is not in its block. -/
def postDominators (cf : ControlFlow) (i : Instr) : Option (List Instr) :=
  if (cf.tree.parent? i.block).isNone then some []
  else do
    let chain ← (cf.postDominatorBlocks i.block).mapM cf.body.instrsAt?
    let own ← cf.body.instrsAt? i.block
    -- what follows `i` is cut out of its block
    if i.index + 1 ≤ own.length then return chain.flatten ++ own.drop (i.index + 1) else none

/-- `ControlFlow.successorInstrs`; fails for a successor that is not a block. -/
def successorInstrs (cf : ControlFlow) (i : Instr) : Option (List Instr) := do
  return (← (cf.graph.adjacent i.block).mapM cf.body.instrsAt?).flatten

end Checked

/-- The queries answer without a failing lookup, and with instructions of the body. -/
structure Answers (cf : ControlFlow) : Prop where
  tree : ∀ exit, cf.body.exit? = some exit →
    DomTree.Checked.build cf.graph.reverse exit = some cf.tree
  blocks : ∀ o, ∀ p ∈ cf.postDominatorBlocks o, ∃ blk, cf.body.blocks[p]? = some blk
  /-- A chain of post-dominators leads to the exit. -/
  ends : ∀ o, cf.postDominatorBlocks o = [] ∨ (cf.postDominatorBlocks o).getLast? = cf.body.exit?
  postDominators : ∀ i ∈ cf.body.instrs, Checked.postDominators cf i = some (cf.postDominators i)
  successorInstrs : ∀ i ∈ cf.body.instrs, Checked.successorInstrs cf i = some (cf.successorInstrs i)
  within : ∀ i, ∀ s ∈ cf.postDominators i ++ cf.successorInstrs i, s ∈ cf.body.instrs

variable {b : Body} {cf : ControlFlow} {i : Instr} {v a : Nat}

section Answers

variable (hcf : ofBody b = .ok cf) (hclosed : b.Closed)

include hcf hclosed

/-- The graph is over the blocks of the body. -/
theorem lt_length_of_mem_graph (hv : v ∈ cf.graph.vertices) : v < b.blocks.length := by
  obtain ⟨-, entry, exit, hentry, hexit, rfl⟩ := ofBody_inv hcf
  have hall := ((mem_prune (zero_mem_blockGraph hentry)).1 hv).1
  rw [blockGraph, Graph.mem_vertices_build] at hall
  rcases hall with ⟨⟨u, w⟩, he, hend⟩ | hordinal
  · rw [List.mem_append, List.mem_singleton] at he
    rcases he with he | he
    · rcases hend with rfl | rfl
      · exact DataFlow.lt_length_of_edge he
      · exact hclosed.target_lt he
    · -- the additional edge
      obtain ⟨rfl, rfl⟩ := Prod.mk.inj he
      rcases hend with rfl | rfl
      · exact Body.entry?_lt hentry
      · exact Body.exit?_lt hexit
  · exact List.mem_range.1 hordinal

theorem lt_length_of_mem_postDominatorBlocks (ha : a ∈ cf.postDominatorBlocks v) :
    a < b.blocks.length := by
  obtain ⟨-, entry, exit, hentry, hexit, -⟩ := ofBody_inv hcf
  cases hparent : cf.tree.parent? v with
  | none =>
    rw [postDominatorBlocks, DomTree.dominators_of_none _ hparent] at ha
    cases ha
  | some d =>
    obtain ⟨hv, he⟩ := mem_graph_of_parent hcf hexit hparent
    exact lt_length_of_mem_graph hcf hclosed
      (mem_graph_of_mem_postDominatorBlocks hcf hexit hv he ha)

theorem lt_length_of_mem_adjacent (ha : a ∈ cf.graph.adjacent v) : a < b.blocks.length :=
  lt_length_of_mem_graph hcf hclosed (Graph.target_mem (Graph.mem_adjacent.1 ha))

theorem Checked.postDominators_eq (hi : i ∈ b.instrs) :
    Checked.postDominators cf i = some (cf.postDominators i) := by
  unfold Checked.postDominators ControlFlow.postDominators
  rw [body_eq hcf]
  cases cf.tree.parent? i.block with
  | none => rfl
  | some d =>
    have hchain : (cf.postDominatorBlocks i.block).mapM b.instrsAt? = some _ :=
      mapM_eq_some fun o ho =>
        Body.instrsAt?_eq (lt_length_of_mem_postDominatorBlocks hcf hclosed ho)
    have hown := Body.instrsAt?_eq (DataFlow.lt_length_of_mem_instrs hi)
    have hindex : i.index + 1 ≤ (b.instrsOf i.block).length := Body.index_lt_length hi
    refine (if_neg Bool.false_ne_true).trans (bind_of_eq_some hchain (bind_of_eq_some hown ?_))
    rw [if_pos hindex, List.flatMap_def]
    rfl

theorem Checked.successorInstrs_eq (i : Instr) :
    Checked.successorInstrs cf i = some (cf.successorInstrs i) := by
  have hnext : (cf.graph.adjacent i.block).mapM b.instrsAt? = some _ :=
    mapM_eq_some fun o ho => Body.instrsAt?_eq (lt_length_of_mem_adjacent hcf hclosed ho)
  rw [Checked.successorInstrs, ControlFlow.successorInstrs, body_eq hcf, hnext, List.flatMap_def]
  rfl

omit hclosed in
theorem postDominatorBlocks_ends (o : Nat) :
    cf.postDominatorBlocks o = [] ∨ (cf.postDominatorBlocks o).getLast? = b.exit? := by
  obtain ⟨-, entry, exit, hentry, hexit, -⟩ := ofBody_inv hcf
  cases hparent : cf.tree.parent? o with
  | none => exact .inl (DomTree.dominators_of_none _ hparent)
  | some d =>
    obtain ⟨hv, he⟩ := mem_graph_of_parent hcf hexit hparent
    obtain ⟨hreach, hne⟩ := (exists_parent_iff hcf hexit hv he).1 ⟨d, hparent⟩
    rw [hexit]
    exact .inr (getLast?_postDominatorBlocks hcf hexit hv he hreach hne)

theorem answers : cf.Answers := by
  have hbody := body_eq hcf
  refine ⟨fun exit hexit => ?_, fun o p hp => ?_, fun o => ?_, fun i hi => ?_, fun i _ => ?_,
    fun i s hs => ?_⟩
  · rw [hbody] at hexit
    obtain ⟨entry, -, rfl⟩ := ofBody_eq hcf hexit
    exact DomTree.Checked.build_eq _ _
  · rw [hbody]
    exact ⟨_, List.getElem?_eq_getElem (lt_length_of_mem_postDominatorBlocks hcf hclosed hp)⟩
  · rw [hbody]
    exact postDominatorBlocks_ends hcf o
  · exact Checked.postDominators_eq hcf hclosed (hbody ▸ hi)
  · exact Checked.successorInstrs_eq hcf hclosed i
  · rw [hbody]
    rcases List.mem_append.1 hs with hs | hs
    · exact ((mem_postDominators hcf).1 hs).2.1
    · rw [ControlFlow.successorInstrs, hbody, List.mem_flatMap] at hs
      obtain ⟨o, -, hs⟩ := hs
      exact (Body.mem_instrsOf.1 hs).1

end Answers

end ControlFlow

/-! ## Data flow -/

namespace DataFlow

/-! ### The sweeps over lookups that fail

Each definition is that of the same name in `DataFlow`, but fails for an ordinal without a block or
a set, and for a number without an instruction or facts. -/

namespace Checked

def defines (df : DataFlow) (v : Option Variable) (id : Nat) : Option Bool :=
  (df.facts[id]?).map fun du => du.defs.contains v

def rewrittenAfter (df : DataFlow) (i : Instr) (v : Option Variable) : Option Bool := do
  (← df.body.instrsAt? i.block).anyM fun j =>
    if i.index < j.index then defines df v j.id else some false

def defs (df : DataFlow) (o : Nat) : Option (List Nat) := do
  let last ← (← df.body.instrsAt? o).filterM fun i => do
    (← df.facts[i.id]?).defs.anyM fun v => (rewrittenAfter df i v).map (!·)
  return last.map (·.id)

def writes (df : DataFlow) (o : Nat) (v : Option Variable) : Option Bool := do
  (← df.body.instrsAt? o).anyM fun i => defines df v i.id

def kills (df : DataFlow) (o : Nat) : Option (List Nat) := do
  let killed ← df.body.instrs.filterM fun i =>
    if i.block != o then do (← df.facts[i.id]?).defs.anyM (writes df o) else some false
  return killed.map (·.id)

def outgoing (df : DataFlow) (o : Nat) : Option (List Nat) := do
  let killed ← kills df o
  let last ← defs df o
  return last ++ (← df.reachSets[o]?).filter fun d => !killed.contains d

def incoming (df : DataFlow) (o : Nat) : Option (List Nat) := do
  let passed ← (df.body.preds o).mapM (outgoing df)
  return df.select fun i => passed.flatten.contains i.id

def relax (df : DataFlow) (o : Nat) : Option DataFlow := do
  let set ← incoming df o
  -- an entry can be replaced only where there is one
  if o < df.reachSets.length then return { df with reachSets := df.reachSets.set o set } else none

def sweep (df : DataFlow) : Option DataFlow := df.body.ordinals.foldlM relax df

def saturate (df : DataFlow) : Option DataFlow := do
  let next ← sweep df
  if next.room < df.room then saturate next else return next
termination_by df.room

def solve (fe : FrontEnd) (b : Body) : Option DataFlow :=
  -- predecessors are entered under the block that an edge leads to
  if b.edges.all fun e => e.2 < b.blocks.length then saturate (resolved fe b) else none

/-! ### The queries over lookups that fail -/

def previousDef (df : DataFlow) (i : Instr) (v : Option Variable) : Option (Option Nat) := do
  let own ← df.body.instrsAt? i.block
  -- the search goes back from the place of `i` in its block
  if own.length < i.index then none
  else
    let earlier ← own.filterM fun j => if j.index < i.index then defines df v j.id else some false
    return earlier.getLast?.map (·.id)

def definitionsAt (df : DataFlow) (i : Instr) (v : Option Variable) : Option (List Nat) := do
  (← previousDef df i v).elim
    (do
      let candidates ← df.body.instrsNumbered? (← df.reachSets[i.block]?)
      return (← candidates.filterM fun d => defines df v d.id).map (·.id))
    fun d => some [d]

def reachingTo (df : DataFlow) (i : Instr) (symbols : List (Option Variable)) :
    Option (List Nat) := do
  let read := (← df.facts[i.id]?).uses
  let asked := if symbols.isEmpty then read else symbols
  let found ← (asked.filter read.contains).mapM (definitionsAt df i)
  return found.flatten.eraseDups

def reachingFrom (df : DataFlow) (id : Nat) (symbols : List (Option Variable)) :
    Option (List Instr) := do
  let written := (← df.facts[id]?).defs
  let asked := if symbols.isEmpty then written else symbols
  df.body.instrs.filterM fun c => (reachingTo df c asked).map (·.contains id)

def definitionsOf (df : DataFlow) (v : Option Variable) : Option (List Instr) :=
  df.body.instrs.filterM fun i => defines df v i.id

def definedAt (df : DataFlow) (n : Node) : Option (List (Option Variable)) := do
  let writers ← df.body.instrs.filterM fun i => (df.facts[i.id]?).map fun du => !du.defs.isEmpty
  ((writers.find? fun i => i.node.contains (df.anchor n)).map fun i =>
    (df.facts[i.id]?).map (·.defs)).getD (some [])

end Checked

variable {df : DataFlow} {fe : FrontEnd} {b : Body} {i : Instr} {o d : Nat} {v : Option Variable}

/-! ### The invariant of the sweeps -/

/-- The tables have an entry for every number, and the sets hold numbers of instructions. -/
structure InRange (df : DataFlow) : Prop where
  facts : df.facts.length = df.body.instrs.length
  sets : df.reachSets.length = df.body.blocks.length
  members : ∀ s ∈ df.reachSets, ∀ k ∈ s, ∃ i ∈ df.body.instrs, i.id = k

theorem exists_instr_of_mem_select {q : Instr → Bool} (h : d ∈ df.select q) :
    ∃ i ∈ df.body.instrs, i.id = d := by
  obtain ⟨i, hi, -, hid⟩ := mem_select.1 h
  exact ⟨i, hi, hid⟩

namespace InRange

theorem resolved (fe : FrontEnd) (b : Body) : InRange (resolved fe b) := by
  refine ⟨List.length_map _, List.length_map _, fun s hs k hk => ?_⟩
  obtain ⟨-, -, rfl⟩ := List.mem_map.1 hs
  cases hk

theorem relax (h : InRange df) (o : Nat) : InRange (df.relax o) := by
  refine ⟨h.facts, List.length_set.trans h.sets, fun s hs => ?_⟩
  rcases List.mem_or_eq_of_mem_set hs with hs | rfl
  · exact h.members s hs
  · intro k hk
    show ∃ i ∈ df.body.instrs, i.id = k
    exact exists_instr_of_mem_select hk

theorem foldl_relax (h : InRange df) (os : List Nat) : InRange (os.foldl DataFlow.relax df) := by
  induction os generalizing df with
  | nil => exact h
  | cons o os ih => exact ih (h.relax o)

theorem saturate (h : InRange df) : InRange df.saturate := by
  induction df using saturate.induct with
  | case1 df next hgrown ih =>
    unfold DataFlow.saturate
    rw [if_pos hgrown]
    exact ih (h.foldl_relax _)
  | case2 df next hdone =>
    unfold DataFlow.saturate
    rw [if_neg hdone]
    exact h.foldl_relax _

theorem solve (fe : FrontEnd) (b : Body) : InRange (solve fe b) := (resolved fe b).saturate

theorem facts_eq (h : InRange df) (hi : i ∈ df.body.instrs) :
    df.facts[i.id]? = some (df.defUse i.id) := by
  have hlt : i.id < df.facts.length := by
    rw [h.facts]
    exact (List.getElem?_eq_some_iff.1 (Body.getElem?_instrs hi)).1
  rw [defUse, List.getD_eq_getElem?_getD, List.getElem?_eq_getElem hlt]
  rfl

theorem reach_eq (h : InRange df) (ho : o < df.body.blocks.length) :
    df.reachSets[o]? = some (df.reach o) := by
  have hlt : o < df.reachSets.length := h.sets ▸ ho
  rw [reach, List.getD_eq_getElem?_getD, List.getElem?_eq_getElem hlt]
  rfl

theorem mem_reach (h : InRange df) (hd : d ∈ df.reach o) : ∃ i ∈ df.body.instrs, i.id = d := by
  rw [reach, List.getD_eq_getElem?_getD] at hd
  cases hset : df.reachSets[o]? with
  | none =>
    rw [hset] at hd
    cases hd
  | some s =>
    rw [hset] at hd
    exact h.members s (List.mem_of_getElem? hset) d hd

end InRange

/-! ### No lookup fails -/

namespace Checked

section Lookups

variable (h : InRange df)
include h

theorem defines_eq (hi : i ∈ df.body.instrs) : defines df v i.id = some (df.defines v i.id) := by
  rw [defines, h.facts_eq hi]
  rfl

theorem defines_guarded_eq {q : Prop} [Decidable q] (hi : i ∈ df.body.instrs) :
    (if q then defines df v i.id else some false) = some (decide q && df.defines v i.id) := by
  split
  · rename_i hq
    rw [defines_eq h hi, decide_eq_true hq]
    rfl
  · rename_i hq
    rw [decide_eq_false hq]
    rfl

theorem rewrittenAfter_eq (hi : i ∈ df.body.instrs) :
    rewrittenAfter df i v = some (df.rewrittenAfter i v) := by
  refine bind_of_eq_some (Body.instrsAt?_eq (lt_length_of_mem_instrs hi)) ?_
  exact anyM_eq_some fun j hj => defines_guarded_eq h (Body.mem_instrsOf.1 hj).1

theorem writes_eq (ho : o < df.body.blocks.length) : writes df o v = some (df.writes o v) := by
  refine bind_of_eq_some (Body.instrsAt?_eq ho) ?_
  exact anyM_eq_some fun j hj => defines_eq h (Body.mem_instrsOf.1 hj).1

theorem defs_eq (ho : o < df.body.blocks.length) : defs df o = some (df.defs o) := by
  have hlast : (df.body.instrsOf o).filterM (fun i => do
        (← df.facts[i.id]?).defs.anyM fun v => (rewrittenAfter df i v).map (!·))
      = some ((df.body.instrsOf o).filter fun i =>
          (df.defUse i.id).defs.any fun v => !df.rewrittenAfter i v) := by
    refine filterM_eq_some fun i hi => ?_
    have hi' := (Body.mem_instrsOf.1 hi).1
    refine bind_of_eq_some (h.facts_eq hi') (anyM_eq_some fun v _ => ?_)
    rw [rewrittenAfter_eq h hi']
    rfl
  refine bind_of_eq_some (Body.instrsAt?_eq ho) (bind_of_eq_some hlast ?_)
  rw [Body.instrsOf, List.filter_filter, DataFlow.defs, select]
  simp only [Bool.and_comm]
  rfl

theorem kills_eq (ho : o < df.body.blocks.length) : kills df o = some (df.kills o) := by
  have hkilled : (df.body.instrs.filterM fun i =>
        if i.block != o then do (← df.facts[i.id]?).defs.anyM (writes df o) else some false)
      = some (df.body.instrs.filter fun i =>
          i.block != o && (df.defUse i.id).defs.any (df.writes o)) := by
    refine filterM_eq_some fun i hi => ?_
    cases i.block != o with
    | false => rfl
    | true => exact bind_of_eq_some (h.facts_eq hi) (anyM_eq_some fun v _ => writes_eq h ho)
  exact bind_of_eq_some hkilled rfl

theorem outgoing_eq (ho : o < df.body.blocks.length) : outgoing df o = some (df.outgoing o) := by
  refine bind_of_eq_some (kills_eq h ho) (bind_of_eq_some (defs_eq h ho) ?_)
  exact bind_of_eq_some (h.reach_eq ho) rfl

theorem incoming_eq (o : Nat) : incoming df o = some (df.incoming o) := by
  have hpassed : (df.body.preds o).mapM (outgoing df) = some ((df.body.preds o).map df.outgoing) :=
    mapM_eq_some fun p hp => outgoing_eq h (lt_length_of_edge (mem_preds.1 hp))
  refine bind_of_eq_some hpassed ?_
  rw [DataFlow.incoming, List.flatMap_def]
  rfl

/-- One step: a set is replaced without a failing lookup. -/
theorem relax_eq (ho : o < df.body.blocks.length) : relax df o = some (df.relax o) :=
  bind_of_eq_some (incoming_eq h o) (if_pos (h.sets ▸ ho))

end Lookups

/-- The steps of one sweep. -/
theorem foldlM_relax_eq (h : InRange df) {os : List Nat}
    (hos : ∀ o ∈ os, o < df.body.blocks.length) :
    os.foldlM relax df = some (os.foldl DataFlow.relax df) := by
  induction os generalizing df with
  | nil => rfl
  | cons o os ih =>
    obtain ⟨ho, hos⟩ := List.forall_mem_cons.1 hos
    exact bind_of_eq_some (relax_eq h ho) (ih (h.relax o) hos)

theorem sweep_eq (h : InRange df) : sweep df = some df.sweep :=
  foldlM_relax_eq h fun _ ho => List.mem_range.1 ho

/-- The whole run. -/
theorem saturate_eq (h : InRange df) : saturate df = some df.saturate := by
  induction df using DataFlow.saturate.induct with
  | case1 df next hgrown ih =>
    unfold saturate DataFlow.saturate
    rw [if_pos hgrown]
    exact bind_of_eq_some (sweep_eq h) ((if_pos hgrown).trans (ih (h.foldl_relax _)))
  | case2 df next hdone =>
    unfold saturate DataFlow.saturate
    rw [if_neg hdone]
    exact bind_of_eq_some (sweep_eq h) (if_neg hdone)

theorem solve_eq (fe : FrontEnd) (hclosed : b.Closed) :
    solve fe b = some (DataFlow.solve fe b) := by
  have hedges : (b.edges.all fun e => e.2 < b.blocks.length) = true :=
    List.all_eq_true.2 fun e he => decide_eq_true (hclosed.target_lt he)
  rw [solve, if_pos hedges]
  exact saturate_eq (.resolved fe b)

section Queries

variable (h : InRange df)
include h

theorem previousDef_eq (hi : i ∈ df.body.instrs) :
    previousDef df i v = some (df.previousDef? i v) := by
  have hearlier : ((df.body.instrsOf i.block).filterM fun j =>
        if j.index < i.index then defines df v j.id else some false)
      = some ((df.body.instrsOf i.block).filter fun j =>
          j.index < i.index && df.defines v j.id) :=
    filterM_eq_some fun j hj => defines_guarded_eq h (Body.mem_instrsOf.1 hj).1
  have hplace : ¬ (df.body.instrsOf i.block).length < i.index :=
    Nat.not_lt_of_gt (Body.index_lt_length hi)
  refine bind_of_eq_some (Body.instrsAt?_eq (lt_length_of_mem_instrs hi)) ?_
  exact (if_neg hplace).trans (bind_of_eq_some hearlier rfl)

theorem definitionsAt_eq (hi : i ∈ df.body.instrs) :
    definitionsAt df i v = some (df.definitionsAt i v) := by
  refine bind_of_eq_some (previousDef_eq h hi) ?_
  rw [DataFlow.definitionsAt]
  cases df.previousDef? i v with
  | some d => rfl
  | none =>
    have hset := h.reach_eq (lt_length_of_mem_instrs hi)
    obtain ⟨is, his, hmap, hmem⟩ := Body.exists_instrsNumbered? fun k => h.mem_reach (o := i.block)
    have hfound : is.filterM (fun d => defines df v d.id)
        = some (is.filter fun d => df.defines v d.id) :=
      filterM_eq_some fun d hd => defines_eq h (hmem d hd)
    refine bind_of_eq_some hset (bind_of_eq_some his (bind_of_eq_some hfound ?_))
    show some ((is.filter fun d => df.defines v d.id).map (·.id)) = some _
    rw [← hmap, List.filter_map]
    rfl

theorem reachingTo_eq (hi : i ∈ df.body.instrs) (symbols : List (Option Variable)) :
    reachingTo df i symbols = some (df.reachingTo i symbols) := by
  refine bind_of_eq_some (h.facts_eq hi) ?_
  refine bind_of_eq_some (mapM_eq_some fun v _ => definitionsAt_eq h hi) ?_
  rw [DataFlow.reachingTo, List.flatMap_def]
  rfl

theorem reachingFrom_eq (hi : i ∈ df.body.instrs) (symbols : List (Option Variable)) :
    reachingFrom df i.id symbols = some (df.reachingFrom i.id symbols) := by
  refine bind_of_eq_some (h.facts_eq hi) (filterM_eq_some fun c hc => ?_)
  rw [reachingTo_eq h hc]
  rfl

theorem definitionsOf_eq (v : Option Variable) :
    definitionsOf df v = some (df.definitionsOf v) :=
  filterM_eq_some fun _ hi => defines_eq h hi

theorem definedAt_eq (n : Node) : definedAt df n = some (df.definedAt n) := by
  have hwriters : (df.body.instrs.filterM fun i => (df.facts[i.id]?).map fun du => !du.defs.isEmpty)
      = some (df.body.instrs.filter fun i => !(df.defUse i.id).defs.isEmpty) := by
    refine filterM_eq_some fun i hi => ?_
    rw [h.facts_eq hi]
    rfl
  have howner : ((df.body.instrs.filter fun i => !(df.defUse i.id).defs.isEmpty).find? fun i =>
        i.node.contains (df.anchor n))
      = df.ownerWhere? (fun i => !(df.defUse i.id).defs.isEmpty) n := by
    rw [List.find?_filter, ownerWhere?]
    simp only [Bool.decide_and, Bool.decide_eq_true]
  refine bind_of_eq_some hwriters ?_
  rw [howner, DataFlow.definedAt]
  cases hfind : df.ownerWhere? (fun i => !(df.defUse i.id).defs.isEmpty) n with
  | none => rfl
  | some i =>
    show (df.facts[i.id]?).map (·.defs) = _
    rw [h.facts_eq (ownerWhere?_some hfind).1]
    rfl

end Queries

end Checked

/-- The queries answer without a failing lookup, and with instructions of the body. -/
structure Answers (df : DataFlow) : Prop where
  facts : ∀ i ∈ df.body.instrs, df.facts[i.id]? = some (df.defUse i.id)
  /-- The sets of a block are found, and so are their members. -/
  sets : ∀ o, o < df.body.blocks.length →
    Checked.defs df o = some (df.defs o) ∧ Checked.kills df o = some (df.kills o) ∧
      df.reachSets[o]? = some (df.reach o) ∧
      ∀ d ∈ df.defs o ++ df.kills o ++ df.reach o, ∃ i, df.body.instrs[d]? = some i ∧ i.id = d
  reachingTo : ∀ i ∈ df.body.instrs, ∀ symbols,
    Checked.reachingTo df i symbols = some (df.reachingTo i symbols)
  reachingFrom : ∀ i ∈ df.body.instrs, ∀ symbols,
    Checked.reachingFrom df i.id symbols = some (df.reachingFrom i.id symbols)
  definitionsOf : ∀ v, Checked.definitionsOf df v = some (df.definitionsOf v)
  definedAt : ∀ n, Checked.definedAt df n = some (df.definedAt n)
  within : ∀ i, (∃ d symbols, i ∈ df.reachingFrom d symbols) ∨ (∃ v, i ∈ df.definitionsOf v) ∨
    (∃ n, df.owner? n = some i) → i ∈ df.body.instrs

theorem InRange.answers (h : InRange df) : df.Answers where
  facts i hi := h.facts_eq hi
  sets o ho := by
    refine ⟨Checked.defs_eq h ho, Checked.kills_eq h ho, h.reach_eq ho, fun d hd => ?_⟩
    have hinstr : ∃ i ∈ df.body.instrs, i.id = d := by
      rw [List.mem_append, List.mem_append] at hd
      rcases hd with (hd | hd) | hd
      · exact exists_instr_of_mem_select hd
      · exact exists_instr_of_mem_select hd
      · exact h.mem_reach hd
    obtain ⟨i, hi, rfl⟩ := hinstr
    exact ⟨i, Body.getElem?_instrs hi, rfl⟩
  reachingTo i hi symbols := Checked.reachingTo_eq h hi symbols
  reachingFrom i hi symbols := Checked.reachingFrom_eq h hi symbols
  definitionsOf v := Checked.definitionsOf_eq h v
  definedAt n := Checked.definedAt_eq h n
  within i := by
    rintro (⟨d, symbols, hi⟩ | ⟨v, hi⟩ | ⟨n, hi⟩)
    · exact mem_instrs_of_mem_reachingFrom hi
    · exact (mem_definitionsOf.1 hi).1
    · exact owner?_mem hi

end DataFlow

end AwaitLint
