import AwaitLint.Flow.FrontEnd
import AwaitLint.Graph.Dominance

/-!
# AwaitLint — control flow

`ControlFlow.ofBody` answers what is executed after an instruction on every way
to the exit. The blocks form a graph over their ordinals, with an additional
edge from the entry to the exit that keeps the two connected when the body
never returns. The dominator tree of the reversed graph, rooted at the exit,
holds the post-dominators:

```text
entry ──► B1 ──► B2 ──► exit       reversed, rooted at exit:
  │        └───► B3 ──┘  ▲          exit ─► B2, B3, entry
  └──────────────────────┘          B2, B3 ─► B1 ─► entry
```

Blocks that the first block does not reach are dropped, unless some block
reaches all others.
-/

namespace AwaitLint

/-- Why the control flow of a function is not known. -/
inductive FlowError where
  /-- The node is in no function. -/
  | noEnclosingFunction
  /-- The function has no body. -/
  | noBody (cause : BodyError)
  /-- The function recovers from panics. -/
  | exceptionRegions
  /-- The body has no block at all. -/
  | noBlocks
deriving DecidableEq, Repr

/-- The text of an unknown control flow. -/
def FlowError.message : FlowError → String
  | .noEnclosingFunction => "node has no enclosing function"
  | .noBody cause => "building body: " ++ cause.message
  | .exceptionRegions => "control flow with exception regions is not supported"
  | .noBlocks => "body has no blocks"

/-- The block graph of a body with its post-dominator tree. -/
structure ControlFlow where
  body : Body
  /-- The blocks that are taken into account. -/
  graph : Graph Nat
  /-- The dominator tree of the reversed graph, rooted at the exit. -/
  tree : DomTree Nat

namespace ControlFlow

/-! ## Construction -/

/-- The graph over the ordinals of all blocks. -/
def blockGraph (b : Body) (entry exit : Nat) : Graph Nat :=
  Graph.build b.ordinals (b.edges ++ [(entry, exit)])

/-- Drops the blocks that block 0 does not reach, if no block reaches all. -/
def prune (g : Graph Nat) : Graph Nat :=
  if g.isRooted then g
  else
    let reached := g.reachable 0
    g.induced fun v => reached.contains v

/-- The control flow of a body. -/
def ofBody (b : Body) : Except FlowError ControlFlow :=
  if b.hasExceptionRegions then .error .exceptionRegions
  else
    match b.entry?, b.exit? with
    | some entry, some exit =>
      let graph := prune (blockGraph b entry exit)
      .ok { body := b, graph, tree := DomTree.build graph.reverse exit }
    | _, _ => .error .noBlocks

/-- The control flow of the function that a node is, or is in. -/
def around (fe : FrontEnd) (target : Node) : Except FlowError ControlFlow :=
  let func := if target.kind = .func then some target else fe.links.enclosingFunc? target
  match func with
  | none => .error .noEnclosingFunction
  | some fn =>
    match fe.body fn with
    | .error cause => .error (.noBody cause)
    | .ok b => ofBody b

/-! ## Queries -/

/-- The post-dominating blocks of a block, nearest first and ending at the exit. -/
def postDominatorBlocks (cf : ControlFlow) (ordinal : Nat) : List Nat :=
  cf.tree.dominators ordinal

/-- The instructions executed after `i` on every way to the exit: those of the
post-dominating blocks, then those that follow in its own block. There are none
if the block does not reach the exit or is the exit. -/
def postDominators (cf : ControlFlow) (i : Instr) : List Instr :=
  match cf.tree.parent? i.block with
  | none => []
  | some _ =>
    (cf.postDominatorBlocks i.block).flatMap cf.body.instrsOf
      ++ (cf.body.instrsOf i.block).drop (i.index + 1)

/-- The instructions of the successors of the block of `i`. -/
def successorInstrs (cf : ControlFlow) (i : Instr) : List Instr :=
  (cf.graph.adjacent i.block).flatMap cf.body.instrsOf

/-- Whether instructions of the body with a label are instructions of this body. -/
def owns (cf : ControlFlow) (label : Nat) : Bool := cf.body.label == label

/-- `postDominators` for an instruction of any body; none for a foreign one. -/
def postDominatorsIn (cf : ControlFlow) (label : Nat) (i : Instr) : List Instr :=
  if cf.owns label then cf.postDominators i else []

/-- `successorInstrs` for an instruction of any body; none for a foreign one. -/
def successorInstrsIn (cf : ControlFlow) (label : Nat) (i : Instr) : List Instr :=
  if cf.owns label then cf.successorInstrs i else []

end ControlFlow

end AwaitLint
