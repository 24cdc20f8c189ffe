import AwaitLint.Flow.FrontEnd

/-!
# AwaitLint — data flow

`DataFlow.solve` resolves what each instruction writes and reads and computes
which definitions reach which blocks:

* `defs b`: the instructions of block `b` that are the last in it to write one
  of their variables,
* `kills b`: the instructions of other blocks that write a variable written in `b`,
* `reach b`: the union, over the predecessors `p` of `b`, of `defs p` and of
  `reach p` without `kills p`.

Sets of instructions are lists of their numbers in increasing order. The
equations are solved by sweeps over the blocks in their order, each sweep using
the sets it has already replaced, until no set grows.
-/

namespace AwaitLint

/-- Facts on variables and reaching definitions of a body. -/
structure DataFlow where
  links : Links
  body : Body
  /-- What the instructions write and read, by number. -/
  facts : List DefUse
  /-- The definitions that reach the blocks, by ordinal. -/
  reachSets : List (List Nat)

namespace DataFlow

/-! ## Variables of an instruction -/

/-- The facts of the front end, with assigned members added to what is written
and other members added to what is read. -/
def resolve (fe : FrontEnd) (n : Node) : DefUse :=
  let written :=
    if n.kind = .assign then n.targets.filter fun t => t.kind = .fieldRef && t.var.isSome else []
  let read := n.findAll fun c => c.kind = .fieldRef && c.var.isSome && !fe.links.isAssignTarget c
  let du := written.foldl (fun du t => du.define t.var) (fe.defUse n)
  read.foldl (fun du c => du.use c.var) du

/-- A body with resolved facts, before any definition has reached a block. -/
def resolved (fe : FrontEnd) (b : Body) : DataFlow where
  links := fe.links
  body := b
  facts := b.instrs.map fun i => resolve fe i.node
  reachSets := b.blocks.map fun _ => []

/-- What an instruction writes and reads. -/
def defUse (df : DataFlow) (id : Nat) : DefUse := df.facts.getD id {}

/-- Whether an instruction writes `v`. -/
def defines (df : DataFlow) (v : Option Variable) (id : Nat) : Bool :=
  (df.defUse id).defs.contains v

/-- Whether an instruction reads `v`. -/
def reads (df : DataFlow) (v : Option Variable) (id : Nat) : Bool :=
  (df.defUse id).uses.contains v

/-! ## Sets of a block -/

/-- The numbers of the instructions that satisfy a test, in increasing order. -/
def select (df : DataFlow) (p : Instr → Bool) : List Nat :=
  (df.body.instrs.filter p).map (·.id)

/-- Whether a later instruction of the same block writes `v`. -/
def rewrittenAfter (df : DataFlow) (i : Instr) (v : Option Variable) : Bool :=
  (df.body.instrsOf i.block).any fun j => i.index < j.index && df.defines v j.id

/-- The instructions of a block that are its last writers of some variable. -/
def defs (df : DataFlow) (ordinal : Nat) : List Nat :=
  df.select fun i =>
    i.block == ordinal && (df.defUse i.id).defs.any fun v => !df.rewrittenAfter i v

/-- Whether a block writes `v`. -/
def writes (df : DataFlow) (ordinal : Nat) (v : Option Variable) : Bool :=
  (df.body.instrsOf ordinal).any fun i => df.defines v i.id

/-- The instructions of other blocks that write a variable written in the block. -/
def kills (df : DataFlow) (ordinal : Nat) : List Nat :=
  df.select fun i => i.block != ordinal && (df.defUse i.id).defs.any (df.writes ordinal)

/-- The definitions known to reach a block. -/
def reach (df : DataFlow) (ordinal : Nat) : List Nat := df.reachSets.getD ordinal []

/-! ## The fixpoint -/

/-- What a block passes on to its successors, by the sets known so far. -/
def outgoing (df : DataFlow) (ordinal : Nat) : List Nat :=
  let killed := df.kills ordinal
  df.defs ordinal ++ (df.reach ordinal).filter fun d => !killed.contains d

/-- What the predecessors of a block pass on to it. -/
def incoming (df : DataFlow) (ordinal : Nat) : List Nat :=
  let passed := (df.body.preds ordinal).flatMap df.outgoing
  df.select fun i => passed.contains i.id

/-- Replaces the set of one block. -/
def relax (df : DataFlow) (ordinal : Nat) : DataFlow :=
  { df with reachSets := df.reachSets.set ordinal (df.incoming ordinal) }

/-- Replaces the sets of all blocks in their order. -/
def sweep (df : DataFlow) : DataFlow := df.body.ordinals.foldl relax df

/-- How many instructions the sets could still gain. -/
def room (df : DataFlow) : Nat :=
  total (fun s => df.body.instrs.length - s.length) df.reachSets

/-- Sweeps until no set grows. -/
def saturate (df : DataFlow) : DataFlow :=
  let next := df.sweep
  if next.room < df.room then saturate next else next
termination_by df.room

/-- The facts and reaching definitions of a body. -/
def solve (fe : FrontEnd) (b : Body) : DataFlow := (resolved fe b).saturate

/-! ## Reaching definitions -/

/-- The nearest earlier instruction of the same block that writes `v`. -/
def previousDef? (df : DataFlow) (i : Instr) (v : Option Variable) : Option Nat :=
  ((df.body.instrsOf i.block).filter fun j => j.index < i.index && df.defines v j.id).getLast?.map
    (·.id)

/-- The definitions of `v` that reach an instruction: the one before it in its
block, else those that reach the block. -/
def definitionsAt (df : DataFlow) (i : Instr) (v : Option Variable) : List Nat :=
  match df.previousDef? i v with
  | some d => [d]
  | none => (df.reach i.block).filter (df.defines v)

/-- The definitions reaching an instruction for those of `symbols` that it
reads; without symbols, for all that it reads. -/
def reachingTo (df : DataFlow) (i : Instr) (symbols : List (Option Variable)) : List Nat :=
  let asked := if symbols.isEmpty then (df.defUse i.id).uses else symbols
  ((asked.filter fun v => df.reads v i.id).flatMap (df.definitionsAt i)).eraseDups

/-- The instructions that definitions of instruction `id` reach, for `symbols`;
without symbols, for all that it writes. -/
def reachingFrom (df : DataFlow) (id : Nat) (symbols : List (Option Variable)) : List Instr :=
  let asked := if symbols.isEmpty then (df.defUse id).defs else symbols
  df.body.instrs.filter fun c => (df.reachingTo c asked).contains id

/-! ## Owners -/

/-- The node under which the owner of `n` is looked up: a collection literal
inside a creation is found through the creation. -/
def anchor (df : DataFlow) (n : Node) : Node :=
  match df.links.parent? n with
  | some p => if n.kind = .collection && p.kind = .new then p else n
  | none => n

/-- The first instruction accepted by `p` whose tree contains the node. -/
def ownerWhere? (df : DataFlow) (p : Instr → Bool) (n : Node) : Option Instr :=
  df.body.instrs.find? fun i => p i && i.node.contains (df.anchor n)

/-- The first instruction whose tree contains the node. -/
def owner? (df : DataFlow) (n : Node) : Option Instr := df.ownerWhere? (fun _ => true) n

/-- The complaint about a node without an owner. -/
def noOwner : String := "no instruction owns the node"

/-- The instructions that write `v`. -/
def definitionsOf (df : DataFlow) (v : Option Variable) : List Instr :=
  df.body.instrs.filter fun i => df.defines v i.id

/-- The variables written by the first writing instruction whose tree contains
the node. -/
def definedAt (df : DataFlow) (n : Node) : List (Option Variable) :=
  match df.ownerWhere? (fun i => !(df.defUse i.id).defs.isEmpty) n with
  | some i => (df.defUse i.id).defs
  | none => []

end DataFlow

end AwaitLint
