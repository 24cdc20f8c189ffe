import AwaitLint.Tree.Node

/-!
# AwaitLint — bodies

A body is the block graph of a function. A block evaluates nodes in order and
then an optional branch value, and has up to two successors, named by their
ordinals. Instructions are numbered densely in block order; everything the
analyses say about a body is said of these numbers.
-/

namespace AwaitLint

/-- The role of a block. -/
inductive BlockKind where
  | normal
  | entry
  | exit
deriving DecidableEq, Repr

namespace BlockKind

/-- The roles in the order of their codes. -/
def all : List BlockKind := [normal, entry, exit]

/-- The written form. -/
def text : BlockKind → String
  | normal => "block"
  | entry => "entry"
  | exit => "exit"

/-- The written form of a code. -/
def describe (code : Nat) : String := (all[code]?).elim "block" text

end BlockKind

/-- A basic block. -/
structure Block where
  kind : BlockKind := .normal
  nodes : List Node := []
  /-- The value that decides between the successors, evaluated last. -/
  branch : Option Node := none
  /-- The ordinal of the successor on fall-through. -/
  fall : Option Nat := none
  /-- The ordinal of the conditional successor. -/
  cond : Option Nat := none

/-- The nodes a block evaluates, the branch value last. -/
def Block.evaluated (b : Block) : List Node := b.nodes ++ b.branch.toList

/-- The ordinals of the successors, fall-through first. -/
def Block.succs (b : Block) : List Nat := b.fall.toList ++ b.cond.toList

/-- One evaluated node of a body. -/
structure Instr where
  /-- The number within the body. -/
  id : Nat
  /-- The ordinal of the block. -/
  block : Nat
  /-- The position within the block. -/
  index : Nat
  node : Node

/-- The block graph of a function. -/
structure Body where
  /-- Tells bodies apart. -/
  label : Nat := 0
  func : Node
  blocks : List Block
  /-- Whether the function recovers from panics, so that any call may jump to
  its exit. -/
  hasExceptionRegions : Bool := false

namespace Body

/-! ## Instructions -/

/-- The instructions of `blocks`, numbered from `next`, the first block having
the given ordinal. -/
def numbered (ordinal next : Nat) : List Block → List Instr
  | [] => []
  | b :: bs =>
    (b.evaluated.mapIdx fun index node => ⟨next + index, ordinal, index, node⟩)
      ++ numbered (ordinal + 1) (next + b.evaluated.length) bs

/-- All instructions in block order. -/
def instrs (b : Body) : List Instr := numbered 0 0 b.blocks

/-- The instructions of the block with an ordinal. -/
def instrsOf (b : Body) (ordinal : Nat) : List Instr :=
  b.instrs.filter fun i => i.block == ordinal

/-- The first instruction that evaluates a node. -/
def instrOf? (b : Body) (n : Node) : Option Instr := b.instrs.find? fun i => i.node.same n

/-! ## Entry, exit and edges -/

/-- The ordinal of the entry: the first block of that kind, else the first
block; none without blocks. -/
def entry? (b : Body) : Option Nat :=
  match b.blocks.findIdx? fun blk => blk.kind = .entry with
  | some o => some o
  | none => if b.blocks.isEmpty then none else some 0

/-- The ordinal of the exit: the first block of that kind, else the last
block; none without blocks. -/
def exit? (b : Body) : Option Nat :=
  match b.blocks.findIdx? fun blk => blk.kind = .exit with
  | some o => some o
  | none => if b.blocks.isEmpty then none else some (b.blocks.length - 1)

/-- The ordinals of all blocks. -/
def ordinals (b : Body) : List Nat := List.range b.blocks.length

/-- The edges between blocks, grouped by source. -/
def edges (b : Body) : List (Nat × Nat) :=
  b.blocks.zipIdx.flatMap fun (blk, o) => blk.succs.map fun s => (o, s)

/-- The ordinals of the predecessors of a block, with repetition. -/
def preds (b : Body) (ordinal : Nat) : List Nat :=
  (b.edges.filter fun e => e.2 == ordinal).map Prod.fst

/-! ## Text -/

/-- The written form of a block. -/
def blockText (b : Body) (ordinal : Nat) : String :=
  let kind := (b.blocks[ordinal]?).elim BlockKind.normal (·.kind)
  "B" ++ toString ordinal ++ "(" ++ kind.text ++ ")"

/-- The written form of an instruction. -/
def instrText (b : Body) (i : Instr) : String :=
  b.blockText i.block ++ "#" ++ toString i.index ++ "(" ++ i.node.kind.text ++ ")"

/-! ## Framing -/

/-- Puts `blocks` between an entry and an exit. The entry falls through to the
first block, and a block without successors falls through to the exit unless
its position is in `noReturn`. Successors are positions in `blocks`. -/
def framed (label : Nat) (func : Node) (blocks : List Block) (noReturn : List Nat) : Body :=
  let exit := blocks.length + 1
  let inner := blocks.zipIdx.map fun (b, position) =>
    let ends := b.fall.isNone && b.cond.isNone && !noReturn.contains position
    { b with
      fall := if ends then some exit else b.fall.map (· + 1)
      cond := b.cond.map (· + 1) }
  { label, func, blocks := { kind := .entry, fall := some 1 } :: inner ++ [{ kind := .exit }] }

end Body

end AwaitLint
