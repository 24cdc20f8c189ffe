import AwaitLint.Flow.FrontEnd
import AwaitLint.Source.Lowering

/-!
# AwaitLint — lowered functions as a front end

A lowered function answers the questions of the analyses:

* `Function.bodyOf` turns the flow graph of a function into a body: an entry,
  the live blocks in order, an exit. Blocks that end in a return fall through to
  the exit; a live block that ends otherwise and has no successor never returns.
* `Function.defUseOf` says what a node writes and reads.
-/

namespace AwaitLint.Source

/-- A function declaration with its tree. -/
structure Function where
  root : Node
  trace : Trace
  links : Links

namespace Function

/-- Lowers a declaration and links its tree. -/
def ofDecl (c : Config) (d : FuncDecl) : Function :=
  let lowered := lowerDecl c d
  { root := lowered.value, trace := lowered.trace, links := ({} : Links).link lowered.value }

/-- What a piece of syntax became; of several, the last. -/
def lowered? (f : Function) (number : Nat) : Option Lowered :=
  f.trace.pieces.reverse.find? fun l => l.number == number

/-- The node that a piece of syntax became. -/
def nodeOf? (f : Function) (number : Nat) : Option Node := (f.lowered? number).map (·.node)

/-- The source of a function node. -/
def sourceOf? (f : Function) (n : Node) : Option FuncSource := f.trace.functions.lookup n.id

/-! ## Blocks -/

/-- What a node of a flow graph became. -/
def flowNode? (f : Function) : FlowNode → Option Lowered
  | .piece number | .returnStmt number => f.lowered? number
  | .implicitReturn => none

/-- The nodes that a block evaluates. Nodes without a lowering are left out, and
so are targets of assignments, which come with their assignment. -/
def evaluated (f : Function) (nodes : List FlowNode) : List Node :=
  ((nodes.filterMap f.flowNode?).map (·.node)).filter fun n => !f.links.isAssignTarget n

/-- The ordinal that a block of the graph gets: its place among the live blocks,
after the entry. -/
def ordinal? (g : FlowGraph) (position : Nat) : Option Nat :=
  match g[position]? with
  | some b => if b.live then some (((g.take position).filter (·.live)).length + 1) else none
  | none => none

/-- The value that a block with two successors branches on: its last node, if
that is an expression and the last node it evaluates. -/
def branchValue? (f : Function) (b : FlowBlock) : Option Node :=
  match b.nodes.getLast?, (f.evaluated b.nodes).getLast? with
  | some last, some n =>
    match f.flowNode? last with
    | some l => if l.isExpr && l.node.same n then some n else none
    | none => none
  | _, _ => none

/-- The body block of a live block. -/
def blockOf (f : Function) (g : FlowGraph) (exit : Nat) (b : FlowBlock) : Block :=
  let nodes := f.evaluated b.nodes
  match b.succs with
  | [] => { nodes, fall := if b.returns then some exit else none }
  | [next] => { nodes, fall := ordinal? g next }
  | whenTrue :: whenFalse :: _ =>
    let branch := f.branchValue? b
    { nodes := if branch.isSome then nodes.dropLast else nodes
      branch
      fall := ordinal? g whenFalse
      cond := ordinal? g whenTrue }

/-- The live blocks of a graph between an entry and an exit. -/
def blocksOf (f : Function) (g : FlowGraph) : List Block :=
  let live := g.filter (·.live)
  let exit := live.length + 1
  let start := if g.isEmpty then some exit else ordinal? g 0
  { kind := .entry, fall := start } :: live.map (f.blockOf g exit) ++ [{ kind := .exit }]

/-! ## Recovery -/

/-- Whether the expression is a call of the builtin `recover`. -/
def isRecoverCall : Expr → Bool
  | .call _ _ _ (some (.builtin name)) => name == "recover"
  | _ => false

/-- Whether a deferred call recovers from panics: it is `recover`, or a function
literal that calls it. -/
def recoversByCall (call : Expr) : Bool :=
  isRecoverCall call ||
    match call with
    | .call _ function _ _ =>
      match function.unparen with
      | .funcLit _ _ body _ => (partsOfStmts body).any isRecoverCall
      | _ => false
    | _ => false

/-- Whether a deferred call of the body recovers from panics. -/
def recovers (body : List Stmt) : Bool :=
  (nestedInStmts body).any fun
    | .defer _ call => recoversByCall call
    | _ => false

/-! ## The front end -/

/-- The body of a function node. -/
def bodyOf (f : Function) (fn : Node) : Except BodyError Body :=
  match f.sourceOf? fn with
  | none => .error .unknownFunction
  | some source =>
    match source.body, source.graph with
    | none, _ => .error .declarationOnly
    | some _, none => .error .noFlowGraph
    | some body, some graph =>
      .ok { label := fn.id, func := fn, blocks := f.blocksOf graph,
            hasExceptionRegions := recovers body }

/-- The nodes of a tree in pre-order, each with whether it is inside a function
nested in the root. -/
def withNesting (root : Nat) (nested : Bool) (n : Node) : List (Node × Bool) :=
  let inside := nested || (n.kind = .func && n.id ≠ root)
  (n, inside) :: n.children.attach.flatMap fun c => withNesting root inside c.1
termination_by n.size
decreasing_by exact Node.size_lt_of_mem_children c.2

/-- Assignments that write their targets without reading them. -/
def plainAssignments : List String := ["=", ":=", "var", "range"]

/-- Whether the node takes an address. -/
def isAddressOf (n : Node) : Bool := n.kind = .other && n.name == "&"

/-- What one node of a tree adds to what is written and read. A local on the left
of an assignment is written, and read too unless the assignment is a plain one;
one whose address is taken is both; one inside a nested function is only read. -/
def addFacts (links : Links) (du : DefUse) (n : Node) (nested : Bool) : DefUse :=
  if n.kind ≠ .localRef || n.var.isNone then du
  else if nested then if links.isAssignTarget n then du else du.use n.var
  else if links.isAssignTarget n then
    let plain := (links.parent? n).any fun p => plainAssignments.contains p.name
    if plain then du.define n.var else (du.define n.var).use n.var
  else if (links.parent? n).any isAddressOf then (du.define n.var).use n.var
  else du.use n.var

/-- The locals and parameters that a node writes and reads. -/
def defUseIn (links : Links) (n : Node) : DefUse :=
  (withNesting n.id false n).foldl (fun du (c, nested) => addFacts links du c nested) {}

/-- The lowered function as a front end. -/
def frontEnd (f : Function) : FrontEnd where
  links := f.links
  body := f.bodyOf
  defUse := defUseIn f.links

end Function

end AwaitLint.Source
