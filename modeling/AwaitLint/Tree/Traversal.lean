import AwaitLint.Tree.Node

/-!
# AwaitLint — walking a program tree

Trees are walked from the root with a stack of nodes still to visit, so depth
costs no recursion.

* `Node.visit` lists the nodes in depth-first pre-order and enters only the
  nodes that a test accepts.
* `Node.find?` and `Node.findAll` look for nodes of one function: they do not
  enter functions nested in the root.
-/

namespace AwaitLint.Node

/-- The places under the nodes of a stack. -/
def stackSize (stack : List Node) : Nat := total size stack

theorem stackSize_enter_lt (n : Node) (stack : List Node) :
    stackSize (n.children ++ stack) < stackSize (n :: stack) := by
  have := n.size_eq
  simp only [stackSize, total_append, total_cons]
  omega

theorem stackSize_skip_lt (n : Node) (stack : List Node) :
    stackSize stack < stackSize (n :: stack) := by
  have := n.size_eq
  simp only [stackSize, total_cons]
  omega

/-- The nodes under a stack in pre-order, the children of a node being visited
only if `enter` accepts it. -/
def visit (enter : Node → Bool) : List Node → List Node
  | [] => []
  | n :: stack =>
    if enter n then n :: visit enter (n.children ++ stack) else n :: visit enter stack
termination_by stack => stackSize stack
decreasing_by
  · exact stackSize_enter_lt n stack
  · exact stackSize_skip_lt n stack

/-- The nodes of the tree in pre-order. -/
def preorder (enter : Node → Bool) (root : Node) : List Node := visit enter [root]

/-- Whether a search from `root` enters a node: functions below the root are
left alone. -/
def inScope (root n : Node) : Bool := n.same root || n.kind != .func

/-- The first node under a stack that satisfies `p`. -/
def firstMatch (p enter : Node → Bool) : List Node → Option Node
  | [] => none
  | n :: stack =>
    if p n then some n
    else if enter n then firstMatch p enter (n.children ++ stack)
    else firstMatch p enter stack
termination_by stack => stackSize stack
decreasing_by
  · exact stackSize_enter_lt n stack
  · exact stackSize_skip_lt n stack

/-- The first node of the function, the root included, that satisfies `p`. -/
def find? (root : Node) (p : Node → Bool) : Option Node := firstMatch p root.inScope [root]

/-- All nodes of the function, the root included, that satisfy `p`. -/
def findAll (root : Node) (p : Node → Bool) : List Node :=
  (root.preorder root.inScope).filter p

/-- Whether `m` is the node or lies below it in the same function. -/
def contains (n m : Node) : Bool := (n.find? m.same).isSome

end AwaitLint.Node
