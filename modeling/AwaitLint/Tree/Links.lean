import AwaitLint.Tree.Traversal

/-!
# AwaitLint — parent links

Links from nodes to their parents are kept beside the trees. `Links.link` sets
them for a whole tree, `Links.attach` for one node; a later link replaces an
earlier one, so a node with two parents keeps the one that was set last.
Questions about what encloses a node are answered from `Links.ancestors`.
-/

namespace AwaitLint

/-- The parents of nodes, one entry for a node. -/
structure Links where
  entries : List (Nat × Node) := []

namespace Links

/-- The parent of the node with identity `id`. -/
def parentOf? (l : Links) (id : Nat) : Option Node := l.entries.lookup id

/-- The parent of a node. -/
def parent? (l : Links) (n : Node) : Option Node := l.parentOf? n.id

/-- Makes `parent` the parent of `child`. -/
def attach (l : Links) (parent child : Node) : Links :=
  ⟨(child.id, parent) :: l.entries.filter fun e => e.1 ≠ child.id⟩

/-- The nodes under a stack with their children, in the order in which links
are set: the children of a node, then the subtrees of its children from the
last to the first. -/
def families : List Node → List (Node × Node)
  | [] => []
  | n :: stack => n.children.map (fun c => (n, c)) ++ families (n.children.reverse ++ stack)
termination_by stack => Node.stackSize stack
decreasing_by
  have := n.size_eq
  simp only [Node.stackSize, total_append, total_cons, total_reverse]
  omega

/-- Sets the links of the whole tree under `root`. -/
def link (l : Links) (root : Node) : Links :=
  (families [root]).foldl (fun l e => l.attach e.1 e.2) l

/-! ## Looking up -/

/-- At most `fuel` ancestors of the node with identity `id`, nearest first. -/
def climb (l : Links) : Nat → Nat → List Node
  | 0, _ => []
  | fuel + 1, id =>
    match l.parentOf? id with
    | some p => p :: climb l fuel p.id
    | none => []

/-- The ancestors of a node, nearest first. A chain without repetition has no
more members than there are links. -/
def ancestors (l : Links) (n : Node) : List Node := l.climb l.entries.length n.id

/-- Whether the node is a target of the assignment that is its parent. -/
def isAssignTarget (l : Links) (n : Node) : Bool :=
  match l.parent? n with
  | some p => p.kind = .assign && n.isOneOf p.targets
  | none => false

/-- The innermost function strictly above a node. -/
def enclosingFunc? (l : Links) (n : Node) : Option Node :=
  (l.ancestors n).find? fun p => p.kind = .func

end Links

end AwaitLint
