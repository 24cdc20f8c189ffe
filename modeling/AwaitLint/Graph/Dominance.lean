import AwaitLint.Graph.Search

/-!
# AwaitLint — dominator trees

`DomTree.build g root` computes the immediate dominator of every vertex that
`root` reaches. Vertices are numbered in reverse post-order, so the root has
number 0 and a dominator always has a smaller number than what it dominates.

* `DomTree.seed` gives each vertex a provisional parent: the source of the last
  edge into it that comes from a smaller number.
* `DomTree.relax` replaces the parent of a vertex by the nearest common
  ancestor of that parent and one predecessor.
* `DomTree.refine` relaxes all edges again and again until a sweep no longer
  lowers a parent.

Chains of parents are followed through `DomTree.above`, which carries the fact
that the number falls; every walk towards the root ends for that reason.
-/

namespace AwaitLint

universe u

/-- Reverse post-order numbers and parents of the vertices reached from a root. -/
structure DomTree (V : Type u) where
  root : V
  /-- The reached vertices; the position is the number. -/
  order : List V
  /-- A vertex and its parent, one entry for a vertex. -/
  parents : List (V × V)

/-- Why a vertex has no immediate dominator. -/
inductive DomTree.NoDominator (V : Type u) where
  /-- The root dominates itself only. -/
  | isRoot (v : V)
  /-- The vertex is not reached from the root. -/
  | unreachable (v : V)

/-- The text of a missing dominator, with vertices written by `render`. -/
def DomTree.NoDominator.message {V : Type u} (render : V → String) : NoDominator V → String
  | .isRoot v =>
    "root " ++ render v ++ " has no dominator: vertex is not reachable from the dominance root"
  | .unreachable v =>
    "dominator of " ++ render v ++ ": vertex is not reachable from the dominance root"

namespace DomTree

variable {V : Type u} [DecidableEq V]

/-! ## Numbers and parents -/

/-- Whether the root reaches `v`. -/
def reaches (t : DomTree V) (v : V) : Bool := t.order.contains v

/-- The reverse post-order number of a reached vertex. -/
def number (t : DomTree V) (v : V) : Nat := t.order.idxOf v

/-- The parent of `v`, if it has one. -/
def parent? (t : DomTree V) (v : V) : Option V := t.parents.lookup v

/-- The parent of `v` with the fact that its number is smaller. -/
def above (t : DomTree V) (v : V) : Option { p : V // t.number p < t.number v } :=
  match t.parent? v with
  | none => none
  | some p => if h : t.number p < t.number v then some ⟨p, h⟩ else none

/-- Replaces the parent of `v`. -/
def setParent (t : DomTree V) (v p : V) : DomTree V :=
  { t with parents := (v, p) :: t.parents.filter fun e => e.1 ≠ v }

/-- The sum of the numbers of all parents, which relaxing lowers. -/
def rank (t : DomTree V) : Nat := total (fun e => t.number e.2) t.parents

/-! ## Construction -/

/-- The tree before refinement: for each reached vertex but the root, the
source of its last edge from a smaller number. -/
def seed (g : Graph V) (root : V) : DomTree V :=
  let start : DomTree V := ⟨root, (g.postOrder root).reverse, []⟩
  g.edges.foldl
    (fun t e =>
      if t.reaches e.1 && t.reaches e.2 && t.number e.1 < t.number e.2 then
        t.setParent e.2 e.1
      else t)
    start

/-- The nearest common ancestor of `a` and `b`: the one with the larger number
moves up until they meet. -/
def meet (t : DomTree V) (a b : V) : V :=
  if a = b then a
  else if t.number b < t.number a then
    match t.above a with
    | some ⟨p, _⟩ => t.meet p b
    | none => a
  else
    match t.above b with
    | some ⟨p, _⟩ => t.meet a p
    | none => a
termination_by t.number a + t.number b

/-- Moves the parent of `v` up to an ancestor of the predecessor `p` of `v`. -/
def relax (t : DomTree V) (v p : V) : DomTree V :=
  match t.parent? v with
  | none => t
  | some d =>
    let m := t.meet d p
    if m = d then t else t.setParent v m

/-- Reached vertices with their reached predecessors, in the order in which a
sweep relaxes them. The root has no parent and is left out. -/
def agenda (t : DomTree V) (g : Graph V) : List (V × V) :=
  let back := g.reverse
  (g.vertices.filter fun v => v ≠ t.root && t.reaches v).flatMap fun v =>
    ((back.adjacent v).filter t.reaches).map fun p => (v, p)

/-- One pass over the agenda. -/
def sweep (work : List (V × V)) (t : DomTree V) : DomTree V :=
  work.foldl (fun t e => t.relax e.1 e.2) t

/-- Sweeps until a pass lowers no parent. -/
def refine (work : List (V × V)) (t : DomTree V) : DomTree V :=
  let next := sweep work t
  if next.rank < t.rank then refine work next else next
termination_by t.rank

/-- The dominator tree of `g` from `root`. -/
def build (g : Graph V) (root : V) : DomTree V :=
  let t := seed g root
  refine (t.agenda g) t

/-! ## Queries -/

/-- The immediate dominator of `v`. -/
def idom (t : DomTree V) (v : V) : Except (NoDominator V) V :=
  match t.parent? v with
  | some p => .ok p
  | none => .error (if v = t.root then .isRoot v else .unreachable v)

/-- The strict dominators of `v`, nearest first, ending at the root. -/
def dominators (t : DomTree V) (v : V) : List V :=
  match t.above v with
  | some ⟨p, _⟩ => p :: t.dominators p
  | none => []
termination_by t.number v

/-- Whether every path from the root to `b` passes through `a`; both have to be
reached, and a reached vertex dominates itself. -/
def dominates (t : DomTree V) (a b : V) : Bool :=
  t.reaches a && t.reaches b && (a = b || (t.dominators b).contains a)

end DomTree

end AwaitLint
