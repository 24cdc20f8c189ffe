import AwaitLint.Graph
import AwaitLint.Measure

/-!
# AwaitLint — depth-first search

`Graph.search` explores a graph from a root with an explicit stack and lists
what happens: a vertex is visited when it is first reached and left once all
its successors have been tried, in the order of the edges.

* `Graph.explore` is the loop. Each frame on its stack holds a vertex and the
  successors not tried yet; the work left (`Graph.pending`) falls in each step.
* `Graph.reachable` keeps the visits, `Graph.postOrder` the leaves.
* `Graph.isRooted` asks for one vertex that reaches all of them.
-/

namespace AwaitLint.Graph

universe u

variable {V : Type u}

/-- What a search does with a vertex. -/
inductive Event (V : Type u) where
  /-- The vertex is reached for the first time. -/
  | visit (v : V)
  /-- All successors of the vertex have been tried. -/
  | leave (v : V)
deriving DecidableEq, Repr

/-- The vertex of an event. -/
def Event.vertex : Event V → V
  | .visit v => v
  | .leave v => v

/-- The events a search reports. -/
structure Listener where
  /-- Report visits. -/
  visits : Bool := true
  /-- Report leaves. -/
  leaves : Bool := true
deriving DecidableEq, Repr

/-- Whether the listener wants an event. -/
def Listener.hears (l : Listener) : Event V → Bool
  | .visit _ => l.visits
  | .leave _ => l.leaves

/-- The event, if the listener wants it. -/
def Listener.report (l : Listener) (e : Event V) : List (Event V) :=
  if l.hears e then [e] else []

/-- A vertex under exploration and its successors not tried yet. -/
structure Frame (V : Type u) where
  vertex : V
  rest : List V

/-! ## The loop -/

variable [DecidableEq V]

/-- Steps left: two for each successor to try and one for each vertex to leave,
for the frames on the stack and for the vertices not visited yet. -/
def pending (g : Graph V) (visited : List V) (stack : List (Frame V)) : Nat :=
  total (fun f => 2 * f.rest.length + 1) stack
    + total (fun r => 2 * r.2.length + 2) (g.rows.filter fun r => r.1 ∉ visited)

/-- Visiting a new vertex moves its share of the work to the stack and no more. -/
theorem pending_visit_lt (g : Graph V) {visited : List V} {w v : V} {ws : List V}
    (stack : List (Frame V)) (hw : w ∉ visited) :
    g.pending (w :: visited) (⟨w, g.adjacent w⟩ :: ⟨v, ws⟩ :: stack)
      < g.pending visited (⟨v, w :: ws⟩ :: stack) := by
  have key : ∀ rows : List (V × List V),
      2 * ((rows.lookup w).getD []).length
        + total (fun r => 2 * r.2.length + 2) (rows.filter fun r => r.1 ∉ w :: visited)
      ≤ total (fun r => 2 * r.2.length + 2) (rows.filter fun r => r.1 ∉ visited) := by
    intro rows
    induction rows with
    | nil => simp
    | cons r rows ih =>
      obtain ⟨x, xs⟩ := r
      by_cases hx : w = x
      · -- the row of `w` itself: it is dropped on the left only
        subst hx
        have hle : total (fun r => 2 * r.2.length + 2) (rows.filter fun r => r.1 ∉ w :: visited)
            ≤ total (fun r => 2 * r.2.length + 2) (rows.filter fun r => r.1 ∉ visited) := by
          omega
        have h1 : ((w, xs) :: rows).filter (fun r => decide (r.1 ∉ w :: visited))
            = rows.filter (fun r => decide (r.1 ∉ w :: visited)) := by
          simp
        have h2 : ((w, xs) :: rows).filter (fun r => decide (r.1 ∉ visited))
            = (w, xs) :: rows.filter (fun r => decide (r.1 ∉ visited)) := by
          simp [hw]
        rw [h1, h2]
        simp only [List.lookup_cons, beq_self_eq_true, Option.getD_some, total_cons]
        omega
      · have hx' : (w == x) = false := by simpa using hx
        by_cases hv : x ∈ visited
        · have h1 : ((x, xs) :: rows).filter (fun r => decide (r.1 ∉ w :: visited))
              = rows.filter (fun r => decide (r.1 ∉ w :: visited)) := by
            simp [hv]
          have h2 : ((x, xs) :: rows).filter (fun r => decide (r.1 ∉ visited))
              = rows.filter (fun r => decide (r.1 ∉ visited)) := by
            simp [hv]
          rw [h1, h2]
          simpa [List.lookup_cons, hx'] using ih
        · have h1 : ((x, xs) :: rows).filter (fun r => decide (r.1 ∉ w :: visited))
              = (x, xs) :: rows.filter (fun r => decide (r.1 ∉ w :: visited)) := by
            simp [hv, Ne.symm hx]
          have h2 : ((x, xs) :: rows).filter (fun r => decide (r.1 ∉ visited))
              = (x, xs) :: rows.filter (fun r => decide (r.1 ∉ visited)) := by
            simp [hv]
          rw [h1, h2]
          simp only [List.lookup_cons, hx', total_cons]
          omega
  have := key g.rows
  simp only [pending, adjacent, total_cons, List.length_cons]
  omega

/-- Explores the frames on the stack, the top one first, and lists the events
that `l` hears. -/
def explore (g : Graph V) (l : Listener) (visited : List V) : List (Frame V) → List (Event V)
  | [] => []
  | ⟨v, []⟩ :: stack => l.report (.leave v) ++ g.explore l visited stack
  | ⟨v, w :: ws⟩ :: stack =>
    if w ∈ visited then g.explore l visited (⟨v, ws⟩ :: stack)
    else
      l.report (.visit w)
        ++ g.explore l (w :: visited) (⟨w, g.adjacent w⟩ :: ⟨v, ws⟩ :: stack)
termination_by stack => g.pending visited stack
decreasing_by
  · simp only [pending, total_cons]
    omega
  · simp only [pending, total_cons, List.length_cons]
    omega
  · exact pending_visit_lt g stack ‹_›

/-- The events of a depth-first search from `root`; none for an unknown root. -/
def search (g : Graph V) (l : Listener) (root : V) : List (Event V) :=
  if g.has root then
    l.report (.visit root) ++ g.explore l [root] [⟨root, g.adjacent root⟩]
  else []

/-! ## Orders and reachability -/

/-- The vertices reached from `root`, in order of their visit. -/
def reachable (g : Graph V) (root : V) : List V :=
  (g.search ⟨true, false⟩ root).map Event.vertex

/-- The vertices reached from `root`, in the order in which they are left. -/
def postOrder (g : Graph V) (root : V) : List V :=
  (g.search ⟨false, true⟩ root).map Event.vertex

/-- Whether some vertex reaches every vertex. -/
def isRooted (g : Graph V) : Bool :=
  g.vertices.any fun v => (g.reachable v).length == g.size

end AwaitLint.Graph
