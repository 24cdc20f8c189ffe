/-!
# AwaitLint — finite directed graphs

A graph is a list of rows, one per vertex in order of first appearance, each
holding the vertex and its successors in the order the edges were given.
Parallel edges and self loops are kept. The module provides

* `Graph.build`, which reads the edges first and the isolated vertices after them,
* the views `vertices`, `adjacent` and `edges`,
* `reverse` and `induced`, both of which rebuild the graph from its edges, so
  the order of the vertices may differ from the order in the source graph.

Two invariants are part of the type: a vertex has one row, and every successor
has a row of its own.
-/

namespace AwaitLint

universe u

/-- A finite directed graph with its vertices in order of first appearance. -/
structure Graph (V : Type u) where
  /-- The vertices with their successors. -/
  rows : List (V × List V)
  /-- A vertex has one row. -/
  nodup : (rows.map Prod.fst).Nodup
  /-- Every successor is a vertex. -/
  closed : ∀ r ∈ rows, ∀ w ∈ r.2, w ∈ rows.map Prod.fst

namespace Graph

variable {V : Type u}

/-! ## Views -/

/-- The graph without vertices. -/
def empty : Graph V := ⟨[], by simp, by simp⟩

/-- The vertices, in order of first appearance. -/
def vertices (g : Graph V) : List V := g.rows.map Prod.fst

/-- The number of vertices. -/
def size (g : Graph V) : Nat := g.rows.length

/-- The edges, grouped by source in vertex order. -/
def edges (g : Graph V) : List (V × V) :=
  g.rows.flatMap fun r => r.2.map fun w => (r.1, w)

@[simp] theorem vertices_empty : (empty : Graph V).vertices = [] := rfl

theorem vertices_nodup (g : Graph V) : g.vertices.Nodup := g.nodup

variable [DecidableEq V]

/-- Whether `v` is a vertex. -/
def has (g : Graph V) (v : V) : Bool := g.vertices.contains v

/-- The successors of `v` in the order of the edges, with repetition; none for
an unknown vertex. -/
def adjacent (g : Graph V) (v : V) : List V := (g.rows.lookup v).getD []

@[simp] theorem has_iff {g : Graph V} {v : V} : g.has v = true ↔ v ∈ g.vertices := by
  simp [has]

/-! ## Construction -/

/-- Appends a row for `v` unless there is one. -/
def addVertex (g : Graph V) (v : V) : Graph V :=
  if h : v ∈ g.vertices then g
  else
    { rows := g.rows ++ [(v, [])]
      nodup := by
        have hv : v ∉ g.rows.map Prod.fst := h
        simp only [List.map_append, List.map_cons, List.map_nil]
        exact List.nodup_append.2 ⟨g.nodup, by simp, by
          intro a ha b hb hab
          simp only [List.mem_singleton] at hb
          exact hv (hb ▸ hab ▸ ha)⟩
      closed := by
        intro r hr w hw
        rw [List.mem_append] at hr
        rw [List.map_append, List.mem_append]
        rcases hr with hr | hr
        · exact Or.inl (g.closed r hr w hw)
        · simp only [List.mem_singleton] at hr
          simp [hr] at hw }

/-- The vertices after `addVertex`. -/
theorem vertices_addVertex (g : Graph V) (v : V) :
    (g.addVertex v).vertices = if v ∈ g.vertices then g.vertices else g.vertices ++ [v] := by
  unfold addVertex
  split <;> simp [vertices, *]

@[simp] theorem mem_vertices_addVertex {g : Graph V} {v w : V} :
    w ∈ (g.addVertex v).vertices ↔ w ∈ g.vertices ∨ w = v := by
  rw [vertices_addVertex]
  split
  · rename_i h
    exact ⟨Or.inl, fun hw => hw.elim id fun e => e ▸ h⟩
  · simp

/-- Adds the successor `w` to the row of `u`; both are vertices already. -/
def appendSuccessor (g : Graph V) (u w : V) (hw : w ∈ g.vertices) : Graph V where
  rows := g.rows.map fun r => if r.1 = u then (r.1, r.2 ++ [w]) else r
  nodup := by
    have h : (g.rows.map fun r => if r.1 = u then (r.1, r.2 ++ [w]) else r).map Prod.fst
        = g.rows.map Prod.fst := by
      simp only [List.map_map, List.map_inj_left, Function.comp]
      intro r _
      split <;> rfl
    rw [h]
    exact g.nodup
  closed := by
    have h : (g.rows.map fun r => if r.1 = u then (r.1, r.2 ++ [w]) else r).map Prod.fst
        = g.rows.map Prod.fst := by
      simp only [List.map_map, List.map_inj_left, Function.comp]
      intro r _
      split <;> rfl
    rw [h]
    intro r hr x hx
    obtain ⟨q, hq, rfl⟩ := List.mem_map.1 hr
    split at hx
    · rcases List.mem_append.1 hx with hx | hx
      · exact g.closed q hq x hx
      · simp only [List.mem_singleton] at hx
        exact hx ▸ hw
    · exact g.closed q hq x hx

/-- Adds the edge `e`, its source and then its target becoming vertices. -/
def addEdge (g : Graph V) (e : V × V) : Graph V :=
  ((g.addVertex e.1).addVertex e.2).appendSuccessor e.1 e.2 (by simp)

/-- The graph of `edges`, with `vertices` added after them. -/
def build (vertices : List V) (edges : List (V × V)) : Graph V :=
  vertices.foldl addVertex (edges.foldl addEdge empty)

/-! ## Derived graphs -/

/-- Every edge turned round. -/
def reverse (g : Graph V) : Graph V :=
  build g.vertices (g.edges.map Prod.swap)

/-- The vertices that `keep` accepts and the edges between them. -/
def induced (g : Graph V) (keep : V → Bool) : Graph V :=
  build (g.vertices.filter keep) (g.edges.filter fun e => keep e.1 && keep e.2)

end Graph

end AwaitLint
