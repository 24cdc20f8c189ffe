import AwaitLint.Graph

/-!
# AwaitLint — vertices and edges of built graphs

What the constructions of `AwaitLint/Graph.lean` do to the views of a graph:

* **`mem_adjacent`** — a successor is the target of a listed edge. A vertex has one row, so
  the row found by `lookup` is the only one that mentions it.
* **`adjacent_build`** — the successors of a vertex of a built graph are the targets of the
  given edges that leave it, in their order. Each `addEdge` appends to one row
  (`adjacent_addEdge`), and the fold over the edges collects them.
* **`mem_edges_reverse`**, **`mem_edges_induced`** and their vertex twins — the derived graphs
  have the edges and vertices one expects, whatever order the rebuild gives them.
-/

namespace AwaitLint

universe u v

/-- Entries of other keys do not matter when a key is looked up. -/
theorem lookup_filter_ne {K : Type u} {A : Type v} [DecidableEq K] (entries : List (K × A))
    {v w : K} (h : w ≠ v) :
    (entries.filter fun e => e.1 ≠ v).lookup w = entries.lookup w := by
  induction entries with
  | nil => rfl
  | cons e entries ih =>
    by_cases he : e.1 = v
    · -- a dropped entry: it is not one of `w`
      have hw : (w == e.1) = false := by
        rw [beq_eq_false_iff_ne, he]
        exact h
      rw [List.filter_cons_of_neg (by simpa using he), ih, List.lookup_cons, hw]
    · rw [List.filter_cons_of_pos (by simpa using he), List.lookup_cons, List.lookup_cons, ih]

namespace Graph

variable {V : Type u}

/-! ## Rows and edges -/

/-- An edge is listed when the row of its source lists its target. -/
theorem mem_edges {g : Graph V} {u v : V} :
    (u, v) ∈ g.edges ↔ ∃ ws, (u, ws) ∈ g.rows ∧ v ∈ ws := by
  simp only [edges, List.mem_flatMap, List.mem_map, Prod.mk.injEq]
  constructor
  · rintro ⟨r, hr, w, hw, rfl, rfl⟩
    exact ⟨r.2, hr, hw⟩
  · rintro ⟨ws, hr, hv⟩
    exact ⟨(u, ws), hr, v, hv, rfl, rfl⟩

theorem source_mem {g : Graph V} {u v : V} (h : (u, v) ∈ g.edges) : u ∈ g.vertices := by
  obtain ⟨ws, hr, -⟩ := mem_edges.1 h
  exact List.mem_map.2 ⟨(u, ws), hr, rfl⟩

/-- The target of an edge is a vertex: rows are closed. -/
theorem target_mem {g : Graph V} {u v : V} (h : (u, v) ∈ g.edges) : v ∈ g.vertices := by
  obtain ⟨ws, hr, hv⟩ := mem_edges.1 h
  exact g.closed (u, ws) hr v hv

variable [DecidableEq V]

/-- In a list of rows with distinct heads, `lookup` finds the row of a listed head. -/
theorem lookup_eq_of_mem {rows : List (V × List V)} (hnd : (rows.map Prod.fst).Nodup)
    {u : V} {ws : List V} (h : (u, ws) ∈ rows) : rows.lookup u = some ws := by
  induction rows with
  | nil => cases h
  | cons r rows ih =>
    rw [List.map_cons, List.nodup_cons] at hnd
    rw [List.lookup_cons]
    rcases List.mem_cons.1 h with rfl | h
    · simp
    · -- a later row: its head differs from the one in front
      have hne : (u == r.1) = false := by
        rw [beq_eq_false_iff_ne]
        rintro rfl
        exact hnd.1 (List.mem_map.2 ⟨_, h, rfl⟩)
      rw [hne]
      exact ih hnd.2 h

theorem mem_adjacent {g : Graph V} {u v : V} : v ∈ g.adjacent u ↔ (u, v) ∈ g.edges := by
  rw [mem_edges, adjacent]
  constructor
  · intro h
    cases hl : g.rows.lookup u with
    | none => simp [hl] at h
    | some ws =>
      rw [hl, Option.getD_some] at h
      obtain ⟨l₁, l₂, hrows, -⟩ := List.lookup_eq_some_iff.1 hl
      exact ⟨ws, by simp [hrows], h⟩
  · rintro ⟨ws, hr, hv⟩
    rw [lookup_eq_of_mem g.nodup hr]
    exact hv

/-- The edges that leave a vertex, in the list of all edges. -/
theorem map_snd_filter_edges (g : Graph V) (u : V) :
    (g.edges.filter fun e => e.1 = u).map Prod.snd = g.adjacent u := by
  obtain ⟨rows, hnd, hclosed⟩ := g
  show ((rows.flatMap fun r => r.2.map fun w => (r.1, w)).filter fun e => e.1 = u).map Prod.snd
    = (rows.lookup u).getD []
  clear hclosed
  induction rows with
  | nil => rfl
  | cons r rows ih =>
    rw [List.map_cons, List.nodup_cons] at hnd
    rw [List.flatMap_cons, List.filter_append, List.map_append, ih hnd.2, List.lookup_cons]
    by_cases hu : r.1 = u
    · -- no later row is of this vertex
      have hnone : rows.lookup u = none := by
        rw [List.lookup_eq_none_iff]
        intro r' hr'
        rw [bne_iff_ne]
        rintro rfl
        exact hnd.1 (List.mem_map.2 ⟨r', hr', hu.symm⟩)
      simp [hu, hnone, List.filter_map, Function.comp_def]
    · have hne : (u == r.1) = false := beq_eq_false_iff_ne.2 (Ne.symm hu)
      simp [hu, hne, List.filter_map, Function.comp_def]

/-! ## One construction step -/

/-- A new vertex has no successors, and the others keep theirs. -/
@[simp] theorem adjacent_addVertex (g : Graph V) (v x : V) :
    (g.addVertex v).adjacent x = g.adjacent x := by
  unfold addVertex
  split
  · rfl
  · rename_i hv
    show ((g.rows ++ [(v, [])]).lookup x).getD [] = (g.rows.lookup x).getD []
    rw [List.lookup_append]
    cases hl : g.rows.lookup x with
    | some ws => rfl
    | none =>
      rw [Option.none_or, List.lookup_cons]
      cases x == v <;> rfl

theorem lookup_appendSuccessor (rows : List (V × List V)) (u w x : V) :
    (rows.map fun r => if r.1 = u then (r.1, r.2 ++ [w]) else r).lookup x
      = (rows.lookup x).map fun ws => if x = u then ws ++ [w] else ws := by
  induction rows with
  | nil => rfl
  | cons r rows ih =>
    obtain ⟨y, ys⟩ := r
    have hhead : (if y = u then (y, ys ++ [w]) else (y, ys))
        = (y, if y = u then ys ++ [w] else ys) := by
      split <;> rfl
    simp only [List.map_cons, hhead, List.lookup_cons, ih]
    cases hxy : x == y with
    | false => rfl
    | true =>
      rw [eq_of_beq hxy]
      rfl

/-- The vertices are those of the graph with the two ends of the new edge. -/
theorem vertices_addEdge (g : Graph V) (e : V × V) :
    (g.addEdge e).vertices = ((g.addVertex e.1).addVertex e.2).vertices := by
  simp only [addEdge, appendSuccessor, vertices, List.map_map, List.map_inj_left, Function.comp]
  intro r _
  split <;> rfl

/-- An edge adds its target to the successors of its source and nothing else. -/
theorem adjacent_addEdge (g : Graph V) (e : V × V) (x : V) :
    (g.addEdge e).adjacent x = g.adjacent x ++ if x = e.1 then [e.2] else [] := by
  obtain ⟨u, w⟩ := e
  have hrow : (g.addEdge (u, w)).adjacent x
      = ((((g.addVertex u).addVertex w).rows.lookup x).map
          fun ws => if x = u then ws ++ [w] else ws).getD [] := by
    rw [← lookup_appendSuccessor]
    rfl
  have hkeep : ((g.addVertex u).addVertex w).adjacent x = g.adjacent x := by simp
  rw [hrow, ← hkeep, adjacent]
  cases hl : ((g.addVertex u).addVertex w).rows.lookup x with
  | some ws =>
    by_cases hx : x = u <;> simp [hx]
  | none =>
    -- only a vertex without a row gets here, and the source has one by now
    have hx : x ≠ u := by
      rintro rfl
      have hmem : x ∈ ((g.addVertex x).addVertex w).vertices := by simp
      obtain ⟨r, hr, hrx⟩ := List.mem_map.1 hmem
      have := List.lookup_eq_none_iff.1 hl r hr
      simp [hrx] at this
    simp [hx]

/-! ## Built graphs -/

theorem adjacent_foldl_addVertex (vs : List V) (g : Graph V) (x : V) :
    (vs.foldl addVertex g).adjacent x = g.adjacent x := by
  induction vs generalizing g with
  | nil => rfl
  | cons v vs ih => rw [List.foldl_cons, ih, adjacent_addVertex]

theorem adjacent_foldl_addEdge (es : List (V × V)) (g : Graph V) (x : V) :
    (es.foldl addEdge g).adjacent x
      = g.adjacent x ++ (es.filter fun e => e.1 = x).map Prod.snd := by
  induction es generalizing g with
  | nil => simp
  | cons e es ih =>
    rw [List.foldl_cons, ih, adjacent_addEdge]
    by_cases hx : e.1 = x
    · simp [hx]
    · simp [hx, Ne.symm hx]

/-- The successors in a built graph: the targets of the edges that leave the vertex, in the
order of the edges and with repetition. -/
theorem adjacent_build (vs : List V) (es : List (V × V)) (x : V) :
    (build vs es).adjacent x = (es.filter fun e => e.1 = x).map Prod.snd := by
  rw [build, adjacent_foldl_addVertex, adjacent_foldl_addEdge]
  rfl

theorem mem_edges_build {vs : List V} {es : List (V × V)} {e : V × V} :
    e ∈ (build vs es).edges ↔ e ∈ es := by
  obtain ⟨u, v⟩ := e
  rw [← mem_adjacent, adjacent_build]
  simp only [List.mem_map, List.mem_filter, decide_eq_true_eq]
  constructor
  · rintro ⟨e, ⟨he, rfl⟩, rfl⟩
    exact he
  · intro h
    exact ⟨(u, v), ⟨h, rfl⟩, rfl⟩

theorem mem_vertices_foldl_addVertex {vs : List V} {g : Graph V} {x : V} :
    x ∈ (vs.foldl addVertex g).vertices ↔ x ∈ g.vertices ∨ x ∈ vs := by
  induction vs generalizing g with
  | nil => simp
  | cons v vs ih => rw [List.foldl_cons, ih, mem_vertices_addVertex, List.mem_cons, or_assoc]

theorem mem_vertices_foldl_addEdge {es : List (V × V)} {g : Graph V} {x : V} :
    x ∈ (es.foldl addEdge g).vertices
      ↔ x ∈ g.vertices ∨ ∃ e ∈ es, x = e.1 ∨ x = e.2 := by
  induction es generalizing g with
  | nil => simp
  | cons e es ih =>
    rw [List.foldl_cons, ih, vertices_addEdge, mem_vertices_addVertex, mem_vertices_addVertex]
    simp only [List.mem_cons, exists_eq_or_imp, or_assoc]

/-- A built graph has the listed vertices and the ends of the edges. -/
theorem mem_vertices_build {vs : List V} {es : List (V × V)} {x : V} :
    x ∈ (build vs es).vertices ↔ (∃ e ∈ es, x = e.1 ∨ x = e.2) ∨ x ∈ vs := by
  rw [build, mem_vertices_foldl_addVertex, mem_vertices_foldl_addEdge]
  simp

/-! ## Derived graphs -/

theorem mem_edges_reverse {g : Graph V} {u v : V} :
    (u, v) ∈ g.reverse.edges ↔ (v, u) ∈ g.edges := by
  rw [reverse, mem_edges_build]
  simp only [List.mem_map, Prod.exists, Prod.swap_prod_mk, Prod.mk.injEq]
  constructor
  · rintro ⟨a, b, h, rfl, rfl⟩
    exact h
  · intro h
    exact ⟨v, u, h, rfl, rfl⟩

/-- Turning the edges round keeps the vertices: the ends of an edge are vertices already. -/
theorem mem_vertices_reverse {g : Graph V} {x : V} :
    x ∈ g.reverse.vertices ↔ x ∈ g.vertices := by
  rw [reverse, mem_vertices_build]
  constructor
  · rintro (⟨e, he, hx⟩ | hx)
    · obtain ⟨⟨u, v⟩, huv, rfl⟩ := List.mem_map.1 he
      rcases hx with rfl | rfl
      · exact target_mem huv
      · exact source_mem huv
    · exact hx
  · exact Or.inr

theorem mem_edges_induced {g : Graph V} {keep : V → Bool} {u v : V} :
    (u, v) ∈ (g.induced keep).edges ↔ (u, v) ∈ g.edges ∧ keep u = true ∧ keep v = true := by
  rw [induced, mem_edges_build, List.mem_filter, Bool.and_eq_true]

theorem mem_vertices_induced {g : Graph V} {keep : V → Bool} {x : V} :
    x ∈ (g.induced keep).vertices ↔ x ∈ g.vertices ∧ keep x = true := by
  rw [induced, mem_vertices_build, List.mem_filter]
  constructor
  · rintro (⟨⟨u, v⟩, he, hx⟩ | hx)
    · obtain ⟨huv, hkeep⟩ := List.mem_filter.1 he
      rw [Bool.and_eq_true] at hkeep
      rcases hx with rfl | rfl
      · exact ⟨source_mem huv, hkeep.1⟩
      · exact ⟨target_mem huv, hkeep.2⟩
    · exact hx
  · exact Or.inr

theorem adjacent_induced (g : Graph V) (keep : V → Bool) (x : V) :
    (g.induced keep).adjacent x = if keep x then (g.adjacent x).filter keep else [] := by
  rw [induced, adjacent_build, List.filter_filter]
  by_cases hx : keep x = true
  · rw [if_pos hx, ← map_snd_filter_edges, List.filter_map, List.filter_filter]
    refine congrArg _ (List.filter_congr fun e _ => ?_)
    by_cases he : e.1 = x
    · simp [he, hx]
    · simp [he]
  · rw [if_neg hx, List.map_eq_nil_iff, List.filter_eq_nil_iff]
    intro e _ hboth
    simp only [Bool.and_eq_true, decide_eq_true_eq] at hboth
    obtain ⟨rfl, hkeep, -⟩ := hboth
    exact hx hkeep

end Graph

end AwaitLint
