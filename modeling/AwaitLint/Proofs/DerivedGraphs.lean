import AwaitLint.Proofs.GraphShape
import Mathlib.Data.List.Count
import Mathlib.Data.List.Nodup
import Mathlib.Data.List.Perm.Basic
import Mathlib.Data.Prod.Basic

/-!
# AwaitLint — graphs as vertex lists and edge multisets

`build`, `reverse` and `induced` all go through the same fold, which renumbers the vertices each
time. What survives is the set of vertices and the number of times each edge occurs; the order is
that of the edges a graph was built from.

* **`FirstSeen`** — one list enumerates what another mentions, in order of first occurrence. Each
  `addVertex` mentions one more vertex (`firstSeen_addVertex`), so `build` enumerates the ends of
  the edges and then the vertices given with them.
* **`edges_build_perm`** — regrouping by source loses and invents nothing. An edge occurs as often
  as its target does among the successors of its source, and those are known.
* **`Derivation`** — a chain of derived graphs. `vertices_derive` and `edges_derive` say what a
  chain leaves of the graph that it starts from.
-/

namespace AwaitLint

universe u

variable {V : Type u} [DecidableEq V]

/-! ## Order of first occurrence -/

/-- `listed` holds what `mentioned` does, each once and in the order of first occurrence. -/
structure FirstSeen (mentioned listed : List V) : Prop where
  nodup : listed.Nodup
  mem_iff : ∀ v, v ∈ listed ↔ v ∈ mentioned
  ordered : listed.Pairwise fun v w => mentioned.idxOf v < mentioned.idxOf w

namespace FirstSeen

variable {mentioned listed : List V} {v : V}

theorem nil : FirstSeen ([] : List V) [] :=
  ⟨List.nodup_nil, fun _ => Iff.rfl, List.Pairwise.nil⟩

/-- Mentioning more does not change where a listed vertex is seen first. -/
theorem idxOf_concat (h : FirstSeen mentioned listed) (hv : v ∈ listed) (w : V) :
    (mentioned ++ [w]).idxOf v = mentioned.idxOf v := by
  rw [List.idxOf_append, if_pos ((h.mem_iff v).1 hv)]

theorem ordered_concat (h : FirstSeen mentioned listed) (w : V) :
    listed.Pairwise fun v v' => (mentioned ++ [w]).idxOf v < (mentioned ++ [w]).idxOf v' := by
  refine h.ordered.imp_of_mem fun {v v'} hv hv' hlt => ?_
  rw [h.idxOf_concat hv, h.idxOf_concat hv']
  exact hlt

theorem concat_of_mem (h : FirstSeen mentioned listed) (hv : v ∈ listed) :
    FirstSeen (mentioned ++ [v]) listed := by
  refine ⟨h.nodup, fun w => ?_, h.ordered_concat v⟩
  rw [h.mem_iff, List.mem_append, List.mem_singleton]
  refine ⟨Or.inl, fun hw => hw.elim id ?_⟩
  rintro rfl
  exact (h.mem_iff w).1 hv

theorem concat_of_not_mem (h : FirstSeen mentioned listed) (hv : v ∉ listed) :
    FirstSeen (mentioned ++ [v]) (listed ++ [v]) := by
  have hnew : v ∉ mentioned := fun hmem => hv ((h.mem_iff v).2 hmem)
  refine ⟨List.concat_eq_append ▸ h.nodup.concat hv, fun w => ?_, ?_⟩
  · rw [List.mem_append, List.mem_append, h.mem_iff]
  · rw [List.pairwise_append]
    refine ⟨h.ordered_concat v, List.pairwise_singleton _ _, fun w hw x hx => ?_⟩
    -- the new vertex is first seen at the very end
    rw [List.mem_singleton.1 hx, h.idxOf_concat hw, List.idxOf_append, if_neg hnew,
      List.idxOf_cons_self]
    have := List.idxOf_lt_length_of_mem ((h.mem_iff w).1 hw)
    omega

end FirstSeen

namespace Graph

/-! ## What `build` lists -/

section Vertices

variable {mentioned : List V} {g : Graph V}

theorem firstSeen_addVertex (h : FirstSeen mentioned g.vertices) (v : V) :
    FirstSeen (mentioned ++ [v]) (g.addVertex v).vertices := by
  rw [vertices_addVertex]
  split
  · exact h.concat_of_mem ‹_›
  · exact h.concat_of_not_mem ‹_›

theorem firstSeen_foldl_addVertex (h : FirstSeen mentioned g.vertices) (vs : List V) :
    FirstSeen (mentioned ++ vs) (vs.foldl addVertex g).vertices := by
  induction vs generalizing mentioned g with
  | nil => rwa [List.append_nil]
  | cons v vs ih =>
    rw [List.append_cons]
    exact ih (firstSeen_addVertex h v)

/-- The ends of the edges, the source of an edge before its target. -/
def ends (es : List (V × V)) : List V := es.flatMap fun e => [e.1, e.2]

theorem firstSeen_foldl_addEdge (h : FirstSeen mentioned g.vertices) (es : List (V × V)) :
    FirstSeen (mentioned ++ ends es) (es.foldl addEdge g).vertices := by
  induction es generalizing mentioned g with
  | nil => rwa [ends, List.flatMap_nil, List.append_nil]
  | cons e es ih =>
    have hstep : FirstSeen (mentioned ++ [e.1] ++ [e.2]) (g.addEdge e).vertices := by
      rw [vertices_addEdge]
      exact firstSeen_addVertex (firstSeen_addVertex h e.1) e.2
    have hends : mentioned ++ ends (e :: es) = mentioned ++ [e.1] ++ [e.2] ++ ends es := by
      simp [ends]
    rw [hends]
    exact ih hstep

theorem firstSeen_build (vs : List V) (es : List (V × V)) :
    FirstSeen (ends es ++ vs) (build vs es).vertices := by
  have hempty : FirstSeen [] (empty : Graph V).vertices := FirstSeen.nil
  have hedges := firstSeen_foldl_addEdge hempty es
  rw [List.nil_append] at hedges
  exact firstSeen_foldl_addVertex hedges vs

end Vertices

/-! ## Edges with their multiplicity -/

/-- An edge occurs as often as its target among the targets of the edges that leave its source. -/
theorem count_pair (es : List (V × V)) (u v : V) :
    es.count (u, v) = ((es.filter fun e => e.1 = u).map Prod.snd).count v := by
  induction es with
  | nil => rfl
  | cons e es ih =>
    obtain ⟨x, y⟩ := e
    by_cases hx : x = u
    · simp [hx, ih, List.count_cons]
    · simp [hx, ih]

theorem count_edges (g : Graph V) (u v : V) :
    g.edges.count (u, v) = (g.adjacent u).count v := by
  rw [count_pair, map_snd_filter_edges]

theorem edges_build_perm (vs : List V) (es : List (V × V)) : (build vs es).edges.Perm es := by
  rw [List.perm_iff_count]
  rintro ⟨u, v⟩
  rw [count_edges, adjacent_build, ← count_pair]

theorem edges_reverse_perm (g : Graph V) : g.reverse.edges.Perm (g.edges.map Prod.swap) :=
  edges_build_perm _ _

theorem count_edges_reverse (g : Graph V) (u v : V) :
    g.reverse.edges.count (v, u) = g.edges.count (u, v) := by
  rw [(edges_reverse_perm g).count_eq, ← Prod.swap_prod_mk,
    List.count_map_of_injective _ _ Prod.swap_injective]

theorem vertices_reverse_perm (g : Graph V) : g.reverse.vertices.Perm g.vertices :=
  (List.perm_ext_iff_of_nodup g.reverse.nodup g.nodup).2 fun _ => mem_vertices_reverse

/-- The edges with both ends kept. -/
def keptEdges (keep : V → Bool) (es : List (V × V)) : List (V × V) :=
  es.filter fun e => keep e.1 && keep e.2

theorem edges_induced_perm (g : Graph V) (keep : V → Bool) :
    (g.induced keep).edges.Perm (keptEdges keep g.edges) :=
  edges_build_perm _ _

theorem vertices_induced_perm (g : Graph V) (keep : V → Bool) :
    (g.induced keep).vertices.Perm (g.vertices.filter keep) := by
  refine (List.perm_ext_iff_of_nodup (g.induced keep).nodup (g.nodup.filter keep)).2 fun v => ?_
  rw [List.mem_filter]
  exact mem_vertices_induced

theorem edges_reverse_reverse_perm (g : Graph V) : g.reverse.reverse.edges.Perm g.edges := by
  have hswap : (g.edges.map Prod.swap).map Prod.swap = g.edges := by
    rw [List.map_map, Prod.swap_swap_eq, List.map_id]
  rw [← hswap]
  exact (edges_reverse_perm g.reverse).trans ((edges_reverse_perm g).map Prod.swap)

/-- What reversing and restricting a graph do to its vertices and to the number of times an edge
occurs. -/
structure LawfulDerivatives (g : Graph V) : Prop where
  count_reverse : ∀ u v, g.reverse.edges.count (v, u) = g.edges.count (u, v)
  vertices_reverse : g.reverse.vertices.Perm g.vertices
  vertices_twice : g.reverse.reverse.vertices.Perm g.vertices
  edges_twice : g.reverse.reverse.edges.Perm g.edges
  vertices_induced : ∀ keep, (g.induced keep).vertices.Perm (g.vertices.filter keep)
  edges_induced : ∀ keep, (g.induced keep).edges.Perm (keptEdges keep g.edges)

theorem lawfulDerivatives (g : Graph V) : g.LawfulDerivatives where
  count_reverse := count_edges_reverse g
  vertices_reverse := vertices_reverse_perm g
  vertices_twice := (vertices_reverse_perm g.reverse).trans (vertices_reverse_perm g)
  edges_twice := edges_reverse_reverse_perm g
  vertices_induced := vertices_induced_perm g
  edges_induced := edges_induced_perm g

/-! ## Chains of derived graphs -/

/-- A way to make a graph from another. -/
inductive Derivation (V : Type u) where
  | reverse
  | induced (keep : V → Bool)

namespace Derivation

/-- Whether a vertex is left. -/
def keeps {V : Type u} : Derivation V → V → Bool
  | reverse, _ => true
  | induced keep, v => keep v

/-- The direction in which an edge is left. -/
def turn {V : Type u} : Derivation V → V × V → V × V
  | reverse, e => e.swap
  | induced _, e => e

/-- Turning an edge round does not change whether both ends are kept. -/
theorem kept_turn {V : Type u} (d : Derivation V) (keep : V → Bool) (e : V × V) :
    (keep (d.turn e).1 && keep (d.turn e).2) = (keep e.1 && keep e.2) := by
  cases d with
  | reverse => exact Bool.and_comm _ _
  | induced _ => rfl

def apply (g : Graph V) : Derivation V → Graph V
  | reverse => g.reverse
  | induced keep => g.induced keep

theorem vertices_apply (g : Graph V) (d : Derivation V) :
    (d.apply g).vertices.Perm (g.vertices.filter d.keeps) := by
  cases d with
  | reverse =>
    have hall : g.vertices.filter reverse.keeps = g.vertices := List.filter_eq_self.2 fun _ _ => rfl
    rw [hall]
    exact vertices_reverse_perm g
  | induced keep => exact vertices_induced_perm g keep

theorem edges_apply (g : Graph V) (d : Derivation V) :
    (d.apply g).edges.Perm ((keptEdges d.keeps g.edges).map d.turn) := by
  cases d with
  | reverse =>
    have hall : keptEdges reverse.keeps g.edges = g.edges := List.filter_eq_self.2 fun _ _ => rfl
    rw [hall]
    exact edges_reverse_perm g
  | induced keep =>
    have hid : (induced keep).turn = id := rfl
    rw [hid, List.map_id]
    exact edges_induced_perm g keep

end Derivation

/-- The last graph of a chain. -/
def derive (g : Graph V) (chain : List (Derivation V)) : Graph V := chain.foldl Derivation.apply g

/-- Whether every step of a chain keeps a vertex. -/
def survives {V : Type u} (chain : List (Derivation V)) (v : V) : Bool :=
  chain.all fun d => d.keeps v

/-- The direction of an edge at the end of a chain. -/
def turned {V : Type u} (chain : List (Derivation V)) (e : V × V) : V × V :=
  chain.foldl (fun e d => d.turn e) e

theorem vertices_derive (g : Graph V) (chain : List (Derivation V)) :
    (g.derive chain).vertices.Perm (g.vertices.filter (survives chain)) := by
  induction chain generalizing g with
  | nil =>
    have hall : g.vertices.filter (survives []) = g.vertices := List.filter_eq_self.2 fun _ _ => rfl
    rw [hall]
    exact List.Perm.refl _
  | cons d chain ih =>
    have hfilter : (g.vertices.filter d.keeps).filter (survives chain)
        = g.vertices.filter (survives (d :: chain)) := by
      rw [List.filter_filter]
      refine List.filter_congr fun v _ => ?_
      exact Bool.and_comm _ _
    rw [← hfilter]
    exact (ih (d.apply g)).trans ((d.vertices_apply g).filter _)

theorem edges_derive (g : Graph V) (chain : List (Derivation V)) :
    (g.derive chain).edges.Perm ((keptEdges (survives chain) g.edges).map (turned chain)) := by
  induction chain generalizing g with
  | nil =>
    have hall : keptEdges (survives []) g.edges = g.edges := List.filter_eq_self.2 fun _ _ => rfl
    have hid : turned ([] : List (Derivation V)) = id := rfl
    rw [hall, hid, List.map_id]
    exact List.Perm.refl _
  | cons d chain ih =>
    -- what the rest of the chain keeps can be asked before the edges are turned
    have hkept : keptEdges (survives chain) ((keptEdges d.keeps g.edges).map d.turn)
        = (keptEdges (survives (d :: chain)) g.edges).map d.turn := by
      unfold keptEdges
      rw [List.filter_map, List.filter_filter]
      refine congrArg _ (List.filter_congr fun e _ => ?_)
      show ((survives chain (d.turn e).1 && survives chain (d.turn e).2)
          && (d.keeps e.1 && d.keeps e.2))
        = ((d.keeps e.1 && survives chain e.1) && (d.keeps e.2 && survives chain e.2))
      rw [d.kept_turn]
      ac_rfl
    have hturned : (keptEdges (survives (d :: chain)) g.edges).map (turned (d :: chain))
        = ((keptEdges (survives (d :: chain)) g.edges).map d.turn).map (turned chain) := by
      rw [List.map_map]
      rfl
    rw [hturned, ← hkept]
    exact (ih (d.apply g)).trans (((d.edges_apply g).filter _).map _)

/-- **Built and derived graphs.** A graph built from vertices and edges lists the ends of the edges
and then the vertices, each where it is first seen; the successors of a vertex are the targets of its
edges in their order, and the edges are those given. Along a chain of reversals and restrictions
there remain the vertices that every step keeps and the edges between them, turned round by each
reversal; and the next reversal or restriction, wherever the chain has led, does what it should. -/
theorem build_derive_exact (vs : List V) (es : List (V × V)) :
    FirstSeen (ends es ++ vs) (build vs es).vertices ∧
    (∀ v, (build vs es).adjacent v = (es.filter fun e => e.1 = v).map Prod.snd) ∧
    (∀ v, v ∉ (build vs es).vertices → (build vs es).adjacent v = []) ∧
    (build vs es).edges.Perm es ∧
    ∀ chain : List (Derivation V),
      ((build vs es).derive chain).vertices.Perm
        ((build vs es).vertices.filter (survives chain)) ∧
      ((build vs es).derive chain).edges.Perm
        ((keptEdges (survives chain) es).map (turned chain)) ∧
      ((build vs es).derive chain).LawfulDerivatives := by
  refine ⟨firstSeen_build vs es, adjacent_build vs es, fun v hv => ?_, edges_build_perm vs es,
    fun chain => ⟨vertices_derive _ chain, ?_, lawfulDerivatives _⟩⟩
  · -- an edge that leaves `v` would make it a vertex
    rw [List.eq_nil_iff_forall_not_mem]
    exact fun w hw => hv (source_mem (mem_adjacent.1 hw))
  · exact (edges_derive _ chain).trans (((edges_build_perm vs es).filter _).map _)

end Graph

end AwaitLint
