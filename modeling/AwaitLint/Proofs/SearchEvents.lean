import AwaitLint.Proofs.SearchOrder
import Mathlib.Data.List.Nodup

/-!
# AwaitLint — the events of a depth-first search

`Graph.search` runs a loop over a stack of half-tried vertices. This module compares its events with
those of the search written as a recursion, and reads them as intervals, one for each vertex, from
its visit to its leave.

## The architecture

* **`tour`** — the search as a recursion. Its outcome carries the fact that what was visited stays
  visited, which is why the recursion ends. It is a case of `Explores` (`explores_tour`), and
  `Explores` admits one outcome only (`Explores.unique`).
* **`search_eq_recursion`** — the loop reports the events of the recursion, and what a listener
  hears is a part of them.
* **`Arranged`** — two intervals are nested or apart. The events inside a vertex stand between its
  visit and its leave, those of its later siblings behind both (`Explores.arranged`).
* **`Explores.left_first`** — a successor is left first, unless it was visited before the search
  began or its interval encloses that of the source.
* **`search_orders_vertices`** — the headline: reached vertices, intervals, edges, and the search of
  the reversed graph.
-/

namespace AwaitLint.Graph

universe u

variable {V : Type u} {v w x y : V} {es es' es₁ es₂ : List (Event V)}

/-! ## Lists of events -/

theorem mem_entered_iff : v ∈ entered es ↔ .visit v ∈ es := by
  simp only [entered, List.mem_map, List.mem_filter]
  constructor
  · rintro ⟨e | e, ⟨he, hears⟩, rfl⟩
    · exact he
    · cases hears
  · intro h
    exact ⟨_, ⟨h, rfl⟩, rfl⟩

theorem mem_left_iff : v ∈ left es ↔ .leave v ∈ es := by
  simp only [left, List.mem_map, List.mem_filter]
  constructor
  · rintro ⟨e | e, ⟨he, hears⟩, rfl⟩
    · cases hears
    · exact he
  · intro h
    exact ⟨_, ⟨h, rfl⟩, rfl⟩

/-- No event occurs twice when no vertex is visited or left twice. -/
theorem nodup_of_entered_left (hin : (entered es).Nodup) (hout : (left es).Nodup) : es.Nodup := by
  induction es with
  | nil => exact .nil
  | cons e es ih =>
    cases e with
    | visit v =>
      obtain ⟨hv, hin⟩ := List.nodup_cons.1 hin
      exact List.nodup_cons.2 ⟨fun h => hv (mem_entered_iff.2 h), ih hin hout⟩
    | leave v =>
      obtain ⟨hv, hout⟩ := List.nodup_cons.1 hout
      exact List.nodup_cons.2 ⟨fun h => hv (mem_left_iff.2 h), ih hin hout⟩

/-- The interval of `y` lies inside that of `x`. -/
def Nested (es : List (Event V)) (x y : V) : Prop :=
  [.visit x, .visit y, .leave y, .leave x].Sublist es

/-- The interval of `x` ends before that of `y` begins. -/
def Apart (es : List (Event V)) (x y : V) : Prop :=
  [.visit x, .leave x, .visit y, .leave y].Sublist es

/-- The intervals of two vertices are nested or apart. -/
def Arranged (es : List (Event V)) (x y : V) : Prop :=
  (Nested es x y ∨ Nested es y x) ∨ Apart es x y ∨ Apart es y x

theorem Arranged.symm (h : Arranged es x y) : Arranged es y x := h.imp Or.symm Or.symm

theorem Arranged.mono (h : Arranged es x y) (hsub : es.Sublist es') : Arranged es' x y :=
  h.imp (Or.imp (·.trans hsub) (·.trans hsub)) (Or.imp (·.trans hsub) (·.trans hsub))

/-! Entering `w` causes the events inside `w`, between its visit and its leave, and after them those
of the vertices tried later. -/

theorem sublist_inner : es₁.Sublist (.visit w :: (es₁ ++ .leave w :: es₂)) :=
  (List.sublist_append_left _ _).cons _

theorem sublist_rest : es₂.Sublist (.visit w :: (es₁ ++ .leave w :: es₂)) :=
  ((List.sublist_cons_self _ _).trans (List.sublist_append_right _ _)).cons _

theorem sublist_enter {l₁ l₂ : List (Event V)} (h₁ : l₁.Sublist es₁) (h₂ : l₂.Sublist es₂) :
    (.visit w :: (l₁ ++ .leave w :: l₂)).Sublist (.visit w :: (es₁ ++ .leave w :: es₂)) :=
  (h₁.append (h₂.cons_cons _)).cons_cons _

theorem mem_left_enter :
    x ∈ left (.visit w :: (es₁ ++ .leave w :: es₂)) ↔ x ∈ left es₁ ∨ x = w ∨ x ∈ left es₂ := by
  simp only [left_visit, left_append, left_leave, List.mem_append, List.mem_cons]

/-! ## The search as a recursion -/

/-- The outcome of a search that begins with `visited` visited. -/
structure Tour (visited : List V) where
  events : List (Event V)
  /-- The vertices visited in the end. -/
  seen : List V
  /-- A visited vertex stays visited. -/
  grown : ∀ x ∈ visited, x ∈ seen

variable [DecidableEq V]

/-- The work left in a recursion: the vertices to try, and what the loop would count for those not
visited yet. -/
def untried (g : Graph V) (visited ws : List V) : Nat := 2 * ws.length + g.pending visited []

theorem untried_enter_lt (g : Graph V) {visited : List V} {w : V} (ws : List V)
    (hw : w ∉ visited) :
    g.untried (w :: visited) (g.adjacent w) < g.untried visited (w :: ws) := by
  have hlt : g.pending (w :: visited) [⟨w, g.adjacent w⟩, ⟨w, ws⟩]
      < g.pending visited [⟨w, w :: ws⟩] := pending_visit_lt g [] hw
  simp only [untried, pending, total_cons, total_nil, List.length_cons] at hlt ⊢
  omega

theorem untried_rest_lt (g : Graph V) {visited seen : List V} (w : V) (ws : List V)
    (hsub : ∀ x ∈ visited, x ∈ seen) : g.untried seen ws < g.untried visited (w :: ws) := by
  have hle := pending_anti g [] hsub
  simp only [untried, List.length_cons]
  omega

/-- Searches from the vertices `ws` in turn: one that is not visited by then is visited, its
successors are searched from in the order of the edges, and it is left. -/
def tour (g : Graph V) (visited : List V) : List V → Tour visited
  | [] => ⟨[], visited, fun _ hx => hx⟩
  | w :: ws =>
    if w ∈ visited then g.tour visited ws
    else
      let inner := g.tour (w :: visited) (g.adjacent w)
      let rest := g.tour inner.seen ws
      ⟨.visit w :: (inner.events ++ .leave w :: rest.events), rest.seen,
        fun x hx => rest.grown x (inner.grown x (List.mem_cons_of_mem w hx))⟩
termination_by ws => g.untried visited ws
decreasing_by
  · exact g.untried_rest_lt w ws fun _ hx => hx
  · exact g.untried_enter_lt ws ‹_›
  · exact g.untried_rest_lt w ws fun x hx => inner.grown x (List.mem_cons_of_mem w hx)

/-- The events of the recursive search from `root`. -/
def recursiveEvents (g : Graph V) (root : V) : List (Event V) := (g.tour [] [root]).events

theorem explores_tour (g : Graph V) (visited ws : List V) :
    Explores g visited ws (g.tour visited ws).events (g.tour visited ws).seen := by
  induction visited, ws using tour.induct g with
  | case1 visited =>
    rw [tour]
    exact .done visited
  | case2 visited w ws hw ih =>
    rw [tour, if_pos hw]
    exact .skip hw ih
  | case3 visited w ws hw inner ih₁ ih₂ =>
    rw [tour, if_neg hw]
    exact .enter hw ih₁ ih₂

variable {g : Graph V} {root u : V} {visited visited' ws : List V}

namespace Explores

/-- A search has one outcome: which vertices it enters is decided by what is visited. -/
theorem unique {visited'' : List V} (h : Explores g visited ws es visited')
    (h' : Explores g visited ws es' visited'') : es' = es ∧ visited'' = visited' := by
  induction h generalizing es' visited'' with
  | done =>
    cases h'
    exact ⟨rfl, rfl⟩
  | skip hw _ ih =>
    cases h' with
    | skip _ rest' => exact ih rest'
    | enter hw' _ _ => exact absurd hw hw'
  | enter hw _ _ ih₁ ih₂ =>
    cases h' with
    | skip hw' _ => exact absurd hw' hw
    | enter _ inner' rest' =>
      obtain ⟨rfl, rfl⟩ := ih₁ inner'
      obtain ⟨rfl, rfl⟩ := ih₂ rest'
      exact ⟨rfl, rfl⟩

end Explores

/-- The search from a vertex, with the vertex itself as the one to try first. -/
theorem exists_explores_search (hroot : root ∈ g.vertices) :
    (∃ visited, Explores g [] [root] (g.search ⟨true, true⟩ root) visited) ∧
      ∀ l, g.search l root = (g.search ⟨true, true⟩ root).filter l.hears := by
  obtain ⟨es, visited, hex, heq⟩ := g.exists_search_eq hroot
  have hall : g.search ⟨true, true⟩ root = .visit root :: (es ++ [.leave root]) := by
    rw [heq, List.filter_eq_self]
    intro e _
    cases e <;> rfl
  refine ⟨⟨visited, ?_⟩, fun l => ?_⟩
  · rw [hall]
    exact .enter List.not_mem_nil hex (.done visited)
  · rw [hall, heq]

/-- **The loop is the recursion.** The search with both events reported lists the events of the
recursive search, none for a root that is not a vertex. A listener hears the part of them that it
wants, in the same order. -/
theorem search_eq_recursion (g : Graph V) (root : V) (l : Listener) :
    g.search ⟨true, true⟩ root = (if root ∈ g.vertices then g.recursiveEvents root else []) ∧
      g.search l root = (g.search ⟨true, true⟩ root).filter l.hears := by
  by_cases hroot : root ∈ g.vertices
  · obtain ⟨⟨visited, hex⟩, hheard⟩ := exists_explores_search hroot
    rw [if_pos hroot]
    exact ⟨((explores_tour g [] [root]).unique hex).1, hheard l⟩
  · rw [if_neg hroot, search_of_not_mem _ hroot, search_of_not_mem _ hroot]
    exact ⟨rfl, rfl⟩

/-! ## Intervals of one search -/

theorem Explores.nodup_events (h : Explores g visited ws es visited') : es.Nodup :=
  nodup_of_entered_left (h.perm.nodup_iff.2 h.nodup.1) h.nodup.1

namespace Explores

/-- A vertex is visited before it is left. -/
theorem span (h : Explores g visited ws es visited') (hx : x ∈ left es) :
    [.visit x, .leave x].Sublist es := by
  induction h with
  | done => cases hx
  | skip _ _ ih => exact ih hx
  | enter _ _ _ ih₁ ih₂ =>
    rw [mem_left_enter] at hx
    rcases hx with hx | rfl | hx
    · exact (ih₁ hx).trans sublist_inner
    · exact sublist_enter (List.nil_sublist _) (List.nil_sublist _)
    · exact (ih₂ hx).trans sublist_rest

/-- The intervals of two vertices are nested or apart: what happens inside a vertex lies in its
interval, and what is tried after it lies behind. -/
theorem arranged (h : Explores g visited ws es visited') (hx : x ∈ left es) (hy : y ∈ left es)
    (hne : x ≠ y) : Arranged es x y := by
  induction h with
  | done => cases hx
  | skip _ _ ih => exact ih hx hy
  | @enter visited visited₁ visited₂ ws w es₁ es₂ _ inner rest ih₁ ih₂ =>
    -- the three ways in which the vertices can lie in different parts, up to exchanging them
    have hinside : ∀ {z}, z ∈ left es₁ → Arranged (.visit w :: (es₁ ++ .leave w :: es₂)) w z :=
      fun hz => .inl (.inl (sublist_enter (inner.span hz) (List.nil_sublist _)))
    have hbehind : ∀ {z}, z ∈ left es₂ → Arranged (.visit w :: (es₁ ++ .leave w :: es₂)) w z :=
      fun hz => .inr (.inl (sublist_enter (List.nil_sublist _) (rest.span hz)))
    have hacross : ∀ {z z'}, z ∈ left es₁ → z' ∈ left es₂ →
        Arranged (.visit w :: (es₁ ++ .leave w :: es₂)) z z' :=
      fun hz hz' => .inr (.inl (((inner.span hz).append ((rest.span hz').cons _)).cons _))
    rw [mem_left_enter] at hx hy
    rcases hx with hx | rfl | hx <;> rcases hy with hy | rfl | hy
    · exact (ih₁ hx hy).mono sublist_inner
    · exact (hinside hx).symm
    · exact hacross hx hy
    · exact hinside hy
    · exact absurd rfl hne
    · exact hbehind hy
    · exact (hacross hy hx).symm
    · exact (hbehind hx).symm
    · exact (ih₂ hx hy).mono sublist_rest

/-- When `x` is left, each of its successors has been left, or was visited before the search began,
or is still being explored around `x`. -/
theorem left_first (h : Explores g visited ws es visited') (hx : x ∈ left es)
    (hxy : y ∈ g.adjacent x) :
    y ∈ visited ∨ y = x ∨ [.leave y, .leave x].Sublist es ∨ Nested es y x := by
  induction h with
  | done => cases hx
  | skip _ _ ih => exact ih hx
  | @enter visited visited₁ visited₂ ws w es₁ es₂ _ inner rest ih₁ ih₂ =>
    have hleave : ∀ {z}, z ∈ left es₁ → [Event.leave z].Sublist es₁ :=
      fun hz => List.singleton_sublist.2 (mem_left_iff.1 hz)
    rw [mem_left_enter] at hx
    rcases hx with hx | rfl | hx
    · rcases ih₁ hx with hy | hy | hy | hy
      · -- inside `w`, the vertex `w` itself counts as visited before
        rcases List.mem_cons.1 hy with rfl | hy
        · exact .inr (.inr (.inr (sublist_enter (inner.span hx) (List.nil_sublist _))))
        · exact .inl hy
      · exact .inr (.inl hy)
      · exact .inr (.inr (.inl (hy.trans sublist_inner)))
      · exact .inr (.inr (.inr (hy.trans sublist_inner)))
    · rcases inner.mem_visited.1 (inner.tried hxy) with hy | hy
      · rcases List.mem_cons.1 hy with rfl | hy
        · exact .inr (.inl rfl)
        · exact .inl hy
      · refine .inr (.inr (.inl (.cons _ ?_)))
        exact (hleave hy).append (List.singleton_sublist.2 List.mem_cons_self)
    · have hlast : [Event.leave x].Sublist es₂ := List.singleton_sublist.2 (mem_left_iff.1 hx)
      rcases ih₂ hx with hy | hy | hy | hy
      · -- visited before the rest was tried: left inside `w`, or `w`, or visited from the start
        rcases inner.mem_visited.1 hy with hy | hy
        · rcases List.mem_cons.1 hy with rfl | hy
          · refine .inr (.inr (.inl (.cons _ ?_)))
            exact (hlast.cons_cons _).trans (List.sublist_append_right _ _)
          · exact .inl hy
        · exact .inr (.inr (.inl (((hleave hy).append (hlast.cons _)).cons _)))
      · exact .inr (.inl hy)
      · exact .inr (.inr (.inl (hy.trans sublist_rest)))
      · exact .inr (.inr (.inr (hy.trans sublist_rest)))

end Explores

/-! ## Positions -/

/-- The position of the visit of a vertex. -/
def visitedAt (es : List (Event V)) (v : V) : Nat := es.idxOf (.visit v)

/-- The position of the leave of a vertex. -/
def leftAt (es : List (Event V)) (v : V) : Nat := es.idxOf (.leave v)

/-- The interval of `u` holds that of `v`. -/
def Encloses (es : List (Event V)) (u v : V) : Prop :=
  visitedAt es u ≤ visitedAt es v ∧ leftAt es v ≤ leftAt es u

/-- The interval of `u` lies before that of `v`. -/
def Precedes (es : List (Event V)) (u v : V) : Prop := leftAt es u < visitedAt es v

theorem Encloses.refl (es : List (Event V)) (v : V) : Encloses es v v :=
  ⟨Nat.le_refl _, Nat.le_refl _⟩

/-- Events that occur in an order have positions in that order. -/
theorem pairwise_idxOf (hnd : es.Nodup) (hsub : es'.Sublist es) :
    es'.Pairwise fun a b => es.idxOf a < es.idxOf b :=
  (List.pairwise_iff_forall_sublist.2 fun h => idxOf_lt_of_sublist hnd h).sublist hsub

theorem Nested.encloses (hnd : es.Nodup) (h : Nested es x y) : Encloses es x y := by
  have hpos := pairwise_idxOf hnd h
  simp only [List.pairwise_cons, List.mem_cons, List.not_mem_nil, or_false, forall_eq_or_imp,
    forall_eq] at hpos
  exact ⟨Nat.le_of_lt hpos.1.1, Nat.le_of_lt hpos.2.2.1⟩

theorem Apart.precedes (hnd : es.Nodup) (h : Apart es x y) : Precedes es x y := by
  have hpos := pairwise_idxOf hnd h
  simp only [List.pairwise_cons, List.mem_cons, List.not_mem_nil, or_false, forall_eq_or_imp,
    forall_eq] at hpos
  exact hpos.2.1.1

/-! ## The search of a graph and of its reverse -/

theorem mem_reachable_iff :
    v ∈ g.reachable u ↔ u ∈ g.vertices ∧ Reaches g.Edge u v := by
  by_cases hu : u ∈ g.vertices
  · rw [mem_reachable hu, and_iff_right hu]
  · rw [reachable, search_of_not_mem _ hu]
    simp [hu]

theorem reaches_reverse : Reaches g.reverse.Edge v u ↔ Reaches g.Edge u v := by
  constructor
  · rintro ⟨p, hp⟩
    exact ⟨_, walk_reverse.1 hp⟩
  · rintro ⟨p, hp⟩
    refine ⟨p.reverse, walk_reverse.2 ?_⟩
    rwa [List.reverse_reverse]

/-- The reached vertices are those that the search leaves. -/
theorem mem_reachable_iff_left (hroot : root ∈ g.vertices) :
    v ∈ g.reachable root ↔ v ∈ left (g.search ⟨true, true⟩ root) := by
  obtain ⟨⟨visited, hex⟩, hheard⟩ := exists_explores_search hroot
  rw [reachable, hheard]
  exact hex.perm.mem_iff

section Reached

variable (hroot : root ∈ g.vertices)
include hroot

/-- A reached vertex is visited once and left once, in this order. -/
theorem interval_of_reachable (hv : v ∈ g.reachable root) :
    (g.search ⟨true, true⟩ root).count (.visit v) = 1 ∧
      (g.search ⟨true, true⟩ root).count (.leave v) = 1 ∧
      visitedAt (g.search ⟨true, true⟩ root) v < leftAt (g.search ⟨true, true⟩ root) v := by
  obtain ⟨⟨visited, hex⟩, -⟩ := exists_explores_search hroot
  have hspan := hex.span ((mem_reachable_iff_left hroot).1 hv)
  have hmem := hspan.subset
  exact ⟨List.count_eq_one_of_mem hex.nodup_events (hmem (by simp)),
    List.count_eq_one_of_mem hex.nodup_events (hmem (by simp)),
    idxOf_lt_of_sublist hex.nodup_events hspan⟩

theorem encloses_or_precedes (hu : u ∈ g.reachable root) (hv : v ∈ g.reachable root) :
    Encloses (g.search ⟨true, true⟩ root) u v ∨ Encloses (g.search ⟨true, true⟩ root) v u ∨
      Precedes (g.search ⟨true, true⟩ root) u v ∨ Precedes (g.search ⟨true, true⟩ root) v u := by
  obtain ⟨⟨visited, hex⟩, -⟩ := exists_explores_search hroot
  rw [mem_reachable_iff_left hroot] at hu hv
  by_cases huv : u = v
  · subst huv
    exact .inl (.refl _ u)
  rcases hex.arranged hu hv huv with (h | h) | h | h
  · exact .inl (h.encloses hex.nodup_events)
  · exact .inr (.inl (h.encloses hex.nodup_events))
  · exact .inr (.inr (.inl (h.precedes hex.nodup_events)))
  · exact .inr (.inr (.inr (h.precedes hex.nodup_events)))

/-- A successor is left before the vertex, unless the search is inside it: then the edge closes a
cycle. -/
theorem leftAt_lt_or_encloses (hu : u ∈ g.reachable root) (huv : g.Edge u v) :
    leftAt (g.search ⟨true, true⟩ root) v < leftAt (g.search ⟨true, true⟩ root) u ∨
      Encloses (g.search ⟨true, true⟩ root) v u := by
  obtain ⟨⟨visited, hex⟩, -⟩ := exists_explores_search hroot
  rw [mem_reachable_iff_left hroot] at hu
  rcases hex.left_first hu (mem_adjacent.2 huv) with h | rfl | h | h
  · cases h
  · exact .inr (.refl _ v)
  · exact .inl (idxOf_lt_of_sublist hex.nodup_events h)
  · exact .inr (h.encloses hex.nodup_events)

end Reached

/-- Turning every edge round turns reachability round. -/
theorem mem_reachable_reverse : u ∈ g.reverse.reachable v ↔ v ∈ g.reachable u := by
  rw [mem_reachable_iff, mem_reachable_iff]
  constructor
  · rintro ⟨hv, hreach⟩
    exact ⟨mem_vertices_reverse.1 (mem_vertices_of_reaches hreach hv), reaches_reverse.1 hreach⟩
  · rintro ⟨hu, hreach⟩
    exact ⟨mem_vertices_reverse.2 (mem_vertices_of_reaches hreach hu), reaches_reverse.2 hreach⟩

/-- **What a search says of the graph.** The vertices that a search reaches are those with a path
from the root, each once. Each of them has one interval, and two intervals are nested or apart. An
edge leads to a vertex that is left earlier or whose interval encloses that of the edge's source. A
graph is rooted iff one of its vertices has a path to all, and in the reverse graph the same pairs of
vertices reach each other the other way round. -/
theorem search_orders_vertices (g : Graph V) :
    (∀ root ∈ g.vertices,
      (g.reachable root).Nodup ∧ (∀ v, v ∈ g.reachable root ↔ Reaches g.Edge root v) ∧
        (∀ v ∈ g.reachable root,
          (g.search ⟨true, true⟩ root).count (.visit v) = 1 ∧
            (g.search ⟨true, true⟩ root).count (.leave v) = 1 ∧
            visitedAt (g.search ⟨true, true⟩ root) v < leftAt (g.search ⟨true, true⟩ root) v) ∧
        (∀ u ∈ g.reachable root, ∀ v ∈ g.reachable root,
          Encloses (g.search ⟨true, true⟩ root) u v ∨ Encloses (g.search ⟨true, true⟩ root) v u ∨
            Precedes (g.search ⟨true, true⟩ root) u v ∨
            Precedes (g.search ⟨true, true⟩ root) v u) ∧
        ∀ u ∈ g.reachable root, ∀ v, g.Edge u v →
          leftAt (g.search ⟨true, true⟩ root) v < leftAt (g.search ⟨true, true⟩ root) u ∨
            Encloses (g.search ⟨true, true⟩ root) v u) ∧
      (g.isRooted = true ↔ ∃ r ∈ g.vertices, ∀ v ∈ g.vertices, Reaches g.Edge r v) ∧
      ∀ u v, v ∈ g.reachable u ↔ u ∈ g.reverse.reachable v := by
  refine ⟨fun root hroot => ?_, isRooted_iff, fun u v => mem_reachable_reverse.symm⟩
  exact ⟨nodup_reachable hroot, fun v => mem_reachable hroot, fun v => interval_of_reachable hroot,
    fun u hu v hv => encloses_or_precedes hroot hu hv,
    fun u hu v huv => leftAt_lt_or_encloses hroot hu huv⟩

/-- A cycle with a self loop and a parallel edge, a way into it from the side, and a vertex without
edges. -/
def looping : Graph Nat := build [4] [(0, 1), (1, 1), (1, 2), (2, 0), (0, 1), (0, 3), (3, 2)]

theorem search_orders_looping :
    0 ∈ looping.vertices ∧ 2 ∈ looping.reachable 0 ∧ 3 ∈ looping.reachable 0 ∧
      (Encloses (looping.search ⟨true, true⟩ 0) 2 3 ∨ Encloses (looping.search ⟨true, true⟩ 0) 3 2 ∨
        Precedes (looping.search ⟨true, true⟩ 0) 2 3 ∨
        Precedes (looping.search ⟨true, true⟩ 0) 3 2) ∧
      looping.Edge 2 0 ∧
      (leftAt (looping.search ⟨true, true⟩ 0) 0 < leftAt (looping.search ⟨true, true⟩ 0) 2 ∨
        Encloses (looping.search ⟨true, true⟩ 0) 0 2) := by
  have hroot : 0 ∈ looping.vertices := by decide +kernel
  have h₂ : 2 ∈ looping.reachable 0 := by decide +kernel
  have h₃ : 3 ∈ looping.reachable 0 := by decide +kernel
  have hback : looping.Edge 2 0 := by
    unfold Edge
    decide +kernel
  obtain ⟨-, -, -, harranged, hleft⟩ := (search_orders_vertices looping).1 0 hroot
  exact ⟨hroot, h₂, h₃, harranged 2 h₂ 3 h₃, hback, hleft 2 h₂ 0 hback⟩

end AwaitLint.Graph
