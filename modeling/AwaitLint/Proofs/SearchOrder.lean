import AwaitLint.Graph.Search
import AwaitLint.Proofs.Walk
import Mathlib.Data.List.Basic
import Mathlib.Data.List.Perm.Subperm

/-!
# AwaitLint — what a depth-first search lists

The loop `Graph.explore` works on a stack of half-tried vertices. `Explores` is the recursive
reading of the same search: it relates the vertices visited so far and a list of successors to
try to the events this causes and the vertices visited afterwards.

* **`exists_explores`** — the loop runs the recursive search of its top frame, leaves the vertex
  of that frame, and goes on with the frames below. The induction is on `Graph.pending`, the
  measure of the loop.
* **`Explores.mem_visited`**, **`Explores.closed`**, **`Explores.reaches`** — a recursive search
  adds exactly the vertices it leaves, and these are closed under successors and reached.
* **`Explores.left_before_parent`** — a vertex that is not among the tried ones was entered
  along an edge, and is left before the source of that edge.
* **`reversePostOrder`** — the headline: the reversed order of leaving numbers exactly the reached
  vertices, the root first, each other one after one of its predecessors.
-/

namespace AwaitLint.Graph

universe u

variable {V : Type u}

/-! ## Visits and leaves of a list of events -/

/-- The vertices visited, in order. -/
def entered (es : List (Event V)) : List V :=
  (es.filter (Listener.hears ⟨true, false⟩)).map Event.vertex

/-- The vertices left, in order. -/
def left (es : List (Event V)) : List V :=
  (es.filter (Listener.hears ⟨false, true⟩)).map Event.vertex

@[simp] theorem entered_nil : entered ([] : List (Event V)) = [] := rfl

@[simp] theorem left_nil : left ([] : List (Event V)) = [] := rfl

@[simp] theorem entered_visit (v : V) (es : List (Event V)) :
    entered (.visit v :: es) = v :: entered es := rfl

@[simp] theorem entered_leave (v : V) (es : List (Event V)) :
    entered (.leave v :: es) = entered es := rfl

@[simp] theorem left_visit (v : V) (es : List (Event V)) : left (.visit v :: es) = left es := rfl

@[simp] theorem left_leave (v : V) (es : List (Event V)) :
    left (.leave v :: es) = v :: left es := rfl

@[simp] theorem entered_append (es fs : List (Event V)) :
    entered (es ++ fs) = entered es ++ entered fs := by
  simp [entered]

@[simp] theorem left_append (es fs : List (Event V)) : left (es ++ fs) = left es ++ left fs := by
  simp [left]

theorem filter_cons_hears (l : Listener) (e : Event V) (es : List (Event V)) :
    (e :: es).filter l.hears = l.report e ++ es.filter l.hears := by
  rw [List.filter_cons, Listener.report]
  split <;> rfl

variable [DecidableEq V]

/-! ## The recursive search -/

/-- `Explores g visited ws es visited'`: trying the vertices `ws` one after the other, with
`visited` visited already, causes the events `es` and ends with `visited'` visited. -/
inductive Explores (g : Graph V) : List V → List V → List (Event V) → List V → Prop where
  | done (visited : List V) : Explores g visited [] [] visited
  | skip {visited visited' ws : List V} {w : V} {es : List (Event V)} (hw : w ∈ visited)
      (rest : Explores g visited ws es visited') : Explores g visited (w :: ws) es visited'
  | enter {visited visited₁ visited₂ ws : List V} {w : V} {es₁ es₂ : List (Event V)}
      (hw : w ∉ visited) (inner : Explores g (w :: visited) (g.adjacent w) es₁ visited₁)
      (rest : Explores g visited₁ ws es₂ visited₂) :
      Explores g visited (w :: ws) (.visit w :: (es₁ ++ .leave w :: es₂)) visited₂

namespace Explores

variable {g : Graph V} {visited visited' ws : List V} {es : List (Event V)} {x y : V}

/-- The visited vertices are those from before and those left meanwhile. -/
theorem mem_visited (h : Explores g visited ws es visited') :
    x ∈ visited' ↔ x ∈ visited ∨ x ∈ left es := by
  induction h with
  | done => simp
  | skip _ _ ih => exact ih
  | enter _ _ _ ih₁ ih₂ =>
    rw [ih₂, ih₁]
    simp only [left_visit, left_append, left_leave, List.mem_append, List.mem_cons]
    constructor
    · rintro (((h | h) | h) | h)
      · exact .inr (.inr (.inl h))
      · exact .inl h
      · exact .inr (.inl h)
      · exact .inr (.inr (.inr h))
    · rintro (h | h | h | h)
      · exact .inl (.inl (.inr h))
      · exact .inl (.inr h)
      · exact .inl (.inl (.inl h))
      · exact .inr h

theorem subset (h : Explores g visited ws es visited') (hx : x ∈ visited) : x ∈ visited' :=
  h.mem_visited.2 (.inl hx)

theorem tried (h : Explores g visited ws es visited') (hx : x ∈ ws) : x ∈ visited' := by
  induction h with
  | done => cases hx
  | skip hw rest ih =>
    rcases List.mem_cons.1 hx with rfl | hx
    · exact rest.subset hw
    · exact ih hx
  | enter _ inner rest _ ih₂ =>
    rcases List.mem_cons.1 hx with rfl | hx
    · exact rest.subset (inner.subset List.mem_cons_self)
    · exact ih₂ hx

/-- A vertex is left once all its successors have been visited. -/
theorem closed (h : Explores g visited ws es visited') (hx : x ∈ left es) (hxy : y ∈ g.adjacent x) :
    y ∈ visited' := by
  induction h with
  | done => cases hx
  | skip _ _ ih => exact ih hx
  | enter _ inner rest ih₁ ih₂ =>
    simp only [left_visit, left_append, left_leave, List.mem_append, List.mem_cons] at hx
    rcases hx with hx | rfl | hx
    · exact rest.subset (ih₁ hx)
    · exact rest.subset (inner.tried hxy)
    · exact ih₂ hx

theorem perm (h : Explores g visited ws es visited') : (entered es).Perm (left es) := by
  induction h with
  | done => exact .refl _
  | skip _ _ ih => exact ih
  | enter _ _ _ ih₁ ih₂ =>
    simp only [entered_visit, entered_append, entered_leave, left_visit, left_append, left_leave]
    exact ((ih₁.append ih₂).cons _).trans List.perm_middle.symm

/-- No vertex is left twice, and none that had been visited before. -/
theorem nodup (h : Explores g visited ws es visited') :
    (left es).Nodup ∧ ∀ x ∈ left es, x ∉ visited := by
  induction h with
  | done => simp
  | skip _ _ ih => exact ih
  | @enter visited visited₁ visited₂ ws w es₁ es₂ hw inner _ ih₁ ih₂ =>
    obtain ⟨hnd₁, hnew₁⟩ := ih₁
    obtain ⟨hnd₂, hnew₂⟩ := ih₂
    simp only [left_visit, left_append, left_leave]
    -- what the inner exploration leaves was new then, and is visited by the time of the rest
    have hw₁ : w ∉ left es₁ := fun h => hnew₁ w h List.mem_cons_self
    have hw₂ : w ∉ left es₂ := fun h => hnew₂ w h (inner.subset List.mem_cons_self)
    have hdisj : ∀ x ∈ left es₁, x ∉ left es₂ :=
      fun x h₁ h₂ => hnew₂ x h₂ (inner.mem_visited.2 (.inr h₁))
    refine ⟨List.nodup_append.2 ⟨hnd₁, List.nodup_cons.2 ⟨hw₂, hnd₂⟩, ?_⟩, ?_⟩
    · intro x hx y hy hxy
      subst hxy
      rcases List.mem_cons.1 hy with rfl | hy
      · exact hw₁ hx
      · exact hdisj x hx hy
    · intro x hx
      rcases List.mem_append.1 hx with hx | hx
      · exact fun hv => hnew₁ x hx (List.mem_cons_of_mem _ hv)
      · rcases List.mem_cons.1 hx with rfl | hx
        · exact hw
        · exact fun hv => hnew₂ x hx (inner.subset (List.mem_cons_of_mem _ hv))

theorem reaches (h : Explores g visited ws es visited') (hx : x ∈ left es) :
    ∃ w ∈ ws, Reaches g.Edge w x := by
  induction h with
  | done => cases hx
  | skip _ _ ih =>
    obtain ⟨w, hw, hr⟩ := ih hx
    exact ⟨w, List.mem_cons_of_mem _ hw, hr⟩
  | @enter visited visited₁ visited₂ ws w es₁ es₂ _ _ _ ih₁ ih₂ =>
    simp only [left_visit, left_append, left_leave, List.mem_append, List.mem_cons] at hx
    rcases hx with hx | rfl | hx
    · obtain ⟨y, hy, p, hp⟩ := ih₁ hx
      exact ⟨w, List.mem_cons_self, _, .cons (mem_adjacent.1 hy) hp⟩
    · exact ⟨x, List.mem_cons_self, .refl _ x⟩
    · obtain ⟨y, hy, hr⟩ := ih₂ hx
      exact ⟨y, List.mem_cons_of_mem _ hy, hr⟩

/-- A vertex that is left is one of those tried, or was entered along an edge whose source is
left after it. -/
theorem left_before_parent (h : Explores g visited ws es visited') (hx : x ∈ left es) :
    x ∈ ws ∨ ∃ u, g.Edge u x ∧ [x, u].Sublist (left es) := by
  induction h with
  | done => cases hx
  | skip _ _ ih =>
    rcases ih hx with hx | hx
    · exact .inl (List.mem_cons_of_mem _ hx)
    · exact .inr hx
  | @enter visited visited₁ visited₂ ws w es₁ es₂ _ _ _ ih₁ ih₂ =>
    simp only [left_visit, left_append, left_leave, List.mem_append, List.mem_cons] at hx ⊢
    rcases hx with hx | rfl | hx
    · -- inside `w`: a successor of `w` itself, or entered from further inside
      right
      rcases ih₁ hx with hadj | ⟨u, hu, hsub⟩
      · refine ⟨w, mem_adjacent.1 hadj, ?_⟩
        exact (List.singleton_sublist.2 hx).append (List.singleton_sublist.2 List.mem_cons_self)
      · exact ⟨u, hu, hsub.trans (List.sublist_append_left _ _)⟩
    · exact .inl (.inl rfl)
    · rcases ih₂ hx with hx | ⟨u, hu, hsub⟩
      · exact .inl (.inr hx)
      · refine .inr ⟨u, hu, hsub.trans ?_⟩
        exact (List.sublist_cons_self _ _).trans (List.sublist_append_right _ _)

end Explores

/-! ## The loop runs the recursive search -/

/-- The more is visited, the less is left to do. -/
theorem pending_anti (g : Graph V) {visited visited' : List V} (stack : List (Frame V))
    (h : ∀ x ∈ visited, x ∈ visited') : g.pending visited' stack ≤ g.pending visited stack := by
  have hsub : (g.rows.filter fun r => r.1 ∉ visited').Sublist
      (g.rows.filter fun r => r.1 ∉ visited) := by
    refine List.monotone_filter_right g.rows fun r hr => ?_
    rw [decide_eq_true_eq] at hr ⊢
    exact fun hv => hr (h r.1 hv)
  have htotal := total_le_of_sublist (fun r : V × List V => 2 * r.2.length + 2) hsub
  simp only [pending]
  omega

/-- Exploring a stack explores its top frame recursively, leaves the vertex of that frame and
goes on below it. The events do not depend on the listener, which only filters them. -/
theorem exists_explores (g : Graph V) (visited : List V) (v : V) (ws : List V) :
    ∃ es visited', Explores g visited ws es visited' ∧
      ∀ l stack, g.explore l visited (⟨v, ws⟩ :: stack)
        = es.filter l.hears ++ (l.report (.leave v) ++ g.explore l visited' stack) := by
  -- the measure is that of the loop, of the top frame alone: what lies below is not touched
  induction hn : g.pending visited [⟨v, ws⟩] using Nat.strongRecOn generalizing visited v ws with
  | ind n ih =>
    subst hn
    cases ws with
    | nil =>
      refine ⟨[], visited, .done visited, fun l stack => ?_⟩
      rw [explore]
      rfl
    | cons w ws =>
      by_cases hw : w ∈ visited
      · have hlt : g.pending visited [⟨v, ws⟩] < g.pending visited [⟨v, w :: ws⟩] := by
          simp only [pending, total_cons, List.length_cons]
          omega
        obtain ⟨es, visited', hex, heq⟩ := ih _ hlt visited v ws rfl
        refine ⟨es, visited', .skip hw hex, fun l stack => ?_⟩
        rw [explore, if_pos hw, heq]
      · -- the frame of `w` first, then the rest of the frame of `v`
        have hvisit : g.pending (w :: visited) [⟨w, g.adjacent w⟩, ⟨v, ws⟩]
            < g.pending visited [⟨v, w :: ws⟩] := pending_visit_lt g [] hw
        have hlt₁ : g.pending (w :: visited) [⟨w, g.adjacent w⟩]
            < g.pending visited [⟨v, w :: ws⟩] := by
          refine Nat.lt_of_le_of_lt ?_ hvisit
          simp only [pending, total_cons, total_nil]
          omega
        obtain ⟨es₁, visited₁, hex₁, heq₁⟩ := ih _ hlt₁ (w :: visited) w (g.adjacent w) rfl
        have hlt₂ : g.pending visited₁ [⟨v, ws⟩] < g.pending visited [⟨v, w :: ws⟩] := by
          have hle := pending_anti g [⟨v, ws⟩] fun x (hx : x ∈ visited) =>
            hex₁.subset (List.mem_cons_of_mem w hx)
          refine Nat.lt_of_le_of_lt hle ?_
          simp only [pending, total_cons, List.length_cons]
          omega
        obtain ⟨es₂, visited₂, hex₂, heq₂⟩ := ih _ hlt₂ visited₁ v ws rfl
        refine ⟨_, visited₂, .enter hw hex₁ hex₂, fun l stack => ?_⟩
        rw [explore, if_neg hw, heq₁, heq₂, filter_cons_hears, List.filter_append,
          filter_cons_hears]
        simp only [List.append_assoc]

/-- A search from a vertex visits it, explores its successors and leaves it. -/
theorem exists_search_eq (g : Graph V) {root : V} (hroot : root ∈ g.vertices) :
    ∃ es visited, Explores g [root] (g.adjacent root) es visited ∧
      ∀ l, g.search l root = (.visit root :: (es ++ [.leave root])).filter l.hears := by
  obtain ⟨es, visited, hex, heq⟩ := g.exists_explores [root] root (g.adjacent root)
  refine ⟨es, visited, hex, fun l => ?_⟩
  rw [search, if_pos (has_iff.2 hroot), heq, filter_cons_hears, List.filter_append,
    filter_cons_hears, explore]
  rfl

/-! ## Reached vertices -/

/-- The visited vertices of a search from `root` are closed under successors and reached. -/
theorem Explores.mem_iff_reaches {g : Graph V} {root x : V} {es : List (Event V)}
    {visited : List V} (h : Explores g [root] (g.adjacent root) es visited) :
    x ∈ visited ↔ Reaches g.Edge root x := by
  constructor
  · intro hx
    rcases h.mem_visited.1 hx with hx | hx
    · rw [List.mem_singleton.1 hx]
      exact .refl _ root
    · obtain ⟨w, hw, p, hp⟩ := h.reaches hx
      exact ⟨_, .cons (mem_adjacent.1 hw) hp⟩
  · intro hx
    refine hx.closed (· ∈ visited) (fun {a b} ha hab => ?_) (h.subset (List.mem_singleton_self root))
    rcases h.mem_visited.1 ha with ha | ha
    · rw [List.mem_singleton.1 ha] at hab
      exact h.tried (mem_adjacent.2 hab)
    · exact h.closed ha (mem_adjacent.2 hab)

/-- The listed vertices are the root and those the search enters. -/
theorem exists_reachable_eq (g : Graph V) {root : V} (hroot : root ∈ g.vertices) :
    ∃ es visited, Explores g [root] (g.adjacent root) es visited ∧
      g.reachable root = root :: entered es := by
  obtain ⟨es, visited, hex, heq⟩ := g.exists_search_eq hroot
  refine ⟨es, visited, hex, ?_⟩
  rw [reachable, heq]
  show entered (.visit root :: (es ++ [.leave root])) = _
  simp

theorem mem_reachable {g : Graph V} {root x : V} (hroot : root ∈ g.vertices) :
    x ∈ g.reachable root ↔ Reaches g.Edge root x := by
  obtain ⟨es, visited, hex, hlist⟩ := g.exists_reachable_eq hroot
  rw [hlist, List.mem_cons, hex.perm.mem_iff, ← hex.mem_iff_reaches, hex.mem_visited,
    List.mem_singleton]

theorem nodup_reachable {g : Graph V} {root : V} (hroot : root ∈ g.vertices) :
    (g.reachable root).Nodup := by
  obtain ⟨es, visited, hex, hlist⟩ := g.exists_reachable_eq hroot
  obtain ⟨hnd, hnew⟩ := hex.nodup
  rw [hlist, (hex.perm.cons root).nodup_iff, List.nodup_cons]
  exact ⟨fun hr => hnew root hr (List.mem_singleton_self root), hnd⟩

theorem search_of_not_mem {g : Graph V} {root : V} (l : Listener) (hroot : root ∉ g.vertices) :
    g.search l root = [] := by
  rw [search, if_neg fun h => hroot (has_iff.1 h)]

/-- A vertex whose search lists as many vertices as there are reaches them all. -/
theorem isRooted_iff {g : Graph V} :
    g.isRooted = true ↔ ∃ r ∈ g.vertices, ∀ v ∈ g.vertices, Reaches g.Edge r v := by
  unfold isRooted
  rw [List.any_eq_true]
  refine exists_congr fun r => and_congr_right fun hr => ?_
  have hsub : ∀ v ∈ g.reachable r, v ∈ g.vertices := fun v hv =>
    mem_vertices_of_reaches ((mem_reachable hr).1 hv) hr
  have hsize : g.size = g.vertices.length := by simp [size, vertices]
  rw [beq_iff_eq, hsize]
  constructor
  · intro hlen v hv
    have hperm : (g.reachable r).Perm g.vertices :=
      (List.subperm_of_subset (nodup_reachable hr) hsub).perm_of_length_le (Nat.le_of_eq hlen.symm)
    exact (mem_reachable hr).1 (hperm.mem_iff.2 hv)
  · intro hall
    have hperm : (g.reachable r).Perm g.vertices := by
      rw [List.perm_ext_iff_of_nodup (nodup_reachable hr) g.vertices_nodup]
      exact fun v => ⟨hsub v, fun hv => (mem_reachable hr).2 (hall v hv)⟩
    exact hperm.length_eq

/-! ## Reverse post-order -/

/-- `order` numbers the vertices reached from `root` by their positions: the root first, each
other vertex after one of its predecessors. -/
structure IsReversePostOrder (g : Graph V) (root : V) (order : List V) : Prop where
  nodup : order.Nodup
  mem_iff : ∀ {v}, v ∈ order ↔ Reaches g.Edge root v
  root_first : order.idxOf root = 0
  exists_pred : ∀ {v}, v ∈ order → v ≠ root →
    ∃ u ∈ order, g.Edge u v ∧ order.idxOf u < order.idxOf v

/-- Of two members of a list without repetition, the one that comes first has the smaller
position. -/
theorem idxOf_lt_of_sublist {l : List V} (hnd : l.Nodup) {u v : V} (h : [u, v].Sublist l) :
    l.idxOf u < l.idxOf v := by
  induction l with
  | nil => cases h
  | cons x l ih =>
    rw [List.nodup_cons] at hnd
    cases h with
    | cons _ h =>
      have hu : x ≠ u := by
        rintro rfl
        exact hnd.1 (h.subset List.mem_cons_self)
      have hv : x ≠ v := by
        rintro rfl
        exact hnd.1 (h.subset (by simp))
      have := ih hnd.2 h
      simp only [List.idxOf_cons, beq_eq_false_iff_ne.2 hu, beq_eq_false_iff_ne.2 hv, cond_false]
      omega
    | cons_cons _ h =>
      have hv : u ≠ v := by
        rintro rfl
        exact hnd.1 (h.subset List.mem_cons_self)
      simp only [List.idxOf_cons, beq_self_eq_true, beq_eq_false_iff_ne.2 hv, cond_true,
        cond_false]
      omega

/-- The reversed order of leaving is a reverse post-order. A vertex is left before the vertex it
was entered from, so reversed it comes after that one. -/
theorem reversePostOrder (g : Graph V) {root : V} (hroot : root ∈ g.vertices) :
    IsReversePostOrder g root (g.postOrder root).reverse := by
  obtain ⟨es, visited, hex, heq⟩ := g.exists_search_eq hroot
  have hlist : (g.postOrder root).reverse = root :: (left es).reverse := by
    rw [postOrder, heq]
    show (left (.visit root :: (es ++ [.leave root]))).reverse = _
    simp
  rw [hlist]
  obtain ⟨hnd, hnew⟩ := hex.nodup
  have hroot' : root ∉ left es := fun h => hnew root h (List.mem_singleton_self root)
  have hnodup : (root :: (left es).reverse).Nodup := by
    rw [List.nodup_cons, List.mem_reverse]
    exact ⟨hroot', (List.reverse_perm _).nodup_iff.2 hnd⟩
  refine ⟨hnodup, ?_, List.idxOf_cons_self, ?_⟩
  · intro v
    rw [← hex.mem_iff_reaches, hex.mem_visited, List.mem_cons, List.mem_reverse,
      List.mem_singleton]
  · intro v hv hne
    have hleft : v ∈ left es := List.mem_reverse.1 ((List.mem_cons.1 hv).resolve_left hne)
    rcases hex.left_before_parent hleft with hadj | ⟨u, hu, hsub⟩
    · -- entered from the root
      refine ⟨root, List.mem_cons_self, mem_adjacent.1 hadj, ?_⟩
      refine idxOf_lt_of_sublist hnodup (.cons_cons root ?_)
      exact List.singleton_sublist.2 (List.mem_reverse.2 hleft)
    · have hrev : [u, v].Sublist (left es).reverse := by
        rw [← List.reverse_sublist]
        simpa using hsub
      refine ⟨u, List.mem_cons_of_mem _ (hrev.subset List.mem_cons_self), hu, ?_⟩
      exact idxOf_lt_of_sublist hnodup (hrev.trans (List.sublist_cons_self _ _))

end AwaitLint.Graph
