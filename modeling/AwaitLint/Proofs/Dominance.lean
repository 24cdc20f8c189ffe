import AwaitLint.Proofs.DominatorTree

/-!
# AwaitLint — the dominator tree is dominance

`DomTree.build g root` answers questions about dominance from a table of parents. This module
shows that the answers are those that the walks of `g` from `root` give.

* **`ancestor_iff_dominates`** — in a settled tree the ancestors of a reached vertex are its
  dominators. Along a walk the ancestors of the vertices are met one by one
  (`mem_walk_of_ancestor`); conversely the invariant hands a dominator up to the parent.
* **`mem_dominators_build`**, **`pairwise_dominators_build`**, **`getLast?_dominators_build`** —
  the chain of parents lists the strict dominators, each dominated by those behind it, and ends
  at the root.
* **`build_represents_dominance`** — the headline: reachability, dominance, immediate dominators
  and chains of the built tree, all at once.
-/

namespace AwaitLint.DomTree

universe u

variable {V : Type u} [DecidableEq V] {g : Graph V} {root : V} {t : DomTree V} {a b d v x : V}

/-! ## Ancestors and dominators -/

/-- On a walk between reached vertices each ancestor of the end is met, unless it is an ancestor
of the start already. -/
theorem mem_walk_of_ancestor (h : Refining g root t) (hs : Settled g t) {p : List V}
    (hp : Walk g.Edge x v p) (hx : x ∈ t.order) (ha : Ancestor t a v) :
    a ∈ p ∨ Ancestor t a x := by
  induction hp with
  | single => exact .inr ha
  | @cons x y v p edge rest ih =>
    have hy : y ∈ t.order := h.numbered.mem_iff.2 ((h.numbered.mem_iff.1 hx).tail edge)
    rcases ih hy ha with hmem | hay
    · exact .inl (List.mem_cons_of_mem _ hmem)
    · -- an ancestor of `y` is `y` itself or lies above the parent of `y`, hence above `x`
      by_cases hne : a = y
      · subst hne
        exact .inl (List.mem_cons_of_mem _ rest.source_mem)
      · obtain ⟨d, hd, had⟩ := hay.of_ne hne
        exact .inr (had.trans (hs edge hx hd))

theorem ancestor_iff_dominates (h : Refining g root t) (hs : Settled g t) (hv : v ∈ t.order) :
    Ancestor t a v ↔ Dominates g.Edge root a v := by
  constructor
  · intro ha
    refine ⟨h.numbered.mem_iff.1 hv, fun p hp => ?_⟩
    have hroot : root ∈ t.order := h.numbered.mem_iff.2 (.refl _ root)
    rcases mem_walk_of_ancestor h hs hp hroot ha with hmem | har
    · exact hmem
    · -- the root is its only ancestor
      have : a = root := by
        by_contra hne
        obtain ⟨d, hd, -⟩ := har.of_ne hne
        rw [h.parent?_root] at hd
        cases hd
      rw [this]
      exact hp.source_mem
  · intro ha
    -- by induction on the number: the invariant makes `a` a dominator of the parent
    induction hn : t.number v using Nat.strongRecOn generalizing v with
    | ind n ih =>
      subst hn
      by_cases hne : a = v
      · rw [hne]
        exact .refl v
      · have hvr : v ≠ root := by
          rintro rfl
          exact hne (List.mem_singleton.1 (ha.2 _ (.single v)))
        obtain ⟨d, hd⟩ := h.total hv hvr
        exact .up hd (ih _ (h.parent_lt hd) (h.parent_mem hd) (h.dominated hd ⟨ha, hne⟩) rfl)

/-! ## Chains of parents -/

theorem dominators_of_parent (h : Refining g root t) (hp : t.parent? v = some d) :
    t.dominators v = d :: t.dominators d := by
  rw [dominators, h.above_of_parent hp]

theorem dominators_of_none (t : DomTree V) (hp : t.parent? v = none) : t.dominators v = [] := by
  have habove : t.above v = none := by
    rw [above]
    split
    · rfl
    · rename_i hq
      rw [hp] at hq
      cases hq
  rw [dominators, habove]

theorem idom_eq_ok_iff : t.idom v = .ok d ↔ t.parent? v = some d := by
  rw [idom]
  split
  · rename_i p hp
    rw [hp, Except.ok.injEq, Option.some.injEq]
  · rename_i hp
    rw [hp]
    exact ⟨nofun, nofun⟩

/-- The chain of a vertex lists the ancestors of its parent. -/
theorem mem_dominators (h : Refining g root t) :
    a ∈ t.dominators v ↔ ∃ d, t.parent? v = some d ∧ Ancestor t a d := by
  induction hn : t.number v using Nat.strongRecOn generalizing v with
  | ind n ih =>
    subst hn
    cases hp : t.parent? v with
    | none => simp [t.dominators_of_none hp]
    | some d =>
      rw [dominators_of_parent h hp, List.mem_cons, ih _ (h.parent_lt hp) rfl]
      constructor
      · rintro (rfl | ⟨c, hc, hac⟩)
        · exact ⟨a, rfl, .refl a⟩
        · exact ⟨d, rfl, .up hc hac⟩
      · rintro ⟨c, hc, hac⟩
        cases hc
        by_cases hne : a = d
        · exact .inl hne
        · exact .inr (hac.of_ne hne)

/-- A member of a chain lies above what comes before it. -/
theorem pairwise_dominators (h : Refining g root t) (v : V) :
    (t.dominators v).Pairwise fun a b => b ≠ a ∧ Ancestor t b a := by
  induction hn : t.number v using Nat.strongRecOn generalizing v with
  | ind n ih =>
    subst hn
    cases hp : t.parent? v with
    | none =>
      rw [t.dominators_of_none hp]
      exact .nil
    | some d =>
      rw [dominators_of_parent h hp]
      refine .cons (fun b hb => ?_) (ih _ (h.parent_lt hp) d rfl)
      obtain ⟨c, hc, hbc⟩ := (mem_dominators h).1 hb
      refine ⟨?_, .up hc hbc⟩
      rintro rfl
      exact Nat.lt_irrefl _ (Nat.lt_of_le_of_lt (h.ancestor_le hbc) (h.parent_lt hc))

/-- The chain of a reached vertex ends at the root. -/
theorem getLast?_dominators (h : Refining g root t) (hv : v ∈ t.order) (hne : v ≠ root) :
    (t.dominators v).getLast? = some root := by
  induction hn : t.number v using Nat.strongRecOn generalizing v with
  | ind n ih =>
    subst hn
    obtain ⟨d, hd⟩ := h.total hv hne
    rw [dominators_of_parent h hd]
    by_cases hdr : d = root
    · rw [hdr, t.dominators_of_none h.parent?_root]
      rfl
    · have hlast := ih _ (h.parent_lt hd) (h.parent_mem hd) hdr rfl
      rw [List.getLast?_cons, hlast]
      rfl

/-! ## The built tree in terms of walks -/

section Build

variable (g) (hroot : root ∈ g.vertices)

include hroot

theorem mem_order_build : v ∈ (build g root).order ↔ Reaches g.Edge root v :=
  (refining_and_settled_build g hroot).1.numbered.mem_iff

theorem exists_parent?_build :
    (∃ d, (build g root).parent? v = some d) ↔ Reaches g.Edge root v ∧ v ≠ root := by
  obtain ⟨h, -⟩ := refining_and_settled_build g hroot
  constructor
  · rintro ⟨d, hd⟩
    refine ⟨h.numbered.mem_iff.1 (h.child_mem hd), ?_⟩
    rintro rfl
    rw [h.parent?_root] at hd
    cases hd
  · rintro ⟨hv, hne⟩
    exact h.total (h.numbered.mem_iff.2 hv) hne

theorem mem_dominators_build :
    a ∈ (build g root).dominators v ↔ StrictlyDominates g.Edge root a v := by
  obtain ⟨h, hs⟩ := refining_and_settled_build g hroot
  rw [mem_dominators h]
  constructor
  · rintro ⟨d, hd, had⟩
    refine ⟨(ancestor_iff_dominates h hs (h.child_mem hd)).1 (.up hd had), ?_⟩
    rintro rfl
    exact Nat.lt_irrefl _ (Nat.lt_of_le_of_lt (h.ancestor_le had) (h.parent_lt hd))
  · rintro ⟨hav, hne⟩
    exact ((ancestor_iff_dominates h hs (h.numbered.mem_iff.2 hav.1)).2 hav).of_ne hne

/-- Each member of a chain is strictly dominated by those behind it. -/
theorem pairwise_dominators_build (v : V) :
    ((build g root).dominators v).Pairwise fun a b => StrictlyDominates g.Edge root b a := by
  obtain ⟨h, hs⟩ := refining_and_settled_build g hroot
  refine (pairwise_dominators h v).imp_of_mem fun {a b} ha _ hab => ?_
  have hmem : a ∈ (build g root).order :=
    h.numbered.mem_iff.2 ((mem_dominators_build g hroot).1 ha).1.reaches
  exact ⟨(ancestor_iff_dominates h hs hmem).1 hab.2, hab.1⟩

theorem nodup_dominators_build (v : V) : ((build g root).dominators v).Nodup :=
  (pairwise_dominators_build g hroot v).imp fun hab => Ne.symm hab.2

theorem getLast?_dominators_build (hv : Reaches g.Edge root v) (hne : v ≠ root) :
    ((build g root).dominators v).getLast? = some root := by
  obtain ⟨h, -⟩ := refining_and_settled_build g hroot
  exact getLast?_dominators h (h.numbered.mem_iff.2 hv) hne

/-- The parent of a vertex is the strict dominator that all strict dominators dominate. -/
theorem parent?_build_eq_some_iff :
    (build g root).parent? v = some d ↔
      StrictlyDominates g.Edge root d v ∧
        ∀ a, StrictlyDominates g.Edge root a v → Dominates g.Edge root a d := by
  obtain ⟨h, -⟩ := refining_and_settled_build g hroot
  have hnear : ∀ {c}, (build g root).parent? v = some c → StrictlyDominates g.Edge root c v ∧
      ∀ a, StrictlyDominates g.Edge root a v → Dominates g.Edge root a c := by
    intro c hc
    refine ⟨?_, fun a ha => h.dominated hc ha⟩
    rw [← mem_dominators_build g hroot, dominators_of_parent h hc]
    exact List.mem_cons_self
  refine ⟨hnear, fun ⟨hd, hall⟩ => ?_⟩
  have hvr : v ≠ root := by
    rintro rfl
    exact hd.2 (List.mem_singleton.1 (hd.1.2 _ (.single v)))
  obtain ⟨c, hc⟩ := (exists_parent?_build g hroot).2 ⟨hd.1.1, hvr⟩
  obtain ⟨hcv, hcall⟩ := hnear hc
  rw [hc, (hall c hcv).antisymm (hcall d hd)]

end Build

/-! ## The headline -/

/-- **The built tree is the dominance relation.** For every graph and every vertex of it as the
root: the tree reaches what walks reach; it says that `a` dominates `b` exactly when both are
reached and every walk to `b` meets `a`; an immediate dominator exists exactly for the reached
vertices other than the root, and is the strict dominator that all strict dominators dominate;
and the chain of a vertex lists its strict dominators once each, nearest first, down to the
root. -/
theorem build_represents_dominance (g : Graph V) (root : V) (hroot : root ∈ g.vertices) :
    (∀ v, (build g root).reaches v = true ↔ Reaches g.Edge root v) ∧
    (∀ a b, (build g root).dominates a b = true ↔
      Reaches g.Edge root a ∧ Reaches g.Edge root b ∧ ∀ p, Walk g.Edge root b p → a ∈ p) ∧
    (∀ v, (∃ d, (build g root).idom v = .ok d) ↔ Reaches g.Edge root v ∧ v ≠ root) ∧
    (∀ v d, (build g root).idom v = .ok d ↔
      StrictlyDominates g.Edge root d v ∧
        ∀ a, StrictlyDominates g.Edge root a v → Dominates g.Edge root a d) ∧
    (∀ v, (∀ a, a ∈ (build g root).dominators v ↔ StrictlyDominates g.Edge root a v) ∧
      ((build g root).dominators v).Nodup ∧
      ((build g root).dominators v).Pairwise (fun a b => StrictlyDominates g.Edge root b a) ∧
      (Reaches g.Edge root v → v ≠ root →
        ((build g root).dominators v).getLast? = some root) ∧
      (v = root ∨ ¬ Reaches g.Edge root v → (build g root).dominators v = [])) := by
  refine ⟨?_, ?_, ?_, ?_, ?_⟩
  · intro v
    rw [reaches_iff_mem, mem_order_build g hroot]
  · intro a b
    rw [dominates, Bool.and_eq_true, Bool.and_eq_true, reaches_iff_mem, reaches_iff_mem,
      mem_order_build g hroot, mem_order_build g hroot, Bool.or_eq_true, decide_eq_true_eq,
      List.contains_iff_mem, mem_dominators_build g hroot, and_assoc]
    refine and_congr_right fun _ => and_congr_right fun hb => ?_
    constructor
    · rintro (rfl | hab)
      · exact fun p hp => hp.target_mem
      · exact hab.1.2
    · intro hall
      by_cases hne : a = b
      · exact .inl hne
      · exact .inr ⟨⟨hb, hall⟩, hne⟩
  · intro v
    rw [← exists_parent?_build g hroot]
    exact exists_congr fun d => idom_eq_ok_iff
  · intro v d
    rw [idom_eq_ok_iff, parent?_build_eq_some_iff g hroot]
  · intro v
    refine ⟨fun a => mem_dominators_build g hroot, nodup_dominators_build g hroot v,
      pairwise_dominators_build g hroot v, getLast?_dominators_build g hroot, fun hv => ?_⟩
    refine dominators_of_none _ (Option.eq_none_iff_forall_ne_some.2 fun d hd => ?_)
    obtain ⟨hreach, hne⟩ := (exists_parent?_build g hroot).1 ⟨d, hd⟩
    rcases hv with hv | hv
    · exact hne hv
    · exact hv hreach

/-- A diamond whose end loops back to one side, with a vertex that nothing reaches. -/
def loopedDiamond : Graph Nat :=
  Graph.build [5] [(0, 1), (0, 2), (1, 3), (2, 3), (3, 1), (3, 3), (4, 3)]

theorem dominance_in_loopedDiamond :
    0 ∈ loopedDiamond.vertices ∧ (build loopedDiamond 0).dominates 0 3 = true ∧
      (build loopedDiamond 0).dominates 1 3 = false := by
  have hroot : 0 ∈ loopedDiamond.vertices := by decide
  obtain ⟨-, hdom, -⟩ := build_represents_dominance loopedDiamond 0 hroot
  -- the walk round vertex 1
  have hwalk : Walk loopedDiamond.Edge 0 3 [0, 2, 3] :=
    .cons (by decide : (0, 2) ∈ loopedDiamond.edges)
      (.cons (by decide : (2, 3) ∈ loopedDiamond.edges) (.single 3))
  refine ⟨hroot, (hdom 0 3).2 ⟨.refl _ 0, ⟨_, hwalk⟩, fun p hp => hp.source_mem⟩, ?_⟩
  rw [Bool.eq_false_iff]
  intro h
  have := ((hdom 1 3).1 h).2.2 _ hwalk
  simp at this

end AwaitLint.DomTree
