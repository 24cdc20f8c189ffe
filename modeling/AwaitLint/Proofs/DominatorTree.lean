import AwaitLint.Graph.Dominance
import AwaitLint.Proofs.RepeatedPasses
import AwaitLint.Proofs.SearchOrder
import Mathlib.Data.List.Basic

/-!
# AwaitLint — refining a dominator tree

`DomTree.build` seeds every reached vertex with an arbitrary predecessor of smaller number and
then relaxes edges in the order of the vertices until nothing moves. This module follows the tree
from the seed to the fixpoint; that the fixpoint is dominance is shown in
`AwaitLint/Proofs/Dominance.lean`.

## The architecture

* **`Refining`** — the invariant of the half-refined tree: every reached vertex but the root has
  a parent of smaller number, and every strict dominator of a vertex dominates its parent. The
  seed has it (`refining_seed`) and one relaxation keeps it (`Refining.relax`).
* **`Refining.meets`**, **`Refining.dominates_of_meets`** — climbing from two vertices ends, at a
  common ancestor, and never passes a common dominator: the vertex that climbs has the larger
  number, so it cannot be a dominator of the other one.
* **`Settled`** — the fixpoint: the parent of a vertex is an ancestor of each predecessor. A
  relaxation that replaces a parent lowers the rank (`Refining.lowers`), so there is a last sweep,
  which replaces none, and refinement ends settled (`refining_and_settled_build`).
-/

namespace AwaitLint.DomTree

universe u

variable {V : Type u} [DecidableEq V]

/-! ## Updating a parent -/

@[simp] theorem order_setParent (t : DomTree V) (v p : V) : (t.setParent v p).order = t.order := rfl

@[simp] theorem root_setParent (t : DomTree V) (v p : V) : (t.setParent v p).root = t.root := rfl

@[simp] theorem number_setParent (t : DomTree V) (v p w : V) :
    (t.setParent v p).number w = t.number w := rfl

@[simp] theorem reaches_iff_mem {t : DomTree V} {v : V} : t.reaches v = true ↔ v ∈ t.order := by
  simp [reaches]

theorem parent?_setParent (t : DomTree V) (v p w : V) :
    (t.setParent v p).parent? w = if w = v then some p else t.parent? w := by
  show List.lookup w ((v, p) :: t.parents.filter fun e => e.1 ≠ v) = _
  rw [List.lookup_cons]
  by_cases h : w = v
  · simp [h]
  · rw [beq_eq_false_iff_ne.2 h, if_neg h]
    exact lookup_filter_ne t.parents h

theorem number_inj {t : DomTree V} {a b : V} (ha : a ∈ t.order) (heq : t.number a = t.number b) :
    a = b :=
  (List.idxOf_inj ha).1 heq

theorem relax_of_none {t : DomTree V} {v p : V} (hd : t.parent? v = none) : t.relax v p = t := by
  rw [relax, hd]

theorem relax_of_parent {t : DomTree V} {v p d : V} (hd : t.parent? v = some d) :
    t.relax v p = if t.meet d p = d then t else t.setParent v (t.meet d p) := by
  rw [relax, hd]

/-! ## Ancestors -/

/-- `a` is `b` or lies above it. -/
inductive Ancestor (t : DomTree V) : V → V → Prop where
  | refl (a : V) : Ancestor t a a
  | up {a b c : V} (hp : t.parent? b = some c) (h : Ancestor t a c) : Ancestor t a b

theorem Ancestor.trans {t : DomTree V} {a b c : V} (h₁ : Ancestor t a b) (h₂ : Ancestor t b c) :
    Ancestor t a c := by
  induction h₂ with
  | refl => exact h₁
  | up hp _ ih => exact .up hp ih

/-- A proper ancestor is an ancestor of the parent. -/
theorem Ancestor.of_ne {t : DomTree V} {a b : V} (h : Ancestor t a b) (hne : a ≠ b) :
    ∃ c, t.parent? b = some c ∧ Ancestor t a c := by
  cases h with
  | refl => exact absurd rfl hne
  | up hp h => exact ⟨_, hp, h⟩

/-- Climbing from `a` and `b` ends at `m`: as long as the two differ, the one with the larger number
is replaced by its parent. Both are numbered, and the parent is there. -/
inductive Meets (t : DomTree V) : V → V → V → Prop where
  | same (a : V) : Meets t a a a
  | left {a b p m : V} (hne : a ≠ b) (ha : a ∈ t.order) (hb : b ∈ t.order)
      (hlt : t.number b < t.number a) (hp : t.parent? a = some p) (rest : Meets t p b m) :
      Meets t a b m
  | right {a b p m : V} (hne : a ≠ b) (ha : a ∈ t.order) (hb : b ∈ t.order)
      (hge : ¬ t.number b < t.number a) (hp : t.parent? b = some p) (rest : Meets t a p m) :
      Meets t a b m

theorem Meets.ancestor {t : DomTree V} {a b m : V} (h : Meets t a b m) :
    Ancestor t m a ∧ Ancestor t m b := by
  induction h with
  | same a => exact ⟨.refl a, .refl a⟩
  | left _ _ _ _ hp _ ih => exact ⟨.up hp ih.1, ih.2⟩
  | right _ _ _ _ hp _ ih => exact ⟨ih.1, .up hp ih.2⟩

/-! ## The invariant of refinement -/

/-- What holds of the tree from the seed on. -/
structure Refining (g : Graph V) (root : V) (t : DomTree V) : Prop where
  root_eq : t.root = root
  numbered : g.IsReversePostOrder root t.order
  /-- Only reached vertices have a parent. -/
  child_mem : ∀ {v p}, t.parent? v = some p → v ∈ t.order
  parent_mem : ∀ {v p}, t.parent? v = some p → p ∈ t.order
  parent_lt : ∀ {v p}, t.parent? v = some p → t.number p < t.number v
  /-- Every reached vertex but the root has a parent. -/
  total : ∀ {v}, v ∈ t.order → v ≠ root → ∃ p, t.parent? v = some p
  /-- A strict dominator of a vertex dominates the parent of the vertex. -/
  dominated : ∀ {v p a}, t.parent? v = some p → StrictlyDominates g.Edge root a v →
    Dominates g.Edge root a p

/-- A list of positions with an earlier predecessor for each vertex gives a walk on which the
positions stay below that of its end. -/
theorem exists_rising_walk {g : Graph V} {root v : V} {order : List V}
    (h : g.IsReversePostOrder root order) (hv : v ∈ order) :
    ∃ p, Walk g.Edge root v p ∧ ∀ x ∈ p, x = v ∨ order.idxOf x < order.idxOf v := by
  induction hn : order.idxOf v using Nat.strongRecOn generalizing v with
  | ind n ih =>
    subst hn
    by_cases hne : v = root
    · subst hne
      exact ⟨[v], .single v, fun x hx => .inl (List.mem_singleton.1 hx)⟩
    · obtain ⟨u, hu, edge, hlt⟩ := h.exists_pred hv hne
      obtain ⟨p, hp, hbelow⟩ := ih _ hlt hu rfl
      refine ⟨p ++ [v], hp.snoc edge, fun x hx => ?_⟩
      rcases List.mem_append.1 hx with hx | hx
      · right
        rcases hbelow x hx with rfl | hx
        · exact hlt
        · exact Nat.lt_trans hx hlt
      · exact .inl (List.mem_singleton.1 hx)

/-- A strict dominator has a smaller number: it lies on a rising walk. -/
theorem idxOf_lt_of_strictlyDominates {g : Graph V} {root a v : V} {order : List V}
    (h : g.IsReversePostOrder root order) (hd : StrictlyDominates g.Edge root a v) :
    order.idxOf a < order.idxOf v := by
  obtain ⟨p, hp, hbelow⟩ := exists_rising_walk h (h.mem_iff.2 hd.1.1)
  exact (hbelow a (hd.1.2 p hp)).resolve_left hd.2

namespace Refining

variable {g : Graph V} {root : V} {t : DomTree V} {a b v p : V}

theorem number_root (h : Refining g root t) : t.number root = 0 := h.numbered.root_first

/-- The root has no parent: nothing has a smaller number. -/
theorem parent?_root (h : Refining g root t) : t.parent? root = none := by
  cases hp : t.parent? root with
  | none => rfl
  | some p =>
    have := h.parent_lt hp
    rw [h.number_root] at this
    exact absurd this (Nat.not_lt_zero _)

theorem exists_parent (h : Refining g root t) (hv : v ∈ t.order) (hpos : 0 < t.number v) :
    ∃ p, t.parent? v = some p := by
  refine h.total hv ?_
  rintro rfl
  rw [h.number_root] at hpos
  exact Nat.lt_irrefl 0 hpos

theorem above_of_parent (h : Refining g root t) (hp : t.parent? v = some p) :
    t.above v = some ⟨p, h.parent_lt hp⟩ := by
  rw [above]
  split
  · rename_i hnone
    rw [hp] at hnone
    cases hnone
  · rename_i q hq
    rw [hp] at hq
    cases hq
    exact dif_pos (h.parent_lt hp)

theorem ancestor_mem (h : Refining g root t) (hab : Ancestor t a b) (hb : b ∈ t.order) :
    a ∈ t.order := by
  induction hab with
  | refl => exact hb
  | up hp _ ih => exact ih (h.parent_mem hp)

theorem ancestor_le (h : Refining g root t) (hab : Ancestor t a b) :
    t.number a ≤ t.number b := by
  induction hab with
  | refl => exact Nat.le_refl _
  | up hp _ ih => exact Nat.le_trans ih (Nat.le_of_lt (h.parent_lt hp))

/-! ## The nearest common ancestor -/

/-- A common dominator of two vertices dominates the parent of the one with the larger number: it
is not that one, since a strict dominator has a smaller number. -/
theorem dominates_parent_of_common {x y : V} (h : Refining g root t) (hp : t.parent? x = some p)
    (hlt : t.number y < t.number x) (hax : Dominates g.Edge root a x)
    (hay : Dominates g.Edge root a y) : Dominates g.Edge root a p := by
  refine h.dominated hp ⟨hax, fun heq => ?_⟩
  subst heq
  have hne : a ≠ y := by
    intro heq
    subst heq
    exact Nat.lt_irrefl _ hlt
  have hlt' : t.number a < t.number y := idxOf_lt_of_strictlyDominates h.numbered ⟨hay, hne⟩
  omega

/-- Climbing from two reached vertices never lacks a parent. -/
theorem meets (h : Refining g root t) {x y : V} (hx : x ∈ t.order) (hy : y ∈ t.order) :
    Meets t x y (t.meet x y) := by
  induction hn : t.number x + t.number y using Nat.strongRecOn generalizing x y with
  | ind n ih =>
    subst hn
    rw [meet]
    by_cases hxy : x = y
    · subst hxy
      rw [if_pos rfl]
      exact .same x
    · rw [if_neg hxy]
      by_cases hlt : t.number y < t.number x
      · -- `x` climbs
        rw [if_pos hlt]
        obtain ⟨p, hp⟩ := h.exists_parent hx (Nat.zero_lt_of_lt hlt)
        rw [h.above_of_parent hp]
        refine .left hxy hx hy hlt hp (ih _ ?_ (h.parent_mem hp) hy rfl)
        exact Nat.add_lt_add_right (h.parent_lt hp) _
      · -- `y` climbs; the numbers differ since they are positions
        rw [if_neg hlt]
        have hlt' : t.number x < t.number y :=
          Nat.lt_of_le_of_ne (Nat.le_of_not_lt hlt) fun heq => hxy (number_inj hx heq)
        obtain ⟨p, hp⟩ := h.exists_parent hy (Nat.zero_lt_of_lt hlt')
        rw [h.above_of_parent hp]
        refine .right hxy hx hy hlt hp (ih _ ?_ hx (h.parent_mem hp) rfl)
        exact Nat.add_lt_add_left (h.parent_lt hp) _

/-- A common dominator of two vertices dominates what they meet at. -/
theorem dominates_of_meets {x y m : V} (h : Refining g root t) (hm : Meets t x y m)
    (hax : Dominates g.Edge root a x) (hay : Dominates g.Edge root a y) :
    Dominates g.Edge root a m := by
  induction hm with
  | same => exact hax
  | left _ _ _ hlt hp _ ih => exact ih (h.dominates_parent_of_common hp hlt hax hay) hay
  | right hne hx _ hge hp _ ih =>
    have hlt := Nat.lt_of_le_of_ne (Nat.le_of_not_lt hge) fun heq => hne (number_inj hx heq)
    exact ih hax (h.dominates_parent_of_common hp hlt hay hax)

/-! ## One relaxation -/

/-- A relaxation leaves the tree as it is, or gives `v` a parent with a smaller number. -/
theorem relax_cases {d : V} (h : Refining g root t) (hd : t.parent? v = some d) (hp : p ∈ t.order) :
    (t.meet d p = d ∧ t.relax v p = t) ∨
      (t.number (t.meet d p) < t.number d ∧ t.relax v p = t.setParent v (t.meet d p)) := by
  rw [relax_of_parent hd]
  by_cases hm : t.meet d p = d
  · exact .inl ⟨hm, if_pos hm⟩
  · obtain ⟨hanc, -⟩ := (h.meets (h.parent_mem hd) hp).ancestor
    refine .inr ⟨?_, if_neg hm⟩
    refine Nat.lt_of_le_of_ne (h.ancestor_le hanc) fun heq => hm ?_
    exact number_inj (h.ancestor_mem hanc (h.parent_mem hd)) heq

theorem relax (h : Refining g root t) (edge : g.Edge p v) (hpm : p ∈ t.order) :
    Refining g root (t.relax v p) := by
  cases hd : t.parent? v with
  | none =>
    rw [relax_of_none hd]
    exact h
  | some d =>
    rcases h.relax_cases hd hpm with ⟨-, heq⟩ | ⟨hlt, heq⟩ <;> rw [heq]
    · exact h
    · have hmeets := h.meets (h.parent_mem hd) hpm
      have hreach := h.numbered.mem_iff.1 hpm
      -- the new parent of `v`, and the old parents of all others
      have hcases : ∀ {w q}, (t.setParent v (t.meet d p)).parent? w = some q →
          (w = v ∧ q = t.meet d p) ∨ t.parent? w = some q := by
        intro w q hq
        rw [parent?_setParent] at hq
        split at hq
        · exact .inl ⟨‹_›, (Option.some.inj hq).symm⟩
        · exact .inr hq
      refine ⟨h.root_eq, h.numbered, ?_, ?_, ?_, ?_, ?_⟩
      · intro w q hq
        rcases hcases hq with ⟨rfl, -⟩ | hq
        · exact h.child_mem hd
        · exact h.child_mem hq
      · intro w q hq
        rcases hcases hq with ⟨-, rfl⟩ | hq
        · exact h.ancestor_mem hmeets.ancestor.1 (h.parent_mem hd)
        · exact h.parent_mem hq
      · intro w q hq
        rcases hcases hq with ⟨rfl, rfl⟩ | hq
        · exact Nat.lt_trans hlt (h.parent_lt hd)
        · exact h.parent_lt hq
      · intro w hw hne
        rw [parent?_setParent]
        split
        · exact ⟨_, rfl⟩
        · exact h.total hw hne
      · intro w q a hq ha
        rcases hcases hq with ⟨rfl, rfl⟩ | hq
        · exact h.dominates_of_meets hmeets (h.dominated hd ha) (ha.of_step hreach edge)
        · exact h.dominated hq ha

end Refining

/-! ## The seed -/

/-- Takes the source of an edge as the parent of its target, if both are reached and the source
has the smaller number. -/
def adopt (t : DomTree V) (e : V × V) : DomTree V :=
  if t.reaches e.1 && t.reaches e.2 && t.number e.1 < t.number e.2 then t.setParent e.2 e.1 else t

theorem seed_eq_foldl (g : Graph V) (root : V) :
    seed g root = g.edges.foldl adopt ⟨root, (g.postOrder root).reverse, []⟩ := rfl

/-- `adopt` takes an edge exactly when it rises between reached vertices. -/
theorem adopt_cases (t : DomTree V) (e : V × V) :
    (e.1 ∈ t.order ∧ e.2 ∈ t.order ∧ t.number e.1 < t.number e.2
        ∧ t.adopt e = t.setParent e.2 e.1)
      ∨ (¬ (e.1 ∈ t.order ∧ e.2 ∈ t.order ∧ t.number e.1 < t.number e.2) ∧ t.adopt e = t) := by
  unfold adopt
  split
  · rename_i h
    simp only [Bool.and_eq_true, reaches_iff_mem, decide_eq_true_eq] at h
    exact .inl ⟨h.1.1, h.1.2, h.2, rfl⟩
  · rename_i h
    simp only [Bool.and_eq_true, reaches_iff_mem, decide_eq_true_eq, and_assoc] at h
    exact .inr ⟨h, rfl⟩

@[simp] theorem order_adopt (t : DomTree V) (e : V × V) : (t.adopt e).order = t.order := by
  unfold adopt
  split <;> rfl

@[simp] theorem root_adopt (t : DomTree V) (e : V × V) : (t.adopt e).root = t.root := by
  unfold adopt
  split <;> rfl

@[simp] theorem order_foldl_adopt (es : List (V × V)) (t : DomTree V) :
    (es.foldl adopt t).order = t.order := by
  induction es generalizing t with
  | nil => rfl
  | cons e es ih => rw [List.foldl_cons, ih, order_adopt]

@[simp] theorem root_foldl_adopt (es : List (V × V)) (t : DomTree V) :
    (es.foldl adopt t).root = t.root := by
  induction es generalizing t with
  | nil => rfl
  | cons e es ih => rw [List.foldl_cons, ih, root_adopt]

/-- Every parent stems from a rising edge. -/
theorem parent?_foldl_adopt {es : List (V × V)} {t : DomTree V} {v p : V}
    (h : (es.foldl adopt t).parent? v = some p) :
    t.parent? v = some p ∨
      ((p, v) ∈ es ∧ p ∈ t.order ∧ v ∈ t.order ∧ t.number p < t.number v) := by
  induction es generalizing t with
  | nil => exact .inl h
  | cons e es ih =>
    rw [List.foldl_cons] at h
    rcases t.adopt_cases e with ⟨h₁, h₂, hlt, heq⟩ | ⟨-, heq⟩
    · rw [heq] at h
      rcases ih h with h | ⟨hmem, hrest⟩
      · rw [parent?_setParent] at h
        split at h
        · rename_i hv
          cases h
          subst hv
          exact .inr ⟨List.mem_cons_self, h₁, h₂, hlt⟩
        · exact .inl h
      · exact .inr ⟨List.mem_cons_of_mem _ hmem, hrest⟩
    · rw [heq] at h
      rcases ih h with h | ⟨hmem, hrest⟩
      · exact .inl h
      · exact .inr ⟨List.mem_cons_of_mem _ hmem, hrest⟩

theorem exists_parent_foldl_adopt {es : List (V × V)} {t : DomTree V} {v p : V}
    (h : t.parent? v = some p) : ∃ q, (es.foldl adopt t).parent? v = some q := by
  induction es generalizing t p with
  | nil => exact ⟨p, h⟩
  | cons e es ih =>
    rw [List.foldl_cons]
    rcases t.adopt_cases e with ⟨-, -, -, heq⟩ | ⟨-, heq⟩ <;> rw [heq]
    · by_cases hv : v = e.2
      · exact ih (p := e.1) (by rw [parent?_setParent, if_pos hv])
      · exact ih (p := p) (by rw [parent?_setParent, if_neg hv, h])
    · exact ih h

theorem exists_parent_of_rising {es : List (V × V)} {t : DomTree V} {u v : V}
    (he : (u, v) ∈ es) (hu : u ∈ t.order) (hv : v ∈ t.order) (hlt : t.number u < t.number v) :
    ∃ p, (es.foldl adopt t).parent? v = some p := by
  induction es generalizing t with
  | nil => cases he
  | cons e es ih =>
    rw [List.foldl_cons]
    rcases List.mem_cons.1 he with rfl | he
    · rcases t.adopt_cases (u, v) with ⟨-, -, -, heq⟩ | ⟨hno, -⟩
      · rw [heq]
        exact exists_parent_foldl_adopt (p := u) (by rw [parent?_setParent, if_pos rfl])
      · exact absurd ⟨hu, hv, hlt⟩ hno
    · rcases t.adopt_cases e with ⟨-, -, -, heq⟩ | ⟨-, heq⟩ <;> rw [heq]
      · exact ih he hu hv hlt
      · exact ih he hu hv hlt

@[simp] theorem order_seed (g : Graph V) (root : V) :
    (seed g root).order = (g.postOrder root).reverse := by
  rw [seed_eq_foldl, order_foldl_adopt]

@[simp] theorem root_seed (g : Graph V) (root : V) : (seed g root).root = root := by
  rw [seed_eq_foldl, root_foldl_adopt]

theorem parent?_seed {g : Graph V} {root v p : V} (h : (seed g root).parent? v = some p) :
    g.Edge p v ∧ p ∈ (seed g root).order ∧ v ∈ (seed g root).order
      ∧ (seed g root).number p < (seed g root).number v := by
  rw [seed_eq_foldl] at h
  rcases parent?_foldl_adopt h with h | ⟨he, hp, hv, hlt⟩
  · cases h
  · refine ⟨he, ?_, ?_, ?_⟩
    · rw [order_seed]
      exact hp
    · rw [order_seed]
      exact hv
    · rw [number, number, order_seed]
      exact hlt

/-- The seed has the invariant: a parent is a predecessor, so strict dominators dominate it. -/
theorem refining_seed (g : Graph V) {root : V} (hroot : root ∈ g.vertices) :
    Refining g root (seed g root) := by
  have hnum : g.IsReversePostOrder root (seed g root).order := by
    rw [order_seed]
    exact g.reversePostOrder hroot
  refine ⟨root_seed g root, hnum, ?_, ?_, ?_, ?_, ?_⟩
  · exact fun h => (parent?_seed h).2.2.1
  · exact fun h => (parent?_seed h).2.1
  · exact fun h => (parent?_seed h).2.2.2
  · intro v hv hne
    obtain ⟨u, hu, edge, hlt⟩ := hnum.exists_pred hv hne
    rw [order_seed] at hu hv hlt
    exact exists_parent_of_rising edge hu hv hlt
  · intro v p a h ha
    obtain ⟨edge, hp, -, -⟩ := parent?_seed h
    exact ha.of_step (hnum.mem_iff.1 hp) edge

/-! ## The rank -/

/-- The entry that `lookup` finds is not among those with other heads. -/
theorem add_total_filter_le (f : V × V → Nat) {entries : List (V × V)} {v d : V}
    (h : entries.lookup v = some d) :
    f (v, d) + total f (entries.filter fun e => e.1 ≠ v) ≤ total f entries := by
  induction entries with
  | nil => cases h
  | cons e entries ih =>
    rw [List.lookup_cons] at h
    by_cases he : v = e.1
    · -- the entry itself: what is dropped behind it only lowers the total
      have hle : total f (entries.filter fun e => e.1 ≠ v) ≤ total f entries :=
        total_le_of_sublist f List.filter_sublist
      rw [beq_iff_eq.2 he] at h
      have hfound : e = (v, d) := Prod.ext he.symm (Option.some.inj h)
      rw [List.filter_cons_of_neg (by simpa using he.symm), total_cons, hfound]
      omega
    · rw [beq_eq_false_iff_ne.2 he] at h
      have hrest := ih h
      rw [List.filter_cons_of_pos (by simpa using Ne.symm he), total_cons, total_cons]
      omega

/-- Replacing a parent by one with a smaller number lowers the rank. -/
theorem rank_setParent_lt {t : DomTree V} {v d m : V} (hd : t.parent? v = some d)
    (hlt : t.number m < t.number d) : (t.setParent v m).rank < t.rank := by
  have htotal : t.number d + total (fun e => t.number e.2) (t.parents.filter fun e => e.1 ≠ v)
      ≤ total (fun e => t.number e.2) t.parents := add_total_filter_le (fun e => t.number e.2) hd
  show t.number m + total (fun e => t.number e.2) (t.parents.filter fun e => e.1 ≠ v)
      < total (fun e => t.number e.2) t.parents
  omega

/-! ## Sweeps -/

@[simp] theorem order_relax (t : DomTree V) (v p : V) : (t.relax v p).order = t.order := by
  unfold relax
  split
  · rfl
  · dsimp only
    split <;> rfl

/-- Every listed pair is an edge into a reached vertex from a reached one. -/
def IsAgenda (g : Graph V) (t : DomTree V) (work : List (V × V)) : Prop :=
  ∀ e ∈ work, g.Edge e.2 e.1 ∧ e.2 ∈ t.order

theorem IsAgenda.relax {g : Graph V} {t : DomTree V} {e : V × V} {work : List (V × V)}
    (h : IsAgenda g t (e :: work)) : IsAgenda g (t.relax e.1 e.2) work := by
  intro f hf
  rw [order_relax]
  exact h f (List.mem_cons_of_mem _ hf)

/-- Whether relaxing a listed edge replaces a parent. -/
def lifts (t : DomTree V) (e : V × V) : Bool := (t.parent? e.1).any fun d => t.meet d e.2 ≠ d

theorem lifts_of_parent {t : DomTree V} {v p d : V} (hd : t.parent? v = some d) :
    t.lifts (v, p) = decide (t.meet d p ≠ d) := by
  rw [lifts, hd]
  rfl

theorem refine_eq_ite (work : List (V × V)) (t : DomTree V) :
    refine work t =
      if (sweep work t).rank < t.rank then refine work (sweep work t) else sweep work t := by
  rw [refine]

namespace Refining

variable {g : Graph V} {root : V} {t : DomTree V} {work : List (V × V)}

/-- The steps of a sweep: relaxing keeps the invariant and the numbers, and lowers the rank when it
replaces a parent. -/
theorem lowers (root : V) (hwork : IsAgenda g t work) :
    Lowers (fun t e => t.relax e.1 e.2) lifts work
      (fun s => Refining g root s ∧ s.order = t.order) rank where
  keeps := by
    rintro s e ⟨h, horder⟩ he
    obtain ⟨edge, hmem⟩ := hwork e he
    rw [← horder] at hmem ⊢
    exact ⟨h.relax edge hmem, order_relax s e.1 e.2⟩
  rests := by
    rintro s ⟨v, p⟩ - - hrest
    cases hd : s.parent? v with
    | none => exact relax_of_none hd
    | some d =>
      rw [lifts_of_parent hd, decide_eq_false_iff_not, not_not] at hrest
      rw [relax_of_parent hd, if_pos hrest]
  lowers := by
    rintro s ⟨v, p⟩ ⟨h, horder⟩ he hlift
    obtain ⟨-, hmem⟩ := hwork _ he
    rw [← horder] at hmem
    cases hd : s.parent? v with
    | none =>
      rw [lifts, hd] at hlift
      cases hlift
    | some d =>
      rw [lifts_of_parent hd, decide_eq_true_iff] at hlift
      rcases h.relax_cases hd hmem with ⟨hm, -⟩ | ⟨hlt, heq⟩
      · exact absurd hm hlift
      · rw [heq]
        exact rank_setParent_lt hd hlt

theorem sweep (h : Refining g root t) (hwork : IsAgenda g t work) :
    Refining g root (sweep work t) ∧ (DomTree.sweep work t).order = t.order :=
  (lowers root hwork).inv_foldl ⟨h, rfl⟩

/-- Where relaxing does not lift the parent of a vertex, that parent is an ancestor of the listed
predecessor. -/
theorem ancestor_of_lifts_eq_false {v p d : V} (h : Refining g root t) (hd : t.parent? v = some d)
    (hp : p ∈ t.order) (hrest : t.lifts (v, p) = false) : Ancestor t d p := by
  rw [lifts_of_parent hd, decide_eq_false_iff_not, not_not] at hrest
  have hanc := (h.meets (h.parent_mem hd) hp).ancestor.2
  rwa [hrest] at hanc

/-- Refinement keeps the invariant and the numbers, and ends with the parent of each listed vertex
above the listed predecessor: its last sweep lifted nothing. -/
theorem refine (h : Refining g root t) (hwork : IsAgenda g t work) :
    Refining g root (refine work t) ∧ (DomTree.refine work t).order = t.order ∧
      ∀ e ∈ work, ∀ d, (DomTree.refine work t).parent? e.1 = some d →
        Ancestor (DomTree.refine work t) d e.2 := by
  have hlowers := lowers root hwork
  obtain ⟨n, -, -, hrest, hsame, hrefine⟩ :=
    hlowers.exists_last_pass (fun s _ => refine_eq_ite work s) ⟨h, rfl⟩
  obtain ⟨href, horder⟩ := hlowers.inv_iterate ⟨h, rfl⟩ n
  rw [hrefine, hsame]
  refine ⟨href, horder, fun e he d hd => ?_⟩
  refine href.ancestor_of_lifts_eq_false hd ?_ (hlowers.moves_eq_false ⟨href, horder⟩ hrest he)
  rw [horder]
  exact (hwork e he).2

end Refining

/-! ## The built tree -/

/-- The agenda of a tree: edges between reached vertices, those into the root left out. -/
theorem mem_agenda {g : Graph V} {t : DomTree V} {v p : V} :
    (v, p) ∈ t.agenda g ↔ v ≠ t.root ∧ v ∈ t.order ∧ p ∈ t.order ∧ g.Edge p v := by
  have hback : p ∈ g.reverse.adjacent v ↔ g.Edge p v := by
    rw [Graph.mem_adjacent, Graph.mem_edges_reverse]
    rfl
  simp only [agenda, List.mem_flatMap, List.mem_filter, List.mem_map, Prod.mk.injEq,
    Bool.and_eq_true, decide_eq_true_eq, reaches_iff_mem]
  constructor
  · rintro ⟨w, ⟨-, hne, hw⟩, q, ⟨hq, hqm⟩, rfl, rfl⟩
    exact ⟨hne, hw, hqm, hback.1 hq⟩
  · rintro ⟨hne, hv, hp, edge⟩
    exact ⟨v, ⟨Graph.target_mem edge, hne, hv⟩, p, ⟨hback.2 edge, hp⟩, rfl, rfl⟩

theorem isAgenda_seed (g : Graph V) (root : V) :
    IsAgenda g (seed g root) ((seed g root).agenda g) := by
  rintro ⟨v, p⟩ he
  obtain ⟨-, -, hp, edge⟩ := mem_agenda.1 he
  exact ⟨edge, hp⟩

/-- The fixpoint: the parent of a vertex lies above every reached predecessor of the vertex. -/
def Settled (g : Graph V) (t : DomTree V) : Prop :=
  ∀ {v p d}, g.Edge p v → p ∈ t.order → t.parent? v = some d → Ancestor t d p

theorem refining_and_settled_build (g : Graph V) {root : V} (hroot : root ∈ g.vertices) :
    Refining g root (build g root) ∧ Settled g (build g root) := by
  obtain ⟨href, horder, hanc⟩ := (refining_seed g hroot).refine (isAgenda_seed g root)
  refine ⟨href, fun {v p d} edge hp hd => hanc (v, p) ?_ d hd⟩
  refine mem_agenda.2 ⟨?_, ?_, ?_, edge⟩
  · rintro rfl
    rw [root_seed, show (build g root).parent? root = none from href.parent?_root] at hd
    cases hd
  · rw [← horder]
    exact href.child_mem hd
  · rw [← horder]
    exact hp

/-- Without the root no vertex is reached. -/
theorem order_seed_of_not_mem (g : Graph V) {root : V} (hroot : root ∉ g.vertices) :
    (seed g root).order = [] := by
  rw [order_seed, Graph.postOrder, Graph.search_of_not_mem _ hroot]
  rfl

theorem agenda_seed_of_not_mem (g : Graph V) {root : V} (hroot : root ∉ g.vertices) :
    (seed g root).agenda g = [] := by
  refine List.eq_nil_iff_forall_not_mem.2 ?_
  rintro ⟨v, p⟩ he
  have hv := (mem_agenda.1 he).2.1
  rw [order_seed_of_not_mem g hroot] at hv
  cases hv

theorem parent?_seed_of_not_mem (g : Graph V) {root : V} (hroot : root ∉ g.vertices) (v : V) :
    (seed g root).parent? v = none := by
  cases hp : (seed g root).parent? v with
  | none => rfl
  | some p =>
    have := (parent?_seed hp).2.1
    rw [order_seed_of_not_mem g hroot] at this
    cases this

/-- Without the root there is nothing to build. -/
theorem parent?_build_of_not_mem (g : Graph V) {root : V} (hroot : root ∉ g.vertices) (v : V) :
    (build g root).parent? v = none := by
  show (DomTree.refine ((seed g root).agenda g) (seed g root)).parent? v = none
  rw [agenda_seed_of_not_mem g hroot, DomTree.refine]
  show (if (seed g root).rank < (seed g root).rank then _ else _ : DomTree V).parent? v = none
  rw [if_neg (Nat.lt_irrefl _)]
  exact parent?_seed_of_not_mem g hroot v

end AwaitLint.DomTree
