import AwaitLint.Proofs.GraphShape

/-!
# AwaitLint — walks and dominance

Walks along a step relation, with the list of vertices they meet, and the dominance they define:
`a` dominates `b` when `b` is reached from the root and every walk from the root to `b` meets `a`.
The relation is a parameter: the same lemmas serve the edges of a graph, the edges of a reversed
graph, and the edges between the blocks of a body.

* **`Walk.cut`**, **`Walk.split`** — a walk through `x` is a walk to `x` followed by a walk from `x`.
* **`Walk.reverse`** — a walk along the reversed relation.
* **`Walk.transfer`** — a walk carries over to another relation that has the same steps there.
* **`Dominates.trans`**, **`Dominates.antisymm`**, **`StrictlyDominates.of_step`** — dominance is
  an order, and a strict dominator of a vertex dominates every reached predecessor of it.
-/

namespace AwaitLint

universe u

variable {V : Type u}

/-- A walk along `step`, with the vertices it meets, both ends included. -/
inductive Walk (step : V → V → Prop) : V → V → List V → Prop where
  | single (v : V) : Walk step v v [v]
  | cons {u v w : V} {p : List V} (edge : step u v) (rest : Walk step v w p) :
      Walk step u w (u :: p)

/-- Some walk leads from `u` to `w`. -/
def Reaches (step : V → V → Prop) (u w : V) : Prop := ∃ p, Walk step u w p

/-- The edges of a graph as a relation. -/
def Graph.Edge (g : Graph V) (u v : V) : Prop := (u, v) ∈ g.edges

variable {step step' : V → V → Prop} {u v w x : V} {p q : List V}

/-! ## Ends and composition -/

namespace Walk

theorem exists_eq_cons (h : Walk step u w p) : ∃ q, p = u :: q := by
  cases h with
  | single => exact ⟨[], rfl⟩
  | cons _ _ => exact ⟨_, rfl⟩

theorem uncons (h : Walk step u w (x :: p)) (hp : p ≠ []) :
    x = u ∧ ∃ v, step u v ∧ Walk step v w p := by
  cases h with
  | single => exact absurd rfl hp
  | cons edge rest => exact ⟨rfl, _, edge, rest⟩

theorem source_mem (h : Walk step u w p) : u ∈ p := by
  obtain ⟨q, rfl⟩ := h.exists_eq_cons
  exact List.mem_cons_self

theorem target_mem (h : Walk step u w p) : w ∈ p := by
  induction h with
  | single => exact List.mem_singleton_self _
  | cons _ _ ih => exact List.mem_cons_of_mem _ ih

/-- Two walks that meet form one; the meeting point is listed once. -/
theorem append (h₁ : Walk step u v p) (h₂ : Walk step v w q) : Walk step u w (p ++ q.tail) := by
  induction h₁ with
  | single =>
    obtain ⟨q, rfl⟩ := h₂.exists_eq_cons
    exact h₂
  | cons edge _ ih => exact .cons edge (ih h₂)

theorem snoc (h : Walk step u v p) (edge : step v w) : Walk step u w (p ++ [w]) :=
  h.append (.cons edge (.single w))

/-- A walk is cut at a place in its list of vertices. -/
theorem cut (h : Walk step u w (p ++ x :: q)) :
    Walk step u x (p ++ [x]) ∧ Walk step x w (x :: q) := by
  generalize hr : p ++ x :: q = r at h
  induction h generalizing p with
  | single v =>
    -- one vertex: nothing stands before or behind `x`
    obtain ⟨rfl, rfl, rfl⟩ : p = [] ∧ x = v ∧ q = [] := by
      cases p with
      | nil => simpa using hr
      | cons => simp at hr
    exact ⟨.single x, .single x⟩
  | cons edge rest ih =>
    cases p with
    | nil =>
      obtain ⟨rfl, rfl⟩ := List.cons.inj hr
      exact ⟨.single x, .cons edge rest⟩
    | cons y p =>
      obtain ⟨rfl, htail⟩ := List.cons.inj hr
      obtain ⟨hto, hfrom⟩ := ih htail
      exact ⟨.cons edge hto, hfrom⟩

/-- A walk through `x` splits at `x`. -/
theorem split (h : Walk step u w p) (hx : x ∈ p) :
    ∃ p₁ p₂, p = p₁ ++ x :: p₂ ∧ Walk step u x (p₁ ++ [x]) ∧ Walk step x w (x :: p₂) := by
  obtain ⟨p₁, p₂, rfl⟩ := List.append_of_mem hx
  exact ⟨p₁, p₂, rfl, h.cut⟩

theorem reverse (h : Walk step u w p) : Walk (fun a b => step b a) w u p.reverse := by
  induction h with
  | single v => exact .single v
  | cons edge _ ih =>
    rw [List.reverse_cons]
    exact ih.snoc edge

theorem mono (hstep : ∀ {a b}, step a b → step' a b) (h : Walk step u w p) :
    Walk step' u w p := by
  induction h with
  | single v => exact .single v
  | cons edge _ ih => exact .cons (hstep edge) ih

/-- A walk carries over to another relation while it stays where the steps agree: `inside` holds
at the source, is kept by `step`, and turns `step` into `step'`. -/
theorem transfer {inside : V → Prop}
    (hstep : ∀ {a b}, inside a → step a b → inside b ∧ step' a b) (h : Walk step u w p)
    (hu : inside u) : Walk step' u w p ∧ ∀ x ∈ p, inside x := by
  induction h with
  | single v =>
    refine ⟨.single v, fun x hx => ?_⟩
    rw [List.mem_singleton.1 hx]
    exact hu
  | cons edge _ ih =>
    obtain ⟨hin, edge'⟩ := hstep hu edge
    obtain ⟨rest', hall⟩ := ih hin
    refine ⟨.cons edge' rest', fun x hx => ?_⟩
    rcases List.mem_cons.1 hx with rfl | hx
    · exact hu
    · exact hall x hx

/-- A walk that leaves its source for good: what follows the last visit to the source. -/
theorem exists_not_returning (h : Walk step u w p) (hne : u ≠ w) :
    ∃ q, Walk step u w (u :: q) ∧ u ∉ q ∧ ∀ x ∈ q, x ∈ p := by
  -- the induction is on the length, since the suffix after a return starts at `u` again
  induction hn : p.length using Nat.strongRecOn generalizing p with
  | ind n ih =>
    obtain ⟨q, rfl⟩ := h.exists_eq_cons
    by_cases hu : u ∈ q
    · cases h with
      | single => exact absurd rfl hne
      | cons edge rest =>
        obtain ⟨q₁, q₂, rfl, -, hfrom⟩ := rest.split hu
        have hlt : (u :: q₂).length < n := by
          simp only [List.length_cons, List.length_append] at hn ⊢
          omega
        obtain ⟨r, hr, hur, hsub⟩ := ih _ hlt hfrom rfl
        refine ⟨r, hr, hur, fun x hx => ?_⟩
        exact List.mem_cons_of_mem _ (List.mem_append_right _ (hsub x hx))
    · exact ⟨q, h, hu, fun x hx => List.mem_cons_of_mem _ hx⟩

/-- Two vertices that each lie on every walk from the other to `w` are one: otherwise a walk could
be shortened for ever. -/
theorem eq_of_mutual {y : V} (hx : Walk step x w p) (hxy : ∀ q, Walk step x w q → y ∈ q)
    (hyx : ∀ q, Walk step y w q → x ∈ q) : x = y := by
  induction hn : p.length using Nat.strongRecOn generalizing p with
  | ind n ih =>
    obtain ⟨p₁, p₂, rfl, -, hy⟩ := hx.split (hxy p hx)
    obtain ⟨p₃, p₄, heq, -, hx'⟩ := hy.split (hyx _ hy)
    cases p₃ with
    | nil => exact (List.cons.inj heq).1.symm
    | cons z p₃ =>
      refine ih _ ?_ hx' rfl
      have hlen := congrArg List.length heq
      simp only [List.length_cons, List.length_append] at hlen hn ⊢
      omega

end Walk

/-- A walk of the reversed graph is a walk of the graph, seen from its end. -/
theorem Graph.walk_reverse [DecidableEq V] {g : Graph V} :
    Walk g.reverse.Edge u w p ↔ Walk g.Edge w u p.reverse := by
  constructor
  · intro h
    exact h.reverse.mono fun hab => Graph.mem_edges_reverse.1 hab
  · intro h
    rw [← List.reverse_reverse p]
    exact h.reverse.mono fun hab => Graph.mem_edges_reverse.2 hab

/-! ## Reachability -/

namespace Reaches

theorem refl (step : V → V → Prop) (v : V) : Reaches step v v := ⟨[v], .single v⟩

theorem trans (h₁ : Reaches step u v) (h₂ : Reaches step v w) : Reaches step u w := by
  obtain ⟨p, hp⟩ := h₁
  obtain ⟨q, hq⟩ := h₂
  exact ⟨_, hp.append hq⟩

theorem tail (h : Reaches step u v) (edge : step v w) : Reaches step u w := by
  obtain ⟨p, hp⟩ := h
  exact ⟨_, hp.snoc edge⟩

theorem head_iff : Reaches step u w ↔ u = w ∨ ∃ v, step u v ∧ Reaches step v w := by
  constructor
  · rintro ⟨p, hp⟩
    cases hp with
    | single => exact .inl rfl
    | cons edge rest => exact .inr ⟨_, edge, _, rest⟩
  · rintro (rfl | ⟨v, edge, p, hp⟩)
    · exact refl step u
    · exact ⟨_, .cons edge hp⟩

theorem tail_iff : Reaches step u w ↔ u = w ∨ ∃ v, Reaches step u v ∧ step v w := by
  constructor
  · rintro ⟨p, hp⟩
    induction hp with
    | single => exact .inl rfl
    | @cons a b _ _ edge _ ih =>
      rcases ih with rfl | ⟨v, hv, hvw⟩
      · exact .inr ⟨a, refl step a, edge⟩
      · exact .inr ⟨v, head_iff.2 (.inr ⟨b, edge, hv⟩), hvw⟩
  · rintro (rfl | ⟨v, hv, hvw⟩)
    · exact refl step u
    · exact hv.tail hvw

/-- What is reached from `u` lies in every set that holds `u` and is closed under steps. -/
theorem closed (inside : V → Prop) (hstep : ∀ {a b}, inside a → step a b → inside b)
    (h : Reaches step u w) (hu : inside u) : inside w := by
  obtain ⟨p, hp⟩ := h
  exact (hp.transfer (fun ha hab => ⟨hstep ha hab, hab⟩) hu).2 w hp.target_mem

end Reaches

theorem Graph.mem_vertices_of_reaches {g : Graph V} (h : Reaches g.Edge u v)
    (hu : u ∈ g.vertices) : v ∈ g.vertices :=
  h.closed (· ∈ g.vertices) (fun _ hab => Graph.target_mem hab) hu

/-! ## Dominance -/

/-- `b` is reached from the root, and every walk there passes through `a`. -/
def Dominates (step : V → V → Prop) (root a b : V) : Prop :=
  Reaches step root b ∧ ∀ p, Walk step root b p → a ∈ p

def StrictlyDominates (step : V → V → Prop) (root a b : V) : Prop :=
  Dominates step root a b ∧ a ≠ b

variable {root a b c : V}

namespace Dominates

theorem refl (h : Reaches step root b) : Dominates step root b b :=
  ⟨h, fun _ hp => hp.target_mem⟩

/-- A dominator lies on a walk from the root, so it is reached itself. -/
theorem reaches (h : Dominates step root a b) : Reaches step root a := by
  obtain ⟨⟨p, hp⟩, hall⟩ := h
  obtain ⟨p₁, -, -, hto, -⟩ := hp.split (hall p hp)
  exact ⟨_, hto⟩

theorem trans (h₁ : Dominates step root a b) (h₂ : Dominates step root b c) :
    Dominates step root a c := by
  refine ⟨h₂.1, fun p hp => ?_⟩
  obtain ⟨p₁, p₂, rfl, hto, -⟩ := hp.split (h₂.2 p hp)
  rcases List.mem_append.1 (h₁.2 _ hto) with ha | ha
  · exact List.mem_append_left _ ha
  · rw [List.mem_singleton.1 ha]
    exact List.mem_append_right _ List.mem_cons_self

theorem antisymm (hab : Dominates step root a b) (hba : Dominates step root b a) : a = b := by
  obtain ⟨p, hp⟩ := hba.1
  refine hp.reverse.eq_of_mutual (fun q hq => ?_) fun q hq => ?_
  · exact List.mem_reverse.1 (hba.2 _ hq.reverse)
  · exact List.mem_reverse.1 (hab.2 _ hq.reverse)

end Dominates

/-- A strict dominator of `v` dominates every reached predecessor: a walk to the predecessor
extends to a walk to `v`. -/
theorem StrictlyDominates.of_step (h : StrictlyDominates step root a v)
    (hu : Reaches step root u) (edge : step u v) : Dominates step root a u := by
  refine ⟨hu, fun p hp => ?_⟩
  have hmem := h.1.2 _ (hp.snoc edge)
  rw [List.mem_append, List.mem_singleton] at hmem
  exact hmem.resolve_right h.2

end AwaitLint
