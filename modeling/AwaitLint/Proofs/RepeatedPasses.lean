import Mathlib.Logic.Function.Iterate

/-!
# AwaitLint — passes that are repeated until nothing moves

Two loops of this library make passes of single steps over a list, and make another pass as long as
some step of the last one has changed the state. Here such a loop is followed once and for all.

* **`someMoves`** — whether some step of a pass changes the state. The states in between count: a
  later step sees what earlier steps of the same pass have done.
* **`Lowers`** — what is asked of the steps: they keep an invariant, and a step that changes the
  state lowers a measure.
* **`Lowers.pass`** — a pass leaves the state as it is, or lowers the measure.
* **`Lowers.exists_last_pass`** — so the loop ends, with the first pass in which nothing moves.
-/

namespace AwaitLint

universe u v

variable {S : Type u} {α : Type v} {step : S → α → S} {moves : S → α → Bool} {work : List α}
  {inv : S → Prop} {measure : S → Nat} {s : S}

/-- Whether some step of a pass moves. -/
def someMoves (step : S → α → S) (moves : S → α → Bool) : List α → S → Bool
  | [], _ => false
  | a :: work, s => moves s a || someMoves step moves work (step s a)

/-- The steps keep an invariant. A step that does not move changes nothing, and one that moves
lowers the measure. -/
structure Lowers (step : S → α → S) (moves : S → α → Bool) (work : List α) (inv : S → Prop)
    (measure : S → Nat) : Prop where
  keeps : ∀ {s a}, inv s → a ∈ work → inv (step s a)
  rests : ∀ {s a}, inv s → a ∈ work → moves s a = false → step s a = s
  lowers : ∀ {s a}, inv s → a ∈ work → moves s a = true → measure (step s a) < measure s

namespace Lowers

theorem of_subset {work' : List α} (h : Lowers step moves work inv measure)
    (hsub : work' ⊆ work) : Lowers step moves work' inv measure where
  keeps hs ha := h.keeps hs (hsub ha)
  rests hs ha := h.rests hs (hsub ha)
  lowers hs ha := h.lowers hs (hsub ha)

theorem inv_foldl (h : Lowers step moves work inv measure) (hs : inv s) :
    inv (work.foldl step s) := by
  induction work generalizing s with
  | nil => exact hs
  | cons a work ih =>
    exact ih (h.of_subset (List.subset_cons_self a work)) (h.keeps hs List.mem_cons_self)

/-- A pass in which something moves lowers the measure: what moves later cannot undo it. -/
theorem pass (h : Lowers step moves work inv measure) (hs : inv s) :
    someMoves step moves work s = false ∧ work.foldl step s = s ∨
      someMoves step moves work s = true ∧ measure (work.foldl step s) < measure s := by
  induction work generalizing s with
  | nil => exact .inl ⟨rfl, rfl⟩
  | cons a work ih =>
    have hnext := ih (h.of_subset (List.subset_cons_self a work)) (h.keeps hs List.mem_cons_self)
    rw [List.foldl_cons]
    cases hmove : moves s a with
    | false =>
      have hsame : step s a = s := h.rests hs List.mem_cons_self hmove
      rw [hsame] at hnext ⊢
      rw [someMoves, hmove, hsame, Bool.false_or]
      exact hnext
    | true =>
      have hlt : measure (step s a) < measure s := h.lowers hs List.mem_cons_self hmove
      right
      rw [someMoves, hmove, Bool.true_or]
      refine ⟨rfl, ?_⟩
      rcases hnext with ⟨-, hsame⟩ | ⟨-, hlt'⟩
      · rw [hsame]
        exact hlt
      · omega

/-- In a pass in which nothing moves every step sees the state that the pass began with. -/
theorem moves_eq_false {a : α} (h : Lowers step moves work inv measure) (hs : inv s)
    (hrest : someMoves step moves work s = false) (ha : a ∈ work) : moves s a = false := by
  induction work with
  | nil => cases ha
  | cons b work ih =>
    rw [someMoves, Bool.or_eq_false_iff] at hrest
    rcases List.mem_cons.1 ha with rfl | ha
    · exact hrest.1
    · rw [h.rests hs List.mem_cons_self hrest.1] at hrest
      exact ih (h.of_subset (List.subset_cons_self b work)) hrest.2 ha

/-- The state after `k` passes has the invariant. -/
theorem inv_iterate (h : Lowers step moves work inv measure) (hs : inv s) (k : Nat) :
    inv ((work.foldl step ·)^[k] s) := by
  induction k with
  | zero => exact hs
  | succ k ih =>
    rw [Function.iterate_succ_apply']
    exact h.inv_foldl ih

/-- A loop that makes another pass while the measure falls ends with the first pass in which nothing
moves, after no more passes that move something than the measure has to fall. -/
theorem exists_last_pass (h : Lowers step moves work inv measure) {loop : S → S}
    (hloop : ∀ s, inv s → loop s =
      if measure (work.foldl step s) < measure s then loop (work.foldl step s)
      else work.foldl step s) (hs : inv s) :
    ∃ n, n ≤ measure s ∧
      (∀ k < n, someMoves step moves work ((work.foldl step ·)^[k] s) = true) ∧
      someMoves step moves work ((work.foldl step ·)^[n] s) = false ∧
      (work.foldl step ·)^[n + 1] s = (work.foldl step ·)^[n] s ∧
      loop s = (work.foldl step ·)^[n + 1] s := by
  -- by induction on the measure: a pass that moves something leaves a smaller one
  induction hm : measure s using Nat.strongRecOn generalizing s with
  | ind m ih =>
    subst hm
    rcases h.pass hs with ⟨hrest, hsame⟩ | ⟨hmoved, hlt⟩
    · refine ⟨0, Nat.zero_le _, nofun, hrest, hsame, ?_⟩
      rw [hloop s hs, hsame, if_neg (Nat.lt_irrefl _)]
      exact hsame.symm
    · obtain ⟨n, hn, hbefore, hlast, hsame, heq⟩ := ih _ hlt (h.inv_foldl hs) rfl
      refine ⟨n + 1, by omega, fun k hk => ?_, hlast, hsame, ?_⟩
      · cases k with
        | zero => exact hmoved
        | succ k => exact hbefore k (Nat.lt_of_succ_lt_succ hk)
      · rw [hloop s hs, if_pos hlt]
        exact heq

end Lowers

end AwaitLint
