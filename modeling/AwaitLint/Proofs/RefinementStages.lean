import AwaitLint.Proofs.PostDominance
import AwaitLint.Proofs.RepeatedPasses

/-!
# AwaitLint — the table of parents between any two updates

The loops over a dominator tree look parents up in a table that is still being refined. They end,
and never miss an entry, because of what holds of the table at every moment: after the seed and
after every single relaxation of every sweep.

* **`stage`** — the tree at such a moment; `Staged` is what the proofs carry from one to the next.
* **`Climbable`** — what holds there: exactly the reached vertices but the root have a parent, which
  is reached and has a smaller number.
* **`Relaxed`** — what one relaxation does: the climb to the nearest common ancestor ends, and the
  parent stays or is replaced by one with a smaller number.
* **`Follows`**, **`Seeks`** — the loops that follow a table upwards, with no bound on their length.
* **`every_stage_climbable`** — the headline.
-/

namespace AwaitLint

universe u

variable {V : Type u}

/-! ## Loops that follow a table -/

/-- Following the entries of `table` from `v` until there is none lists `chain`. -/
inductive Follows (table : V → Option V) : V → List V → Prop where
  | stop {v : V} (hv : table v = none) : Follows table v []
  | next {v p : V} {chain : List V} (hv : table v = some p) (rest : Follows table p chain) :
      Follows table v (p :: chain)

/-- Following the entries of `table` from `b` until `a` is met or there is none answers whether it
was met. -/
inductive Seeks (table : V → Option V) (a : V) : V → Bool → Prop where
  | found : Seeks table a a true
  | missed {b : V} (hne : a ≠ b) (hb : table b = none) : Seeks table a b false
  | next {b p : V} {met : Bool} (hne : a ≠ b) (hb : table b = some p) (rest : Seeks table a p met) :
      Seeks table a b met

theorem Follows.seeks [DecidableEq V] {table : V → Option V} {a b : V} {chain : List V}
    (h : Follows table b chain) : Seeks table a b (a = b || chain.contains a) := by
  induction h with
  | @stop b hb =>
    by_cases hab : a = b
    · rw [decide_eq_true hab, Bool.true_or, hab]
      exact .found
    · rw [decide_eq_false hab, Bool.false_or]
      exact .missed hab hb
  | @next b p chain hb _ ih =>
    by_cases hab : a = b
    · rw [decide_eq_true hab, Bool.true_or, hab]
      exact .found
    · rw [decide_eq_false hab, Bool.false_or, List.contains_cons]
      exact .next hab hb ih

namespace DomTree

variable [DecidableEq V] {g : Graph V} {root v p d : V} {t : DomTree V} {e : V × V}

/-! ## The stages of a refinement -/

/-- The tree after `k` sweeps and the first `j` relaxations of the next one. -/
def stage (g : Graph V) (root : V) (k j : Nat) : DomTree V :=
  (((seed g root).agenda g).take j).foldl (fun t e => t.relax e.1 e.2)
    ((sweep ((seed g root).agenda g))^[k] (seed g root))

/-- Whether sweep `k` replaces a parent. -/
def liftsIn (g : Graph V) (root : V) (k : Nat) : Bool :=
  someMoves (fun t e => t.relax e.1 e.2) lifts ((seed g root).agenda g) (stage g root k 0)

theorem root_mem_of_mem_agenda (he : e ∈ (seed g root).agenda g) : root ∈ g.vertices := by
  by_contra hnot
  rw [agenda_seed_of_not_mem g hnot] at he
  cases he

/-- What is known of a stage; there is no parent at all if the root is not a vertex. -/
structure Staged (g : Graph V) (root : V) (t : DomTree V) : Prop where
  order_eq : t.order = (seed g root).order
  refining : root ∈ g.vertices → Refining g root t
  bare : root ∉ g.vertices → ∀ v, t.parent? v = none

namespace Staged

theorem seed (g : Graph V) (root : V) : Staged g root (seed g root) :=
  ⟨rfl, refining_seed g, parent?_seed_of_not_mem g⟩

theorem refining_of_parent (h : Staged g root t) (hp : t.parent? v = some p) :
    Refining g root t := by
  by_cases hroot : root ∈ g.vertices
  · exact h.refining hroot
  · rw [h.bare hroot v] at hp
    cases hp

/-- An edge of the agenda has a target with a parent and a reached source. -/
theorem of_mem_agenda (h : Staged g root t) (he : e ∈ (DomTree.seed g root).agenda g) :
    Refining g root t ∧ e.2 ∈ t.order ∧ ∃ d, t.parent? e.1 = some d := by
  obtain ⟨hne, htarget, hsource, -⟩ := mem_agenda.1 he
  rw [root_seed] at hne
  rw [← h.order_eq] at htarget hsource
  have href := h.refining (root_mem_of_mem_agenda he)
  exact ⟨href, hsource, href.total htarget hne⟩

end Staged

/-- The sweeps of the loop lead from stage to stage. -/
theorem lowers_relax (g : Graph V) (root : V) :
    Lowers (fun t e => t.relax e.1 e.2) lifts ((seed g root).agenda g) (Staged g root) rank := by
  have hlowers := Refining.lowers root (isAgenda_seed g root)
  have href : ∀ {t e}, Staged g root t → e ∈ (seed g root).agenda g →
      Refining g root t ∧ t.order = (seed g root).order :=
    fun h he => ⟨h.refining (root_mem_of_mem_agenda he), h.order_eq⟩
  -- the agenda is empty without the root, so every step is one of a refinement
  refine ⟨fun {t e} h he => ?_, fun h he => hlowers.rests (href h he) he,
    fun h he => hlowers.lowers (href h he) he⟩
  obtain ⟨hnext, horder⟩ := hlowers.keeps (href h he) he
  exact ⟨horder, fun _ => hnext, fun hnot => absurd (root_mem_of_mem_agenda he) hnot⟩

theorem staged_stage (g : Graph V) (root : V) (k j : Nat) : Staged g root (stage g root k j) := by
  have hlowers := lowers_relax g root
  have hsweeps := hlowers.inv_iterate (.seed g root) k
  exact (hlowers.of_subset (List.take_subset j _)).inv_foldl hsweeps

theorem stage_succ (k : Nat) {j : Nat} (he : ((seed g root).agenda g)[j]? = some (v, p)) :
    stage g root k (j + 1) = (stage g root k j).relax v p := by
  rw [stage, List.take_add_one, he, List.foldl_append]
  rfl

/-- The last stage of a sweep is the first one of the next sweep. -/
theorem stage_length (g : Graph V) (root : V) (k : Nat) :
    stage g root k ((seed g root).agenda g).length = stage g root (k + 1) 0 := by
  rw [stage, List.take_length, stage, Function.iterate_succ_apply']
  rfl

/-- The loop ends with the first sweep that replaces no parent. -/
theorem exists_last_sweep (g : Graph V) (root : V) :
    ∃ n, n ≤ (seed g root).rank ∧ (∀ k < n, liftsIn g root k = true) ∧
      liftsIn g root n = false ∧ stage g root (n + 1) 0 = stage g root n 0 ∧
      build g root = stage g root (n + 1) 0 :=
  (lowers_relax g root).exists_last_pass (fun t _ => refine_eq_ite _ t) (.seed g root)

theorem staged_build (g : Graph V) (root : V) : Staged g root (build g root) := by
  obtain ⟨n, -, -, -, -, hbuild⟩ := exists_last_sweep g root
  rw [hbuild]
  exact staged_stage g root (n + 1) 0

/-! ## What holds at every stage -/

/-- Every chain of parents can be climbed: exactly the reached vertices but the root have a parent,
and it is a reached vertex with a smaller number. -/
structure Climbable (g : Graph V) (root : V) (t : DomTree V) : Prop where
  reached_iff : ∀ v, t.reaches v = true ↔ root ∈ g.vertices ∧ Reaches g.Edge root v
  entry : ∀ v, t.reaches v = true → v ≠ root → ∃ p, t.parent? v = some p
  entry_below : ∀ v p, t.parent? v = some p → t.reaches p = true ∧ t.number p < t.number v
  no_entry : ∀ v, v = root ∨ t.reaches v = false → t.parent? v = none
  number_inj : ∀ v w, t.reaches v = true → t.reaches w = true → t.number v = t.number w → v = w
  number_root : t.number root = 0

/-- One relaxation of an edge from `p` to `v`: climbing from the parent of `v` and from `p` ends at
a common ancestor, and `v` keeps its parent or gets that ancestor, which has a smaller number. -/
def Relaxed (t : DomTree V) (v p : V) (t' : DomTree V) : Prop :=
  ∃ d m, t.parent? v = some d ∧ Meets t d p m ∧ Ancestor t m d ∧ Ancestor t m p ∧
    (m = d ∧ t' = t ∨ t.number m < t.number d ∧ t' = t.setParent v m)

theorem Refining.climbable (h : Refining g root t) (hroot : root ∈ g.vertices) :
    Climbable g root t := by
  refine ⟨fun v => ?_, fun v hv => h.total (reaches_iff_mem.1 hv), fun v p hp => ?_, fun v hv => ?_,
    fun v w hv _ => DomTree.number_inj (reaches_iff_mem.1 hv), h.number_root⟩
  · rw [reaches_iff_mem, h.numbered.mem_iff, and_iff_right hroot]
  · exact ⟨reaches_iff_mem.2 (h.parent_mem hp), h.parent_lt hp⟩
  · rcases hv with rfl | hv
    · exact h.parent?_root
    · rw [Option.eq_none_iff_forall_ne_some]
      intro p hp
      rw [reaches_iff_mem.2 (h.child_mem hp)] at hv
      cases hv

namespace Staged

theorem climbable (h : Staged g root t) : Climbable g root t := by
  by_cases hroot : root ∈ g.vertices
  · exact (h.refining hroot).climbable hroot
  · -- no vertex is reached, so nothing has a number or a parent
    have hnil : t.order = [] := h.order_eq.trans (order_seed_of_not_mem g hroot)
    have hnone : ∀ v, t.reaches v ≠ true := by
      intro v hv
      rw [reaches_iff_mem, hnil] at hv
      cases hv
    refine ⟨fun v => ⟨fun hv => absurd hv (hnone v), fun hv => absurd hv.1 hroot⟩,
      fun v hv => absurd hv (hnone v), fun v p hp => ?_, fun v _ => h.bare hroot v,
      fun v w hv => absurd hv (hnone v), ?_⟩
    · rw [h.bare hroot v] at hp
      cases hp
    · rw [number, hnil]
      rfl

theorem relaxed (h : Staged g root t) (he : (v, p) ∈ (DomTree.seed g root).agenda g) :
    Relaxed t v p (t.relax v p) := by
  obtain ⟨href, hsource, d, hd⟩ := h.of_mem_agenda he
  have hmeets := href.meets (href.parent_mem hd) hsource
  exact ⟨d, t.meet d p, hd, hmeets, hmeets.ancestor.1, hmeets.ancestor.2,
    href.relax_cases hd hsource⟩

/-- The chain of a vertex is what following the parents lists: their numbers fall. -/
theorem follows (h : Staged g root t) (v : V) : Follows t.parent? v (t.dominators v) := by
  induction hn : t.number v using Nat.strongRecOn generalizing v with
  | ind n ih =>
    subst hn
    cases hp : t.parent? v with
    | none =>
      rw [t.dominators_of_none hp]
      exact .stop hp
    | some p =>
      have href := h.refining_of_parent hp
      rw [dominators_of_parent href hp]
      exact .next hp (ih _ (href.parent_lt hp) p rfl)

end Staged

end DomTree

/-! ## The chains of a control flow -/

namespace ControlFlow

variable {b : Body} {cf : ControlFlow}

/-- The immediate post-dominator of a block that is taken into account; the exit has none. -/
def ipdom? (cf : ControlFlow) (v : Nat) : Option Nat :=
  if v ∈ cf.graph.vertices ∧ cf.body.exit? ≠ some v then (cf.tree.idom v).toOption else none

/-- Leaving blocks out of the table takes no parent from it: only blocks that are taken into account
have one, and the exit has none. -/
theorem ipdom?_eq (hcf : ofBody b = .ok cf) (v : Nat) : cf.ipdom? v = cf.tree.parent? v := by
  obtain ⟨-, entry, exit, -, hexit, -⟩ := ofBody_inv hcf
  cases hp : cf.tree.parent? v with
  | none =>
    have hidom : (cf.tree.idom v).toOption = none := by
      rw [DomTree.idom, hp]
      rfl
    rw [ipdom?, hidom, ite_self]
  | some d =>
    obtain ⟨hv, he⟩ := mem_graph_of_parent hcf hexit hp
    obtain ⟨-, hne⟩ := (exists_parent_iff hcf hexit hv he).1 ⟨d, hp⟩
    rw [← body_eq hcf] at hexit
    rw [ipdom?, if_pos ⟨hv, by rwa [hexit, ne_eq, Option.some.injEq, eq_comm]⟩,
      DomTree.idom_eq_ok_iff.2 hp]
    rfl

theorem follows_postDominatorBlocks (hcf : ofBody b = .ok cf) (o : Nat) :
    Follows cf.ipdom? o (cf.postDominatorBlocks o) := by
  rw [funext (ipdom?_eq hcf)]
  obtain ⟨-, entry, exit, -, -, rfl⟩ := ofBody_inv hcf
  exact (DomTree.staged_build _ exit).follows o

end ControlFlow

namespace DomTree

/-- **Every stage can be climbed.** After the seed and after every relaxation, exactly the reached
vertices but the root have a parent, which is reached and has a smaller number, and the numbers of
reached vertices differ. So every climb to a nearest common ancestor ends there and misses no entry;
a relaxation that replaces a parent lowers its number; sweeps are made as long as one replaces a
parent, and there is a last one; and at every stage the loops that follow the parents end, as do
those over the post-dominators of the blocks of a body. -/
theorem every_stage_climbable [DecidableEq V] (g : Graph V) (root : V) :
    stage g root 0 0 = seed g root ∧
    (∀ k, stage g root k ((seed g root).agenda g).length = stage g root (k + 1) 0) ∧
    (∀ k j, Climbable g root (stage g root k j)) ∧
    (∀ k j v p, ((seed g root).agenda g)[j]? = some (v, p) →
      Relaxed (stage g root k j) v p (stage g root k (j + 1))) ∧
    (∃ n, n ≤ (seed g root).rank ∧ (∀ k < n, liftsIn g root k = true) ∧
      liftsIn g root n = false ∧ stage g root (n + 1) 0 = stage g root n 0 ∧
      build g root = stage g root (n + 1) 0) ∧
    (∀ k j v, Follows (stage g root k j).parent? v ((stage g root k j).dominators v)) ∧
    (∀ k j a b, ∃ met, Seeks (stage g root k j).parent? a b met ∧
      (stage g root k j).dominates a b =
        ((stage g root k j).reaches a && (stage g root k j).reaches b && met)) ∧
    ∀ body cf, ControlFlow.ofBody body = .ok cf →
      ∀ o, Follows cf.ipdom? o (cf.postDominatorBlocks o) := by
  refine ⟨rfl, stage_length g root, fun k j => (staged_stage g root k j).climbable,
    fun k j v p he => ?_, exists_last_sweep g root, fun k j => (staged_stage g root k j).follows,
    fun k j a b => ?_, fun body cf hcf => ControlFlow.follows_postDominatorBlocks hcf⟩
  · rw [stage_succ k he]
    exact (staged_stage g root k j).relaxed (List.mem_of_getElem? he)
  · exact ⟨_, ((staged_stage g root k j).follows b).seeks, rfl⟩

end DomTree

end AwaitLint
