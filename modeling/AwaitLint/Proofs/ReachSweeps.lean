import AwaitLint.Proofs.ReachFixpoint
import AwaitLint.Proofs.RepeatedPasses
import Mathlib.Data.Finset.SDiff
import Mathlib.Data.Finset.Union

/-!
# AwaitLint — the sweeps over reaching definitions

`DataFlow.solve` computes the sets of all blocks in their order, again and again, until a sweep
replaces no set by another one. A set is not added to but computed anew, from sets of which some
were replaced in the same sweep already. This module follows the sweeps one by one.

* **`lowers_relax`** — a replacement that changes a set makes it larger, so there is less room in
  the sets afterwards. What carries this is `Ascending`: no set holds more than its predecessors
  pass on.
* **`received`** — the right-hand side of the equations, for any family of finite sets.
* **`reachSet_solve_subset`** — a family that holds what it receives holds the computed sets: what
  is in them has come along the edges from a last writer (`Arrives`).
* **`sweeps_end_at_least_solution`** — the headline.
-/

namespace AwaitLint.DataFlow

variable {df : DataFlow} {fe : FrontEnd} {b : Body} {o d k : Nat}

/-! ## One replacement -/

/-- Whether computing the set of a block anew changes it. -/
def replaces (df : DataFlow) (o : Nat) : Bool := df.incoming o != df.reach o

theorem relax_eq_self (hsame : df.incoming o = df.reach o) (ho : o < df.reachSets.length) :
    df.relax o = df := by
  have hset : df.reachSets.set o (df.incoming o) = df.reachSets := by
    rw [hsame, reach_eq_getElem ho, List.set_getElem_self]
  rw [relax, hset]

/-- A set that changes grows. -/
theorem room_relax_lt (h : Ascending df) (hne : df.incoming o ≠ df.reach o)
    (ho : o < df.reachSets.length) : (df.relax o).room < df.room := by
  have hget : df.reachSets[o]? = some (df.reach o) := by
    rw [reach_eq_getElem ho, List.getElem?_eq_getElem ho]
  -- the new set has the old one as a sublist, so another set is a longer one
  have hgrown : (df.reach o).length < (df.incoming o).length := by
    refine Nat.lt_of_le_of_ne (h.grows o).length_le fun heq => hne ?_
    exact ((h.grows o).eq_of_length heq).symm
  have hbound := length_incoming_le df o
  have htotal := total_set (fun s => df.body.instrs.length - s.length) hget (df.incoming o)
  show total (fun s => df.body.instrs.length - s.length) (df.reachSets.set o (df.incoming o))
    < total (fun s => df.body.instrs.length - s.length) df.reachSets
  omega

/-- The sweeps of the loop: each replacement keeps the sets ascending, and there is less room after
one that changes a set. -/
theorem lowers_relax (b : Body) :
    Lowers relax replaces b.ordinals (fun df => Ascending df ∧ df.body = b) room where
  keeps := fun {df o} hdf _ => ⟨hdf.1.relax o, hdf.2⟩
  rests := by
    rintro df o ⟨hasc, rfl⟩ ho hrest
    refine relax_eq_self ?_ (hasc.length_eq ▸ List.mem_range.1 ho)
    simpa [replaces] using hrest
  lowers := by
    rintro df o ⟨hasc, rfl⟩ ho hmoves
    refine room_relax_lt hasc ?_ (hasc.length_eq ▸ List.mem_range.1 ho)
    simpa [replaces] using hmoves

/-! ## Sweep after sweep -/

/-- The sets after `k` sweeps. -/
def afterSweeps (fe : FrontEnd) (b : Body) (k : Nat) : DataFlow :=
  (b.ordinals.foldl relax ·)^[k] (resolved fe b)

/-- Whether the next sweep replaces a set by another one. -/
def changesAfter (fe : FrontEnd) (b : Body) (k : Nat) : Bool :=
  someMoves relax replaces b.ordinals (afterSweeps fe b k)

theorem ascending_afterSweeps (fe : FrontEnd) (b : Body) (k : Nat) :
    Ascending (afterSweeps fe b k) :=
  ((lowers_relax b).inv_iterate ⟨.resolved fe b, rfl⟩ k).1

theorem below_afterSweeps (fe : FrontEnd) (b : Body) (k : Nat) :
    Below (afterSweeps fe b k) (afterSweeps fe b (k + 1)) := by
  rw [afterSweeps, afterSweeps, Function.iterate_succ_apply']
  exact ((ascending_afterSweeps fe b k).foldl_relax b.ordinals).2

theorem room_resolved (fe : FrontEnd) (b : Body) :
    (resolved fe b).room = b.blocks.length * b.instrs.length := by
  have htotal : ∀ blocks : List Block,
      total (fun s : List Nat => b.instrs.length - s.length) (blocks.map fun _ => [])
        = blocks.length * b.instrs.length := by
    intro blocks
    induction blocks with
    | nil => simp
    | cons blk blocks ih =>
      rw [List.map_cons, total_cons, ih, List.length_cons, Nat.succ_mul]
      simp only [List.length_nil]
      omega
  exact htotal b.blocks

/-- The loop ends with the first sweep that replaces no set by another one. -/
theorem exists_last_sweep (fe : FrontEnd) (b : Body) :
    ∃ n, n ≤ b.blocks.length * b.instrs.length ∧ (∀ k < n, changesAfter fe b k = true) ∧
      changesAfter fe b n = false ∧ afterSweeps fe b (n + 1) = afterSweeps fe b n ∧
      solve fe b = afterSweeps fe b (n + 1) := by
  rw [← room_resolved fe b]
  refine (lowers_relax b).exists_last_pass (fun df hdf => ?_) ⟨.resolved fe b, rfl⟩
  obtain ⟨-, rfl⟩ := hdf
  rw [saturate]
  rfl

/-! ## The least solution -/

/-- The set of a block, as a finite set of numbers. -/
def reachSet (df : DataFlow) (o : Nat) : Finset Nat := (df.reach o).toFinset

/-- What a block receives from its predecessors if `sets` are the definitions that reach the blocks:
the right-hand side of the equations. -/
def received (df : DataFlow) (sets : Nat → Finset Nat) (o : Nat) : Finset Nat :=
  (df.body.preds o).toFinset.biUnion fun p =>
    (df.defs p).toFinset ∪ (sets p \ (df.kills p).toFinset)

theorem mem_received {sets : Nat → Finset Nat} :
    d ∈ df.received sets o ↔
      ∃ p, df.body.Edge p o ∧ (d ∈ df.defs p ∨ d ∈ sets p ∧ d ∉ df.kills p) := by
  simp [received, mem_preds]

/-- What is received belongs to an instruction of the body, so no number is lost where the program
runs over the instructions. -/
theorem toFinset_incoming (hknown : ∀ p d, d ∈ df.reach p → ∃ i ∈ df.body.instrs, i.id = d) :
    (df.incoming o).toFinset = df.received df.reachSet o := by
  ext d
  simp only [List.mem_toFinset, mem_received, reachSet]
  constructor
  · intro hd
    obtain ⟨i, hi, -, rfl⟩ := mem_select.1 hd
    exact (id_mem_incoming hi).1 hd
  · rintro ⟨p, hedge, hfrom⟩
    have hinstr : ∃ i ∈ df.body.instrs, i.id = d := by
      rcases hfrom with hdef | ⟨hreach, -⟩
      · obtain ⟨i, hi, -, hid⟩ := mem_select.1 hdef
        exact ⟨i, hi, hid⟩
      · exact hknown p d hreach
    obtain ⟨i, hi, rfl⟩ := hinstr
    exact (id_mem_incoming hi).2 ⟨p, hedge, hfrom⟩

theorem reachSet_solve_eq (ho : o < b.blocks.length) :
    (solve fe b).reachSet o = (solve fe b).received (solve fe b).reachSet o := by
  rw [reachSet, ← settled_solve fe b o (by rwa [body_solve])]
  refine toFinset_incoming fun p d hd => ?_
  obtain ⟨i, hi, hid, -⟩ := exists_of_mem_reach hd
  exact ⟨i, by rwa [body_solve], hid⟩

/-- Sets that hold all they receive hold the computed ones: what is in those has come along the
edges from a last writer. -/
theorem reachSet_solve_subset {sets : Nat → Finset Nat}
    (hsets : ∀ o < b.blocks.length, (solve fe b).received sets o ⊆ sets o)
    (ho : o < b.blocks.length) : (solve fe b).reachSet o ⊆ sets o := by
  intro d hd
  obtain ⟨i, -, rfl, harr⟩ := exists_of_mem_reach (List.mem_toFinset.1 hd)
  clear hd
  -- along the arrival: what a predecessor holds or defines is received
  induction harr with
  | leave last edge => exact hsets _ ho (mem_received.2 ⟨_, edge, .inl last⟩)
  | pass _ kept edge ih =>
    have hpred := lt_length_of_edge edge
    rw [body_solve] at hpred
    exact hsets _ ho (mem_received.2 ⟨_, edge, .inr ⟨ih hpred, kept⟩⟩)

/-- **The sweeps end at the least solution.** Sweeps are made as long as one replaces a set by
another one, which happens at most as often as there are pairs of a block and an instruction; the
last sweep changes nothing. Every set contains the one before the sweep. The sets at the end solve
the equations of all blocks, and any sets that solve them, or only hold all they receive, contain
these. -/
theorem sweeps_end_at_least_solution (fe : FrontEnd) (b : Body) :
    (∃ n, n ≤ b.blocks.length * b.instrs.length ∧ (∀ k < n, changesAfter fe b k = true) ∧
      changesAfter fe b n = false ∧ afterSweeps fe b (n + 1) = afterSweeps fe b n ∧
      solve fe b = afterSweeps fe b (n + 1)) ∧
    (∀ k o, (afterSweeps fe b k).reachSet o ⊆ (afterSweeps fe b (k + 1)).reachSet o) ∧
    (∀ o < b.blocks.length,
      (solve fe b).reachSet o = (solve fe b).received (solve fe b).reachSet o) ∧
    ∀ sets : Nat → Finset Nat,
      (∀ o < b.blocks.length, (solve fe b).received sets o ⊆ sets o) →
        ∀ o < b.blocks.length, (solve fe b).reachSet o ⊆ sets o := by
  refine ⟨exists_last_sweep fe b, fun k o d hd => ?_, fun o => reachSet_solve_eq,
    fun sets hsets o => reachSet_solve_subset hsets⟩
  rw [reachSet, List.mem_toFinset] at hd ⊢
  exact ((below_afterSweeps fe b k).grown o).subset hd

end AwaitLint.DataFlow
