import AwaitLint.Proofs.ReachingUses
import Mathlib.Data.List.Forall2

/-!
# AwaitLint — which definitions reach a block

`DataFlow.saturate` sweeps over the blocks until no set of reaching definitions grows. This module
says what it ends with.

## The architecture

* **`Ascending`** — the invariant of a sweep: no set holds more than its predecessors pass on. Under
  it a sweep only adds instructions (`Ascending.foldl_relax`), since what a block receives grows with
  the sets it is computed from (`incoming_sublist`).
* **`eq_of_room_le`** — a sweep that does not lower the room left in the sets has changed nothing, so
  the loop stops at a solution of the equations (`Settled`). The loop is taken with sweeps in any
  order (`saturateIn`).
* **`Arrives`** — the meaning of the equations: an instruction leaves its block as a last writer and
  passes blocks that do not kill it. Every set of a sweep holds only instructions that arrive
  (`Justified`), and a solution holds all of them.
* **`mem_reach_solve`** — the headline: the instructions in the set of a block are those that arrive
  there. `Arrives.exists_walk` and `arrives_of_walk` put this in terms of walks.
-/

namespace AwaitLint.DataFlow

variable {df df' : DataFlow} {fe : FrontEnd} {b : Body} {i : Instr} {o p d : Nat}
  {v : Option Variable}

/-! ## The sets of a block -/

theorem mem_select {q : Instr → Bool} :
    d ∈ df.select q ↔ ∃ i ∈ df.body.instrs, q i = true ∧ i.id = d := by
  simp [select, and_assoc]

theorem id_mem_select {q : Instr → Bool} (hi : i ∈ df.body.instrs) :
    i.id ∈ df.select q ↔ q i = true := by
  rw [mem_select]
  constructor
  · intro ⟨j, hj, hq, hid⟩
    rw [← Body.eq_of_id_eq hj hi hid]
    exact hq
  · intro hq
    exact ⟨i, hi, hq, rfl⟩

theorem rewrittenAfter_eq_true :
    df.rewrittenAfter i v = true ↔ ∃ j ∈ df.body.instrs, j.block = i.block ∧ i.index < j.index ∧
      df.defines v j.id = true := by
  simp [rewrittenAfter, Body.mem_instrsOf, and_assoc]

theorem writes_eq_true :
    df.writes o v = true ↔ ∃ j ∈ df.body.instrs, j.block = o ∧ df.defines v j.id = true := by
  simp [writes, Body.mem_instrsOf, and_assoc]

/-- The last writers of a block. -/
theorem mem_defs (hi : i ∈ df.body.instrs) :
    i.id ∈ df.defs o ↔
      i.block = o ∧ ∃ v, df.defines v i.id = true ∧ df.rewrittenAfter i v = false := by
  rw [defs, id_mem_select hi]
  simp [mem_defs_of_defines]

/-- A block kills an instruction of another block with which it shares a written variable. -/
theorem mem_kills (hi : i ∈ df.body.instrs) :
    i.id ∈ df.kills o ↔
      i.block ≠ o ∧ ∃ v, df.defines v i.id = true ∧ df.writes o v = true := by
  rw [kills, id_mem_select hi]
  simp [mem_defs_of_defines]

theorem mem_preds : p ∈ b.preds o ↔ b.Edge p o := by
  simp [Body.preds, Body.Edge]

/-- One equation of the system, for a single instruction. -/
theorem id_mem_incoming (hi : i ∈ df.body.instrs) :
    i.id ∈ df.incoming o ↔ ∃ p, df.body.Edge p o ∧
      (i.id ∈ df.defs p ∨ i.id ∈ df.reach p ∧ i.id ∉ df.kills p) := by
  rw [incoming, id_mem_select hi]
  simp [outgoing, mem_preds]

theorem length_incoming_le (df : DataFlow) (o : Nat) :
    (df.incoming o).length ≤ df.body.instrs.length := by
  rw [incoming, select, List.length_map]
  exact List.length_filter_le _ _

theorem lt_length_of_edge {b : Body} (h : b.Edge p o) : p < b.blocks.length := by
  obtain ⟨blk, hblk, -⟩ := Body.edge_iff.1 h
  exact (List.getElem?_eq_some_iff.1 hblk).1

/-! ## Growing sets

States of one sweep differ in their sets only. They are compared block by block, as sublists: every
set lists numbers in increasing order. -/

/-- `df'` is `df` with sets that may have grown. -/
structure Below (df df' : DataFlow) : Prop where
  eq : df' = { df with reachSets := df'.reachSets }
  length_eq : df'.reachSets.length = df.reachSets.length
  grown : ∀ o, (df.reach o).Sublist (df'.reach o)

namespace Below

theorem refl (df : DataFlow) : Below df df := ⟨rfl, rfl, fun _ => List.Sublist.refl _⟩

theorem trans {df'' : DataFlow} (h : Below df df') (h' : Below df' df'') : Below df df'' := by
  refine ⟨?_, h'.length_eq.trans h.length_eq, fun o => (h.grown o).trans (h'.grown o)⟩
  rw [h'.eq, h.eq]

theorem antisymm (h : Below df df') (h' : Below df' df) : df' = df := by
  have hsets : df'.reachSets = df.reachSets := by
    refine List.ext_getElem h.length_eq fun k hk hk' => ?_
    have hsame : df'.reach k = df.reach k := (h'.grown k).antisymm (h.grown k)
    simpa [reach, List.getD, hk, hk'] using hsame
  rw [h.eq, hsets]

/-- What a block receives grows with the sets it is computed from. -/
theorem incoming_sublist (h : Below df df') (o : Nat) :
    (df.incoming o).Sublist (df'.incoming o) := by
  rw [h.eq]
  refine List.Sublist.map _ (List.monotone_filter_right _ fun i hi => ?_)
  rw [List.contains_iff_mem, List.mem_flatMap] at hi ⊢
  obtain ⟨p, hp, hout⟩ := hi
  refine ⟨p, hp, ?_⟩
  unfold outgoing at hout ⊢
  rw [List.mem_append, List.mem_filter] at hout ⊢
  exact hout.imp_right fun hkept => ⟨(h.grown p).subset hkept.1, hkept.2⟩

end Below

theorem reach_relax (df : DataFlow) (o x : Nat) :
    (df.relax o).reach x =
      if x = o ∧ o < df.reachSets.length then df.incoming o else df.reach x := by
  show (df.reachSets.set o (df.incoming o)).getD x [] = _
  by_cases hx : x = o
  · by_cases ho : o < df.reachSets.length
    · simp [hx, ho]
    · simp [hx, ho, reach]
  · simp [hx, reach, List.getD, List.getElem?_set_ne (Ne.symm hx)]

theorem reach_eq_getElem (ho : o < df.reachSets.length) : df.reach o = df.reachSets[o] := by
  simp [reach, ho]

/-- No set holds more than its predecessors pass on. -/
structure Ascending (df : DataFlow) : Prop where
  length_eq : df.reachSets.length = df.body.blocks.length
  grows : ∀ o, (df.reach o).Sublist (df.incoming o)

theorem reach_resolved (fe : FrontEnd) (b : Body) (o : Nat) : (resolved fe b).reach o = [] := by
  simp only [reach, resolved, List.getD_eq_getElem?_getD, List.getElem?_map]
  cases b.blocks[o]? <;> rfl

namespace Ascending

theorem resolved (fe : FrontEnd) (b : Body) : Ascending (resolved fe b) := by
  refine ⟨by simp [DataFlow.resolved], fun o => ?_⟩
  rw [reach_resolved]
  exact List.nil_sublist _

theorem below_relax (h : Ascending df) (o : Nat) : Below df (df.relax o) := by
  refine ⟨rfl, List.length_set, fun x => ?_⟩
  rw [reach_relax]
  split
  · rename_i hx
    rw [hx.1]
    exact h.grows o
  · exact List.Sublist.refl _

theorem relax (h : Ascending df) (o : Nat) : Ascending (df.relax o) := by
  have hbelow := h.below_relax o
  refine ⟨hbelow.length_eq.trans h.length_eq, fun x => ?_⟩
  rw [reach_relax]
  split
  · rename_i hx
    rw [hx.1]
    exact hbelow.incoming_sublist o
  · exact (h.grows x).trans (hbelow.incoming_sublist x)

theorem foldl_relax (h : Ascending df) (os : List Nat) :
    Ascending (os.foldl DataFlow.relax df) ∧ Below df (os.foldl DataFlow.relax df) := by
  induction os generalizing df with
  | nil => exact ⟨h, .refl df⟩
  | cons o os ih =>
    obtain ⟨hasc, hbelow⟩ := ih (h.relax o)
    exact ⟨hasc, (h.below_relax o).trans hbelow⟩

/-- A set lists instructions of the body, each at most once. -/
theorem length_le (h : Ascending df) {s : List Nat} (hs : s ∈ df.reachSets) :
    s.length ≤ df.body.instrs.length := by
  obtain ⟨o, ho, rfl⟩ := List.mem_iff_getElem.1 hs
  rw [← reach_eq_getElem ho]
  exact (h.grows o).length_le.trans (length_incoming_le df o)

end Ascending

/-! ## Sweeps in any order

The loop visits the blocks in their order. That order is immaterial, so what is proved of the loop is
proved for sweeps that visit them in any other. -/

/-- Replaces the sets of the blocks in the given order. -/
def sweepIn (df : DataFlow) (order : List Nat) : DataFlow := order.foldl relax df

/-- Sweeps in the orders `order 0`, `order 1` and so on until no set grows. -/
def saturateIn (df : DataFlow) (order : Nat → List Nat) : DataFlow :=
  let next := df.sweepIn (order 0)
  if next.room < df.room then next.saturateIn fun k => order (k + 1) else next
termination_by df.room

theorem body_sweepIn (df : DataFlow) (order : List Nat) : (df.sweepIn order).body = df.body := by
  obtain ⟨sets, hsets⟩ := foldl_relax_eq df order
  rw [sweepIn, hsets]

/-! ## The end of the loop -/

/-- Sets that have grown without a loss of room have not grown at all. -/
theorem eq_of_total_le {N : Nat} {l l' : List (List Nat)} (hlen : l'.length = l.length)
    (hgrown : ∀ k, (l.getD k []).Sublist (l'.getD k [])) (hbound : ∀ s ∈ l', s.length ≤ N)
    (hroom : total (fun s => N - s.length) l ≤ total (fun s => N - s.length) l') : l' = l := by
  have hanti : ∀ {l l' : List (List Nat)}, l'.length = l.length →
      (∀ k, (l.getD k []).Sublist (l'.getD k [])) →
      total (fun s => N - s.length) l' ≤ total (fun s => N - s.length) l := by
    intro l
    induction l with
    | nil =>
      intro l' hlen _
      rw [List.length_eq_zero_iff.1 hlen]
    | cons s l ih =>
      intro l' hlen hgrown
      obtain ⟨s', l', rfl⟩ := List.exists_cons_of_length_eq_add_one hlen
      have hhead := (hgrown 0).length_le
      have htail := ih (by simpa using hlen) fun k => hgrown (k + 1)
      simp only [List.getD_cons_zero] at hhead
      simp only [total_cons]
      omega
  induction l generalizing l' with
  | nil => exact List.length_eq_zero_iff.1 hlen
  | cons s l ih =>
    obtain ⟨s', l', rfl⟩ := List.exists_cons_of_length_eq_add_one hlen
    have hsub : s.Sublist s' := hgrown 0
    have htail : ∀ k, (l.getD k []).Sublist (l'.getD k []) := fun k => hgrown (k + 1)
    have hlen' : l'.length = l.length := by simpa using hlen
    have hrest := hanti hlen' htail
    have hs' := hbound s' List.mem_cons_self
    have hle := hsub.length_le
    simp only [total_cons] at hroom
    have hsame : s.length = s'.length := by omega
    rw [hsub.eq_of_length hsame,
      ih hlen' htail (fun t ht => hbound t (List.mem_cons_of_mem _ ht)) (by omega)]

/-- A sweep that does not lower the room has changed nothing. -/
theorem eq_of_room_le (hbelow : Below df df') (hasc : Ascending df') (hroom : df.room ≤ df'.room) :
    df' = df := by
  have hbody : df'.body = df.body := by rw [hbelow.eq]
  have hsets : df'.reachSets = df.reachSets := by
    unfold room at hroom
    rw [hbody] at hroom
    refine eq_of_total_le hbelow.length_eq hbelow.grown (fun s hs => ?_) hroom
    rw [← hbody]
    exact hasc.length_le hs
  rw [hbelow.eq, hsets]

/-- The sets solve the equations. -/
def Settled (df : DataFlow) : Prop :=
  ∀ o, o < df.body.blocks.length → df.incoming o = df.reach o

/-- When a pass over some blocks ends where it began, no block on the way has moved: each step only
adds, and nothing can be taken back. -/
theorem incoming_eq_of_foldl_eq (h : Ascending df) {os : List Nat}
    (hfixed : os.foldl relax df = df) (ho : o ∈ os) (hlt : o < df.body.blocks.length) :
    df.incoming o = df.reach o := by
  induction os with
  | nil => cases ho
  | cons x os ih =>
    have hback : Below (df.relax x) df := by
      have := ((h.relax x).foldl_relax os).2
      rw [List.foldl_cons] at hfixed
      rwa [hfixed] at this
    have hsame : df.relax x = df := (h.below_relax x).antisymm hback
    rcases List.mem_cons.1 ho with rfl | ho
    · have hset := reach_relax df o o
      rw [hsame, if_pos ⟨rfl, h.length_eq ▸ hlt⟩] at hset
      exact hset.symm
    · refine ih ?_ ho
      rw [List.foldl_cons, hsame] at hfixed
      exact hfixed

theorem body_saturateIn (df : DataFlow) (order : Nat → List Nat) :
    (df.saturateIn order).body = df.body := by
  induction df, order using saturateIn.induct with
  | case1 df order next hgrown ih =>
    unfold saturateIn
    rw [if_pos hgrown, ih]
    exact body_sweepIn df (order 0)
  | case2 df order next hdone =>
    unfold saturateIn
    rw [if_neg hdone]
    exact body_sweepIn df (order 0)

/-- The loop is the one whose sweeps all take the blocks in their order. -/
theorem saturate_eq_saturateIn (df : DataFlow) :
    df.saturate = df.saturateIn fun _ => df.body.ordinals := by
  induction df using saturate.induct with
  | case1 df next hgrown ih =>
    have hbody : df.sweep.body = df.body := body_sweepIn df df.body.ordinals
    unfold saturate saturateIn
    rw [if_pos hgrown, ih, hbody]
    exact (if_pos hgrown).symm
  | case2 df next hdone =>
    unfold saturate saturateIn
    rw [if_neg hdone]
    exact (if_neg hdone).symm

/-- The loop stops at a solution of the equations, if every sweep visits every block. -/
theorem Ascending.saturateIn (h : Ascending df) {order : Nat → List Nat}
    (hall : ∀ k o, o < df.body.blocks.length → o ∈ order k) :
    Ascending (df.saturateIn order) ∧ Below df (df.saturateIn order) ∧
      Settled (df.saturateIn order) := by
  induction df, order using saturateIn.induct with
  | case1 df order next hgrown ih =>
    obtain ⟨hasc, hbelow⟩ := h.foldl_relax (order 0)
    have hbody : next.body = df.body := body_sweepIn df (order 0)
    obtain ⟨hasc', hbelow', hsettled⟩ := ih hasc fun k o ho => hall (k + 1) o (hbody ▸ ho)
    unfold DataFlow.saturateIn
    rw [if_pos hgrown]
    exact ⟨hasc', hbelow.trans hbelow', hsettled⟩
  | case2 df order next hdone =>
    obtain ⟨hasc, hbelow⟩ := h.foldl_relax (order 0)
    have hsame : df.sweepIn (order 0) = df :=
      eq_of_room_le hbelow hasc (Nat.le_of_not_lt hdone)
    unfold DataFlow.saturateIn
    rw [if_neg hdone]
    show Ascending (df.sweepIn (order 0)) ∧ Below df (df.sweepIn (order 0)) ∧
      Settled (df.sweepIn (order 0))
    rw [hsame]
    exact ⟨h, .refl df, fun o ho => incoming_eq_of_foldl_eq h hsame (hall 0 o ho) ho⟩

/-! ## The meaning of the equations -/

/-- The definitions of `i` arrive at a block: `i` is a last writer of its own block and passes on
the way only blocks that do not kill it. -/
inductive Arrives (df : DataFlow) (i : Instr) : Nat → Prop where
  | leave {o : Nat} (last : i.id ∈ df.defs i.block) (edge : df.body.Edge i.block o) : Arrives df i o
  | pass {p o : Nat} (rest : Arrives df i p) (kept : i.id ∉ df.kills p) (edge : df.body.Edge p o) :
      Arrives df i o

/-- Whether an instruction arrives does not depend on the sets. -/
theorem Arrives.of_sets (heq : df' = { df with reachSets := df'.reachSets }) (h : Arrives df i o) :
    Arrives df' i o := by
  rw [heq]
  induction h with
  | leave last edge => exact .leave last edge
  | pass _ kept edge ih => exact .pass ih kept edge

/-- The sets hold only instructions that arrive. -/
def Justified (df : DataFlow) : Prop :=
  ∀ o d, d ∈ df.reach o → ∃ i ∈ df.body.instrs, i.id = d ∧ Arrives df i o

theorem Justified.incoming (h : Justified df) (hd : d ∈ df.incoming o) :
    ∃ i ∈ df.body.instrs, i.id = d ∧ Arrives df i o := by
  obtain ⟨i, hi, -, rfl⟩ := mem_select.1 hd
  refine ⟨i, hi, rfl, ?_⟩
  obtain ⟨p, hedge, hdef | ⟨hreach, hkept⟩⟩ := (id_mem_incoming hi).1 hd
  · have hblock := ((mem_defs hi).1 hdef).1
    subst hblock
    exact .leave hdef hedge
  · obtain ⟨j, hj, hid, harr⟩ := h p _ hreach
    rw [Body.eq_of_id_eq hj hi hid] at harr
    exact .pass harr hkept hedge

theorem Justified.foldl_relax (hasc : Ascending df) (h : Justified df) (os : List Nat) :
    Justified (os.foldl relax df) := by
  induction os generalizing df with
  | nil => exact h
  | cons x os ih =>
    refine ih (hasc.relax x) fun o d hd => ?_
    have hjust : ∃ i ∈ df.body.instrs, i.id = d ∧ Arrives df i o := by
      rw [reach_relax] at hd
      split at hd
      · rename_i hx
        rw [hx.1]
        exact h.incoming hd
      · exact h o d hd
    obtain ⟨i, hi, hid, harr⟩ := hjust
    exact ⟨i, hi, hid, harr.of_sets (hasc.below_relax x).eq⟩

theorem Justified.saturateIn (hasc : Ascending df) (h : Justified df) (order : Nat → List Nat) :
    Justified (df.saturateIn order) := by
  induction df, order using saturateIn.induct with
  | case1 df order next hgrown ih =>
    unfold DataFlow.saturateIn
    rw [if_pos hgrown]
    exact ih (hasc.foldl_relax _).1 (h.foldl_relax hasc _)
  | case2 df order next hdone =>
    unfold DataFlow.saturateIn
    rw [if_neg hdone]
    exact h.foldl_relax hasc _

theorem Justified.resolved (fe : FrontEnd) (b : Body) : Justified (resolved fe b) := by
  intro o d hd
  rw [reach_resolved] at hd
  cases hd

theorem Arrives.mem_reach (hset : Settled df) (hi : i ∈ df.body.instrs) (h : Arrives df i o)
    (ho : o < df.body.blocks.length) : i.id ∈ df.reach o := by
  induction h with
  | leave last edge =>
    rw [← hset _ ho, id_mem_incoming hi]
    exact ⟨_, edge, .inl last⟩
  | pass _ kept edge ih =>
    rw [← hset _ ho, id_mem_incoming hi]
    exact ⟨_, edge, .inr ⟨ih (lt_length_of_edge edge), kept⟩⟩

theorem solve_eq_saturateIn (fe : FrontEnd) (b : Body) :
    solve fe b = (resolved fe b).saturateIn fun _ => b.ordinals :=
  saturate_eq_saturateIn _

/-- A member of a reaching set is an instruction that arrives. -/
theorem exists_of_mem_reach (h : d ∈ (solve fe b).reach o) :
    ∃ i ∈ b.instrs, i.id = d ∧ Arrives (solve fe b) i o := by
  rw [solve_eq_saturateIn] at h ⊢
  have hjust := (Justified.resolved fe b).saturateIn (.resolved fe b) (fun _ => b.ordinals) o d h
  rwa [body_saturateIn] at hjust

theorem settled_solve (fe : FrontEnd) (b : Body) : Settled (solve fe b) := by
  rw [solve_eq_saturateIn]
  exact ((Ascending.resolved fe b).saturateIn fun _ _ ho => List.mem_range.2 ho).2.2

/-- **The reaching sets mean what arrives.** -/
theorem mem_reach_solve (hi : i ∈ b.instrs) (ho : o < b.blocks.length) :
    i.id ∈ (solve fe b).reach o ↔ Arrives (solve fe b) i o := by
  constructor
  · intro hmem
    obtain ⟨j, hj, hid, harr⟩ := exists_of_mem_reach hmem
    rw [Body.eq_of_id_eq hj hi hid] at harr
    exact harr
  · intro harr
    rw [← body_solve fe b] at hi ho
    exact harr.mem_reach (settled_solve fe b) hi ho

/-! ## Arrivals along walks -/

theorem Arrives.last (h : Arrives df i o) : i.id ∈ df.defs i.block := by
  induction h with
  | leave last _ => exact last
  | pass _ _ _ ih => exact ih

/-- An arrival comes along a walk that does not return to the block of `i`: a walk that does may
start there. -/
theorem Arrives.exists_walk (h : Arrives df i o) :
    ∃ inner, Walk df.body.Edge i.block o (i.block :: (inner ++ [o])) ∧
      ∀ x ∈ inner, x ≠ i.block ∧ i.id ∉ df.kills x := by
  induction h with
  | leave _ edge => exact ⟨[], .cons edge (.single _), nofun⟩
  | @pass p o _ kept edge ih =>
    by_cases hp : p = i.block
    · rw [hp] at edge
      exact ⟨[], .cons edge (.single _), nofun⟩
    · obtain ⟨inner, hwalk, hinner⟩ := ih
      refine ⟨inner ++ [p], hwalk.snoc edge, fun x hx => ?_⟩
      rcases List.mem_append.1 hx with hx | hx
      · exact hinner x hx
      · rw [List.mem_singleton.1 hx]
        exact ⟨hp, kept⟩

theorem arrives_of_walk {inner : List Nat} (last : i.id ∈ df.defs i.block)
    (hwalk : Walk df.body.Edge i.block o (i.block :: (inner ++ [o])))
    (hinner : ∀ x ∈ inner, i.id ∉ df.kills x) : Arrives df i o := by
  -- the last inner block is the predecessor that passes `i` on
  induction inner using List.reverseRecOn generalizing o with
  | nil =>
    cases hwalk with
    | cons edge rest =>
      cases rest with
      | single => exact .leave last edge
      | cons _ rest => nomatch rest
  | append_singleton inner p ih =>
    rw [List.append_assoc, ← List.cons_append, List.singleton_append] at hwalk
    obtain ⟨hto, hlast⟩ := hwalk.cut
    have hedge : df.body.Edge p o := by
      cases hlast with
      | cons edge rest =>
        obtain ⟨q, hq⟩ := rest.exists_eq_cons
        rw [(List.cons.inj hq).1]
        exact edge
    refine .pass (ih hto fun x hx => hinner x (List.mem_append_left _ hx)) ?_ hedge
    exact hinner p (List.mem_append_right _ (List.mem_singleton_self p))

end AwaitLint.DataFlow
