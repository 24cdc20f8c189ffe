import AwaitLint.Proofs.CheckedLookups
import AwaitLint.Proofs.LinkedTree
import AwaitLint.Proofs.ReachPaths
import AwaitLint.Proofs.Resolved

/-!
# AwaitLint — analyses never get stuck

A program is analysed without a failure when its links have no cycle, its bodies have blocks whose
successors are blocks, and what is asked about has a variable.

* **`Links.Acyclic`** — links without a cycle lead up to a node without a parent within the number
  of steps that `Links.ancestors` takes (`Links.parent?_last_ancestor`). The links of a tree without
  repeated identities are such (`Links.acyclic_link`).
* **`FrontEnd.Admits`** — what is asked of a body. Its blocks may be of any kind, unreachable or
  without a way to the exit.
* **`analyses_never_stuck`** — the headline: no lookup fails, and every value is decided.
-/

namespace AwaitLint

/-! ## Parents -/

section Acyclic

variable {V : Type} {step : V → V → Prop} {u w : V} {p : List V}

/-- Without cycles, a walk meets no vertex twice. -/
theorem Walk.nodup_of_acyclic (hacyclic : ∀ a b, step a b → ¬ Reaches step b a)
    (h : Walk step u w p) : p.Nodup := by
  induction h with
  | single v => exact List.nodup_singleton v
  | @cons u v w p edge rest ih =>
    refine List.nodup_cons.2 ⟨fun hmem => hacyclic u v edge ?_, ih⟩
    obtain ⟨_, _, -, hto, -⟩ := rest.split hmem
    exact ⟨_, hto⟩

/-- If a walk can go on, there is a step from each vertex it meets. -/
theorem Walk.exists_step (h : Walk step u w p) (hon : ∃ y, step w y) : ∀ x ∈ p, ∃ y, step x y := by
  induction h with
  | single v =>
    intro x hx
    rwa [List.mem_singleton.1 hx]
  | cons edge rest ih => exact List.forall_mem_cons.2 ⟨⟨_, edge⟩, ih hon⟩

end Acyclic

namespace Links

variable {l : Links}

/-- The node with identity `b` is the parent of the node with identity `a`. -/
def Up (l : Links) (a b : Nat) : Prop := ∃ p, l.parentOf? a = some p ∧ p.id = b

/-- No node is above itself. -/
def Acyclic (l : Links) : Prop := ∀ a b, l.Up a b → ¬ Reaches l.Up b a

/-- A climb is a walk up. It takes all its steps, or ends at a node without a parent. -/
theorem walk_climb (l : Links) (fuel : Nat) (n : Node) :
    Walk l.Up n.id ((l.climb fuel n.id).getLastD n).id ((n :: l.climb fuel n.id).map Node.id) ∧
      ((l.climb fuel n.id).length = fuel ∨
        l.parent? ((l.climb fuel n.id).getLastD n) = none) := by
  induction fuel generalizing n with
  | zero => exact ⟨.single n.id, .inl rfl⟩
  | succ fuel ih =>
    cases hparent : l.parentOf? n.id with
    | none =>
      rw [climb, hparent]
      exact ⟨.single n.id, .inr hparent⟩
    | some p =>
      obtain ⟨hwalk, hend⟩ := ih p
      rw [climb, hparent]
      show Walk l.Up n.id ((p :: l.climb fuel p.id).getLastD n).id _ ∧ _
      rw [List.getLastD_cons, List.length_cons, Nat.add_right_cancel_iff]
      exact ⟨.cons ⟨p, hparent, rfl⟩ hwalk, hend⟩

/-- Without cycles the ancestors of a node lead up to a node without a parent: a climb that could go
on would have met more nodes than there are links. -/
theorem parent?_last_ancestor (h : l.Acyclic) (n : Node) :
    l.parent? ((l.ancestors n).getLastD n) = none := by
  obtain ⟨hwalk, hfull | hend⟩ := l.walk_climb l.entries.length n
  · by_contra hon
    obtain ⟨p, hp⟩ := Option.ne_none_iff_exists'.1 hon
    have hstep := hwalk.exists_step ⟨_, p, hp, rfl⟩
    have hsub : (n :: l.ancestors n).map Node.id ⊆ l.entries.map Prod.fst := by
      intro x hx
      obtain ⟨-, q, hq, -⟩ := hstep x hx
      obtain ⟨m, -, rfl⟩ := List.mem_map.1 hx
      exact List.mem_map.2 ⟨_, mem_entries_of_parent? hq, rfl⟩
    have hle := (List.subperm_of_subset (hwalk.nodup_of_acyclic h) hsub).length_le
    rw [List.length_map, List.length_map, List.length_cons, hfull] at hle
    exact Nat.not_succ_le_self _ hle
  · exact hend

/-- A step up in a linked tree leads from a child to the node it stands under. -/
theorem exists_child_of_up {root : Node} {a b : Nat} (hids : root.ids.Nodup)
    (h : (({} : Links).link root).Up a b) :
    ∃ p c, Reaches Node.Child root p ∧ c ∈ p.children ∧ c.id = a ∧ p.id = b := by
  obtain ⟨p, hp, rfl⟩ := h
  have hmem : a ∈ (families [root]).map fun e => e.2.id := by
    by_contra hnot
    have hnone := parentOf?_foldl_of_not_mem (l := {}) hnot
    rw [← link, hp] at hnone
    cases hnone
  obtain ⟨⟨q, c⟩, hqc, rfl⟩ := List.mem_map.1 hmem
  have hq := parentOf?_foldl_of_mem (l := {}) (nodup_families hids) hqc
  rw [← link, hp, Option.some.injEq] at hq
  subst hq
  obtain ⟨⟨r, hr, hreach⟩, hc⟩ := mem_families_iff.1 hqc
  rw [List.mem_singleton.1 hr] at hreach
  exact ⟨p, c, hreach, hc, rfl, rfl⟩

/-- The links of a tree without repeated identities have no cycle: a parent is the larger tree. -/
theorem acyclic_link {root : Node} (hids : root.ids.Nodup) : (({} : Links).link root).Acyclic := by
  have hgrows : ∀ {x y : Nat}, Reaches (({} : Links).link root).Up x y →
      ∀ {n m : Node}, Reaches Node.Child root n → Reaches Node.Child root m → n.id = x →
        m.id = y → n.size ≤ m.size := by
    rintro x y ⟨w, hw⟩
    induction hw with
    | single =>
      intro n m hn hm hnx hmx
      rw [eq_of_id_eq hids hn hm (hnx.trans hmx.symm)]
    | cons edge rest ih =>
      intro n m hn hm hnx hmy
      obtain ⟨p, c, hp, hc, hcx, hpv⟩ := exists_child_of_up hids edge
      rw [eq_of_id_eq hids hn (hp.tail hc) (hnx.trans hcx.symm)]
      exact (Node.size_lt_of_mem_children hc).le.trans (ih hp hm hpv hmy)
  intro a b hab hreach
  obtain ⟨p, c, hp, hc, hca, hpb⟩ := exists_child_of_up hids hab
  exact absurd (hgrows hreach hp (hp.tail hc) hpb hca) (Node.size_lt_of_mem_children hc).not_ge

end Links

/-! ## Programs -/

/-- A body that the analyses take: it has blocks, their successors are blocks, and what is asked
about is resolved. -/
structure FrontEnd.Admits (fe : FrontEnd) (b : Body) : Prop extends fe.Resolved b where
  nonempty : b.blocks ≠ []
  closed : b.Closed

/-- The control flow of a body is known unless the function recovers from panics. -/
theorem ControlFlow.ofBody_cases {b : Body} (hne : b.blocks ≠ []) :
    b.hasExceptionRegions = true ∧ ofBody b = .error .exceptionRegions ∨
      ∃ cf, ofBody b = .ok cf := by
  by_cases hregions : b.hasExceptionRegions = true
  · refine .inl ⟨hregions, ?_⟩
    rw [ofBody, if_pos hregions]
  · have hblocks := ofBody_ne_noBlocks hne
    rw [ofBody, if_neg hregions] at hblocks ⊢
    cases hentry : b.entry? with
    | none =>
      rw [hentry] at hblocks
      exact absurd rfl hblocks
    | some entry =>
      cases hexit : b.exit? with
      | none =>
        rw [hentry, hexit] at hblocks
        exact absurd rfl hblocks
      | some exit => exact .inr ⟨_, rfl⟩

/-- **No lookup fails.** Let the links of a program have no cycle, and let its bodies have blocks
whose successors are blocks, references with a variable, and facts that name a variable. Then the
control flow of a body is known or the function recovers from panics, the data flow is computed, and
all their queries answer, each of them without looking up a number out of range. The climb from any
node ends at a node without a parent, and every value is decided. -/
theorem analyses_never_stuck (c : Config) (fe : FrontEnd) (hlinks : fe.links.Acyclic)
    (hbodies : ∀ fn b, fe.body fn = .ok b → fe.Admits b) :
    (∀ b, fe.Admits b →
      (b.hasExceptionRegions = true ∧ ControlFlow.ofBody b = .error .exceptionRegions ∨
          ∃ cf, ControlFlow.ofBody b = .ok cf ∧ cf.body = b ∧ cf.Answers) ∧
        DataFlow.Checked.solve fe b = some (DataFlow.solve fe b) ∧
        (DataFlow.solve fe b).body = b ∧ (DataFlow.solve fe b).Answers) ∧
      ∀ n, fe.links.parent? ((fe.links.ancestors n).getLastD n) = none ∧
        ∃ d, c.decide fe n = .ok d ∧ c.isConsumed fe n = .ok d.verdict.isConsumed := by
  refine ⟨fun b hb => ⟨?_, DataFlow.Checked.solve_eq fe hb.closed, DataFlow.body_solve fe b,
    (DataFlow.InRange.solve fe b).answers⟩, fun n => ⟨Links.parent?_last_ancestor hlinks n, ?_⟩⟩
  · refine (ControlFlow.ofBody_cases hb.nonempty).imp_right fun ⟨cf, hcf⟩ => ?_
    exact ⟨cf, hcf, ControlFlow.body_eq hcf, ControlFlow.answers hcf hb.closed⟩
  · obtain ⟨d, hd⟩ := Config.decide_ok
      (fun fn b hb => ⟨(hbodies fn b hb).nonempty, (hbodies fn b hb).toResolved⟩) c n
    exact ⟨d, hd, bind_eq_ok.2 ⟨d, hd, rfl⟩⟩

/-! ### A loop that is never left

The blocks of `n = 0; for { n = n + 1 }`, with a `report(n)` that nothing leads to. No block is an
entry or an exit, so the first and the last one stand in for them. -/

namespace Spinning

open DataFlow.Counting (start bump report func)

def spinning : Body where
  func := func
  blocks := [{ nodes := [start], fall := some 1 }, { nodes := [bump], fall := some 1 },
    { nodes := [report], fall := some 0 }]

def program : FrontEnd := (Registry.add {} spinning).frontEnd (Links.link {} func)

theorem acyclic : program.links.Acyclic := Links.acyclic_link (by decide +kernel)

theorem admits : program.Admits spinning where
  facts := by decide +kernel
  nodes i hi := by
    have hall : (spinning.instrs.all fun i => (i.node.preorder fun _ => true).all fun m =>
        m.kind != .localRef || m.var.isSome) = true := by decide +kernel
    exact .of_preorder (List.all_eq_true.1 hall i hi)
  parents n p hp m hm := by
    have hroot : func.Resolved := .of_preorder (by decide +kernel)
    exact hroot m ((Links.reaches_of_parent? hp).trans hm)
  nonempty := List.cons_ne_nil _ _
  closed := by decide +kernel

theorem bodies_admitted (fn : Node) (b : Body) (hb : program.body fn = .ok b) :
    program.Admits b := by
  replace hb : (Registry.add {} spinning).bodyOf fn = .ok b := hb
  unfold Registry.bodyOf at hb
  split at hb
  · rename_i found hfound
    cases hb
    rw [List.mem_singleton.1 (List.mem_of_find?_eq_some hfound)]
    exact admits
  · cases hb

end Spinning

open Spinning in
/-- Nothing leads from the loop to the last block, and nothing to that block but the additional
edge. -/
theorem spinning_never_stuck :
    program.links.Acyclic ∧ (∀ fn b, program.body fn = .ok b → program.Admits b) ∧
    program.Admits spinning ∧
    (∃ cf, ControlFlow.ofBody spinning = .ok cf ∧ cf.body = spinning ∧ cf.Answers) ∧
    DataFlow.Checked.solve program spinning = some (DataFlow.solve program spinning) ∧
    (DataFlow.solve program spinning).Answers ∧
    ∃ d, ({} : Config).decide program DataFlow.Counting.bump = .ok d := by
  obtain ⟨hanalyses, hnodes⟩ := analyses_never_stuck {} program acyclic bodies_admitted
  obtain ⟨hcf, hsolve, -, hdf⟩ := hanalyses spinning admits
  obtain ⟨-, d, hd, -⟩ := hnodes DataFlow.Counting.bump
  refine ⟨acyclic, bodies_admitted, admits, ?_, hsolve, hdf, d, hd⟩
  rcases hcf with ⟨hregions, -⟩ | hcf
  · cases hregions
  · exact hcf

end AwaitLint
