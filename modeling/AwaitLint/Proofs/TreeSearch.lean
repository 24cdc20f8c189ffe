import AwaitLint.Proofs.Walk
import AwaitLint.Tree.Traversal

/-!
# AwaitLint — what a search in a tree finds

`Node.find?` looks for a node with a stack. It returns the first match of a walk
(`firstMatch_eq_head?`), so a node that it returns satisfies the test and lies in the tree that is
searched (`find?_some`); a node lies in its own tree (`contains_self`); and a walk that enters every
node lists the whole tree, the root first and then the trees of its children (`preorder_eq`,
`mem_preorder_iff`).
-/

namespace AwaitLint.Node

/-- `c` is a child of `p`. The tree of `n` is what `n` reaches along this relation. -/
def Child (p c : Node) : Prop := c ∈ p.children

variable {p enter : Node → Bool} {n m : Node}

/-! ## Walks -/

theorem visit_append (enter : Node → Bool) (xs ys : List Node) :
    visit enter (xs ++ ys) = visit enter xs ++ visit enter ys := by
  induction xs using visit.induct enter with
  | case1 => rw [visit, List.nil_append, List.nil_append]
  | case2 n stack henter ih =>
    rw [List.cons_append, visit, visit, if_pos henter, if_pos henter, ← List.append_assoc, ih,
      List.cons_append]
  | case3 n stack hnot ih =>
    rw [List.cons_append, visit, visit, if_neg hnot, if_neg hnot, ih, List.cons_append]

theorem visit_eq_flatMap (enter : Node → Bool) (ns : List Node) :
    visit enter ns = ns.flatMap (preorder enter) := by
  induction ns with
  | nil => rw [visit, List.flatMap_nil]
  | cons n ns ih =>
    have hcons : n :: ns = [n] ++ ns := rfl
    rw [hcons, visit_append, ih, List.flatMap_append, List.flatMap_singleton]
    rfl

/-- Whatever it enters, a walk lists nodes of the trees on its stack. -/
theorem reaches_of_mem_visit {stack : List Node} (h : m ∈ visit enter stack) :
    ∃ r ∈ stack, Reaches Child r m := by
  induction stack using visit.induct enter with
  | case1 =>
    rw [visit] at h
    cases h
  | case2 n stack henter ih =>
    rw [visit, if_pos henter, List.mem_cons] at h
    rcases h with rfl | h
    · exact ⟨m, List.mem_cons_self, Reaches.refl _ m⟩
    · obtain ⟨r, hr, q, hq⟩ := ih h
      rcases List.mem_append.1 hr with hr | hr
      · exact ⟨n, List.mem_cons_self, _, .cons hr hq⟩
      · exact ⟨r, List.mem_cons_of_mem _ hr, q, hq⟩
  | case3 n stack hnot ih =>
    rw [visit, if_neg hnot, List.mem_cons] at h
    rcases h with rfl | h
    · exact ⟨m, List.mem_cons_self, Reaches.refl _ m⟩
    · obtain ⟨r, hr, hrm⟩ := ih h
      exact ⟨r, List.mem_cons_of_mem _ hr, hrm⟩

theorem reaches_of_mem_preorder (h : m ∈ n.preorder enter) : Reaches Child n m := by
  obtain ⟨r, hr, hrm⟩ := reaches_of_mem_visit h
  rwa [List.mem_singleton.1 hr] at hrm

/-- A walk lists the root and then, if it enters the root, the walks of its children. -/
theorem preorder_eq_cons (enter : Node → Bool) (n : Node) :
    n.preorder enter = n :: if enter n then n.children.flatMap (preorder enter) else [] := by
  rw [preorder, visit]
  split
  · rw [List.append_nil, visit_eq_flatMap]
  · rw [visit]

/-- A walk that enters every node lists the root and then the trees of its children. -/
theorem preorder_eq (n : Node) :
    n.preorder (fun _ => true) = n :: n.children.flatMap (preorder fun _ => true) := by
  rw [preorder_eq_cons, if_pos rfl]

theorem mem_preorder_iff : m ∈ n.preorder (fun _ => true) ↔ Reaches Child n m := by
  constructor
  · exact reaches_of_mem_preorder
  · rintro ⟨p, hp⟩
    induction hp with
    | single => rw [preorder_eq]; exact List.mem_cons_self
    | cons hc _ ih =>
      rw [preorder_eq]
      exact List.mem_cons_of_mem _ (List.mem_flatMap.2 ⟨_, hc, ih⟩)

theorem mem_preorder_of_reaches (h : Reaches Child n m) : m ∈ n.preorder fun _ => true :=
  mem_preorder_iff.2 h

/-! ## Searches -/

/-- A search returns the first of the nodes that the walk lists. -/
theorem firstMatch_eq_head? (p enter : Node → Bool) (stack : List Node) :
    firstMatch p enter stack = ((visit enter stack).filter p).head? := by
  induction stack using firstMatch.induct p enter with
  | case1 => simp [firstMatch, visit]
  | case2 n stack hp =>
    unfold firstMatch
    rw [if_pos hp, visit]
    split <;> rw [List.filter_cons_of_pos hp, List.head?_cons]
  | case3 n stack hp henter ih =>
    unfold firstMatch
    rw [if_neg hp, if_pos henter, ih, visit, if_pos henter, List.filter_cons_of_neg hp]
  | case4 n stack hp henter ih =>
    unfold firstMatch
    rw [if_neg hp, if_neg henter, ih, visit, if_neg henter, List.filter_cons_of_neg hp]

theorem find?_eq_find?_preorder (n : Node) (p : Node → Bool) :
    n.find? p = (n.preorder n.inScope).find? p := by
  rw [find?, firstMatch_eq_head?, List.head?_filter, preorder]

theorem find?_some (h : n.find? p = some m) : p m = true ∧ Reaches Child n m := by
  rw [find?_eq_find?_preorder] at h
  exact ⟨List.find?_some h, reaches_of_mem_preorder (List.mem_of_find?_eq_some h)⟩

theorem contains_self (n : Node) : n.contains n = true := by
  have hsame : n.same n = true := by
    unfold same
    exact beq_self_eq_true n.id
  unfold contains find? firstMatch
  rw [if_pos hsame]
  rfl

end AwaitLint.Node
