import AwaitLint.Proofs.LinkedTree
import AwaitLint.Verdict

/-!
# AwaitLint — a conversion put around one node

`Node.wrap` puts a conversion around the node with a given identity wherever it stands below the
root, and leaves everything else as it is. `Wraps` says that the tree has no repeated identities,
that the node is a reference among the arguments of a call or the elements of a collection, and that
the identity of the conversion is new. What a walk, a search or a question about the ancestors finds
in the new tree is then what it found in the old one, wrapped.

* **`filter_visit_wrap`** — a walk meets the same nodes, and the conversion before the node under it.
* **`parent?_wrap`**, **`parent?_item`** — the links of the new tree.
* **`ancestors_wrap`** — the ancestors, with the conversion above the node.
-/

namespace AwaitLint

namespace Node

/-! ## The new tree -/

mutual

/-- The tree with a conversion `cv` around every node below the root that has identity `r`. -/
def wrap (r : Nat) (cv : NodeInfo) : Node → Node
  | .mk info operand targets values args =>
    .mk info (wrapOption r cv operand) (wrapList r cv targets) (wrapList r cv values)
      (wrapList r cv args)

/-- An optional child in the new tree. -/
def wrapOption (r : Nat) (cv : NodeInfo) : Option Node → Option Node
  | none => none
  | some n => some (if n.id == r then .mk cv (some (wrap r cv n)) [] [] [] else wrap r cv n)

/-- The children of a role in the new tree. -/
def wrapList (r : Nat) (cv : NodeInfo) : List Node → List Node
  | [] => []
  | n :: ns =>
    (if n.id == r then .mk cv (some (wrap r cv n)) [] [] [] else wrap r cv n) :: wrapList r cv ns

end

/-- The conversion of a node. -/
def convert (cv : NodeInfo) (n : Node) : Node := .mk cv (some n) [] [] []

/-- What stands in the new tree in the place of a child. -/
def put (r : Nat) (cv : NodeInfo) (n : Node) : Node :=
  if n.id == r then (n.wrap r cv).convert cv else n.wrap r cv

variable {r : Nat} {cv : NodeInfo} {n m : Node}

theorem wrapOption_eq (o : Option Node) : wrapOption r cv o = o.map (put r cv) := by
  cases o <;> rfl

theorem wrapList_eq (ns : List Node) : wrapList r cv ns = ns.map (put r cv) := by
  induction ns with
  | nil => rfl
  | cons n ns ih =>
    rw [wrapList, ih]
    rfl

@[simp] theorem info_wrap (n : Node) : (n.wrap r cv).info = n.info := by
  cases n
  rfl

@[simp] theorem id_wrap (n : Node) : (n.wrap r cv).id = n.id := congrArg NodeInfo.id n.info_wrap

@[simp] theorem kind_wrap (n : Node) : (n.wrap r cv).kind = n.kind :=
  congrArg NodeInfo.kind n.info_wrap

@[simp] theorem name_wrap (n : Node) : (n.wrap r cv).name = n.name :=
  congrArg NodeInfo.name n.info_wrap

@[simp] theorem type_wrap (n : Node) : (n.wrap r cv).type = n.type :=
  congrArg NodeInfo.type n.info_wrap

@[simp] theorem var_wrap (n : Node) : (n.wrap r cv).var = n.var := congrArg NodeInfo.var n.info_wrap

theorem operand_wrap (n : Node) : (n.wrap r cv).operand = n.operand.map (put r cv) := by
  cases n
  exact wrapOption_eq _

theorem targets_wrap (n : Node) : (n.wrap r cv).targets = n.targets.map (put r cv) := by
  cases n
  exact wrapList_eq _

theorem values_wrap (n : Node) : (n.wrap r cv).values = n.values.map (put r cv) := by
  cases n
  exact wrapList_eq _

theorem args_wrap (n : Node) : (n.wrap r cv).args = n.args.map (put r cv) := by
  cases n
  exact wrapList_eq _

theorem children_wrap (n : Node) : (n.wrap r cv).children = n.children.map (put r cv) := by
  unfold children
  rw [operand_wrap, targets_wrap, values_wrap, args_wrap]
  cases n.operand <;> simp

@[simp] theorem info_convert (n : Node) : (n.convert cv).info = cv := rfl

@[simp] theorem id_convert (n : Node) : (n.convert cv).id = cv.id := rfl

@[simp] theorem kind_convert (n : Node) : (n.convert cv).kind = cv.kind := rfl

@[simp] theorem children_convert (n : Node) : (n.convert cv).children = [n] := rfl

theorem put_of_ne (h : n.id ≠ r) : n.put r cv = n.wrap r cv := by
  unfold put
  rw [if_neg (by simpa using h)]

theorem put_of_eq (h : n.id = r) : n.put r cv = (n.wrap r cv).convert cv := by
  unfold put
  rw [if_pos (by simpa using h)]

theorem isOneOf_map_wrap (n : Node) (l : List Node) :
    (n.wrap r cv).isOneOf (l.map (wrap r cv)) = n.isOneOf l := by
  unfold isOneOf same
  rw [List.any_map]
  refine congrArg (List.any l) (funext fun m => ?_)
  show ((m.wrap r cv).id == (n.wrap r cv).id) = _
  rw [id_wrap, id_wrap]

theorem isReturn_wrap (n : Node) : (n.wrap r cv).isReturn = n.isReturn := by
  unfold isReturn
  rw [kind_wrap, name_wrap]

/-! ## Walks and searches -/

/-- `m` stands for `n` in the new tree: it is the wrapped node, or the conversion around it. -/
def StandsFor (r : Nat) (cv : NodeInfo) (n m : Node) : Prop :=
  m = n.wrap r cv ∨ n.id = r ∧ m = (n.wrap r cv).convert cv

theorem standsFor_put (n : Node) : StandsFor r cv n (n.put r cv) := by
  by_cases h : n.id = r
  · exact .inr ⟨h, put_of_eq h⟩
  · exact .inl (put_of_ne h)

theorem forall₂_standsFor_put (ns : List Node) :
    List.Forall₂ (StandsFor r cv) ns (ns.map (put r cv)) := by
  induction ns with
  | nil => exact .nil
  | cons n ns ih => exact .cons (standsFor_put n) ih

section Visit

variable {p p' enter enter' : Node → Bool} {stack stack' : List Node}

theorem filter_visit_convert (hp : ∀ m : Node, p' (m.convert cv) = false)
    (henter : ∀ m : Node, enter' (m.convert cv) = true) (n : Node) (stack : List Node) :
    (visit enter' (n.convert cv :: stack)).filter p' = (visit enter' (n :: stack)).filter p' := by
  rw [visit, if_pos (henter n), List.filter_cons_of_neg (by rw [hp]; exact Bool.false_ne_true)]
  rfl

/-- A walk that enters conversions meets the wrapped nodes in the old order. A test that says of a
wrapped node what it said of the node, and rejects conversions, accepts the same ones. -/
theorem filter_visit_wrap (hstack : List.Forall₂ (StandsFor r cv) stack stack')
    (hp : ∀ n ∈ stack, ∀ m, Reaches Child n m → p' (m.wrap r cv) = p m)
    (hconv : ∀ m : Node, p' (m.convert cv) = false)
    (henter : ∀ m : Node, enter' (m.wrap r cv) = enter m)
    (hin : ∀ m : Node, enter' (m.convert cv) = true) :
    (visit enter' stack').filter p' = ((visit enter stack).filter p).map (wrap r cv) := by
  -- the top of the new stack may be taken to be the wrapped top of the old one
  have htop : ∀ n m rest, StandsFor r cv n m →
      (visit enter' (m :: rest)).filter p' = (visit enter' (n.wrap r cv :: rest)).filter p' := by
    rintro n m rest (rfl | ⟨-, rfl⟩)
    · rfl
    · exact filter_visit_convert hconv hin _ rest
  induction stack using visit.induct enter generalizing stack' with
  | case1 =>
    cases hstack
    simp [visit]
  | case2 n stack hn ih =>
    cases hstack with
    | cons hstands hrest =>
      have hself := hp n List.mem_cons_self n (Reaches.refl _ n)
      rw [htop _ _ _ hstands, visit, henter n, if_pos hn, visit, if_pos hn, List.filter_cons,
        List.filter_cons, hself, children_wrap, ih (List.rel_append (forall₂_standsFor_put _) hrest)]
      · split <;> rfl
      · intro c hc m hm
        rcases List.mem_append.1 hc with hc | hc
        · exact hp n List.mem_cons_self m (Reaches.head_iff.2 (.inr ⟨c, hc, hm⟩))
        · exact hp c (List.mem_cons_of_mem _ hc) m hm
  | case3 n stack hn ih =>
    cases hstack with
    | cons hstands hrest =>
      have hself := hp n List.mem_cons_self n (Reaches.refl _ n)
      rw [htop _ _ _ hstands, visit, henter n, if_neg hn, visit, if_neg hn, List.filter_cons,
        List.filter_cons, hself, ih hrest fun c hc => hp c (List.mem_cons_of_mem _ hc)]
      split <;> rfl

end Visit

section Search

variable {p p' : Node → Bool} (hcv : cv.kind = .conversion)
  (hp : ∀ m, Reaches Child n m → p' (m.wrap r cv) = p m)
  (hconv : ∀ m : Node, p' (m.convert cv) = false)
include hcv hp hconv

theorem findAll_wrap : (n.wrap r cv).findAll p' = (n.findAll p).map (wrap r cv) := by
  refine filter_visit_wrap (.cons (.inl rfl) .nil) (fun m hm => ?_) hconv (fun m => ?_) fun m => ?_
  · rw [List.mem_singleton.1 hm]
    exact hp
  · unfold inScope same
    rw [id_wrap, id_wrap, kind_wrap]
  · unfold inScope
    rw [kind_convert, hcv]
    exact Bool.or_true _

theorem find?_wrap : (n.wrap r cv).find? p' = (n.find? p).map (wrap r cv) := by
  have hall := findAll_wrap hcv hp hconv
  unfold find?
  rw [firstMatch_eq_head?, firstMatch_eq_head?]
  exact (congrArg List.head? hall).trans List.head?_map

end Search

theorem reaches_wrap (h : Reaches Child n m) : Reaches Child (n.wrap r cv) (m.wrap r cv) := by
  obtain ⟨p, hp⟩ := h
  induction hp with
  | single => exact Reaches.refl _ _
  | @cons u v _ _ edge _ ih =>
    have hput : v.put r cv ∈ (u.wrap r cv).children := by
      rw [children_wrap]
      exact List.mem_map_of_mem edge
    by_cases hid : v.id = r
    · -- one step more, through the conversion
      rw [put_of_eq hid] at hput
      exact Reaches.head_iff.2 (.inr ⟨_, hput, Reaches.head_iff.2
        (.inr ⟨_, List.mem_singleton_self _, ih⟩)⟩)
    · rw [put_of_ne hid] at hput
      exact Reaches.head_iff.2 (.inr ⟨_, hput, ih⟩)

/-! ## Identities -/

/-- The identities that stand in the new tree in the place of one. -/
def putIds (r : Nat) (cv : NodeInfo) (i : Nat) : List Nat := if i = r then [cv.id, i] else [i]

theorem mem_putIds {x i : Nat} : x ∈ putIds r cv i ↔ x = i ∨ i = r ∧ x = cv.id := by
  unfold putIds
  split
  · simp [or_comm, *]
  · simp [*]

theorem ids_put (n : Node) : (n.put r cv).ids = n.ids.flatMap (putIds r cv) := by
  have hwrap : (n.wrap r cv).ids
      = n.id :: n.children.flatMap fun c => c.ids.flatMap (putIds r cv) := by
    rw [ids_eq, id_wrap, children_wrap, List.flatMap_map]
    congr 1
    exact List.flatMap_congr fun c hc => ids_put c
  by_cases h : n.id = r
  · rw [put_of_eq h, ids_eq, children_convert, List.flatMap_singleton, hwrap, n.ids_eq,
      List.flatMap_cons, putIds, if_pos h, List.flatMap_assoc]
    rfl
  · rw [put_of_ne h, hwrap, n.ids_eq, List.flatMap_cons, putIds, if_neg h, List.flatMap_assoc]
    rfl
termination_by n.size
decreasing_by exact size_lt_of_mem_children hc

theorem nodup_ids_wrap (hids : n.ids.Nodup) (hfresh : cv.id ∉ n.ids) (hne : n.id ≠ r) :
    (n.wrap r cv).ids.Nodup := by
  rw [← put_of_ne hne, ids_put, List.nodup_flatMap]
  refine ⟨fun i hi => ?_, hids.imp_of_mem fun {i j} hi hj hij => ?_⟩
  · have hi : cv.id ≠ i := fun heq => hfresh (heq ▸ hi)
    unfold putIds
    split <;> simp [hi]
  · intro x hxi hxj
    rcases mem_putIds.1 hxi with rfl | ⟨rfl, rfl⟩
    · rcases mem_putIds.1 hxj with hx | ⟨-, rfl⟩
      · exact hij hx
      · exact hfresh hi
    · rcases mem_putIds.1 hxj with rfl | ⟨rfl, -⟩
      · exact hfresh hj
      · exact hij rfl

end Node

/-! ## Ways up to the root -/

namespace Node

variable {r : Nat} {cv : NodeInfo} {root n : Node} {q l : List Node} {p : Node → Bool}

/-- What a way up meets in the new tree in the place of a node: the conversion comes after it. -/
def above (r : Nat) (cv : NodeInfo) (n : Node) : List Node :=
  n.wrap r cv :: if n.id = r then [(n.wrap r cv).convert cv] else []

theorem walk_above (hne : root.id ≠ r) (h : Walk (fun a b => Child b a) n root q) :
    Walk (fun a b => Child b a) (n.wrap r cv) (root.wrap r cv) (q.flatMap (above r cv)) := by
  induction h with
  | single root =>
    rw [List.flatMap_singleton, above, if_neg hne]
    exact .single _
  | @cons u v _ q edge rest ih =>
    have hput : Child (v.wrap r cv) (u.put r cv) := by
      show _ ∈ (v.wrap r cv).children
      rw [children_wrap]
      exact List.mem_map_of_mem edge
    rw [List.flatMap_cons, above]
    split
    · rename_i hid
      rw [put_of_eq hid] at hput
      have hchild : Child ((u.wrap r cv).convert cv) (u.wrap r cv) := List.mem_singleton_self _
      exact .cons hchild (.cons hput (ih hne))
    · rename_i hid
      rw [put_of_ne hid] at hput
      exact .cons hput (ih hne)

section Tests

variable (hp : ∀ m : Node, p (m.wrap r cv) = p m)
include hp

theorem takeWhile_above (hconv : ∀ m : Node, p (m.convert cv) = true) :
    (l.flatMap (above r cv)).takeWhile p = (l.takeWhile p).flatMap (above r cv) := by
  induction l with
  | nil => rfl
  | cons n l ih =>
    by_cases hn : p n = true
    · have hwrap : p (n.wrap r cv) = true := (hp n).trans hn
      rw [List.takeWhile_cons_of_pos hn, List.flatMap_cons, List.flatMap_cons, above]
      split <;> simp [hwrap, hconv, ih]
    · have hwrap : ¬ p (n.wrap r cv) = true := hp n ▸ hn
      rw [List.takeWhile_cons_of_neg hn, List.flatMap_cons, above, List.cons_append,
        List.takeWhile_cons_of_neg hwrap]
      rfl

theorem filter_above (hconv : ∀ m : Node, p (m.convert cv) = false) :
    (l.flatMap (above r cv)).filter p = (l.filter p).map (wrap r cv) := by
  induction l with
  | nil => rfl
  | cons n l ih =>
    have hwrap := hp n
    rw [List.flatMap_cons, above]
    by_cases hn : p n = true <;> split <;> simp [hwrap, hconv, hn, ih]

theorem find?_above (hconv : ∀ m : Node, p (m.convert cv) = false) :
    (l.flatMap (above r cv)).find? p = (l.find? p).map (wrap r cv) := by
  rw [← List.head?_filter, ← List.head?_filter, filter_above hp hconv, List.head?_map]

theorem any_above (hconv : ∀ m : Node, p (m.convert cv) = false) :
    (l.flatMap (above r cv)).any p = l.any p := by
  rw [List.any_flatMap]
  refine congrArg (List.any l) (funext fun n => ?_)
  rw [above, List.any_cons, hp]
  split <;> simp [hconv]

end Tests

end Node

/-! ## One reference among the arguments -/

/-- A conversion `cv` can be put around `item`, a reference among the arguments of the call or the
elements of the collection `site`. -/
structure Wraps (root site item : Node) (cv : NodeInfo) : Prop where
  ids : root.ids.Nodup
  fresh : cv.id ∉ root.ids
  conversion : cv.kind = .conversion
  reached : Reaches Node.Child root site
  place : item ∈ site.args
  holds : site.kind = .call ∨ site.kind = .collection
  isRef : item.kind = .localRef

namespace Wraps

open Node

variable {root site item n m c : Node} {cv : NodeInfo}

section

variable (h : Wraps root site item cv)
include h

theorem child : item ∈ site.children := List.mem_append_right _ h.place

theorem item_reached : Reaches Child root item := h.reached.tail h.child

theorem item_ne_root : root.id ≠ item.id := (Links.child_ne_root h.ids h.reached h.child).symm

theorem ids_wrap : (root.wrap item.id cv).ids.Nodup :=
  nodup_ids_wrap h.ids h.fresh h.item_ne_root

theorem eq_item (hn : Reaches Child root n) (hid : n.id = item.id) : n = item :=
  Links.eq_of_id_eq h.ids hn h.item_reached hid

/-- Only the item has its kind and identity. -/
theorem ne_item (hn : Reaches Child root n) (hkind : n.kind ≠ .localRef) : n.id ≠ item.id :=
  fun hid => hkind (h.eq_item hn hid ▸ h.isRef)

theorem fresh_of_reached (hn : Reaches Child root n) : n.id ≠ cv.id := by
  intro heq
  refine h.fresh (heq ▸ (Links.ids_sublist_of_reaches hn).subset ?_)
  rw [n.ids_eq]
  exact List.mem_cons_self

/-- The item stands under the site and nowhere else. -/
theorem parent_eq (hn : Reaches Child root n) (hc : c ∈ n.children) (hid : c.id = item.id) :
    n = site := by
  obtain rfl := h.eq_item (hn.tail hc) hid
  have hsite := Links.parent?_of_child (l := {}) h.ids h.reached h.child
  exact Option.some.inj ((Links.parent?_of_child h.ids hn hc).symm.trans hsite)

/-- Under the site it is an argument, and neither the operand, a target nor a value. -/
theorem ne_of_mem_roles (hn : Reaches Child root n)
    (hc : c ∈ n.operand.toList ++ n.targets ++ n.values) : c.id ≠ item.id := by
  intro hid
  have hchild : c ∈ n.children := List.mem_append_left _ hc
  obtain rfl := h.parent_eq hn hchild hid
  obtain rfl := h.eq_item (hn.tail hchild) hid
  have hnodup : (n.operand.toList ++ n.targets ++ n.values ++ n.args).Nodup :=
    Links.nodup_children h.ids hn
  exact (List.nodup_append.1 hnodup).2.2 c hc c h.place rfl

theorem operand_wrap (hn : Reaches Child root n) :
    (n.wrap item.id cv).operand = n.operand.map (wrap item.id cv) := by
  rw [Node.operand_wrap]
  refine Option.map_congr fun x hx => put_of_ne (h.ne_of_mem_roles hn ?_)
  exact List.mem_append_left _ (List.mem_append_left _ (Option.mem_toList.2 hx))

theorem targets_wrap (hn : Reaches Child root n) :
    (n.wrap item.id cv).targets = n.targets.map (wrap item.id cv) := by
  rw [Node.targets_wrap]
  refine List.map_congr_left fun x hx => put_of_ne (h.ne_of_mem_roles hn ?_)
  exact List.mem_append_left _ (List.mem_append_right _ hx)

theorem values_wrap (hn : Reaches Child root n) :
    (n.wrap item.id cv).values = n.values.map (wrap item.id cv) := by
  rw [Node.values_wrap]
  refine List.map_congr_left fun x hx => put_of_ne (h.ne_of_mem_roles hn ?_)
  exact List.mem_append_right _ hx

/-- The arguments of anything but a call or a collection stay plain. -/
theorem args_wrap (hn : Reaches Child root n) (hcall : n.kind ≠ .call)
    (hcollection : n.kind ≠ .collection) :
    (n.wrap item.id cv).args = n.args.map (wrap item.id cv) := by
  rw [Node.args_wrap]
  refine List.map_congr_left fun x hx => put_of_ne fun hid => ?_
  have hsite := h.parent_eq hn (List.mem_append_right _ hx) hid
  rcases h.holds with hkind | hkind
  · exact hcall (hsite ▸ hkind)
  · exact hcollection (hsite ▸ hkind)

/-! ### Links -/

theorem parent?_convert :
    (({} : Links).link (root.wrap item.id cv)).parent? ((item.wrap item.id cv).convert cv)
      = some (site.wrap item.id cv) := by
  refine Links.parent?_of_child h.ids_wrap (reaches_wrap h.reached) ?_
  rw [children_wrap, ← put_of_eq rfl]
  exact List.mem_map_of_mem h.child

theorem parent?_item :
    (({} : Links).link (root.wrap item.id cv)).parent? (item.wrap item.id cv)
      = some ((item.wrap item.id cv).convert cv) := by
  refine Links.parent?_of_child h.ids_wrap ?_ (List.mem_singleton_self _)
  refine (reaches_wrap h.reached).tail ?_
  show _ ∈ (site.wrap item.id cv).children
  rw [children_wrap, ← put_of_eq rfl]
  exact List.mem_map_of_mem h.child

theorem parent?_wrap (hn : Reaches Child root n) (hne : n.id ≠ item.id) :
    (({} : Links).link (root.wrap item.id cv)).parent? (n.wrap item.id cv)
      = ((({} : Links).link root).parent? n).map (wrap item.id cv) := by
  rcases Reaches.tail_iff.1 hn with rfl | ⟨p, hp, hc⟩
  · rw [Links.parent?_root h.ids, Links.parent?_root h.ids_wrap]
    rfl
  · rw [Links.parent?_of_child h.ids hp hc]
    refine Links.parent?_of_child h.ids_wrap (reaches_wrap hp) ?_
    rw [children_wrap, ← put_of_ne hne]
    exact List.mem_map_of_mem hc

/-- The ancestors in the new tree: those of the old one, with the conversion above the item. -/
theorem ancestors_wrap (hn : Reaches Child root n) :
    n.wrap item.id cv :: (({} : Links).link (root.wrap item.id cv)).ancestors (n.wrap item.id cv)
      = (n :: (({} : Links).link root).ancestors n).flatMap (above item.id cv) := by
  obtain ⟨p, hp⟩ := hn
  obtain ⟨q, hq⟩ := hp.reverse.exists_eq_cons
  have hup : Walk (fun a b => Child b a) n root (n :: q) := hq ▸ hp.reverse
  rw [Links.ancestors_eq h.ids hup]
  have hup' : Walk (fun a b => Child b a) (n.wrap item.id cv) (root.wrap item.id cv) _ :=
    walk_above h.item_ne_root hup
  rw [List.flatMap_cons, above, List.cons_append] at hup' ⊢
  rw [Links.ancestors_eq h.ids_wrap hup']

theorem ancestors_wrap_tail (hn : Reaches Child root n) :
    (({} : Links).link (root.wrap item.id cv)).ancestors (n.wrap item.id cv)
      = (if n.id = item.id then [(n.wrap item.id cv).convert cv] else [])
        ++ ((({} : Links).link root).ancestors n).flatMap (above item.id cv) :=
  (List.cons.inj (h.ancestors_wrap hn)).2

theorem isAwaited_wrap (hn : Reaches Child root n) :
    (({} : Links).link (root.wrap item.id cv)).isAwaited (n.wrap item.id cv)
      = (({} : Links).link root).isAwaited n := by
  have hstmt : (!cv.kind.isStmt) = true := by
    rw [h.conversion]
    rfl
  have hawait : decide (cv.kind = .await) = false := by
    rw [h.conversion]
    rfl
  have hrest (l : List Node) :
      ((l.flatMap (above item.id cv)).takeWhile fun p => !p.kind.isStmt).any (fun p => p.kind = .await)
        = (l.takeWhile fun p => !p.kind.isStmt).any fun p => p.kind = .await := by
    rw [takeWhile_above (fun m => by rw [kind_wrap]) (fun m => hstmt),
      any_above (fun m => by rw [kind_wrap]) fun m => hawait]
  unfold Links.isAwaited
  rw [h.ancestors_wrap_tail hn]
  split
  · -- the conversion ends no expression and is no await
    rw [List.singleton_append, List.takeWhile_cons, kind_convert, hstmt, if_pos rfl, List.any_cons,
      kind_convert, hawait, Bool.false_or]
    exact hrest _
  · exact hrest _

theorem enclosingFunc?_wrap (hn : Reaches Child root n) :
    (({} : Links).link (root.wrap item.id cv)).enclosingFunc? (n.wrap item.id cv)
      = ((({} : Links).link root).enclosingFunc? n).map (wrap item.id cv) := by
  have hfunc : decide (cv.kind = .func) = false := by
    rw [h.conversion]
    rfl
  unfold Links.enclosingFunc?
  rw [h.ancestors_wrap_tail hn, List.find?_append,
    find?_above (fun m => by rw [kind_wrap]) fun m => hfunc]
  split
  · rw [List.find?_singleton, kind_convert, hfunc]
    rfl
  · rfl

theorem endsInSink_wrap (c : Config) (hn : Reaches Child root n) :
    c.endsInSink (({} : Links).link (root.wrap item.id cv)) (n.wrap item.id cv)
      = c.endsInSink (({} : Links).link root) n := by
  have hfunc : (cv.kind != .func) = true := by
    rw [h.conversion]
    rfl
  have hcall : (decide (cv.kind = .call) || decide (cv.kind = .propertyRef)) = false := by
    rw [h.conversion]
    rfl
  unfold Config.endsInSink
  dsimp only
  rw [h.ancestors_wrap hn, takeWhile_above (fun m => by rw [kind_wrap]) (fun m => hfunc),
    filter_above (fun m => by rw [kind_wrap]) (fun m => hcall), List.getLast?_map,
    Option.getD_map (wrap item.id cv), kind_wrap, name_wrap]

theorem isReturned_wrap (hn : Reaches Child root n) :
    (({} : Links).link (root.wrap item.id cv)).isReturned (n.wrap item.id cv)
      = (({} : Links).link root).isReturned n := by
  unfold Links.isReturned
  by_cases hid : n.id = item.id
  · -- the site is above the item in both trees
    obtain rfl := h.eq_item hn hid
    have hkind : site.kind ≠ .conversion := by
      rcases h.holds with hkind | hkind <;> rw [hkind] <;> decide
    rw [h.parent?_item, Links.parent?_of_child h.ids h.reached h.child]
    dsimp only
    rw [if_neg hkind, kind_convert, if_pos h.conversion, h.parent?_convert]
    exact isReturn_wrap site
  · rw [h.parent?_wrap hn hid]
    cases hp : (({} : Links).link root).parent? n with
    | none => rfl
    | some p =>
      have hreached := Links.reaches_of_parent? hp
      dsimp only [Option.map_some]
      rw [kind_wrap]
      split
      · rename_i hconv
        have hne : p.id ≠ item.id := h.ne_item hreached (by rw [hconv]; decide)
        rw [h.parent?_wrap hreached hne]
        cases (({} : Links).link root).parent? p with
        | none => rfl
        | some p' => exact isReturn_wrap p'
      · exact isReturn_wrap p

/-! ### Nodes among others -/

/-- A node other than the item is among the children of a role when it was. -/
theorem isOneOf_map_put (hn : Reaches Child root n) (hne : n.id ≠ item.id) (l : List Node) :
    (n.wrap item.id cv).isOneOf (l.map (put item.id cv)) = n.isOneOf l := by
  unfold isOneOf same
  rw [List.any_map]
  refine congrArg (List.any l) (funext fun m => ?_)
  show ((m.put item.id cv).id == (n.wrap item.id cv).id) = _
  by_cases hid : m.id = item.id
  · rw [put_of_eq hid, id_wrap, id_convert, hid]
    rw [beq_false_of_ne (h.fresh_of_reached hn).symm, beq_false_of_ne hne.symm]
  · rw [put_of_ne hid, id_wrap, id_wrap]

theorem isAssignTarget_wrap (hn : Reaches Child root n) :
    (({} : Links).link (root.wrap item.id cv)).isAssignTarget (n.wrap item.id cv)
      = (({} : Links).link root).isAssignTarget n := by
  unfold Links.isAssignTarget
  by_cases hid : n.id = item.id
  · -- neither a conversion nor the site is an assignment
    obtain rfl := h.eq_item hn hid
    have hkind : site.kind ≠ .assign := by
      rcases h.holds with hkind | hkind <;> rw [hkind] <;> decide
    rw [h.parent?_item, Links.parent?_of_child h.ids h.reached h.child]
    dsimp only
    rw [kind_convert, h.conversion, decide_eq_false hkind]
    rfl
  · rw [h.parent?_wrap hn hid]
    cases hp : (({} : Links).link root).parent? n with
    | none => rfl
    | some p =>
      dsimp only [Option.map_some]
      rw [kind_wrap, h.targets_wrap (Links.reaches_of_parent? hp), isOneOf_map_wrap _]

end

end Wraps

end AwaitLint
