import AwaitLint.Proofs.Identities
import AwaitLint.Proofs.LoweredFunctions
import Mathlib.Data.List.Flatten
import Mathlib.Data.List.Nodup

/-!
# AwaitLint — trees whose identities do not repeat

Parents are kept beside the trees by identity, so what `Links.parent?` answers depends on which
identities a tree holds. In a tree without repeated identities every node but the root stands at one
place, and its link leads to the node that it stands under.

* **`Links.mem_families_iff`** — linking visits every node of the tree with each of its children.
* **`Links.count_ids_eq`** — so the children visited, with the root, have the identities of the tree.
* **`Links.exists_onlyPlace`** — the place of a node, and its link.
* **`Links.WayUp`** — what following the links meets, up to a node without a parent. It is what
  `Links.ancestors` lists (`WayUp.ancestors_eq`), and in a tree it is the walk up to the root
  (`Links.ancestors_eq`).
-/

namespace AwaitLint.Links

variable {l : Links} {p c root n : Node} {i : Nat}

/-! ## One link -/

theorem parentOf?_attach (l : Links) (p c : Node) (i : Nat) :
    (l.attach p c).parentOf? i = if i = c.id then some p else l.parentOf? i := by
  unfold attach parentOf?
  rw [List.lookup_cons]
  split
  · rename_i heq
    rw [if_pos (beq_iff_eq.1 heq)]
  · rename_i heq
    have hne : i ≠ c.id := ne_of_beq_false heq
    rw [if_neg hne]
    exact lookup_filter_ne l.entries hne

/-! ## Many links -/

section Fold

variable {es : List (Node × Node)}

theorem parentOf?_foldl_of_not_mem (h : i ∉ es.map fun e => e.2.id) :
    (es.foldl (fun l e => l.attach e.1 e.2) l).parentOf? i = l.parentOf? i := by
  induction es generalizing l with
  | nil => rfl
  | cons e es ih =>
    rw [List.map_cons, List.mem_cons, not_or] at h
    rw [List.foldl_cons, ih h.2, parentOf?_attach, if_neg h.1]

/-- If no node is linked twice, every link that was set stays. -/
theorem parentOf?_foldl_of_mem (hnodup : (es.map fun e => e.2.id).Nodup) (h : (p, c) ∈ es) :
    (es.foldl (fun l e => l.attach e.1 e.2) l).parentOf? c.id = some p := by
  induction es generalizing l with
  | nil => cases h
  | cons e es ih =>
    rw [List.map_cons, List.nodup_cons] at hnodup
    rw [List.foldl_cons]
    rcases List.mem_cons.1 h with rfl | h
    · rw [parentOf?_foldl_of_not_mem hnodup.1, parentOf?_attach, if_pos rfl]
    · exact ih hnodup.2 h

end Fold

/-! ## The links of a tree -/

/-- Linking visits the nodes under the stack, each with its children. -/
theorem mem_families_iff {stack : List Node} :
    (p, c) ∈ families stack ↔ (∃ r ∈ stack, Reaches Node.Child r p) ∧ c ∈ p.children := by
  induction stack using families.induct with
  | case1 => simp [families]
  | case2 n stack ih =>
    unfold families
    rw [List.mem_append, ih]
    constructor
    · rintro (h | ⟨⟨r, hr, hrp⟩, hc⟩)
      · obtain ⟨c', hc', heq⟩ := List.mem_map.1 h
        obtain ⟨rfl, rfl⟩ := Prod.mk.inj heq
        exact ⟨⟨n, List.mem_cons_self, Reaches.refl _ n⟩, hc'⟩
      · refine ⟨?_, hc⟩
        rcases List.mem_append.1 hr with hr | hr
        · have hchild : Node.Child n r := List.mem_reverse.1 hr
          exact ⟨n, List.mem_cons_self, Reaches.head_iff.2 (.inr ⟨r, hchild, hrp⟩)⟩
        · exact ⟨r, List.mem_cons_of_mem _ hr, hrp⟩
    · rintro ⟨⟨r, hr, hrp⟩, hc⟩
      rcases List.mem_cons.1 hr with rfl | hr
      · -- the top itself, or a node under one of its children
        rcases Reaches.head_iff.1 hrp with rfl | ⟨v, hv, hvp⟩
        · exact .inl (List.mem_map.2 ⟨c, hc, rfl⟩)
        · exact .inr ⟨⟨v, List.mem_append_left _ (List.mem_reverse.2 hv), hvp⟩, hc⟩
      · exact .inr ⟨⟨r, List.mem_append_right _ hr, hrp⟩, hc⟩

/-- The identities under a stack are those of its nodes and those of the children visited. -/
theorem count_ids_eq (x : Nat) (stack : List Node) :
    (stack.flatMap Node.ids).count x
      = (stack.map Node.id).count x + ((families stack).map fun e => e.2.id).count x := by
  induction stack using families.induct with
  | case1 => simp [families]
  | case2 n stack ih =>
    have hchildren : (n.children.reverse.flatMap Node.ids).count x
        = (n.children.flatMap Node.ids).count x :=
      ((List.reverse_perm n.children).flatMap_right Node.ids).count_eq x
    have hids : (n.children.reverse.map Node.id).count x = (n.children.map Node.id).count x :=
      ((List.reverse_perm n.children).map Node.id).count_eq x
    have hfamilies : (n.children.map fun c => (n, c)).map (fun e => e.2.id)
        = n.children.map Node.id := by
      rw [List.map_map]
      rfl
    rw [List.flatMap_append, List.map_append, List.count_append, List.count_append] at ih
    unfold families
    rw [List.flatMap_cons, n.ids_eq, List.map_cons, List.map_append, hfamilies]
    simp only [List.count_append, List.count_cons]
    omega

theorem count_ids_root (x : Nat) (root : Node) :
    root.ids.count x = [root.id].count x + ((families [root]).map fun e => e.2.id).count x := by
  have h := count_ids_eq x [root]
  rwa [List.flatMap_singleton] at h

theorem nodup_families (hids : root.ids.Nodup) :
    ((families [root]).map fun e => e.2.id).Nodup := by
  refine List.nodup_iff_count_le_one.2 fun x => ?_
  have hroot := count_ids_root x root
  have hle := List.nodup_iff_count_le_one.1 hids x
  omega

theorem root_not_mem_families (hids : root.ids.Nodup) :
    root.id ∉ (families [root]).map fun e => e.2.id := by
  intro hmem
  have hroot := count_ids_root root.id root
  have hle := List.nodup_iff_count_le_one.1 hids root.id
  have hpos := List.count_pos_iff.2 hmem
  rw [List.count_singleton_self] at hroot
  omega

theorem mem_families_of_child (hp : Reaches Node.Child root p) (hc : c ∈ p.children) :
    (p, c) ∈ families [root] :=
  mem_families_iff.2 ⟨⟨root, List.mem_singleton_self root, hp⟩, hc⟩

theorem ids_sublist_of_reaches (h : Reaches Node.Child root p) : p.ids.Sublist root.ids := by
  obtain ⟨w, hw⟩ := h
  induction hw with
  | single => exact List.Sublist.refl _
  | @cons r c _ _ hc _ ih =>
    have hids : c.ids.Sublist (r.children.flatMap Node.ids) := by
      have hsub := (List.singleton_sublist.2 hc).flatMap Node.ids
      rwa [List.flatMap_singleton] at hsub
    rw [r.ids_eq]
    exact (ih.trans hids).cons r.id

theorem nodup_children (hids : root.ids.Nodup) (hp : Reaches Node.Child root p) :
    p.children.Nodup := by
  have hfamilies := nodup_families (hids.sublist (ids_sublist_of_reaches hp))
  unfold families at hfamilies
  rw [List.map_append, List.map_map] at hfamilies
  exact .of_map _ (List.nodup_append.1 hfamilies).1

/-- The place of a node in a tree: it is the child of `p` with number `i`, and no child of any node
has its identity besides. -/
structure OnlyPlace (root n p : Node) (i : Nat) : Prop where
  reached : Reaches Node.Child root p
  child : p.children[i]? = some n
  unique : ∀ q j m, Reaches Node.Child root q → q.children[j]? = some m → m.id = n.id →
    q = p ∧ j = i ∧ m = n

/-- **A child stands at one place**, and its link leads to the node that it stands under. -/
theorem onlyPlace_of_child (hids : root.ids.Nodup) (hp : Reaches Node.Child root p)
    (hi : p.children[i]? = some n) :
    OnlyPlace root n p i ∧ (({} : Links).link root).parent? n = some p := by
  have hnodup := nodup_families hids
  have hfamily := mem_families_of_child hp (List.mem_of_getElem? hi)
  refine ⟨⟨hp, hi, fun q j m hq hj hid => ?_⟩, parentOf?_foldl_of_mem hnodup hfamily⟩
  -- two visits of one identity are one visit
  have hother := mem_families_of_child hq (List.mem_of_getElem? hj)
  obtain ⟨rfl, rfl⟩ := Prod.mk.inj (List.inj_on_of_nodup_map hnodup hother hfamily hid)
  refine ⟨rfl, ?_, rfl⟩
  have hlt : j < q.children.length := (List.getElem?_eq_some_iff.1 hj).1
  exact (List.getElem?_inj hlt (nodup_children hids hq)).1 (hj.trans hi.symm)

/-- **Every node but the root** stands at one place. -/
theorem exists_onlyPlace (hids : root.ids.Nodup) (hn : Reaches Node.Child root n)
    (hne : n.id ≠ root.id) :
    ∃ p i, OnlyPlace root n p i ∧ (({} : Links).link root).parent? n = some p := by
  rcases Reaches.tail_iff.1 hn with rfl | ⟨p, hp, hc⟩
  · exact absurd rfl hne
  · obtain ⟨i, hi⟩ := List.mem_iff_getElem?.1 hc
    exact ⟨p, i, onlyPlace_of_child hids hp hi⟩

theorem parent?_link_root (hids : root.ids.Nodup) : (l.link root).parent? root = l.parent? root :=
  parentOf?_foldl_of_not_mem (root_not_mem_families hids)

theorem parent?_root (hids : root.ids.Nodup) : (({} : Links).link root).parent? root = none :=
  parent?_link_root hids

theorem child_ne_root (hids : root.ids.Nodup) (hp : Reaches Node.Child root p)
    (hc : c ∈ p.children) : c.id ≠ root.id := fun heq =>
  root_not_mem_families hids (heq ▸ List.mem_map.2 ⟨(p, c), mem_families_of_child hp hc, rfl⟩)

variable {m : Node}

theorem parent?_of_child (hids : root.ids.Nodup) (hp : Reaches Node.Child root p)
    (hc : c ∈ p.children) : (l.link root).parent? c = some p :=
  parentOf?_foldl_of_mem (nodup_families hids) (mem_families_of_child hp hc)

/-- Two nodes of the tree with one identity are one. -/
theorem eq_of_id_eq (hids : root.ids.Nodup) (hn : Reaches Node.Child root n)
    (hm : Reaches Node.Child root m) (hid : n.id = m.id) : n = m := by
  rcases Reaches.tail_iff.1 hn with rfl | ⟨p, hp, hc⟩
  · rcases Reaches.tail_iff.1 hm with rfl | ⟨p, hp, hc⟩
    · rfl
    · exact absurd hid.symm (child_ne_root hids hp hc)
  · have hne : m.id ≠ root.id := hid ▸ child_ne_root hids hp hc
    obtain ⟨i, hi⟩ := List.mem_iff_getElem?.1 hc
    obtain ⟨_, _, hplace, _⟩ := exists_onlyPlace hids hm hne
    exact (hplace.unique p i n hp hi hid).2.2

/-! ## Ancestors

Links that lead up to a node without a parent meet no identity twice on the way, so `ancestors`, which
takes as many steps as there are links, lists the whole way. -/

/-- `p` is the parent of `n`. -/
def Above (l : Links) (n p : Node) : Prop := l.parent? n = some p

/-- `way` is what following the parents from `n` meets, up to a node without a parent. -/
inductive WayUp (l : Links) : Node → List Node → Prop where
  | top {n : Node} (hn : l.parent? n = none) : WayUp l n []
  | up {n p : Node} {way : List Node} (hn : l.Above n p) (rest : WayUp l p way) :
      WayUp l n (p :: way)

namespace WayUp

variable {way way' path : List Node} {fuel : Nat}

/-- Parents are looked up by identity, so the way up depends on nothing else. -/
theorem unique (h : l.WayUp n way) (h' : l.WayUp m way') (hid : n.id = m.id) : way = way' := by
  have hsame : l.parent? n = l.parent? m := congrArg l.parentOf? hid
  induction h generalizing m way' with
  | top hn =>
    cases h' with
    | top => rfl
    | up hm _ => exact nomatch hn.symm.trans (hsame.trans hm)
  | up hn _ ih =>
    cases h' with
    | top hm => exact nomatch hm.symm.trans (hsame.symm.trans hn)
    | up hm rest =>
      obtain rfl := Option.some.inj (hn.symm.trans (hsame.trans hm))
      rw [ih rest rfl rfl]

theorem of_walk (hpath : Walk l.Above n m path) (h : l.WayUp m way) :
    l.WayUp n (path.tail ++ way) := by
  induction hpath with
  | single => exact h
  | cons edge rest ih =>
    obtain ⟨path, rfl⟩ := rest.exists_eq_cons
    exact .up edge (ih h)

theorem exists_shorter (h : l.WayUp n way) (hm : m ∈ way) :
    ∃ way', l.WayUp m way' ∧ way'.length < way.length := by
  induction h with
  | top => cases hm
  | up _ rest ih =>
    rcases List.mem_cons.1 hm with rfl | hm
    · exact ⟨_, rest, Nat.lt_succ_self _⟩
    · obtain ⟨way', hway, hlt⟩ := ih hm
      exact ⟨way', hway, Nat.lt_succ_of_lt hlt⟩

/-- A node that was met again would have two ways up, one of them shorter. -/
theorem nodup_ids (h : l.WayUp n way) : ((n :: way).map Node.id).Nodup := by
  induction h with
  | top => exact List.nodup_singleton _
  | @up n p way hn rest ih =>
    rw [List.map_cons, List.nodup_cons]
    refine ⟨fun hmem => ?_, ih⟩
    obtain ⟨m, hm, hid⟩ := List.mem_map.1 hmem
    have h : l.WayUp n (p :: way) := .up hn rest
    obtain ⟨way', hway, hlt⟩ := h.exists_shorter hm
    rw [hway.unique h hid] at hlt
    exact Nat.lt_irrefl _ hlt

/-- Nothing above a node leads back to it. -/
theorem not_reaches_back (h : l.WayUp n way) (hp : l.Above n p) : ¬ Reaches l.Above p n := by
  rintro ⟨path, hpath⟩
  have hlonger : way = path ++ way := h.unique (of_walk (.cons hp hpath) h) rfl
  have hlen := congrArg List.length hlonger
  obtain ⟨path, rfl⟩ := hpath.exists_eq_cons
  simp only [List.length_append, List.length_cons] at hlen
  omega

theorem exists_parent (h : l.WayUp n way) (hm : m ∈ (n :: way).dropLast) :
    ∃ p, l.parent? m = some p := by
  induction h with
  | top => cases hm
  | up hn _ ih =>
    rw [List.dropLast_cons_cons] at hm
    rcases List.mem_cons.1 hm with rfl | hm
    · exact ⟨_, hn⟩
    · exact ih hm

theorem climb_eq (h : l.WayUp n way) (hfuel : way.length ≤ fuel) : l.climb fuel n.id = way := by
  induction h generalizing fuel with
  | @top n hn =>
    cases fuel with
    | zero => rfl
    | succ fuel =>
      replace hn : l.parentOf? n.id = none := hn
      rw [climb, hn]
  | @up n p way hn _ ih =>
    cases fuel with
    | zero => cases hfuel
    | succ fuel =>
      replace hn : l.parentOf? n.id = some p := hn
      rw [climb, hn]
      exact congrArg (p :: ·) (ih (Nat.le_of_succ_le_succ hfuel))

/-- The ancestors of a node are its way up: there is a link for each step. -/
theorem ancestors_eq (h : l.WayUp n way) : l.ancestors n = way := by
  refine h.climb_eq ?_
  have hsub : ((n :: way).dropLast.map Node.id) ⊆ l.entries.map Prod.fst := by
    intro i hi
    obtain ⟨m, hm, rfl⟩ := List.mem_map.1 hi
    obtain ⟨p, hp⟩ := h.exists_parent hm
    exact List.mem_map.2 ⟨_, mem_entries_of_parent? hp, rfl⟩
  have hnodup : ((n :: way).dropLast.map Node.id).Nodup :=
    h.nodup_ids.sublist ((List.dropLast_sublist _).map _)
  have hlen := (List.subperm_of_subset hnodup hsub).length_le
  simpa using hlen

end WayUp

variable {q : List Node}

/-- A walk up the tree follows the links. -/
theorem walk_above (hids : root.ids.Nodup) (hm : Reaches Node.Child root m)
    (h : Walk (fun a b => Node.Child b a) n m q) : Walk (l.link root).Above n m q := by
  induction h with
  | single v => exact .single v
  | cons edge rest ih =>
    exact .cons (parent?_of_child hids (hm.trans ⟨_, rest.reverse⟩) edge) (ih hm)

/-- The ancestors of a node are what a walk up to the root meets. -/
theorem ancestors_eq (hids : root.ids.Nodup)
    (h : Walk (fun a b => Node.Child b a) n root (n :: q)) :
    (({} : Links).link root).ancestors n = q := by
  have hwalk := walk_above (l := {}) hids (Reaches.refl _ root) h
  have hway := WayUp.of_walk hwalk (.top (parent?_root hids))
  rw [List.tail_cons, List.append_nil] at hway
  exact hway.ancestors_eq

end AwaitLint.Links
