import AwaitLint.Proofs.Consumption
import AwaitLint.Proofs.MappedNodes
import AwaitLint.Proofs.Wrapping
import Mathlib.Data.List.Find

/-!
# AwaitLint — list items under a conversion

What changes when an item of a list is put under a conversion, and nothing else
(`FrontEnd.Converts`). Every test of a decision says of the new tree what it said of the old one, but
for one: a plain item has to be added wherever its variable is written, and that is not asked of a
conversion.

* **`viaList_wrap`**, **`viaList_item`** — the tests on lists, for other nodes and for the item.
* **`conversion_transparent`** — every value is decided alike, unless it was reported and some
  definition of the item misses the add site. `accepted_once_converted` is a value of that kind.
-/

namespace AwaitLint

open Node

/-! ## Questions that change from no -/

section Faults

variable {ε α β : Type} {f g : α → Except ε Bool} {l : List α} {P : Prop}

theorem anyM_map {k : β → Except ε Bool} (move : α → β) (l : List α) :
    (l.map move).anyM k = l.anyM fun x => k (move x) := by
  induction l with
  | nil => rfl
  | cons x l ih => rw [List.map_cons, List.anyM, List.anyM, ih]

theorem allM_map {k : β → Except ε Bool} (move : α → β) (l : List α) :
    (l.map move).allM k = l.allM fun x => k (move x) := by
  induction l with
  | nil => rfl
  | cons x l ih => rw [List.map_cons, List.allM, List.allM, ih]

theorem anyM_congr_left (h : ∀ x ∈ l, g x = f x) : l.anyM g = l.anyM f := by
  induction l with
  | nil => rfl
  | cons x l ih =>
    obtain ⟨hx, hl⟩ := List.forall_mem_cons.1 h
    rw [List.anyM, List.anyM, hx, ih hl]

theorem any_congr_left {p q : α → Bool} (h : ∀ x ∈ l, q x = p x) : l.any q = l.any p := by
  rw [Bool.eq_iff_iff, List.any_eq_true, List.any_eq_true]
  exact exists_congr fun x => and_congr_right fun hx => by rw [h x hx]

theorem all_congr_left {p q : α → Bool} (h : ∀ x ∈ l, q x = p x) : l.all q = l.all p := by
  rw [Bool.eq_iff_iff, List.all_eq_true, List.all_eq_true]
  exact forall₂_congr fun x hx => by rw [h x hx]

/-- If each answer stays or was no, all answers together stay or were no. -/
theorem allM_eq_or_false (h : ∀ x ∈ l, g x = f x ∨ f x = .ok false ∧ P) :
    l.allM g = l.allM f ∨ l.allM f = .ok false ∧ P := by
  induction l with
  | nil => exact .inl rfl
  | cons x l ih =>
    obtain ⟨hx, hl⟩ := List.forall_mem_cons.1 h
    rw [List.allM, List.allM]
    rcases hx with hx | ⟨hx, hP⟩
    · rw [hx]
      cases hfx : f x with
      | error e => exact .inl rfl
      | ok r =>
        cases r with
        | false => exact .inl rfl
        | true => exact ih hl
    · rw [hx]
      exact .inr ⟨rfl, hP⟩

end Faults

/-! ## The two front ends -/

/-- `fe'` differs from `fe` by the conversion `cv` around `item` only: the tree is linked anew, and
the bodies and the facts on variables are the old ones. -/
structure FrontEnd.Converts (fe fe' : FrontEnd) (root site item : Node) (cv : NodeInfo) : Prop where
  wraps : Wraps root site item cv
  links : fe.links = ({} : Links).link root
  links' : fe'.links = ({} : Links).link (root.wrap item.id cv)
  body : ∀ fn, Reaches Child root fn →
    fe'.body (fn.wrap item.id cv) = (fe.body fn).map (Body.mapNodes (wrap item.id cv))
  evaluates : ∀ fn b, fe.body fn = .ok b → ∀ i ∈ b.instrs, Reaches Child root i.node
  defUse : ∀ n, Reaches Child root n → fe'.defUse (n.wrap item.id cv) = fe.defUse n

theorem FrontEnd.Converts.resolve_wrap {fe fe' : FrontEnd} {root site item n : Node} {cv : NodeInfo}
    (h : fe.Converts fe' root site item cv) (hn : Reaches Child root n) :
    DataFlow.resolve fe' (n.wrap item.id cv) = DataFlow.resolve fe n := by
  have hread : (n.wrap item.id cv).findAll
        (fun c => c.kind = .fieldRef && c.var.isSome && !fe'.links.isAssignTarget c)
      = (n.findAll fun c => c.kind = .fieldRef && c.var.isSome && !fe.links.isAssignTarget c).map
        (wrap item.id cv) := by
    refine findAll_wrap h.wraps.conversion (fun m hm => ?_) fun m => ?_
    · rw [kind_wrap, var_wrap, h.links, h.links', h.wraps.isAssignTarget_wrap (hn.trans hm)]
    · rw [kind_convert, h.wraps.conversion]
      rfl
  unfold DataFlow.resolve
  dsimp only
  rw [hread, h.defUse n hn, List.foldl_map, kind_wrap, h.wraps.targets_wrap hn]
  simp only [var_wrap]
  congr 1
  split
  · rw [List.filter_map, List.foldl_map]
    have hfilter : ((fun t : Node => decide (t.kind = .fieldRef) && t.var.isSome) ∘ wrap item.id cv)
        = fun t => decide (t.kind = .fieldRef) && t.var.isSome := by
      funext t
      show (decide ((t.wrap item.id cv).kind = .fieldRef) && (t.wrap item.id cv).var.isSome) = _
      rw [kind_wrap, var_wrap]
    rw [hfilter]
    simp only [var_wrap]
  · rfl

/-! ## One analysis on two trees -/

namespace DataFlow

theorem anchor_of_ne {df : DataFlow} {n : Node} (hkind : n.kind ≠ .collection) : df.anchor n = n :=
  anchor_eq_self fun h => hkind h.1

end DataFlow

namespace Analysis

/-- The analysis on the tree with the conversion: the same flow, over the wrapped nodes. -/
def wrapped (a : Analysis) (root item : Node) (cv : NodeInfo) : Analysis where
  config := a.config
  links := ({} : Links).link (root.wrap item.id cv)
  cf := a.cf.mapNodes (wrap item.id cv)
  df := a.df.mapNodes (wrap item.id cv) (({} : Links).link (root.wrap item.id cv))

/-- The analysis is of a body over the nodes of a tree. -/
structure Over (a : Analysis) (root : Node) : Prop where
  links : a.links = ({} : Links).link root
  facts_links : a.df.links = ({} : Links).link root
  flow : ControlFlow.ofBody a.df.body = .ok a.cf
  nodes : ∀ i ∈ a.df.body.instrs, Reaches Child root i.node

/-- Some definition of the item misses the add site. -/
def Misses (a : Analysis) (site item : Node) : Prop :=
  ∃ owner d, a.df.owner? site = some owner ∧ d ∈ a.df.definitionsOf item.var ∧
    owner ∉ a.cf.postDominators d

section

variable {a : Analysis} {root site item n x y : Node} {cv : NodeInfo} {owner source : Instr}

variable (h : Wraps root site item cv) (ha : a.Over root)

/-! ### Owners -/

include h in
theorem contains_wrap (n : Node) (hx : Reaches Child root x) :
    (n.wrap item.id cv).contains (x.wrap item.id cv) = n.contains x := by
  have hfind : (n.wrap item.id cv).find? (x.wrap item.id cv).same
      = (n.find? x.same).map (wrap item.id cv) := by
    refine find?_wrap h.conversion (fun m _ => ?_) fun m => ?_
    · unfold same
      rw [id_wrap, id_wrap]
    · unfold same
      rw [id_wrap, id_convert]
      exact beq_false_of_ne (h.fresh_of_reached hx)
  unfold Node.contains
  rw [hfind, Option.isSome_map]

include h ha

theorem anchor_wrap (hn : Reaches Child root n) :
    Reaches Child root (a.df.anchor n) ∧
      (a.wrapped root item cv).df.anchor (n.wrap item.id cv) = (a.df.anchor n).wrap item.id cv := by
  by_cases hkind : n.kind = .collection
  · have hne : n.id ≠ item.id := h.ne_item hn (by rw [hkind]; decide)
    have hlinks : (a.wrapped root item cv).df.links = ({} : Links).link (root.wrap item.id cv) := rfl
    unfold DataFlow.anchor
    rw [hlinks, h.parent?_wrap hn hne, ha.facts_links]
    cases hp : (({} : Links).link root).parent? n with
    | none => exact ⟨hn, rfl⟩
    | some p =>
      dsimp only [Option.map_some]
      rw [kind_wrap, kind_wrap]
      split
      · exact ⟨Links.reaches_of_parent? hp, rfl⟩
      · exact ⟨hn, rfl⟩
  · rw [DataFlow.anchor_of_ne hkind, DataFlow.anchor_of_ne (by rwa [kind_wrap])]
    exact ⟨hn, rfl⟩

theorem ownerWhere?_wrap {p p' : Instr → Bool} (hp : ∀ i, p' (i.mapNode (wrap item.id cv)) = p i)
    (hn : Reaches Child root n) :
    (a.wrapped root item cv).df.ownerWhere? p' (n.wrap item.id cv)
      = (a.df.ownerWhere? p n).map (Instr.mapNode (wrap item.id cv)) := by
  obtain ⟨hreached, hanchor⟩ := anchor_wrap h ha hn
  unfold DataFlow.ownerWhere?
  rw [hanchor]
  show ((a.df.body.mapNodes _).instrs).find? _ = _
  rw [Body.instrs_mapNodes, List.find?_map]
  have htest : ((fun i : Instr => p' i && i.node.contains ((a.df.anchor n).wrap item.id cv)) ∘
      Instr.mapNode (wrap item.id cv)) = fun i => p i && i.node.contains (a.df.anchor n) := by
    funext i
    show (p' (i.mapNode _) && (i.node.wrap item.id cv).contains _) = _
    rw [hp, contains_wrap h i.node hreached]
  rw [htest]

theorem owner?_wrap (hn : Reaches Child root n) :
    (a.wrapped root item cv).df.owner? (n.wrap item.id cv)
      = (a.df.owner? n).map (Instr.mapNode (wrap item.id cv)) :=
  ownerWhere?_wrap h ha (fun _ => rfl) hn

theorem definedAt_wrap (hn : Reaches Child root n) :
    (a.wrapped root item cv).df.definedAt (n.wrap item.id cv) = a.df.definedAt n := by
  have hfacts : (a.wrapped root item cv).df.defUse = a.df.defUse := rfl
  have howner : (a.wrapped root item cv).df.ownerWhere?
        (fun i => !(a.df.defUse i.id).defs.isEmpty) (n.wrap item.id cv)
      = (a.df.ownerWhere? (fun i => !(a.df.defUse i.id).defs.isEmpty) n).map
        (Instr.mapNode (wrap item.id cv)) := ownerWhere?_wrap h ha (fun _ => rfl) hn
  unfold DataFlow.definedAt
  rw [hfacts, howner]
  cases a.df.ownerWhere? (fun i => !(a.df.defUse i.id).defs.isEmpty) n <;> rfl

/-! ### Lists -/

/-- The list at a site, for two nodes that are both among its arguments or both not. -/
theorem listAt_wrap (hn : Reaches Child root n)
    (hargs : y.isOneOf (n.args.map (put item.id cv)) = x.isOneOf n.args) :
    (a.wrapped root item cv).listAt (n.wrap item.id cv) y = a.listAt n x := by
  have hconfig : (a.wrapped root item cv).config = a.config := rfl
  unfold listAt isArgOf
  rw [kind_wrap, hconfig, definedAt_wrap h ha hn, Node.args_wrap, hargs, name_wrap,
    h.operand_wrap hn]
  cases n.operand with
  | none => rfl
  | some recv =>
    dsimp only [Option.map_some]
    rw [kind_wrap, var_wrap]

omit ha in
theorem unconverted_wrap (hn : Reaches Child root n) :
    unconverted (n.wrap item.id cv) = (unconverted n).wrap item.id cv := by
  unfold unconverted
  rw [h.operand_wrap hn]
  cases n.operand with
  | none => rfl
  | some y =>
    dsimp only [Option.map_some]
    rw [kind_wrap]
    split <;> rfl

omit ha in
/-- Neither the item nor its conversion is an await. -/
theorem awaitsList_put (hn : Reaches Child root n) :
    (a.wrapped root item cv).awaitsList (n.put item.id cv) = a.awaitsList n := by
  by_cases hid : n.id = item.id
  · obtain rfl := h.eq_item hn hid
    have hcv : cv.kind ≠ .await := by
      rw [h.conversion]
      decide
    have hitem : n.kind ≠ .await := by
      rw [h.isRef]
      decide
    rw [put_of_eq rfl, awaitsList_eq, awaitsList_eq, kind_convert, if_pos hcv, if_pos hitem]
  · rw [put_of_ne hid, awaitsList_eq, awaitsList_eq, kind_wrap, h.operand_wrap hn]
    cases hop : n.operand with
    | none => rfl
    | some x =>
      have hx : Reaches Child root x := by
        refine hn.tail ?_
        show x ∈ n.children
        unfold children
        rw [hop]
        exact List.mem_cons_self
      dsimp only [Option.map_some]
      rw [unconverted_wrap h hx, kind_wrap, name_wrap, type_wrap, var_wrap]
      rfl

theorem listAwaitedAfter_wrap (list : Variable) (owner : Instr) :
    (a.wrapped root item cv).listAwaitedAfter list (owner.mapNode (wrap item.id cv))
      = a.listAwaitedAfter list owner := by
  have hlater : (a.wrapped root item cv).cf.postDominators (owner.mapNode (wrap item.id cv))
      = (a.cf.postDominators owner).map (Instr.mapNode (wrap item.id cv)) :=
    ControlFlow.postDominators_mapNodes _ a.cf owner
  unfold listAwaitedAfter
  dsimp only
  rw [hlater]
  show (DataFlow.definitionsOf (DataFlow.mapNodes _ _ a.df) _).anyM _ = _
  rw [DataFlow.definitionsOf_mapNodes, anyM_map]
  refine anyM_congr_left fun d hd => ?_
  show (DataFlow.reachingFrom (DataFlow.mapNodes _ _ a.df) d.id _).anyM _ = _
  rw [DataFlow.reachingFrom_mapNodes, anyM_map]
  refine anyM_congr_left fun s hs => ?_
  rw [listed_mapNode]
  have hs : Reaches Child root s.node := ha.nodes s (DataFlow.mem_instrs_of_mem_reachingFrom hs)
  split
  · show (s.node.wrap item.id cv).children.anyM _ = _
    rw [children_wrap, anyM_map]
    exact anyM_congr_left fun n hn => awaitsList_put h (hs.tail hn)
  · rfl

omit h ha in
theorem reachesSite_wrap (hkind : x.kind = n.kind) (hvar : x.var = n.var) (owner : Instr) :
    (a.wrapped root item cv).reachesSite x (owner.mapNode (wrap item.id cv))
      = a.reachesSite n owner := by
  unfold reachesSite
  rw [hkind, hvar]
  congr 1
  show (DataFlow.definitionsOf (DataFlow.mapNodes _ _ a.df) _).all _ = _
  rw [DataFlow.definitionsOf_mapNodes, List.all_map]
  refine congrArg (List.all _) (funext fun d => ?_)
  show listed ((a.cf.mapNodes _).postDominators (d.mapNode _)) _ = _
  rw [ControlFlow.postDominators_mapNodes, listed_mapNode]

theorem placed_wrap (hx : Reaches Child root x) (hne : x.id ≠ item.id) :
    Reaches Child root (a.placed x) ∧ (a.placed x).id ≠ item.id ∧
      (a.wrapped root item cv).placed (x.wrap item.id cv) = (a.placed x).wrap item.id cv := by
  have hlinks : (a.wrapped root item cv).links = ({} : Links).link (root.wrap item.id cv) := rfl
  unfold placed
  rw [hlinks, h.parent?_wrap hx hne, ha.links]
  cases hp : (({} : Links).link root).parent? x with
  | none => exact ⟨hx, hne, rfl⟩
  | some p =>
    have hreached := Links.reaches_of_parent? hp
    dsimp only [Option.map_some]
    rw [kind_wrap]
    split
    · rename_i hconv
      exact ⟨hreached, h.ne_item hreached (by rw [hconv]; decide), rfl⟩
    · exact ⟨hx, hne, rfl⟩

/-- What is added to a list is judged as before, if it is not the item. -/
theorem viaList_wrap (hx : Reaches Child root x) (hne : x.id ≠ item.id) :
    (a.wrapped root item cv).viaList (x.wrap item.id cv) = a.viaList x := by
  obtain ⟨hreached, hid, hplaced⟩ := placed_wrap h ha hx hne
  have hlinks : (a.wrapped root item cv).links = ({} : Links).link (root.wrap item.id cv) := rfl
  rw [viaList_eq, viaList_eq, hplaced, hlinks, h.parent?_wrap hreached hid, ha.links]
  cases hp : (({} : Links).link root).parent? (a.placed x) with
  | none => rfl
  | some s =>
    have hs := Links.reaches_of_parent? hp
    dsimp only [Option.map_some]
    rw [listAt_wrap h ha hs (h.isOneOf_map_put hreached hid s.args)]
    cases a.listAt s (a.placed x) with
    | error f => rfl
    | ok list? =>
      cases list? with
      | none => rfl
      | some list =>
        dsimp only
        rw [owner?_wrap h ha hs]
        cases a.df.owner? s with
        | none => rfl
        | some owner =>
          dsimp only [Option.map_some]
          rw [reachesSite_wrap (kind_wrap _) (var_wrap _), listAwaitedAfter_wrap h ha]

/-- The item is judged as before, or it was rejected because a definition misses the add site. -/
theorem viaList_item :
    (a.wrapped root item cv).viaList (item.wrap item.id cv) = a.viaList item ∨
      a.viaList item = .ok false ∧ a.Misses site item := by
  have hsite : (({} : Links).link root).parent? item = some site :=
    Links.parent?_of_child h.ids h.reached h.child
  have hplain : a.placed item = item := by
    refine placed_eq_self fun p hp => ?_
    rw [ha.links, hsite] at hp
    obtain rfl := Option.some.inj hp
    rcases h.holds with hkind | hkind <;> rw [hkind] <;> decide
  have hplaced : (a.wrapped root item cv).placed (item.wrap item.id cv)
      = (item.wrap item.id cv).convert cv := by
    have hlinks : (a.wrapped root item cv).links = ({} : Links).link (root.wrap item.id cv) := rfl
    unfold placed
    rw [hlinks, h.parent?_item]
    exact if_pos h.conversion
  have hparent : (a.wrapped root item cv).links.parent? ((item.wrap item.id cv).convert cv)
      = some (site.wrap item.id cv) := h.parent?_convert
  have hargs : ((item.wrap item.id cv).convert cv).isOneOf (site.args.map (put item.id cv))
      = item.isOneOf site.args := by
    have hnew : ((item.wrap item.id cv).convert cv).isOneOf (site.args.map (put item.id cv))
        = true := by
      refine List.any_eq_true.2 ⟨_, List.mem_map_of_mem h.place, ?_⟩
      rw [put_of_eq rfl]
      exact beq_self_eq_true cv.id
    rw [hnew]
    exact (List.any_eq_true.2 ⟨item, h.place, beq_self_eq_true item.id⟩).symm
  rw [viaList_eq, viaList_eq, hplaced, hparent, hplain, ha.links, hsite]
  dsimp only
  rw [listAt_wrap h ha h.reached hargs, owner?_wrap h ha h.reached]
  cases a.listAt site item with
  | error f => exact .inl rfl
  | ok list? =>
    cases list? with
    | none => exact .inl rfl
    | some list =>
      cases howner : a.df.owner? site with
      | none => exact .inl rfl
      | some owner =>
        dsimp only [Option.map_some]
        -- a conversion is taken to reach the site; of the item this is asked
        have hconv : (a.wrapped root item cv).reachesSite ((item.wrap item.id cv).convert cv)
            (owner.mapNode (wrap item.id cv)) = true := by
          unfold reachesSite
          rw [kind_convert, h.conversion]
          rfl
        rw [hconv, if_pos rfl, listAwaitedAfter_wrap h ha]
        by_cases hreaches : a.reachesSite item owner = true
        · rw [if_pos hreaches]
          exact .inl rfl
        · rw [if_neg hreaches]
          refine .inr ⟨rfl, owner, ?_⟩
          unfold reachesSite at hreaches
          rw [Bool.or_eq_true, not_or, List.all_eq_true] at hreaches
          obtain ⟨d, hd, hmiss⟩ : ∃ d ∈ a.df.definitionsOf item.var,
              ¬ listed (a.cf.postDominators d) owner = true := by
            simpa using hreaches.2
          refine ⟨d, howner, hd, fun hin => hmiss ?_⟩
          exact List.any_eq_true.2 ⟨owner, hin, beq_self_eq_true _⟩

theorem viaList_or_misses (hx : Reaches Child root x) :
    (a.wrapped root item cv).viaList (x.wrap item.id cv) = a.viaList x ∨
      a.viaList x = .ok false ∧ a.Misses site item := by
  by_cases hid : x.id = item.id
  · rw [h.eq_item hx hid]
    exact viaList_item h ha
  · exact .inl (viaList_wrap h ha hx hid)

/-! ### Variables -/

omit ha in
theorem hasDirectAwait_wrap (hn : Reaches Child root n) :
    (n.wrap item.id cv).hasDirectAwait = n.hasDirectAwait := by
  unfold hasDirectAwait
  rw [children_wrap, List.any_map]
  refine any_congr_left fun c hc => ?_
  show decide ((c.put item.id cv).kind = .await) = decide (c.kind = .await)
  by_cases hid : c.id = item.id
  · rw [put_of_eq hid, kind_convert, h.conversion, h.eq_item (hn.tail hc) hid, h.isRef]
    rfl
  · rw [put_of_ne hid, kind_wrap]

omit ha in
theorem returnsVar_wrap (hn : Reaches Child root n) (v : Variable) :
    (n.wrap item.id cv).returnsVar v = n.returnsVar v := by
  unfold returnsVar
  rw [isReturn_wrap]
  by_cases hreturn : n.isReturn = true
  · have hkind : n.kind = .stmt := by
      unfold isReturn at hreturn
      rw [Bool.and_eq_true, decide_eq_true_eq] at hreturn
      exact hreturn.1
    rw [h.args_wrap hn (by rw [hkind]; decide) (by rw [hkind]; decide), List.any_map]
    congr 1
    refine any_congr_left fun r hr => ?_
    dsimp only [Function.comp_apply]
    rw [kind_wrap, h.operand_wrap (hn.tail (List.mem_append_right _ hr))]
    split
    · cases r.operand with
      | none => rfl
      | some r' => simp only [Option.map_some, Option.any_some, kind_wrap, var_wrap]
    · simp only [Option.any_some, kind_wrap, var_wrap]
  · rw [Bool.eq_false_iff.2 hreturn]
    rfl

omit ha in
theorem consumedDirectly_wrap (source : Instr) (v : Variable) {uses : List Instr}
    (huses : ∀ s ∈ uses, Reaches Child root s.node) :
    (a.wrapped root item cv).consumedDirectly (source.mapNode (wrap item.id cv)) v
        (uses.map (Instr.mapNode (wrap item.id cv)))
      = a.consumedDirectly source v uses := by
  have hlater : (a.wrapped root item cv).cf.postDominators (source.mapNode (wrap item.id cv))
      = (a.cf.postDominators source).map (Instr.mapNode (wrap item.id cv)) :=
    ControlFlow.postDominators_mapNodes _ a.cf source
  unfold consumedDirectly
  dsimp only
  rw [hlater, List.all_map]
  refine all_congr_left fun s hs => ?_
  show (listed _ (s.mapNode _) && ((s.node.wrap item.id cv).hasDirectAwait ||
    (s.node.wrap item.id cv).returnsVar v)) = _
  rw [listed_mapNode, hasDirectAwait_wrap h (huses s hs), returnsVar_wrap h (huses s hs)]

omit ha in
theorem localRef?_wrap (n : Node) (v : Variable) :
    (n.wrap item.id cv).localRef? v = (n.localRef? v).map (wrap item.id cv) := by
  unfold localRef?
  refine find?_wrap h.conversion (fun m _ => ?_) fun m => ?_
  · rw [kind_wrap, var_wrap]
  · rw [kind_convert, h.conversion]
    rfl

theorem consumedByLists_or_misses (v : Variable) {uses : List Instr}
    (huses : ∀ s ∈ uses, Reaches Child root s.node) :
    (a.wrapped root item cv).consumedByLists v (uses.map (Instr.mapNode (wrap item.id cv)))
        = a.consumedByLists v uses ∨
      a.consumedByLists v uses = .ok false ∧ a.Misses site item := by
  rw [consumedByLists_eq_allM, consumedByLists_eq_allM, allM_map]
  refine allM_eq_or_false fun s hs => ?_
  show ((s.node.wrap item.id cv).localRef? v).elim _ _ = _ ∨ _
  rw [localRef?_wrap h]
  cases href : s.node.localRef? v with
  | none => exact .inl rfl
  | some ref =>
    exact viaList_or_misses h ha ((huses s hs).trans (Node.find?_some href).2)

theorem consumedIn_or_misses (source : Instr) (v : Variable) :
    (a.wrapped root item cv).consumedIn (source.mapNode (wrap item.id cv)) v = a.consumedIn source v ∨
      a.consumedIn source v = .ok false ∧ a.Misses site item := by
  have hreaching : (a.wrapped root item cv).df.reachingFrom source.id [some v]
      = (a.df.reachingFrom source.id [some v]).map (Instr.mapNode (wrap item.id cv)) :=
    DataFlow.reachingFrom_mapNodes _ _ a.df source.id [some v]
  have huses : ∀ s ∈ a.df.reachingFrom source.id [some v], Reaches Child root s.node := fun s hs =>
    ha.nodes s (DataFlow.mem_instrs_of_mem_reachingFrom hs)
  have hid : (source.mapNode (wrap item.id cv)).id = source.id := rfl
  unfold consumedIn
  dsimp only
  rw [hid, hreaching, List.isEmpty_map, consumedDirectly_wrap h source v huses]
  split
  · exact .inl rfl
  · split
    · exact .inl rfl
    · exact consumedByLists_or_misses h ha v huses

/-! ### The decision -/

theorem source_wrap (owner : Instr) (x : Node) :
    (a.wrapped root item cv).source (owner.mapNode (wrap item.id cv)) (x.wrap item.id cv)
      = (a.source owner x).mapNode (wrap item.id cv) := by
  have hbody : a.cf.body = a.df.body := ControlFlow.body_eq ha.flow
  have hcond : (a.wrapped root item cv).conditionalOwner? (owner.mapNode (wrap item.id cv))
        (x.wrap item.id cv)
      = (a.conditionalOwner? owner x).map (Instr.mapNode (wrap item.id cv)) := by
    unfold conditionalOwner?
    show ((a.cf.mapNodes _).successorInstrs _).find? _ = _
    rw [ControlFlow.successorInstrs_mapNodes, List.find?_map]
    congr 1
    refine List.find?_congr fun i hi => ?_
    have hi : Reaches Child root i.node := by
      obtain ⟨o, -, hio⟩ := List.mem_flatMap.1 hi
      rw [hbody] at hio
      exact ha.nodes i (Body.mem_instrsOf.1 hio).1
    show (decide ((i.node.wrap item.id cv).kind = .assign) &&
      (i.node.wrap item.id cv).values.any _) = _
    rw [kind_wrap, h.values_wrap hi, List.any_map]
    congr 1
    refine any_congr_left fun value hvalue => ?_
    have hvalue : Reaches Child root value :=
      hi.tail (List.mem_append_left _ (List.mem_append_right _ hvalue))
    show (decide ((value.wrap item.id cv).kind = .conditional) &&
      ((owner.node.wrap item.id cv).isOneOf (value.wrap item.id cv).args ||
        (x.wrap item.id cv).isOneOf (value.wrap item.id cv).args)) = _
    rw [kind_wrap]
    by_cases hkind : value.kind = .conditional
    · rw [h.args_wrap hvalue (by rw [hkind]; decide) (by rw [hkind]; decide), isOneOf_map_wrap,
        isOneOf_map_wrap]
    · rw [decide_eq_false hkind]
      rfl
  unfold source
  rw [hcond]
  cases a.conditionalOwner? owner x <;> rfl

theorem sourceVars_wrap (hsource : source ∈ a.df.body.instrs) :
    (a.wrapped root item cv).sourceVars (source.mapNode (wrap item.id cv)) = a.sourceVars source := by
  unfold sourceVars
  show (if (source.node.wrap item.id cv).kind = .assign then
    varsWhere a.config.tracks ((a.wrapped root item cv).df.definedAt (source.node.wrap item.id cv))
    else _) = _
  rw [kind_wrap, definedAt_wrap h ha (ha.nodes source hsource)]

/-- **The verdict stays**, or the value was reported and a definition misses the add site. -/
theorem judge_or_misses (howner : owner ∈ a.df.body.instrs) (hx : Reaches Child root x) :
    (a.wrapped root item cv).judge (owner.mapNode (wrap item.id cv)) (x.wrap item.id cv)
        = a.judge owner x ∨
      a.judge owner x = .ok .notConsumed ∧ a.Misses site item := by
  have hsource : a.source owner x ∈ a.df.body.instrs := source_mem ha.flow howner
  unfold judge
  dsimp only
  rw [source_wrap h ha, sourceVars_wrap h ha hsource]
  cases a.sourceVars (a.source owner x) with
  | error f => exact .inl rfl
  | ok vars =>
    cases vars with
    | nil =>
      rcases viaList_or_misses h ha hx with hsame | ⟨hno, hmiss⟩
      · left
        show (do return if ← (a.wrapped root item cv).viaList _ then _ else _) = _
        rw [hsame]
        rfl
      · right
        refine ⟨?_, hmiss⟩
        show (do return if ← a.viaList x then _ else _) = _
        rw [hno]
        rfl
    | cons v vs =>
      have hall : (a.wrapped root item cv).viaVariable
            ((a.source owner x).mapNode (wrap item.id cv)) (v :: vs)
          = a.viaVariable (a.source owner x) (v :: vs) ∨
          a.viaVariable (a.source owner x) (v :: vs) = .ok false ∧ a.Misses site item :=
        allM_eq_or_false fun w _ => consumedIn_or_misses h ha (a.source owner x) w
      rcases hall with hsame | ⟨hno, hmiss⟩
      · left
        show (do return if ← (a.wrapped root item cv).viaVariable _ _ then _ else _) = _
        rw [hsame]
        rfl
      · right
        refine ⟨?_, hmiss⟩
        show (do return if ← a.viaVariable _ _ then _ else _) = _
        rw [hno]
        rfl

end

end Analysis

/-! ## Two front ends on two trees -/

theorem Links.reaches_of_mem_climb {root m : Node} {fuel id : Nat}
    (h : m ∈ (({} : Links).link root).climb fuel id) : Reaches Child root m := by
  induction fuel generalizing id with
  | zero => cases h
  | succ fuel ih =>
    unfold climb at h
    split at h
    · rename_i p hp
      rcases List.mem_cons.1 h with rfl | h
      · exact reaches_of_parent? (n := .leaf { id, kind := .other }) hp
      · exact ih h
    · cases h

namespace FrontEnd.Converts

variable {c : Config} {fe fe' : FrontEnd} {root site item x : Node} {cv : NodeInfo} {a : Analysis}

theorem around_wrap (h : fe.Converts fe' root site item cv) (c : Config) (hx : Reaches Child root x) :
    Analysis.around c fe' (x.wrap item.id cv)
      = (Analysis.around c fe x).map fun a => a.wrapped root item cv := by
  have hfunc : (if (x.wrap item.id cv).kind = .func then some (x.wrap item.id cv)
        else fe'.links.enclosingFunc? (x.wrap item.id cv))
      = (if x.kind = .func then some x else fe.links.enclosingFunc? x).map (wrap item.id cv) := by
    rw [kind_wrap, h.links, h.links', h.wraps.enclosingFunc?_wrap hx]
    split <;> rfl
  have hreached : ∀ fn, (if x.kind = .func then some x else fe.links.enclosingFunc? x) = some fn →
      Reaches Child root fn := by
    intro fn hfn
    split at hfn
    · exact Option.some.inj hfn ▸ hx
    · rw [h.links] at hfn
      exact Links.reaches_of_mem_climb (List.mem_of_find?_eq_some hfn)
  unfold Analysis.around ControlFlow.around
  dsimp only
  rw [hfunc]
  cases hfn : if x.kind = .func then some x else fe.links.enclosingFunc? x with
  | none => rfl
  | some fn =>
    dsimp only [Option.map_some]
    rw [h.body fn (hreached fn hfn)]
    cases hb : fe.body fn with
    | error cause => rfl
    | ok b =>
      dsimp only [Except.map]
      rw [ControlFlow.ofBody_mapNodes]
      cases hcf : ControlFlow.ofBody b with
      | error e => rfl
      | ok cf =>
        have hsolve : DataFlow.solve fe' (b.mapNodes (wrap item.id cv))
            = (DataFlow.solve fe b).mapNodes (wrap item.id cv) fe'.links :=
          DataFlow.solve_mapNodes _ fun i hi => h.resolve_wrap (h.evaluates fn b hb i hi)
        dsimp only [Except.map]
        have hbody : (cf.mapNodes (wrap item.id cv)).body = b.mapNodes (wrap item.id cv) := by
          rw [← ControlFlow.body_eq hcf]
          rfl
        rw [hbody, hsolve, ControlFlow.body_eq hcf, h.links']
        rfl

theorem toOver (h : fe.Converts fe' root site item cv) (ha : Analysis.around c fe x = .ok a) :
    a.Over root := by
  unfold Analysis.around ControlFlow.around at ha
  dsimp only at ha
  split at ha
  · cases ha
  · rename_i cf hcf
    cases ha
    split at hcf
    · cases hcf
    · split at hcf
      · cases hcf
      · rename_i fn _ _ b hb
        have hbody : (DataFlow.solve fe cf.body).body = b := by
          rw [DataFlow.body_solve, ControlFlow.body_eq hcf]
        refine ⟨h.links, (DataFlow.links_solve fe cf.body).trans h.links, ?_, ?_⟩
        · rw [hbody]
          exact hcf
        · rw [hbody]
          exact h.evaluates fn b hb

end FrontEnd.Converts

/-- **A conversion around an item of a list is transparent**, but for one test. In a tree without
repeated identities, each value is decided as before; if not, it was reported, and some definition
of the item is not followed by the add site on every path. -/
theorem conversion_transparent (c : Config) (fe fe' : FrontEnd) (root site item : Node)
    (cv : NodeInfo) (h : fe.Converts fe' root site item cv) (target : Node)
    (htarget : Reaches Child root target) :
    c.decide fe' (target.wrap item.id cv) = c.decide fe target ∨
      c.decide fe target = .ok ⟨.notConsumed, none⟩ ∧
        ∃ a, Analysis.around c fe target = .ok a ∧ a.Misses site item := by
  unfold Config.decide
  rw [kind_wrap, h.around_wrap c htarget, h.links, h.links', h.wraps.endsInSink_wrap c htarget,
    h.wraps.isAwaited_wrap htarget, h.wraps.isReturned_wrap htarget]
  split
  · exact .inl rfl
  split
  · exact .inl rfl
  split
  · exact .inl rfl
  cases ha : Analysis.around c fe target with
  | error e =>
    left
    cases e <;> rfl
  | ok a =>
    have hover := h.toOver ha
    dsimp only [Except.map]
    rw [Analysis.owner?_wrap h.wraps hover htarget]
    cases howner : a.df.owner? target with
    | none => exact .inl rfl
    | some owner =>
      dsimp only [Option.map_some]
      rcases Analysis.judge_or_misses h.wraps hover (DataFlow.owner?_mem howner) htarget with
        hsame | ⟨hreported, hmiss⟩
      · rw [hsame]
        exact .inl rfl
      · rw [hreported]
        exact .inr ⟨rfl, a, rfl, hmiss⟩

/-! ## Registered bodies -/

/-- The registry over the tree with the conversion: the same blocks over the wrapped nodes, and the
same given facts. -/
def Registry.wrapped (r : Registry) (item : Node) (cv : NodeInfo) : Registry where
  bodies := r.bodies.map (Body.mapNodes (wrap item.id cv))
  given := r.given

theorem Wraps.treeDefUse_wrap {root site item n : Node} {cv : NodeInfo} (h : Wraps root site item cv)
    (hn : Reaches Child root n) :
    Registry.treeDefUse (({} : Links).link (root.wrap item.id cv)) (n.wrap item.id cv)
      = Registry.treeDefUse (({} : Links).link root) n := by
  have hrefs : (n.wrap item.id cv).findAll (fun c => c.kind = .localRef)
      = (n.findAll fun c => c.kind = .localRef).map (wrap item.id cv) := by
    refine findAll_wrap h.conversion (fun m _ => ?_) fun m => ?_
    · rw [kind_wrap]
    · rw [kind_convert, h.conversion]
      rfl
  unfold Registry.treeDefUse
  rw [hrefs, List.foldl_map]
  refine List.foldl_ext _ _ _ fun du ref href => ?_
  have hreached : Reaches Child n ref := reaches_of_mem_preorder (List.mem_filter.1 href).1
  rw [h.isAssignTarget_wrap (hn.trans hreached), var_wrap]

/-- Registered bodies over one tree are a front end of the kind that is considered here. -/
theorem Wraps.converts {root site item : Node} {cv : NodeInfo} (h : Wraps root site item cv)
    {r : Registry} (hr : ∀ b ∈ r.bodies, ∀ i ∈ b.instrs, Reaches Child root i.node) :
    (r.frontEnd (({} : Links).link root)).Converts
      ((r.wrapped item cv).frontEnd (({} : Links).link (root.wrap item.id cv))) root site item cv where
  wraps := h
  links := rfl
  links' := rfl
  body fn _ := by
    show Registry.bodyOf _ _ = (Registry.bodyOf _ _).map _
    have hsame : ((fun b : Body => b.func.same (fn.wrap item.id cv)) ∘ Body.mapNodes (wrap item.id cv))
        = fun b => b.func.same fn := by
      funext b
      show (b.func.wrap item.id cv).same (fn.wrap item.id cv) = _
      unfold same
      rw [id_wrap, id_wrap]
    have hfind : (r.wrapped item cv).bodies.find? (fun b => b.func.same (fn.wrap item.id cv))
        = (r.bodies.find? fun b => b.func.same fn).map (Body.mapNodes (wrap item.id cv)) := by
      show (r.bodies.map _).find? _ = _
      rw [List.find?_map, hsame]
    unfold Registry.bodyOf
    rw [hfind]
    cases r.bodies.find? fun b => b.func.same fn <;> rfl
  evaluates fn b hb := by
    change Registry.bodyOf _ _ = _ at hb
    unfold Registry.bodyOf at hb
    split at hb
    · rename_i b' hfound
      cases hb
      exact hr b (List.mem_of_find?_eq_some hfound)
    · cases hb
  defUse n hn := by
    show ((r.given.lookup (n.wrap item.id cv).id).getD _) = (r.given.lookup n.id).getD _
    rw [id_wrap, h.treeDefUse_wrap hn]

/-! ### An item that one branch adds

The function `v = f(); if c { … }; tasks = append(tasks, v); await WhenAll(tasks)`, with the add on
one branch or on the way of both, and a conversion put around the item. -/

namespace Adding

open Sample

def item : Node := .ref 15 task

def conversion : NodeInfo := { id := 14, kind := .conversion, name := "T", type := task.type }

def site : Node :=
  .mk { id := 12, kind := .call, name := "append", type := tasks.type } (some (.ref 13 tasks)) [] []
    [item]

def func : Node :=
  .mk { id := 40, kind := .func, name := "h" } none [] []
    [store 0 "f", condition, collect 10 item, awaitAll]

def onBranch : Body :=
  .framed 0 func
    [{ nodes := [store 0 "f"], branch := some condition, fall := some 2, cond := some 1 },
     { nodes := [collect 10 item], fall := some 2 }, { nodes := [awaitAll] }] []

def inRow : Body :=
  .framed 0 func [{ nodes := [store 0 "f", condition, collect 10 item, awaitAll] }] []

def plain (b : Body) : FrontEnd := (Registry.add {} b).frontEnd (({} : Links).link func)

def converted (b : Body) : FrontEnd :=
  ((Registry.add {} b).wrapped item conversion).frontEnd
    (({} : Links).link (func.wrap item.id conversion))

theorem wraps : Wraps func site item conversion where
  ids := by decide +kernel
  fresh := by decide +kernel
  conversion := rfl
  reached := by
    have hstmt : collect 10 item ∈ func.children := List.mem_of_getElem? (i := 2) rfl
    have hsite : site ∈ (collect 10 item).children := List.mem_of_getElem? (i := 1) rfl
    exact ((Reaches.refl Child func).tail hstmt).tail hsite
  place := List.mem_singleton_self item
  holds := .inl rfl
  isRef := rfl

theorem converts {b : Body} (hb : b.instrs.map (·.node) = func.children) :
    (plain b).Converts (converted b) func site item conversion := by
  refine wraps.converts fun b' hb' i hi => ?_
  obtain rfl : b' = b := List.mem_singleton.1 hb'
  have hchild : i.node ∈ func.children := hb ▸ List.mem_map_of_mem hi
  exact (Reaches.refl Child func).tail hchild

theorem produced_reached : Reaches Child func produced := by
  have hstmt : store 0 "f" ∈ func.children := List.mem_of_getElem? (i := 0) rfl
  have hvalue : produced ∈ (store 0 "f").children := List.mem_of_getElem? (i := 1) rfl
  exact ((Reaches.refl Child func).tail hstmt).tail hvalue

end Adding

open Sample Adding in
/-- Added on the way of all paths, the value of `f` is accepted with and without the conversion. -/
theorem accepted_with_and_without :
    Config.default.decide (plain inRow) produced = .ok ⟨.viaVariable, none⟩ ∧
      Config.default.decide (converted inRow) (produced.wrap item.id conversion)
        = .ok ⟨.viaVariable, none⟩ := by
  have hplain : Config.default.decide (plain inRow) produced = .ok ⟨.viaVariable, none⟩ :=
    eq_ok_of_toOption (by decide +kernel)
  rcases conversion_transparent .default _ _ _ _ _ _ (converts (b := inRow) rfl) produced
    produced_reached with
    hsame | ⟨hreported, -⟩
  · exact ⟨hplain, hsame.trans hplain⟩
  · rw [hplain] at hreported
    cases hreported

open Sample Adding in
/-- Added on one branch, the value of `f` is reported, and accepted once the item is converted. -/
theorem accepted_once_converted :
    (plain onBranch).Converts (converted onBranch) func site item conversion ∧
      Reaches Child func produced ∧
      Config.default.isConsumed (plain onBranch) produced = .ok false ∧
      Config.default.isConsumed (converted onBranch) (produced.wrap item.id conversion) = .ok true :=
  ⟨converts rfl, produced_reached, eq_ok_of_toOption (by decide +kernel),
    eq_ok_of_toOption (by decide +kernel)⟩

end AwaitLint
