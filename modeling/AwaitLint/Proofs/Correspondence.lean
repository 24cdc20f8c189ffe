import AwaitLint.Proofs.Resolved

/-!
# AwaitLint — analyses that judge alike

A judgement looks at the instructions of a body through a few questions: what they evaluate and
write, which of them run later on every path, which uses a definition reaches, and what stands in
the successor blocks. `Corresponds` says that two analyses answer these questions alike, up to a
map between their instructions.

* **`ownerWhere?_eq`** — the first instruction that contains a node is the same one in whatever
  order the instructions are listed, when no node lies in two of them (`Body.Unshared`).
* **`viaList_eq_of`**, **`consumedIn_eq`** — the acceptance tests give one answer. They ask lists of
  questions in different orders, which is harmless because none of the questions fails.
* **`judge_eq`** — the headline: corresponding analyses give every value the same verdict.
-/

namespace AwaitLint

/-- No node lies in the trees of two instructions. -/
def Body.Unshared (b : Body) : Prop :=
  ∀ i ∈ b.instrs, ∀ j ∈ b.instrs, ∀ n m, Reaches Node.Child i.node n → Reaches Node.Child j.node m →
    n.id = m.id → i = j

namespace Body.Unshared

variable {b : Body} {i j : Instr} {n : Node}

theorem eq_of_contains (h : b.Unshared) (hi : i ∈ b.instrs) (hj : j ∈ b.instrs)
    (hin : i.node.contains n = true) (hjn : j.node.contains n = true) : i = j := by
  obtain ⟨m, hm⟩ := Option.isSome_iff_exists.1 hin
  obtain ⟨m', hm'⟩ := Option.isSome_iff_exists.1 hjn
  obtain ⟨hsame, hreach⟩ := Node.find?_some hm
  obtain ⟨hsame', hreach'⟩ := Node.find?_some hm'
  refine h i hi j hj m m' hreach hreach' ?_
  rw [← beq_iff_eq.1 hsame, ← beq_iff_eq.1 hsame']

/-- A form that can be evaluated for a given body. -/
theorem of_nodup
    (h : (b.instrs.flatMap fun i => (i.node.preorder fun _ => true).map Node.id).Nodup) :
    b.Unshared := by
  intro i hi j hj n m hn hm hid
  by_contra hne
  have hsymm : Std.Symm (Function.onFun List.Disjoint
      fun i : Instr => (i.node.preorder fun _ => true).map Node.id) :=
    ⟨fun _ _ hij _ hx hy => hij hy hx⟩
  have hdisjoint := (List.nodup_flatMap.1 h).2.forall hi hj hne
  refine hdisjoint (List.mem_map.2 ⟨n, Node.mem_preorder_of_reaches hn, rfl⟩) ?_
  rw [hid]
  exact List.mem_map.2 ⟨m, Node.mem_preorder_of_reaches hm, rfl⟩

end Body.Unshared

namespace Analysis

/-- `a'` answers the questions of a judgement as `a` does, with `move i` in the place of `i`. -/
structure Corresponds (a a' : Analysis) (move : Instr → Instr) : Prop where
  config : a'.config = a.config
  links : a'.links = a.links
  facts_links : a'.df.links = a.df.links
  moved : ∀ i ∈ a.df.body.instrs, move i ∈ a'.df.body.instrs
  exists_of_mem : ∀ j ∈ a'.df.body.instrs, ∃ i ∈ a.df.body.instrs, move i = j
  node : ∀ i, (move i).node = i.node
  facts : ∀ i ∈ a.df.body.instrs, a'.df.defUse (move i).id = a.df.defUse i.id
  later : ∀ i ∈ a.df.body.instrs, ∀ s ∈ a.df.body.instrs,
    listed (a'.cf.postDominators (move i)) (move s) = listed (a.cf.postDominators i) s
  uses : ∀ d ∈ a.df.body.instrs, ∀ s ∈ a.df.body.instrs, ∀ symbols,
    move s ∈ a'.df.reachingFrom (move d).id symbols ↔ s ∈ a.df.reachingFrom d.id symbols
  successors : ∀ i ∈ a.df.body.instrs,
    a'.cf.successorInstrs (move i) = (a.cf.successorInstrs i).map move

namespace Corresponds

variable {a a' : Analysis} {move : Instr → Instr} {d owner source : Instr} {v : Variable}
  {item site n target : Node} {symbols : List (Option Variable)}

theorem resolved (h : Corresponds a a' move) (hres : a.Resolved) : a'.Resolved := by
  refine ⟨fun j hj => ?_, fun j hj => ?_, fun n p hp => ?_⟩
  · obtain ⟨i, hi, rfl⟩ := h.exists_of_mem j hj
    rw [h.facts i hi]
    exact hres.facts i hi
  · obtain ⟨i, hi, rfl⟩ := h.exists_of_mem j hj
    rw [h.node]
    exact hres.nodes i hi
  · rw [h.links] at hp
    exact hres.parents n p hp

theorem mem_reachingFrom (h : Corresponds a a' move) (hd : d ∈ a.df.body.instrs) {t : Instr} :
    t ∈ a'.df.reachingFrom (move d).id symbols ↔
      ∃ s ∈ a.df.reachingFrom d.id symbols, move s = t := by
  constructor
  · intro ht
    obtain ⟨s, hs, rfl⟩ := h.exists_of_mem t (DataFlow.mem_instrs_of_mem_reachingFrom ht)
    exact ⟨s, (h.uses d hd s hs symbols).1 ht, rfl⟩
  · rintro ⟨s, hs, rfl⟩
    exact (h.uses d hd s (DataFlow.mem_instrs_of_mem_reachingFrom hs) symbols).2 hs

theorem mem_definitionsOf (h : Corresponds a a' move) {w : Option Variable} {t : Instr} :
    t ∈ a'.df.definitionsOf w ↔ ∃ d ∈ a.df.definitionsOf w, move d = t := by
  simp only [DataFlow.mem_definitionsOf, DataFlow.defines]
  constructor
  · rintro ⟨ht, hw⟩
    obtain ⟨d, hd, rfl⟩ := h.exists_of_mem t ht
    rw [h.facts d hd] at hw
    exact ⟨d, ⟨hd, hw⟩, rfl⟩
  · rintro ⟨d, ⟨hd, hw⟩, rfl⟩
    rw [h.facts d hd]
    exact ⟨h.moved d hd, hw⟩

/-! ### Owners -/

theorem ownerWhere?_eq (h : Corresponds a a' move) (hun : a.df.body.Unshared)
    {p p' : Instr → Bool} (hp : ∀ i ∈ a.df.body.instrs, p' (move i) = p i) (n : Node) :
    a'.df.ownerWhere? p' n = (a.df.ownerWhere? p n).map move := by
  have hanchor : a'.df.anchor n = a.df.anchor n := by
    unfold DataFlow.anchor
    rw [h.facts_links]
  cases hfind : a.df.ownerWhere? p n with
  | none =>
    show a'.df.ownerWhere? p' n = none
    unfold DataFlow.ownerWhere? at hfind ⊢
    rw [List.find?_eq_none] at hfind ⊢
    intro j hj
    obtain ⟨i, hi, rfl⟩ := h.exists_of_mem j hj
    rw [hp i hi, h.node, hanchor]
    exact hfind i hi
  | some i =>
    obtain ⟨hi, hpi, hcontains⟩ := DataFlow.ownerWhere?_some hfind
    show a'.df.ownerWhere? p' n = some (move i)
    cases hfind' : a'.df.ownerWhere? p' n with
    | none =>
      have hnot := List.find?_eq_none.1 hfind' (move i) (h.moved i hi)
      rw [hp i hi, hpi, h.node, hanchor, hcontains] at hnot
      exact absurd rfl hnot
    | some j =>
      -- the other match is the same instruction: the node lies in one tree only
      obtain ⟨hj, -, hcontains'⟩ := DataFlow.ownerWhere?_some hfind'
      obtain ⟨i', hi', rfl⟩ := h.exists_of_mem j hj
      rw [h.node, hanchor] at hcontains'
      rw [hun.eq_of_contains hi' hi hcontains' hcontains]

theorem owner?_eq (h : Corresponds a a' move) (hun : a.df.body.Unshared) (n : Node) :
    a'.df.owner? n = (a.df.owner? n).map move :=
  h.ownerWhere?_eq hun (fun _ _ => rfl) n

theorem definedAt_eq (h : Corresponds a a' move) (hun : a.df.body.Unshared) (n : Node) :
    a'.df.definedAt n = a.df.definedAt n := by
  have hwriters : a'.df.ownerWhere? (fun i => !(a'.df.defUse i.id).defs.isEmpty) n
      = (a.df.ownerWhere? (fun i => !(a.df.defUse i.id).defs.isEmpty) n).map move :=
    h.ownerWhere?_eq hun (fun i hi => by rw [h.facts i hi]) n
  unfold DataFlow.definedAt
  rw [hwriters]
  cases hfind : a.df.ownerWhere? (fun i => !(a.df.defUse i.id).defs.isEmpty) n with
  | none => rfl
  | some i =>
    show (a'.df.defUse (move i).id).defs = (a.df.defUse i.id).defs
    rw [h.facts i (DataFlow.ownerWhere?_some hfind).1]

/-! ### Lists -/

theorem listAt_eq (h : Corresponds a a' move) (hun : a.df.body.Unshared) (site item : Node) :
    a'.listAt site item = a.listAt site item := by
  unfold listAt
  rw [h.config, h.definedAt_eq hun]

theorem awaitsList_eq (h : Corresponds a a' move) : a'.awaitsList = a.awaitsList := by
  funext n
  unfold awaitsList
  rw [h.config]

theorem reachesSite_eq (h : Corresponds a a' move) (howner : owner ∈ a.df.body.instrs)
    (item : Node) : a'.reachesSite item (move owner) = a.reachesSite item owner := by
  have hall : ((a'.df.definitionsOf item.var).all
        fun d => listed (a'.cf.postDominators d) (move owner))
      = (a.df.definitionsOf item.var).all fun d => listed (a.cf.postDominators d) owner := by
    rw [Bool.eq_iff_iff, List.all_eq_true, List.all_eq_true]
    constructor
    · intro hlater d hd
      have hd' := (DataFlow.mem_definitionsOf.1 hd).1
      rw [← h.later d hd' owner howner]
      exact hlater _ (h.mem_definitionsOf.2 ⟨d, hd, rfl⟩)
    · intro hlater t ht
      obtain ⟨d, hd, rfl⟩ := h.mem_definitionsOf.1 ht
      rw [h.later d (DataFlow.mem_definitionsOf.1 hd).1 owner howner]
      exact hlater d hd
  unfold reachesSite
  rw [hall]

theorem listAwaitedAfter_eq (h : Corresponds a a' move) (hres : a.Resolved)
    (howner : owner ∈ a.df.body.instrs) (list : Variable) :
    a'.listAwaitedAfter list (move owner) = a.listAwaitedAfter list owner := by
  -- one later use of one definition
  have hone : ∀ s ∈ a.df.body.instrs,
      (if listed (a'.cf.postDominators (move owner)) (move s) then
          (move s).node.children.anyM a'.awaitsList else .ok false)
        = if listed (a.cf.postDominators owner) s then s.node.children.anyM a.awaitsList
          else .ok false := by
    intro s hs
    rw [h.later owner howner s hs, h.node, h.awaitsList_eq]
  have huses : ∀ d ∈ a.df.body.instrs,
      ((a'.df.reachingFrom (move d).id []).anyM fun t =>
          if listed (a'.cf.postDominators (move owner)) t then t.node.children.anyM a'.awaitsList
          else .ok false)
        = (a.df.reachingFrom d.id []).anyM fun s =>
          if listed (a.cf.postDominators owner) s then s.node.children.anyM a.awaitsList
          else .ok false := by
    intro d hd
    have hin := fun {s} (hs : s ∈ a.df.reachingFrom d.id []) =>
      DataFlow.mem_instrs_of_mem_reachingFrom hs
    refine anyM_congr (fun s hs => hres.awaitsLater_ok _ (hin hs))
      (fun s hs => ⟨move s, (h.mem_reachingFrom hd).2 ⟨s, hs, rfl⟩, hone s (hin hs)⟩)
      fun t ht => ?_
    obtain ⟨s, hs, rfl⟩ := (h.mem_reachingFrom hd).1 ht
    exact ⟨s, hs, hone s (hin hs)⟩
  have hin := fun {d} (hd : d ∈ a.df.definitionsOf (some list)) =>
    (DataFlow.mem_definitionsOf.1 hd).1
  refine anyM_congr
    (fun d _ => anyM_ok fun s hs =>
      hres.awaitsLater_ok _ (DataFlow.mem_instrs_of_mem_reachingFrom hs))
    (fun d hd => ⟨move d, h.mem_definitionsOf.2 ⟨d, hd, rfl⟩, huses d (hin hd)⟩) fun t ht => ?_
  obtain ⟨d, hd, rfl⟩ := h.mem_definitionsOf.1 ht
  exact ⟨d, hd, huses d (hin hd)⟩

theorem viaList_eq_of (h : Corresponds a a' move) (hun : a.df.body.Unshared) (hres : a.Resolved)
    (item : Node) : a'.viaList item = a.viaList item := by
  have hplaced : a'.placed item = a.placed item := by
    unfold placed
    rw [h.links]
  rw [viaList_eq, viaList_eq, hplaced, h.links]
  cases a.links.parent? (a.placed item) with
  | none => rfl
  | some site =>
    simp only [h.listAt_eq hun, h.owner?_eq hun]
    cases howner : a.df.owner? site with
    | none => rfl
    | some owner =>
      have hin := DataFlow.owner?_mem howner
      simp only [Option.map_some, h.reachesSite_eq hin, h.listAwaitedAfter_eq hres hin]

/-! ### Variables -/

theorem consumedDirectly_eq (h : Corresponds a a' move) (hsource : source ∈ a.df.body.instrs)
    (v : Variable) :
    a'.consumedDirectly (move source) v (a'.df.reachingFrom (move source).id [some v])
      = a.consumedDirectly source v (a.df.reachingFrom source.id [some v]) := by
  unfold consumedDirectly
  dsimp only
  rw [Bool.eq_iff_iff, List.all_eq_true, List.all_eq_true]
  constructor
  · intro hall s hs
    have hin := DataFlow.mem_instrs_of_mem_reachingFrom hs
    have haccepted := hall _ ((h.mem_reachingFrom hsource).2 ⟨s, hs, rfl⟩)
    rwa [h.later source hsource s hin, h.node] at haccepted
  · intro hall t ht
    obtain ⟨s, hs, rfl⟩ := (h.mem_reachingFrom hsource).1 ht
    rw [h.later source hsource s (DataFlow.mem_instrs_of_mem_reachingFrom hs), h.node]
    exact hall s hs

theorem consumedByLists_eq (h : Corresponds a a' move) (hun : a.df.body.Unshared)
    (hres : a.Resolved) (hsource : source ∈ a.df.body.instrs) (v : Variable) :
    a'.consumedByLists v (a'.df.reachingFrom (move source).id [some v])
      = a.consumedByLists v (a.df.reachingFrom source.id [some v]) := by
  have hone : ∀ s, ((move s).node.localRef? v).elim (.ok false) a'.viaList
      = (s.node.localRef? v).elim (.ok false) a.viaList := by
    intro s
    rw [h.node, funext (h.viaList_eq_of hun hres)]
  rw [consumedByLists_eq_allM, consumedByLists_eq_allM]
  refine allM_congr (fun s _ => hres.addsTo_ok v s)
    (fun s hs => ⟨move s, (h.mem_reachingFrom hsource).2 ⟨s, hs, rfl⟩, hone s⟩) fun t ht => ?_
  obtain ⟨s, hs, rfl⟩ := (h.mem_reachingFrom hsource).1 ht
  exact ⟨s, hs, hone s⟩

theorem consumedIn_eq (h : Corresponds a a' move) (hun : a.df.body.Unshared) (hres : a.Resolved)
    (hsource : source ∈ a.df.body.instrs) (v : Variable) :
    a'.consumedIn (move source) v = a.consumedIn source v := by
  have hempty : (a'.df.reachingFrom (move source).id [some v]).isEmpty
      = (a.df.reachingFrom source.id [some v]).isEmpty := by
    rw [Bool.eq_iff_iff, List.isEmpty_iff, List.isEmpty_iff, List.eq_nil_iff_forall_not_mem,
      List.eq_nil_iff_forall_not_mem]
    constructor
    · intro hnone s hs
      exact hnone _ ((h.mem_reachingFrom hsource).2 ⟨s, hs, rfl⟩)
    · intro hnone t ht
      obtain ⟨s, hs, -⟩ := (h.mem_reachingFrom hsource).1 ht
      exact hnone s hs
  unfold consumedIn
  dsimp only
  rw [hempty, h.consumedDirectly_eq hsource, h.consumedByLists_eq hun hres hsource]

/-! ### The judgement -/

/-- The search in the successor blocks meets the same instructions in the same order. -/
theorem source_eq (h : Corresponds a a' move) (howner : owner ∈ a.df.body.instrs)
    (target : Node) : a'.source (move owner) target = move (a.source owner target) := by
  have hcond : a'.conditionalOwner? (move owner) target
      = (a.conditionalOwner? owner target).map move := by
    unfold conditionalOwner?
    rw [h.successors owner howner, List.find?_map]
    simp only [Function.comp_def, h.node]
  unfold source
  rw [hcond]
  cases a.conditionalOwner? owner target with
  | none => rfl
  | some i => rfl

theorem judge_eq (h : Corresponds a a' move) (hun : a.df.body.Unshared) (hres : a.Resolved)
    (howner : owner ∈ a.df.body.instrs) (hsource : a.source owner target ∈ a.df.body.instrs) :
    a'.judge (move owner) target = a.judge owner target := by
  have hvars : a'.sourceVars (move (a.source owner target))
      = a.sourceVars (a.source owner target) := by
    unfold sourceVars
    rw [h.node, h.config, h.definedAt_eq hun]
  have hvia : a'.viaVariable (move (a.source owner target))
      = a.viaVariable (a.source owner target) := by
    funext vars
    unfold viaVariable
    have hone : a'.consumedIn (move (a.source owner target))
        = a.consumedIn (a.source owner target) := funext (h.consumedIn_eq hun hres hsource)
    rw [hone]
  unfold judge
  simp only [h.source_eq howner, hvars, hvia, h.viaList_eq_of hun hres]

end Corresponds

end Analysis

end AwaitLint
