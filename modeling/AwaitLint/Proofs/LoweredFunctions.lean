import AwaitLint.Proofs.Resolved
import AwaitLint.Source.Function

/-!
# AwaitLint — lowered functions are resolved

Lowering gives every local reference its variable: this holds of the nodes that the syntax becomes
and of those noted on the way (`Lower.Yields`), one case for each form of expression and statement
(`yields_lowerExpr`, `yields_lowerStmt`). The bodies, parents and facts that a lowered function
answers with stem from these nodes, so every question about it has an answer
(`Function.decide_ofDecl_ok`).
-/

namespace AwaitLint

/-! ## Resolved nodes -/

namespace Node

variable {n : Node}

theorem Resolved.of_children (hself : n.kind = .localRef → ∃ v, n.var = some v)
    (hchildren : ∀ m ∈ n.children, m.Resolved) : n.Resolved := by
  rintro m ⟨p, hp⟩ hkind
  cases hp with
  | single => exact hself hkind
  | cons hc rest => exact hchildren _ hc m ⟨_, rest⟩ hkind

theorem Resolved.of_kind (hkind : n.kind ≠ .localRef) (hchildren : ∀ m ∈ n.children, m.Resolved) :
    n.Resolved :=
  .of_children (fun h => absurd h hkind) hchildren

theorem mem_children_mk {info : NodeInfo} {operand : Option Node} {targets values args : List Node}
    {m : Node} :
    m ∈ (mk info operand targets values args).children ↔
      operand = some m ∨ m ∈ targets ∨ m ∈ values ∨ m ∈ args := by
  simp [children, Node.operand, Node.targets, Node.values, Node.args]

end Node

namespace Source

/-- All nodes of a list are resolved. -/
def AllResolved (ns : List Node) : Prop := ∀ n ∈ ns, n.Resolved

namespace AllResolved

variable {n : Node} {ns ms : List Node}

theorem nil : AllResolved [] := nofun

theorem cons (hn : n.Resolved) (hns : AllResolved ns) : AllResolved (n :: ns) :=
  List.forall_mem_cons.2 ⟨hn, hns⟩

theorem singleton (hn : n.Resolved) : AllResolved [n] := cons hn nil

theorem append (hns : AllResolved ns) (hms : AllResolved ms) : AllResolved (ns ++ ms) :=
  List.forall_mem_append.2 ⟨hns, hms⟩

end AllResolved

section Nodes

variable {p : Piece} {name : String} {type : ValueType} {n : Node} {ns ms : List Node}

theorem resolved_stmtNode (h : AllResolved ns) : (p.stmtNode name ns).Resolved :=
  .of_kind nofun h

theorem resolved_otherNode (h : AllResolved ns) : (p.otherNode name type ns).Resolved :=
  .of_kind nofun h

theorem resolved_rangeNode (h : n.Resolved) : (p.rangeNode n).Resolved :=
  .of_kind nofun (AllResolved.singleton h)

theorem resolved_assignNode (hns : AllResolved ns) (hms : AllResolved ms) :
    (p.assignNode name ns ms).Resolved := by
  refine .of_kind nofun fun m hm => ?_
  rcases Node.mem_children_mk.1 hm with h | h | h | h
  · cases h
  · exact hns m h
  · exact hms m h
  · cases h

theorem resolved_refNode {kind : Kind} {v : Variable} {owner : Option Node}
    (howner : ∀ n, owner = some n → n.Resolved) : (p.refNode kind name v owner).Resolved := by
  refine .of_children (fun _ => ⟨v, rfl⟩) fun m hm => ?_
  rcases Node.mem_children_mk.1 hm with h | h | h | h
  · exact howner m h
  all_goals cases h

theorem resolved_identNode (s : Scope) (i : ExprInfo) (object : Option Object) :
    (s.identNode i name object type).Resolved := by
  unfold Scope.identNode
  split
  · split
    · exact resolved_otherNode nofun
    · exact resolved_refNode nofun
  · exact resolved_otherNode nofun

theorem resolved_compositeNode (s : Scope) {isBare : Bool} (h : AllResolved ns) :
    (s.compositeNode p type isBare ns).Resolved := by
  unfold Scope.compositeNode
  split
  · exact .of_kind nofun h
  · split
    · exact .of_kind nofun h
    · exact resolved_otherNode h

theorem resolved_callNode (form : CallForm) {recv : Option Node}
    (hrecv : ∀ n, recv = some n → n.Resolved) (hargs : AllResolved ns) :
    (form.node p type recv ns).Resolved := by
  have hkind : (form.node p type recv ns).kind ≠ .localRef := by
    cases form <;> exact nofun
  refine .of_kind hkind fun m hm => ?_
  -- a child is the receiver or an argument, whatever place the form gives it
  have hmem : recv = some m ∨ m ∈ ns := by
    cases form with
    | conversion =>
      rcases Node.mem_children_mk.1 hm with h | h | h | h
      · exact .inr (List.mem_of_mem_head? h)
      all_goals cases h
    | addition name =>
      rcases Node.mem_children_mk.1 hm with h | h | h | h
      · exact .inr (List.mem_of_mem_head? h)
      · cases h
      · cases h
      · exact .inr (List.mem_of_mem_tail h)
    | creation =>
      rcases Node.mem_children_mk.1 hm with h | h | h | h <;> cases h
    | value | await | method =>
      rcases Node.mem_children_mk.1 hm with h | h | h | h
      · exact .inl h
      · cases h
      · cases h
      · exact .inr h
    | plain name =>
      rcases Node.mem_children_mk.1 hm with h | h | h | h
      · cases h
      · cases h
      · cases h
      · exact .inr h
  exact hmem.elim (hrecv m) (hargs m)

end Nodes

/-! ## What lowering yields -/

/-- The lowered value satisfies `P`, and every node noted on the way is resolved. -/
def Lower.Yields {α : Type} (m : Lower α) (P : α → Prop) : Prop :=
  P m.value ∧ ∀ l ∈ m.trace.pieces, l.node.Resolved

namespace Lower.Yields

variable {α β : Type} {m : Lower α} {f : α → Lower β} {P : α → Prop} {Q : β → Prop}

theorem pure {a : α} (h : P a) : (Pure.pure a : Lower α).Yields P := ⟨h, nofun⟩

theorem bind (hm : m.Yields P) (hf : ∀ a, P a → (f a).Yields Q) : (m >>= f).Yields Q := by
  obtain ⟨hvalue, hpieces⟩ := hm
  obtain ⟨hvalue', hpieces'⟩ := hf m.value hvalue
  refine ⟨hvalue', fun l hl => ?_⟩
  rcases List.mem_append.1 hl with hl | hl
  · exact hpieces l hl
  · exact hpieces' l hl

theorem ofExpr {p : Piece} {n : Node} (h : n.Resolved) : (Lower.ofExpr p n).Yields Node.Resolved :=
  ⟨h, List.forall_mem_singleton.2 h⟩

theorem ofStmt {p : Piece} {n : Node} (h : n.Resolved) : (Lower.ofStmt p n).Yields Node.Resolved :=
  ⟨h, List.forall_mem_singleton.2 h⟩

theorem function (n : Node) (source : FuncSource) :
    (Lower.function n source).Yields fun _ => True :=
  ⟨trivial, nofun⟩

end Lower.Yields

open Lower.Yields in
theorem yields_cons {m : Lower Node} {ms : Lower (List Node)} (hm : m.Yields Node.Resolved)
    (hms : ms.Yields AllResolved) :
    (do return (← m) :: (← ms) : Lower (List Node)).Yields AllResolved :=
  hm.bind fun _ hn => hms.bind fun _ hns => pure (.cons hn hns)

open Lower.Yields

mutual

theorem yields_lowerExpr (s : Scope) : ∀ e, (lowerExpr s e).Yields Node.Resolved
  | .ident i name object => ofExpr (resolved_identNode s i object)
  | .paren i x => (yields_lowerExpr s x).bind fun _ hx => ofExpr hx
  | .selector i x name object selection => by
    have hx := yields_lowerExpr s x
    unfold lowerExpr
    split
    · exact hx.bind fun _ hx => ofExpr (resolved_refNode fun _ h => Option.some.inj h ▸ hx)
    · exact ofExpr (resolved_refNode nofun)
    · exact ofExpr (resolved_otherNode nofun)
    · exact hx.bind fun _ hx => ofExpr (resolved_otherNode (.singleton hx))
  | .call i function args callee => by
    have hfunction := yields_lowerExpr s function
    have hrecv := yields_lowerReceiver s function
    have hargs := yields_lowerExprs s args
    unfold lowerExpr
    dsimp only
    split
    · exact ofExpr (resolved_callNode _ nofun nofun)
    · exact hargs.bind fun _ ha => hfunction.bind fun _ hf =>
        ofExpr (resolved_callNode _ (fun _ h => Option.some.inj h ▸ hf) ha)
    · exact hrecv.bind fun _ hr => hargs.bind fun _ ha =>
        ofExpr (resolved_callNode _ (fun _ h => Option.some.inj h ▸ hr) ha)
    · exact hrecv.bind fun _ hr => hargs.bind fun _ ha =>
        ofExpr (resolved_callNode _ (fun _ h => Option.some.inj h ▸ hr) ha)
    · exact hargs.bind fun _ ha => ofExpr (resolved_callNode _ nofun ha)
  | .composite i elements =>
    (yields_lowerElements s i.isStruct elements).bind fun _ he =>
      ofExpr (resolved_compositeNode s he)
  | .unary i op x => by
    have hx := yields_lowerExpr s x
    have haddressed := yields_lowerAddressed s i x
    unfold lowerExpr
    split
    · rename_i literal hliteral
      split at hliteral
      · exact haddressed literal hliteral
      · cases hliteral
    · exact hx.bind fun _ hx => ofExpr (resolved_otherNode (.singleton hx))
  | .binary i op x y =>
    (yields_lowerExpr s x).bind fun _ hx => (yields_lowerExpr s y).bind fun _ hy =>
      ofExpr (resolved_otherNode (.cons hx (.singleton hy)))
  | .keyValue i key value =>
    (yields_lowerExpr s key).bind fun _ hk => (yields_lowerExpr s value).bind fun _ hv =>
      ofExpr (resolved_otherNode (.cons hk (.singleton hv)))
  | .funcLit i params body graph =>
    (yields_lowerStmts { s with params := params ++ s.params } body).bind fun _ hb =>
      (function _ _).bind fun _ _ => ofExpr (.of_kind nofun hb)
  | .index i x indices =>
    (yields_lowerExpr s x).bind fun _ hx => (yields_lowerExprs s indices).bind fun _ hi =>
      ofExpr (resolved_otherNode (.cons hx hi))
  | .slice i x bounds =>
    (yields_lowerExpr s x).bind fun _ hx => (yields_lowerExprs s bounds).bind fun _ hb =>
      ofExpr (resolved_otherNode (.cons hx hb))
  | .star i x => by
    have hx := yields_lowerExpr s x
    unfold lowerExpr
    split
    · exact ofExpr (resolved_otherNode nofun)
    · exact hx.bind fun _ hx => ofExpr (resolved_otherNode (.singleton hx))
  | .typeAssert i x =>
    (yields_lowerExpr s x).bind fun _ hx => ofExpr (resolved_otherNode (.singleton hx))
  | .atom i => ofExpr (resolved_otherNode nofun)

theorem yields_lowerExprs (s : Scope) : ∀ es, (lowerExprs s es).Yields AllResolved
  | [] => pure .nil
  | e :: es => yields_cons (yields_lowerExpr s e) (yields_lowerExprs s es)

theorem yields_lowerExpr? (s : Scope) : ∀ e, (lowerExpr? s e).Yields AllResolved
  | none => pure .nil
  | some e => (yields_lowerExpr s e).bind fun _ he => pure (.singleton he)

theorem yields_lowerReceiver (s : Scope) : ∀ e, (lowerReceiver s e).Yields Node.Resolved
  | .paren _ x => yields_lowerReceiver s x
  | .selector _ x _ _ _ => yields_lowerExpr s x
  | .ident _ _ _ | .call _ _ _ _ | .composite _ _ | .unary _ _ _ | .binary _ _ _ _
  | .keyValue _ _ _ | .funcLit _ _ _ _ | .index _ _ _ | .slice _ _ _ | .star _ _
  | .typeAssert _ _ | .atom _ => ofExpr (resolved_otherNode nofun)

theorem yields_lowerElements (s : Scope) (isStruct : Bool) :
    ∀ es, (lowerElements s isStruct es).Yields AllResolved
  | [] => pure .nil
  | .keyValue i key value :: es => by
    have hkey := yields_lowerExpr s key
    have hvalue := yields_lowerExpr s value
    have hes := yields_lowerElements s isStruct es
    cases isStruct with
    | true => exact yields_cons hvalue hes
    | false =>
      refine hkey.bind fun _ hk => hvalue.bind fun _ hv => ?_
      exact yields_cons (ofExpr (resolved_otherNode (.cons hk (.singleton hv)))) hes
  | .ident _ _ _ :: es | .paren _ _ :: es | .selector _ _ _ _ _ :: es | .call _ _ _ _ :: es
  | .composite _ _ :: es | .unary _ _ _ :: es | .binary _ _ _ _ :: es | .funcLit _ _ _ _ :: es
  | .index _ _ _ :: es | .slice _ _ _ :: es | .star _ _ :: es | .typeAssert _ _ :: es
  | .atom _ :: es => yields_cons (yields_lowerExpr s _) (yields_lowerElements s isStruct es)

theorem yields_lowerAddressed (s : Scope) (outer : ExprInfo) :
    ∀ e m, lowerAddressed s outer e = some m → m.Yields Node.Resolved
  | .paren i x, m, h => yields_lowerAddressed s outer x m h
  | .composite i elements, m, h => by
    have helements := yields_lowerElements s i.isStruct elements
    rw [lowerAddressed, Option.some.injEq] at h
    subst h
    exact helements.bind fun _ he => (ofExpr (resolved_compositeNode s he)).bind fun _ _ =>
      ofExpr (resolved_compositeNode s he)
  | .ident _ _ _, _, h | .selector _ _ _ _ _, _, h | .call _ _ _ _, _, h | .unary _ _ _, _, h
  | .binary _ _ _ _, _, h | .keyValue _ _ _, _, h | .funcLit _ _ _ _, _, h | .index _ _ _, _, h
  | .slice _ _ _, _, h | .star _ _, _, h | .typeAssert _ _, _, h | .atom _, _, h => nomatch h

theorem yields_lowerRangeTarget (s : Scope) : ∀ e, (lowerRangeTarget s e).Yields AllResolved
  | none => pure .nil
  | some e =>
    (yields_lowerExpr s e).bind fun _ he => (ofExpr (resolved_rangeNode he)).bind fun _ hr =>
      pure (.singleton hr)

theorem yields_lowerStmt (s : Scope) : ∀ t, (lowerStmt s t).Yields Node.Resolved
  | .expr _ x =>
    (yields_lowerExpr s x).bind fun _ hx =>
      ofStmt (.of_kind nofun fun _ h => List.mem_singleton.1 h ▸ hx)
  | .assign _ _ targets values =>
    (yields_lowerExprs s targets).bind fun _ ht => (yields_lowerExprs s values).bind fun _ hv =>
      ofStmt (resolved_assignNode ht hv)
  | .incDec _ _ x =>
    (yields_lowerExpr s x).bind fun _ hx => ofStmt (resolved_assignNode (.singleton hx) nofun)
  | .decl _ keyword specs => by
    have hspecs := yields_lowerStmts s specs
    unfold lowerStmt
    split
    · exact hspecs.bind fun _ hs => ofStmt (resolved_stmtNode hs)
    · exact ofStmt (resolved_stmtNode nofun)
  | .valueSpec _ names values =>
    (yields_lowerExprs s names).bind fun _ hn => (yields_lowerExprs s values).bind fun _ hv =>
      ofStmt (resolved_assignNode hn hv)
  | .ret _ results =>
    (yields_lowerExprs s results).bind fun _ hr => ofStmt (resolved_stmtNode hr)
  | .go _ call =>
    (yields_lowerExpr s call).bind fun _ hc => ofStmt (resolved_stmtNode (.singleton hc))
  | .defer _ call =>
    (yields_lowerExpr s call).bind fun _ hc => ofStmt (resolved_stmtNode (.singleton hc))
  | .send _ channel value =>
    (yields_lowerExpr s channel).bind fun _ hc => (yields_lowerExpr s value).bind fun _ hv =>
      ofStmt (resolved_stmtNode (.cons hc (.singleton hv)))
  | .block _ list => (yields_lowerStmts s list).bind fun _ hl => ofStmt (resolved_stmtNode hl)
  | .cond _ init test body other =>
    (yields_lowerStmt? s init).bind fun _ hi => (yields_lowerExpr s test).bind fun _ ht =>
      (yields_lowerStmt s body).bind fun _ hb => (yields_lowerStmt? s other).bind fun _ ho =>
        ofStmt (resolved_stmtNode ((hi.append (.cons ht (.singleton hb))).append ho))
  | .loop _ init test post body =>
    (yields_lowerStmt? s init).bind fun _ hi => (yields_lowerExpr? s test).bind fun _ ht =>
      (yields_lowerStmt? s post).bind fun _ hp => (yields_lowerStmt s body).bind fun _ hb =>
        ofStmt (resolved_stmtNode (((hi.append ht).append hp).append (.singleton hb)))
  | .range _ key value x body =>
    (yields_lowerRangeTarget s key).bind fun _ hk =>
      (yields_lowerRangeTarget s value).bind fun _ hv =>
        (yields_lowerStmt s body).bind fun _ hb => (yields_lowerExpr s x).bind fun _ hx =>
          ofStmt (.of_kind nofun (AllResolved.cons hx ((hk.append hv).append (.singleton hb))))
  | .switch _ init tag body =>
    (yields_lowerStmt? s init).bind fun _ hi => (yields_lowerExpr? s tag).bind fun _ ht =>
      (yields_lowerStmt s body).bind fun _ hb =>
        ofStmt (resolved_stmtNode ((hi.append ht).append (.singleton hb)))
  | .typeSwitch _ init guard body =>
    (yields_lowerStmt? s init).bind fun _ hi => (yields_lowerStmt? s guard).bind fun _ hg =>
      (yields_lowerStmt s body).bind fun _ hb =>
        ofStmt (resolved_stmtNode ((hi.append hg).append (.singleton hb)))
  | .select _ body =>
    (yields_lowerStmt s body).bind fun _ hb => ofStmt (resolved_stmtNode (.singleton hb))
  | .caseClause _ list body =>
    (yields_lowerExprs s list).bind fun _ hl => (yields_lowerStmts s body).bind fun _ hb =>
      ofStmt (resolved_stmtNode (hl.append hb))
  | .commClause _ comm body =>
    (yields_lowerStmt? s comm).bind fun _ hc => (yields_lowerStmts s body).bind fun _ hb =>
      ofStmt (resolved_stmtNode (hc.append hb))
  | .labeled _ stmt =>
    (yields_lowerStmt s stmt).bind fun _ hs => ofStmt (resolved_stmtNode (.singleton hs))
  | .branch _ => ofStmt (resolved_stmtNode nofun)
  | .empty _ => ofStmt (resolved_stmtNode nofun)

theorem yields_lowerStmts (s : Scope) : ∀ ts, (lowerStmts s ts).Yields AllResolved
  | [] => pure .nil
  | t :: ts => yields_cons (yields_lowerStmt s t) (yields_lowerStmts s ts)

theorem yields_lowerStmt? (s : Scope) : ∀ t, (lowerStmt? s t).Yields AllResolved
  | none => pure .nil
  | some t => (yields_lowerStmt s t).bind fun _ ht => pure (.singleton ht)

end

theorem yields_lowerDecl (c : Config) (d : FuncDecl) : (lowerDecl c d).Yields Node.Resolved :=
  (yields_lowerStmts ⟨c, d.params⟩ (d.body.getD [])).bind fun _ hb =>
    (function _ _).bind fun _ _ => ofStmt (.of_kind nofun hb)

/-! ## The front end of a function -/

end Source

namespace Links

/-- The parents of a search stand in the trees that are searched. -/
theorem reaches_of_mem_families {stack : List Node} {p c : Node} (h : (p, c) ∈ families stack) :
    ∃ r ∈ stack, Reaches Node.Child r p := by
  induction stack using families.induct with
  | case1 =>
    unfold families at h
    cases h
  | case2 n stack ih =>
    unfold families at h
    rcases List.mem_append.1 h with h | h
    · obtain ⟨c', -, heq⟩ := List.mem_map.1 h
      obtain ⟨rfl, -⟩ := Prod.mk.inj heq
      exact ⟨n, List.mem_cons_self, Reaches.refl _ n⟩
    · obtain ⟨r, hr, hrp⟩ := ih h
      rcases List.mem_append.1 hr with hr | hr
      · -- under a child of the top, so under the top
        obtain ⟨q, hq⟩ := hrp
        exact ⟨n, List.mem_cons_self, _, .cons (List.mem_reverse.1 hr) hq⟩
      · exact ⟨r, List.mem_cons_of_mem _ hr, hrp⟩

theorem mem_entries_foldl {es : List (Node × Node)} {l : Links} {i : Nat} {p : Node}
    (h : (i, p) ∈ (es.foldl (fun l e => l.attach e.1 e.2) l).entries) :
    (i, p) ∈ l.entries ∨ ∃ c, (p, c) ∈ es := by
  induction es generalizing l with
  | nil => exact .inl h
  | cons e es ih =>
    rcases ih h with h | ⟨c, hc⟩
    · rcases List.mem_cons.1 h with heq | h
      · obtain ⟨-, rfl⟩ := Prod.mk.inj heq
        exact .inr ⟨e.2, List.mem_cons_self⟩
      · exact .inl (List.mem_of_mem_filter h)
    · exact .inr ⟨c, List.mem_cons_of_mem _ hc⟩

/-- The parents in the links of a tree are nodes of the tree. -/
theorem reaches_of_parent? {root n p : Node} (h : (({} : Links).link root).parent? n = some p) :
    Reaches Node.Child root p := by
  rcases mem_entries_foldl (mem_entries_of_parent? h) with hnil | ⟨c, hc⟩
  · cases hnil
  · obtain ⟨r, hr, hrp⟩ := reaches_of_mem_families hc
    exact List.mem_singleton.1 hr ▸ hrp

end Links

namespace Source.Function

theorem none_not_mem_addFacts {links : Links} {du : DefUse} {n : Node} {nested : Bool}
    (h : none ∉ du.defs) : none ∉ (addFacts links du n nested).defs := by
  unfold addFacts
  dsimp only
  split
  · exact h
  · rename_i hvar
    have hsome : n.var ≠ none := fun hnone => hvar (by rw [hnone, Option.isNone_none, Bool.or_true])
    -- every branch leaves the written variables alone or adds the one of the reference
    have hdefine := DefUse.none_not_mem_define h hsome
    split
    · split <;> exact h
    · split
      · split <;> exact hdefine
      · split
        · exact hdefine
        · exact h

theorem none_not_mem_defUseIn (links : Links) (n : Node) : none ∉ (defUseIn links n).defs :=
  DefUse.none_not_mem_foldl (fun _ _ _ hdu => none_not_mem_addFacts hdu) List.not_mem_nil

section Blocks

variable {f : Function} {n : Node}

theorem mem_pieces_of_mem_evaluated {nodes : List FlowNode} (h : n ∈ f.evaluated nodes) :
    ∃ l ∈ f.trace.pieces, l.node = n := by
  obtain ⟨l, hl, rfl⟩ := List.mem_map.1 (List.mem_of_mem_filter h)
  obtain ⟨flow, -, hflow⟩ := List.mem_filterMap.1 hl
  refine ⟨l, ?_, rfl⟩
  cases flow with
  | implicitReturn => cases hflow
  | piece number | returnStmt number => exact List.mem_reverse.1 (List.mem_of_find?_eq_some hflow)

/-- A branch value is the last node that the block evaluates. -/
theorem getLast?_of_branchValue? {flow : FlowBlock} {n : Node}
    (h : f.branchValue? flow = some n) : (f.evaluated flow.nodes).getLast? = some n := by
  unfold branchValue? at h
  split at h
  · rename_i last m hlast hm
    split at h
    · split at h
      · rw [← h]
        exact hm
      · cases h
    · cases h
  · cases h

/-- A block evaluates the same nodes whether its branch value was taken out or not. -/
theorem evaluated_blockOf (g : FlowGraph) (exit : Nat) (flow : FlowBlock) :
    (f.blockOf g exit flow).evaluated = f.evaluated flow.nodes := by
  unfold blockOf Block.evaluated
  match flow.succs with
  | [] | [_] => exact List.append_nil _
  | _ :: _ :: _ =>
    cases hbranch : f.branchValue? flow with
    | none => exact List.append_nil _
    | some n =>
      show (f.evaluated flow.nodes).dropLast ++ [n] = _
      exact List.dropLast_append_getLast? n (getLast?_of_branchValue? hbranch)

theorem exists_mem_evaluated {g : FlowGraph} {b : Body} (hb : b.blocks = f.blocksOf g)
    {i : Instr} (hi : i ∈ b.instrs) : ∃ nodes, i.node ∈ f.evaluated nodes := by
  obtain ⟨blk, hblk, hnode, -⟩ := Body.mem_instrs.1 hi
  have hmem : i.node ∈ blk.evaluated := List.mem_of_getElem? hnode
  have hblk : blk ∈ f.blocksOf g := hb ▸ List.mem_of_getElem? hblk
  -- neither the entry nor the exit evaluates anything
  rcases List.mem_append.1 hblk with hblk | hblk
  · rcases List.mem_cons.1 hblk with rfl | hblk
    · cases hmem
    · obtain ⟨flow, -, rfl⟩ := List.mem_map.1 hblk
      rw [evaluated_blockOf] at hmem
      exact ⟨flow.nodes, hmem⟩
  · rw [List.mem_singleton.1 hblk] at hmem
    cases hmem

theorem mem_pieces_of_mem_instrs {g : FlowGraph} {b : Body} (hb : b.blocks = f.blocksOf g)
    {i : Instr} (hi : i ∈ b.instrs) : ∃ l ∈ f.trace.pieces, l.node = i.node := by
  obtain ⟨nodes, hmem⟩ := exists_mem_evaluated hb hi
  exact mem_pieces_of_mem_evaluated hmem

theorem blocks_of_bodyOf {fn : Node} {b : Body} (h : f.bodyOf fn = .ok b) :
    ∃ g, b.blocks = f.blocksOf g := by
  unfold bodyOf at h
  split at h
  · cases h
  · split at h
    · cases h
    · cases h
    · rename_i g _ _
      cases h
      exact ⟨g, rfl⟩

end Blocks

/-- **Every value of a lowered function is decided**: lowering leaves no reference without a
variable, and the body of a function has an entry. -/
theorem decide_ofDecl_ok (c : Config) (d : FuncDecl) (target : Node) :
    ∃ decision, c.decide (ofDecl c d).frontEnd target = .ok decision := by
  obtain ⟨hroot, hpieces⟩ := yields_lowerDecl c d
  refine Config.decide_ok (fun fn b hb => ?_) c target
  obtain ⟨g, hg⟩ := blocks_of_bodyOf hb
  have hnodes : ∀ i ∈ b.instrs, i.node.Resolved := by
    intro i hi
    obtain ⟨l, hl, hnode⟩ := mem_pieces_of_mem_instrs hg hi
    exact hnode ▸ hpieces l hl
  refine ⟨hg ▸ nofun, fun i _ => none_not_mem_defUseIn _ i.node, hnodes, fun n p hp => ?_⟩
  intro m hm
  obtain hp := Links.reaches_of_parent? hp
  exact hroot m (hp.trans hm)

end Source.Function

end AwaitLint
