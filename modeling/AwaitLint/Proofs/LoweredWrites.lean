import AwaitLint.Proofs.LoweredTree
import AwaitLint.Proofs.SourceWrites
import AwaitLint.Proofs.TreeWrites

/-!
# AwaitLint — lowering keeps what is written

Each node writes what its piece of syntax writes (`Renders`), and each noted node belongs to a piece
of the declaration (`Stems`). Both are followed along the recursion of the lowering: `Lower.Follows`
is what holds after some of its steps, `Lower.Traces` what holds of a whole phrase. The one
confusion is that of `x & y` with `&x`: both become a node with the spelling of the operator
(`writesChild_operator`).

* **`traces_lowerExpr`**, **`traces_lowerStmt`** — lowering, one case per form of syntax.
-/

namespace AwaitLint

/-- Whether nodes of this kind are expressions, other than local names and function literals. -/
def Kind.isOperation : Kind → Bool
  | conversion | call | new | await | collection | other | fieldRef => true
  | _ => false

namespace Source

open Node

/-! ## References -/

/-- In the scope, the expression names a variable that lives in a function, and `w` is what that
variable becomes. -/
def Expr.Denotes (s : Scope) (w : Variable) (e : Expr) : Prop :=
  ∃ v, e.namedVar? = some v ∧ s.variable v = w ∧ w.isMember = false

section References

variable {s : Scope} {w : Variable} {e : Expr}

/-- Whether the expression is neither a name nor a function literal nor in parentheses. -/
def Expr.isOperation : Expr → Bool
  | ident _ _ _ | paren _ _ | funcLit _ _ _ _ => false
  | _ => true

theorem not_isLocal_of_isOperation {n : Node} (h : n.kind.isOperation = true) : ¬ n.IsLocal w := by
  intro hlocal
  rw [hlocal.1] at h
  cases h

theorem isOperation_compositeNode (s : Scope) (p : Piece) (type : ValueType) (isBare : Bool)
    (ns : List Node) : (s.compositeNode p type isBare ns).kind.isOperation = true := by
  unfold Scope.compositeNode
  split
  · rfl
  · split <;> rfl

theorem isOperation_lowerAddressed {outer : ExprInfo} {x : Expr} {m : Lower Node}
    (h : lowerAddressed s outer x = some m) : m.value.kind.isOperation = true := by
  induction x using Expr.unparen.induct with
  | case1 i x ih => exact ih h
  | case2 x hnot =>
    cases x with
    | composite i elements =>
      rw [lowerAddressed, Option.some.injEq] at h
      subst h
      exact isOperation_compositeNode s _ _ _ _
    | paren i x => exact absurd rfl (hnot i x)
    | _ => cases h

/-- Operations become nodes of their own kinds. -/
theorem isOperation_lowerExpr (s : Scope) (h : e.isOperation = true) :
    (lowerExpr s e).value.kind.isOperation = true := by
  cases e with
  | ident | paren | funcLit => cases h
  | selector i x name object selection =>
    unfold lowerExpr
    split <;> rfl
  | call i function args callee =>
    unfold lowerExpr
    generalize s.callForm function args callee = form
    cases form with
    | value name isBuiltin => cases isBuiltin <;> rfl
    | _ => rfl
  | composite i elements => exact isOperation_compositeNode s _ _ _ _
  | unary i op x =>
    unfold lowerExpr
    split
    · rename_i literal hliteral
      split at hliteral
      · exact isOperation_lowerAddressed hliteral
      · cases hliteral
    · rfl
  | star i x =>
    unfold lowerExpr
    split <;> rfl
  | _ => rfl

theorem isLocal_identNode {i : ExprInfo} {name : String} {object : Option Object}
    {type : ValueType} :
    (s.identNode i name object type).IsLocal w ↔ (Expr.ident i name object).Denotes s w := by
  cases object with
  | none => exact ⟨nofun, nofun⟩
  | some object =>
    cases object with
    | func | builtin => exact ⟨nofun, nofun⟩
    | var v =>
      unfold Scope.identNode Expr.Denotes Expr.namedVar?
      dsimp only [Expr.unparen]
      by_cases hblank : name = "_"
      · rw [if_pos hblank, if_pos hblank]
        exact ⟨nofun, nofun⟩
      · rw [if_neg hblank, if_neg hblank]
        cases hmember : (s.variable v).isMember with
        | true =>
          refine ⟨nofun, ?_⟩
          rintro ⟨u, hu, rfl, hlocal⟩
          obtain rfl := Option.some.inj hu
          rw [hmember] at hlocal
          cases hlocal
        | false =>
          constructor
          · rintro ⟨-, hvar⟩
            obtain rfl := Option.some.inj hvar
            exact ⟨v, rfl, rfl, hmember⟩
          · rintro ⟨u, hu, rfl, -⟩
            obtain rfl := Option.some.inj hu
            exact ⟨rfl, rfl⟩

theorem not_denotes_of_isOperation (h : e.isOperation = true) : ¬ e.Denotes s w := by
  cases e with
  | ident | paren | funcLit => cases h
  | _ => nofun

/-- **References are names**: a node refers to a local exactly if its expression names it. -/
theorem isLocal_lowerExpr (s : Scope) (e : Expr) :
    (lowerExpr s e).value.IsLocal w ↔ e.Denotes s w := by
  induction e using Expr.unparen.induct with
  | case1 i x ih => exact ih
  | case2 e hnot =>
    cases e with
    | paren i x => exact absurd rfl (hnot i x)
    | ident i name object => exact isLocal_identNode
    | funcLit =>
      refine iff_of_false (fun h => absurd h.1 (show Kind.func ≠ .localRef by decide)) ?_
      rintro ⟨v, hv, -⟩
      cases hv
    | _ =>
      exact iff_of_false (not_isLocal_of_isOperation (isOperation_lowerExpr s rfl))
        (not_denotes_of_isOperation rfl)

end References

/-! ## Nodes and their syntax -/

/-- The scope within an expression: function literals add their parameters. -/
def Expr.scope (s : Scope) : Expr → Scope
  | funcLit _ params _ _ => { s with params := params ++ s.params }
  | _ => s

def Phrase.scope (s : Scope) : Phrase → Scope
  | expr e => e.unparen.scope s
  | stmt _ => s

/-- In the scope `s`, the node is what the phrase becomes: it is a function if the phrase is a
literal, it is a reference if the phrase names a local, and it writes what is marked in the
phrase. -/
structure Renders (s : Scope) (n : Node) (p : Phrase) : Prop where
  func : n.kind = .func ↔ p.unparen.isLiteral = true
  refers : ∀ w, n.IsLocal w ↔ ∃ e, p = .expr e ∧ e.Denotes s w
  writes : ∀ w, n.Writes w ↔ p.unparen.Has Phrase.marked (Expr.Denotes (p.scope s) w)

/-- The nodes write together what is marked in the phrases together, functions left out. -/
def Agrees (s : Scope) (ns : List Node) (ps : List Phrase) : Prop :=
  ∀ w, (∃ n ∈ ns, n.kind ≠ .func ∧ n.Writes w) ↔
    ∃ p ∈ ps, p.isLiteral = false ∧ p.Has Phrase.marked (Expr.Denotes s w)

/-- The noted node is what a phrase within `p` becomes, in a scope that literals within `p` may have
extended. -/
def Stems (s : Scope) (p : Phrase) (l : Lowered) : Prop :=
  ∃ q s', Reaches Phrase.Part p q ∧ q.number = l.number ∧
    (∀ k ∈ s'.params, k ∈ s.params ∨ p.Declares k) ∧ Renders s' l.node q

section Agreement

variable {s : Scope} {n : Node} {p q : Phrase} {e : Expr} {l : Lowered} {ns ns' : List Node}
  {ps ps' : List Phrase}

theorem Agrees.nil : Agrees s [] [] := fun w => by simp

theorem Agrees.append (h : Agrees s ns ps) (h' : Agrees s ns' ps') :
    Agrees s (ns ++ ns') (ps ++ ps') := by
  intro w
  simp only [List.mem_append, or_and_right, exists_or]
  exact or_congr (h w) (h' w)

/-- Only membership counts, and phrases that write nothing may be added. -/
theorem Agrees.congr (h : Agrees s ns ps) (hns : ∀ n, n ∈ ns' ↔ n ∈ ns) (hps : ∀ q ∈ ps, q ∈ ps')
    (hrest : ∀ q ∈ ps', q ∈ ps ∨ q.Idle) : Agrees s ns' ps' := by
  intro w
  simp only [hns]
  rw [h w]
  constructor
  · rintro ⟨q, hq, hhas⟩
    exact ⟨q, hps q hq, hhas⟩
  · rintro ⟨q, hq, hlit, hhas⟩
    rcases hrest q hq with hmem | hidle
    · exact ⟨q, hmem, hlit, hhas⟩
    · exact absurd hhas hidle.not_has

theorem scope_of_not_literal (h : p.unparen.isLiteral = false) : p.scope s = s := by
  cases p with
  | expr e =>
    show e.unparen.scope s = s
    change (Phrase.expr e.unparen).isLiteral = false at h
    cases heq : e.unparen with
    | funcLit i params body graph =>
      rw [heq] at h
      cases h
    | _ => rfl
  | stmt t => rfl

theorem denotes_scope_iff {w : Variable} :
    e.Denotes ((Phrase.expr e).scope s) w ↔ e.Denotes s w := by
  have hscope : ∀ v, e.namedVar? = some v → (Phrase.expr e).scope s = s := by
    intro v hv
    show e.unparen.scope s = s
    unfold Expr.namedVar? at hv
    split at hv
    · rename_i heq
      rw [heq]
      rfl
    · cases hv
  refine exists_congr fun v => and_congr_right fun hv => ?_
  rw [hscope v hv]

/-- Parentheses write nothing and are no literals. -/
theorem has_unparen {role : Phrase → List Expr} {who : Expr → Prop}
    (hrole : ∀ i x, role (.expr (.paren i x)) = []) :
    (p.isLiteral = false ∧ p.Has role who) ↔
      (p.unparen.isLiteral = false ∧ p.unparen.Has role who) := by
  cases p with
  | stmt t => exact Iff.rfl
  | expr e =>
    induction e using Expr.unparen.induct with
    | case1 i x ih =>
      refine Iff.trans ?_ ih
      rw [Phrase.has_iff]
      simp [hrole, Phrase.isLiteral, Phrase.parts, Phrase.constituents]
    | case2 e hnot =>
      have heq : (Phrase.expr e).unparen = .expr e := by
        rw [Phrase.unparen, Expr.unparen]
        exact hnot
      rw [heq]

theorem Renders.agrees (h : Renders s n p) : Agrees s [n] [p] := by
  intro w
  simp only [List.mem_singleton, exists_eq_left]
  rw [has_unparen fun _ _ => rfl, h.writes w]
  constructor
  · rintro ⟨hfunc, hhas⟩
    have hlit : p.unparen.isLiteral = false := Bool.eq_false_iff.2 fun ht => hfunc (h.func.2 ht)
    rw [scope_of_not_literal hlit] at hhas
    exact ⟨hlit, hhas⟩
  · rintro ⟨hlit, hhas⟩
    rw [scope_of_not_literal hlit]
    refine ⟨fun hfunc => ?_, hhas⟩
    rw [h.func.1 hfunc] at hlit
    cases hlit

theorem Stems.self (h : Renders s l.node p) (hnumber : p.number = l.number) : Stems s p l :=
  ⟨p, s, Reaches.refl _ p, hnumber, fun _ hk => .inl hk, h⟩

theorem Stems.of_part (h : Stems s q l) (hq : q ∈ p.parts) : Stems s p l := by
  obtain ⟨r, s', hr, hnumber, hscope, hrenders⟩ := h
  refine ⟨r, s', Reaches.head_iff.2 (.inr ⟨q, hq, hr⟩), hnumber, fun k hk => ?_, hrenders⟩
  exact (hscope k hk).imp_right fun hdecl => hdecl.of_part hq

end Agreement

/-! ## What one node writes itself -/

section OwnWrites

variable {s : Scope} {w : Variable} {p : Piece} {name : String} {type : ValueType}
  {n : Node} {ns ms : List Node}

theorem isLocal_lowerExprs (s : Scope) (es : List Expr) :
    (∃ c ∈ (lowerExprs s es).value, c.IsLocal w) ↔ ∃ e ∈ es, e.Denotes s w := by
  induction es with
  | nil => exact ⟨nofun, nofun⟩
  | cons e es ih =>
    show (∃ c ∈ (lowerExpr s e).value :: (lowerExprs s es).value, c.IsLocal w) ↔ _
    rw [List.exists_mem_cons_iff, List.exists_mem_cons_iff, ih, isLocal_lowerExpr]

theorem writesChild_otherNode :
    (∃ c, (p.otherNode name type ns).WritesChild c ∧ c.IsLocal w) ↔
      name = "&" ∧ ∃ c ∈ ns, c.IsLocal w := by
  have haddress : Function.isAddressOf (p.otherNode name type ns) = true ↔ name = "&" := by
    show (decide (Kind.other = .other) && name == "&") = true ↔ _
    simp
  constructor
  · rintro ⟨c, ⟨hkind, -⟩ | ⟨hname, hc⟩, hlocal⟩
    · cases hkind
    · exact ⟨haddress.1 hname, c, hc, hlocal⟩
  · rintro ⟨hname, c, hc, hlocal⟩
    exact ⟨c, .inr ⟨haddress.2 hname, hc⟩, hlocal⟩

theorem writesChild_assignNode :
    (∃ c, (p.assignNode name ns ms).WritesChild c ∧ c.IsLocal w) ↔ ∃ c ∈ ns, c.IsLocal w := by
  constructor
  · rintro ⟨c, ⟨-, hc⟩ | ⟨haddress, -⟩, hlocal⟩
    · exact ⟨c, hc, hlocal⟩
    · cases haddress
  · rintro ⟨c, hc, hlocal⟩
    exact ⟨c, .inl ⟨rfl, hc⟩, hlocal⟩

/-- Only assignments and nodes without a meaning of their own write. -/
theorem not_writesChild (hassign : n.kind ≠ .assign) (hother : n.kind ≠ .other) :
    ¬ ∃ c, n.WritesChild c ∧ c.IsLocal w := by
  rintro ⟨c, ⟨hkind, -⟩ | ⟨haddress, -⟩, -⟩
  · exact hassign hkind
  · unfold Function.isAddressOf at haddress
    rw [Bool.and_eq_true, decide_eq_true_eq] at haddress
    exact hother haddress.1

theorem not_writesChild_otherNode (h : name ≠ "&") :
    ¬ ∃ c, (p.otherNode name type ns).WritesChild c ∧ c.IsLocal w := fun hw =>
  h (writesChild_otherNode.1 hw).1

/-- Operators are told apart by their spelling alone. -/
theorem writesChild_operator {op : String} (es : List Expr) :
    (∃ c, (p.otherNode op type (lowerExprs s es).value).WritesChild c ∧ c.IsLocal w) ↔
      ∃ x ∈ (if op = "&" then es else []), x.Denotes s w := by
  rw [writesChild_otherNode, isLocal_lowerExprs]
  by_cases h : op = "&"
  · rw [if_pos h, and_iff_right h]
  · rw [if_neg h]
    exact iff_of_false (fun hw => h hw.1) nofun

theorem not_writesChild_compositeNode (s : Scope) (isBare : Bool) :
    ¬ ∃ c, (s.compositeNode p type isBare ns).WritesChild c ∧ c.IsLocal w := by
  unfold Scope.compositeNode
  split
  · exact not_writesChild nofun nofun
  · split
    · exact not_writesChild nofun nofun
    · exact not_writesChild_otherNode (by decide)

theorem not_writesChild_callNode (form : CallForm) (recv : Option Node) :
    ¬ ∃ c, (form.node p type recv ns).WritesChild c ∧ c.IsLocal w := by
  cases form with
  | _ => exact not_writesChild nofun nofun

theorem writesChild_rangeNode :
    (∃ c, (p.rangeNode n).WritesChild c ∧ c.IsLocal w) ↔ n.IsLocal w := by
  constructor
  · rintro ⟨c, ⟨-, hc⟩ | ⟨haddress, -⟩, hlocal⟩
    · rwa [List.mem_singleton.1 hc] at hlocal
    · cases haddress
  · intro hlocal
    exact ⟨n, .inl ⟨rfl, List.mem_singleton_self n⟩, hlocal⟩

end OwnWrites

/-! ## Lowering, step by step -/

/-- The nodes `ns` were made for the phrases `ps`, and what was noted stems from them, but for
`own`. -/
structure Lower.Follows {α : Type} (m : Lower α) (s : Scope) (ns : List Node) (ps : List Phrase)
    (own : List Lowered) : Prop where
  agrees : Agrees s ns ps
  stems : ∀ l ∈ m.trace.pieces, l ∈ own ∨ ∃ p ∈ ps, Stems s p l

/-- The node that was made is what the phrase becomes, and what was noted stems from the phrase. -/
structure Lower.Traces (m : Lower Node) (s : Scope) (p : Phrase) : Prop where
  renders : Renders s m.value p
  stems : ∀ l ∈ m.trace.pieces, Stems s p l

theorem Lower.Traces.follows {m : Lower Node} {s : Scope} {p : Phrase} (h : m.Traces s p) :
    m.Follows s [m.value] [p] [] :=
  ⟨h.renders.agrees, fun l hl => .inr ⟨p, List.mem_singleton_self p, h.stems l hl⟩⟩

namespace Lower.Follows

variable {α β : Type} {s : Scope} {ns ns' : List Node} {ps ps' : List Phrase} {own : List Lowered}
  {l : Lowered} {p : Phrase}

theorem pure {a : α} : (Pure.pure a : Lower α).Follows s [] [] [] := ⟨.nil, nofun⟩

theorem ofExpr {p : Piece} {n : Node} :
    (Lower.ofExpr p n).Follows s [] [] [⟨p.number, true, n⟩] := ⟨.nil, fun _ hl => .inl hl⟩

theorem ofStmt {p : Piece} {n : Node} :
    (Lower.ofStmt p n).Follows s [] [] [⟨p.number, false, n⟩] := ⟨.nil, fun _ hl => .inl hl⟩

theorem bind {m : Lower α} {f : α → Lower β} (hm : m.Follows s ns ps [])
    (hf : (f m.value).Follows s ns' ps' own) :
    (m >>= f).Follows s (ns ++ ns') (ps ++ ps') own := by
  refine ⟨hm.agrees.append hf.agrees, fun l hl => ?_⟩
  rcases List.mem_append.1 hl with hl | hl
  · obtain ⟨p, hp, hstems⟩ := (hm.stems l hl).resolve_left List.not_mem_nil
    exact .inr ⟨p, List.mem_append_left _ hp, hstems⟩
  · refine (hf.stems l hl).imp_right ?_
    rintro ⟨p, hp, hstems⟩
    exact ⟨p, List.mem_append_right _ hp, hstems⟩

/-- The last step, which notes a node. -/
theorem note {m : Lower α} {f : α → Lower β} (hm : m.Follows s ns ps [])
    (hf : (f m.value).trace.pieces = own) : (m >>= f).Follows s ns ps own := by
  refine ⟨hm.agrees, fun l hl => ?_⟩
  rcases List.mem_append.1 hl with hl | hl
  · exact .inr ((hm.stems l hl).resolve_left List.not_mem_nil)
  · exact .inl (hf ▸ hl)

/-- **A node for a phrase**, made of the nodes for its parts. Parts that write nothing may be left
out. -/
theorem traces {m : Lower Node} (h : m.Follows s ns ps [l]) (hnumber : p.number = l.number)
    (hnode : l.node = m.value) (hunparen : p.unparen = p) (hlit : p.isLiteral = false)
    (hfunc : m.value.kind ≠ .func)
    (hrefers : ∀ w, m.value.IsLocal w ↔ ∃ e, p = .expr e ∧ e.Denotes s w)
    (hns : ∀ n, n ∈ m.value.children ↔ n ∈ ns) (hps : ∀ q ∈ ps, q ∈ p.parts)
    (hrest : ∀ q ∈ p.parts, q ∈ ps ∨ q.Idle)
    (hown : ∀ w, (∃ c, m.value.WritesChild c ∧ c.IsLocal w) ↔ ∃ e ∈ p.marked, e.Denotes s w) :
    m.Traces s p := by
  have hplain : p.unparen.isLiteral = false := hunparen.symm ▸ hlit
  have hrenders : Renders s m.value p := by
    refine ⟨⟨fun hkind => absurd hkind hfunc, fun ht => ?_⟩, hrefers, fun w => ?_⟩
    · rw [hplain] at ht
      cases ht
    · rw [hunparen, scope_of_not_literal hplain, writes_iff, Phrase.has_iff]
      exact or_congr (hown w) (h.agrees.congr hns hps hrest w)
  refine ⟨hrenders, fun l' hl' => ?_⟩
  rcases h.stems l' hl' with hown | ⟨q, hq, hstems⟩
  · rw [List.mem_singleton.1 hown]
    exact .self (hnode ▸ hrenders) hnumber
  · exact hstems.of_part (hps q hq)

/-- A phrase around others that marks nothing itself and has no node of its own. -/
theorem enclose {m : Lower α} (h : m.Follows s ns ps own) (hlit : p.isLiteral = false)
    (hmarked : p.marked = []) (hps : ∀ q ∈ ps, q ∈ p.parts)
    (hrest : ∀ q ∈ p.parts, q ∈ ps ∨ q.Idle) : m.Follows s ns [p] own := by
  refine ⟨fun w => ?_, fun l hl => (h.stems l hl).imp_right ?_⟩
  · have hparts := h.agrees.congr (fun _ => Iff.rfl) hps hrest w
    rw [hparts]
    simp only [List.mem_singleton, exists_eq_left]
    rw [Phrase.has_iff (p := p), hmarked, and_iff_right hlit]
    simp
  · rintro ⟨q, hq, hstems⟩
    exact ⟨p, List.mem_singleton_self p, hstems.of_part (hps q hq)⟩

theorem cons {m : Lower Node} {ms : Lower (List Node)} {n : Node} (hm : m.Follows s [n] [p] [])
    (hn : n = m.value) (hms : ms.Follows s ms.value ps []) :
    (do return (← m) :: (← ms) : Lower (List Node)).Follows s (m.value :: ms.value)
      (p :: ps) [] := by
  subst hn
  exact hm.bind (hms.note rfl)

theorem singleton {m : Lower Node} (hm : m.Traces s p) :
    (do return [← m] : Lower (List Node)).Follows s [m.value] [p] [] :=
  hm.follows.note rfl

end Lower.Follows

namespace Lower.Traces

variable {s : Scope} {ns : List Node} {ps : List Phrase} {l : Lowered}

theorem operation {e : Expr} {m : Lower Node}
    (h : m.Follows s ns ps [⟨e.info.number, true, m.value⟩]) (hop : e.isOperation = true)
    (hkind : m.value.kind.isOperation = true) (hns : ∀ n, n ∈ m.value.children ↔ n ∈ ns)
    (hps : ∀ q ∈ ps, q ∈ (Phrase.expr e).parts)
    (hrest : ∀ q ∈ (Phrase.expr e).parts, q ∈ ps ∨ q.Idle)
    (hown : ∀ w, (∃ c, m.value.WritesChild c ∧ c.IsLocal w) ↔
      ∃ x ∈ (Phrase.expr e).marked, x.Denotes s w) : m.Traces s (.expr e) := by
  refine h.traces rfl rfl ?_ ?_ ?_ (fun w => ?_) hns hps hrest hown
  · cases e with
    | paren => cases hop
    | _ => rfl
  · cases e with
    | funcLit => cases hop
    | _ => rfl
  · intro hfunc
    rw [hfunc] at hkind
    cases hkind
  · refine iff_of_false (not_isLocal_of_isOperation hkind) ?_
    rintro ⟨e', he, hw⟩
    obtain rfl := Phrase.expr.inj he
    exact not_denotes_of_isOperation hop hw

/-- An operation that becomes a node without a meaning of its own. -/
theorem plain {e : Expr} {m : Lower Node} {piece : Piece} {name : String} {type : ValueType}
    {ms : List Node} (h : m.Follows s ns ps [⟨e.info.number, true, m.value⟩])
    (hvalue : m.value = piece.otherNode name type ms) (hop : e.isOperation = true)
    (hname : name ≠ "&") (hmarked : (Phrase.expr e).marked = []) (hns : ∀ n, n ∈ ms ↔ n ∈ ns)
    (hps : ∀ q ∈ ps, q ∈ (Phrase.expr e).parts)
    (hrest : ∀ q ∈ (Phrase.expr e).parts, q ∈ ps ∨ q.Idle) : m.Traces s (.expr e) := by
  refine operation h hop ?_ ?_ hps hrest fun w => ?_
  · rw [hvalue]
    rfl
  · rw [hvalue]
    exact hns
  · rw [hvalue, hmarked]
    exact iff_of_false (not_writesChild_otherNode hname) nofun

theorem statement {t : Stmt} {m : Lower Node} (h : m.Follows s ns ps [l])
    (hnumber : t.piece.number = l.number) (hnode : l.node = m.value) (hfunc : m.value.kind ≠ .func)
    (hlocal : m.value.kind ≠ .localRef) (hns : ∀ n, n ∈ m.value.children ↔ n ∈ ns)
    (hps : ∀ q, q ∈ (Phrase.stmt t).parts ↔ q ∈ ps)
    (hown : ∀ w, (∃ c, m.value.WritesChild c ∧ c.IsLocal w) ↔
      ∃ x ∈ (Phrase.stmt t).assigned, x.Denotes s w) :
    m.Traces s (.stmt t) := by
  refine h.traces hnumber hnode rfl rfl hfunc (fun _ => ⟨fun hw => absurd hw.1 hlocal, nofun⟩) hns
    (fun q hq => (hps q).2 hq) (fun q hq => .inl ((hps q).1 hq)) ?_
  rw [Phrase.marked_stmt]
  exact hown

/-- A statement that is neither an assignment nor a declaration of values. -/
theorem keyword {t : Stmt} {m : Lower Node}
    (h : m.Follows s ns ps [⟨t.piece.number, false, m.value⟩])
    (hkind : m.value.kind = .stmt ∨ m.value.kind = .exprStmt)
    (hassigned : (Phrase.stmt t).assigned = []) (hns : ∀ n, n ∈ m.value.children ↔ n ∈ ns)
    (hps : ∀ q, q ∈ (Phrase.stmt t).parts ↔ q ∈ ps) : m.Traces s (.stmt t) := by
  have hne : ∀ kind, kind ≠ .stmt → kind ≠ .exprStmt → m.value.kind ≠ kind := by
    rintro kind hstmt hexpr rfl
    exact hkind.elim hstmt hexpr
  refine statement h rfl rfl (hne _ nofun nofun) (hne _ nofun nofun) hns hps fun w => ?_
  rw [hassigned]
  exact iff_of_false (not_writesChild (hne _ nofun nofun) (hne _ nofun nofun)) nofun

theorem paren {i : ExprInfo} {x : Expr} (h : (lowerExpr s x).Traces s (.expr x)) :
    (lowerExpr s (.paren i x)).Traces s (.expr (.paren i x)) := by
  have hrenders : Renders s (lowerExpr s x).value (.expr (.paren i x)) := by
    refine ⟨h.renders.func, fun w => ?_, h.renders.writes⟩
    rw [isLocal_lowerExpr]
    refine ⟨fun hw => ⟨_, rfl, hw⟩, ?_⟩
    rintro ⟨e, he, hw⟩
    obtain rfl := Phrase.expr.inj he
    exact hw
  refine ⟨hrenders, fun l hl => ?_⟩
  rcases List.mem_append.1 hl with hl | hl
  · exact (h.stems l hl).of_part List.mem_cons_self
  · rw [List.mem_singleton.1 hl]
    exact .self hrenders rfl

end Lower.Traces

/-- A function around its statements, which are lowered with its parameters. -/
theorem traces_function {s : Scope} {m : Lower Node} {i : ExprInfo} {params : List Nat}
    {body : List Stmt} {graph : Option FlowGraph} {ns : List Node} {l : Lowered}
    (h : m.Follows { s with params := params ++ s.params } ns (body.map .stmt) [l])
    (hnumber : i.number = l.number) (hnode : l.node = m.value) (hkind : m.value.kind = .func)
    (hns : m.value.children = ns) : m.Traces s (.expr (.funcLit i params body graph)) := by
  have hrenders : Renders s m.value (.expr (.funcLit i params body graph)) := by
    refine ⟨⟨fun _ => rfl, fun _ => hkind⟩, fun w => ⟨fun hw => ?_, ?_⟩, fun w => ?_⟩
    · cases hkind.symm.trans hw.1
    · rintro ⟨e, he, hw⟩
      obtain rfl := Phrase.expr.inj he
      obtain ⟨v, hv, -⟩ := hw
      cases hv
    · show _ ↔ (Phrase.expr (.funcLit i params body graph)).Has _ _
      rw [writes_iff, Phrase.has_iff, hns]
      refine or_congr (iff_of_false ?_ nofun) (h.agrees w)
      exact not_writesChild (by rw [hkind]; decide) (by rw [hkind]; decide)
  refine ⟨hrenders, fun l' hl' => ?_⟩
  rcases h.stems l' hl' with hown | ⟨q, hq, r, s', hr, hnumber', hscope, hr'⟩
  · rw [List.mem_singleton.1 hown]
    exact .self (hnode ▸ hrenders) hnumber
  · -- the parameters of this literal are declared by it
    refine ⟨r, s', Reaches.head_iff.2 (.inr ⟨q, hq, hr⟩), hnumber', fun k hk => ?_, hr'⟩
    rcases hscope k hk with hk | hdecl
    · rcases List.mem_append.1 hk with hk | hk
      · exact .inr ⟨i, params, body, graph, Reaches.refl _ _, hk⟩
      · exact .inl hk
    · exact .inr (hdecl.of_part hq)

/-! ## Calls -/

section Calls

variable {s : Scope} {i : ExprInfo} {function : Expr} {args : List Expr} {callee : Option Object}

theorem mem_children_callNode {form : CallForm} {p : Piece} {type : ValueType} {ns : List Node}
    {n : Node} (hnew : form ≠ .creation) (hone : form = .conversion → ns.length = 1) :
    n ∈ (form.node p type none ns).children ↔ n ∈ ns := by
  refine ⟨fun h => ?_, mem_children_of_mem_args hnew hone⟩
  cases form with
  | conversion =>
    obtain ⟨m, rfl⟩ := List.length_eq_one_iff.1 (hone rfl)
    exact h
  | addition name =>
    cases ns with
    | nil => cases h
    | cons m ns => exact h
  | creation => exact absurd rfl hnew
  | value | await | method | plain => exact h

/-- A call whose function is not lowered, since nothing is written in it. -/
theorem traces_call_args {form : CallForm}
    (hargs : (lowerExprs s args).Follows s (lowerExprs s args).value (args.map .expr) [])
    (hnew : form ≠ .creation) (hone : form = .conversion → args.length = 1)
    (hidle : (Phrase.expr function).Idle) :
    (do
      let args ← lowerExprs s args
      Lower.ofExpr i.toPiece (form.node i.toPiece i.valueType none args) : Lower Node).Traces s
        (.expr (.call i function args callee)) := by
  refine .operation (.note hargs rfl) rfl ?_ (fun n => ?_) (fun q hq => List.mem_cons_of_mem _ hq)
    (List.forall_mem_cons.2 ⟨.inr hidle, fun q hq => .inl hq⟩)
    fun _ => iff_of_false (not_writesChild_callNode form _) nofun
  · cases form with
    | _ => rfl
  · exact mem_children_callNode hnew fun h => by rw [length_lowerExprs, hone h]

/-- A call with a receiver: a value that is called, or one of which a method is called. -/
theorem traces_call_recv {form : CallForm} {m : Lower Node} {recv : Node} {ns : List Node}
    {ps : List Phrase} (h : m.Follows s ns ps [⟨i.number, true, m.value⟩])
    (hvalue : m.value = form.node i.toPiece i.valueType (some recv) (lowerExprs s args).value)
    (hform : ∃ name, form = .value name false ∨ form = .await name ∨ form = .method name)
    (hns : ∀ n, n ∈ ns ↔ n = recv ∨ n ∈ (lowerExprs s args).value)
    (hps : ∀ q, q ∈ ps ↔ q = .expr function ∨ q ∈ args.map .expr) :
    m.Traces s (.expr (.call i function args callee)) := by
  have hchildren : m.value.children = recv :: (lowerExprs s args).value := by
    rw [hvalue]
    rcases hform with ⟨name, rfl | rfl | rfl⟩ <;> rfl
  refine .operation h rfl ?_ (fun n => ?_) (fun q hq => ?_) (fun q hq => ?_) fun w => ?_
  · rw [hvalue]
    rcases hform with ⟨name, rfl | rfl | rfl⟩ <;> rfl
  · rw [hchildren, hns, List.mem_cons]
  · exact List.mem_cons.2 ((hps q).1 hq)
  · exact .inl ((hps q).2 (List.mem_cons.1 hq))
  · rw [hvalue]
    exact iff_of_false (not_writesChild_callNode form _) nofun

theorem traces_call (hregular : (Phrase.expr (.call i function args callee)).Regular)
    (hfunction : (lowerExpr s function).Traces s (.expr function))
    (hrecv : function.selectsMethod = true → (lowerReceiver s function).Follows s
      [(lowerReceiver s function).value] [.expr function] [])
    (hargs : (lowerExprs s args).Follows s (lowerExprs s args).value (args.map .expr) []) :
    (lowerExpr s (.call i function args callee)).Traces s
      (.expr (.call i function args callee)) := by
  have hsound : (s.callForm function args callee).Sound function args :=
    sound_callForm hregular.self.1
  have hname : (Phrase.expr function).Regular := hregular.part List.mem_cons_self
  unfold lowerExpr
  generalize s.callForm function args callee = form at hsound ⊢
  cases hsound with
  | conversion hfunction hargs' =>
    exact traces_call_args hargs nofun (fun _ => hargs')
      (Phrase.idle_of_isPath _ hname (hname.isPath_of_unparen_isType hfunction))
  | addition hfunction | plain hfunction =>
    exact traces_call_args hargs nofun nofun
      (Phrase.idle_of_isPath _ hname (hname.isPath_of_namesFunction hfunction))
  | builtin hfunction =>
    refine traces_call_args hargs nofun nofun (Phrase.idle_of_isPath _ hname ?_)
    rw [← function.isPath_unparen]
    exact Phrase.isPath_of_isIdent hfunction
  | creation hfunction htypes =>
    refine .operation .ofExpr rfl rfl (by simp [CallForm.node, Node.children_mk])
      nofun ?_ fun _ => iff_of_false (not_writesChild nofun nofun) nofun
    refine List.forall_mem_cons.2 ⟨.inr ?_, fun q hq => .inr ?_⟩
    · exact Phrase.idle_of_isPath _ hname (hname.isPath_of_namesFunction hfunction)
    · have hq' : q.Regular := hregular.part (List.mem_cons_of_mem _ hq)
      obtain ⟨e, he, rfl⟩ := List.mem_map.1 hq
      exact Phrase.idle_of_isPath e hq' (hq'.isPath_of_isType (htypes e he))
  | @value name =>
    exact traces_call_recv (.bind hargs (.note hfunction.follows rfl)) rfl ⟨name, .inl rfl⟩
      (by simp [or_comm]) (by simp [or_comm])
  | @await name hselects =>
    exact traces_call_recv (.bind (hrecv hselects) (.note hargs rfl)) rfl
      ⟨name, .inr (.inl rfl)⟩ (by simp) (by simp)
  | @method name hselects =>
    exact traces_call_recv (.bind (hrecv hselects) (.note hargs rfl)) rfl
      ⟨name, .inr (.inr rfl)⟩ (by simp) (by simp)

end Calls

/-! ## Expressions and statements -/

section Forms

variable {s : Scope} {i : ExprInfo}

theorem traces_ident {name : String} {object : Option Object} :
    (lowerExpr s (.ident i name object)).Traces s (.expr (.ident i name object)) := by
  have hform : (s.identNode i name object i.valueType).kind ≠ .func ∧
      (s.identNode i name object i.valueType).children = [] := by
    unfold Scope.identNode
    split
    · split
      · exact ⟨nofun, rfl⟩
      · dsimp only
        split <;> exact ⟨nofun, rfl⟩
    · exact ⟨nofun, rfl⟩
  refine Lower.Follows.traces .ofExpr rfl rfl rfl rfl hform.1 (fun w => ?_) (fun n => ?_) nofun
    nofun fun w => iff_of_false ?_ nofun
  · rw [isLocal_lowerExpr]
    simp
  · rw [show (lowerExpr s (.ident i name object)).value.children = [] from hform.2]
  · rintro ⟨c, hc, -⟩
    have hmem : c ∈ (s.identNode i name object i.valueType).children := hc.mem_children
    rw [hform.2] at hmem
    cases hmem

theorem traces_composite {p : Piece} {type : ValueType} {isBare : Bool} {elements : List Expr}
    (h : (lowerElements s i.isStruct elements).Follows s (lowerElements s i.isStruct elements).value
      (elements.map .expr) []) :
    (do
      let elements ← lowerElements s i.isStruct elements
      Lower.ofExpr i.toPiece (s.compositeNode p type isBare elements) : Lower Node).Traces s
        (.expr (.composite i elements)) := by
  refine .operation (.note h rfl) rfl (isOperation_compositeNode s _ _ _ _) (fun n => ?_)
    (fun _ hq => hq) (fun _ hq => .inl hq)
    fun _ => iff_of_false (not_writesChild_compositeNode s _) nofun
  exact iff_of_eq (congrArg _ (children_compositeNode s isBare))

theorem hasFieldKey_of_checked {elements : List Expr}
    (h : (Expr.composite i elements).checked = true) (hstruct : i.isStruct = true) :
    ∀ e ∈ elements, e.hasFieldKey = true := by
  rcases Bool.or_eq_true_iff.1 h with hplain | hkeys
  · rw [hstruct] at hplain
    cases hplain
  · exact List.all_eq_true.1 hkeys

/-- A literal whose address is taken: its node is noted for both. -/
theorem follows_addressed {outer : ExprInfo} {elements : List Expr} {m : Lower Node}
    (h : (lowerElements s i.isStruct elements).Follows s (lowerElements s i.isStruct elements).value
      (elements.map .expr) [])
    (haddressed : lowerAddressed s outer (.composite i elements) = some m) :
    m.Follows s [m.value] [.expr (.composite i elements)] [⟨outer.number, true, m.value⟩] := by
  rw [lowerAddressed, Option.some.injEq] at haddressed
  subst haddressed
  have hliteral : (do
      let elements ← lowerElements s i.isStruct elements
      Lower.ofExpr i.toPiece (s.compositeNode outer.toPiece outer.valueType false elements) :
        Lower Node).Traces s (.expr (.composite i elements)) := traces_composite h
  have hboth := hliteral.follows.note (f := Lower.ofExpr outer.toPiece) rfl
  rwa [Lower.bind_assoc] at hboth

theorem not_denotes_of_lowerAddressed {x : Expr} {m : Lower Node} {w : Variable}
    (h : lowerAddressed s i x = some m) : ¬ x.Denotes s w := by
  induction x using Expr.unparen.induct with
  | case1 i x ih => exact ih h
  | case2 x hnot =>
    cases x with
    | composite i elements => exact not_denotes_of_isOperation rfl
    | paren i x => exact absurd rfl (hnot i x)
    | _ => cases h

/-- The address of a composite literal is no address of a variable. -/
theorem traces_addressed {x : Expr} {m : Lower Node}
    (h : m.Follows s [m.value] [.expr x] [⟨i.number, true, m.value⟩])
    (haddressed : lowerAddressed s i x = some m) : m.Traces s (.expr (.unary i "&" x)) := by
  have hkind := isOperation_lowerAddressed haddressed
  have hfunc : m.value.kind ≠ .func := by
    intro heq
    rw [heq] at hkind
    cases hkind
  have hrenders : Renders s m.value (.expr (.unary i "&" x)) := by
    refine ⟨iff_of_false hfunc nofun, fun w => ?_, fun w => ?_⟩
    · refine iff_of_false (not_isLocal_of_isOperation hkind) ?_
      rintro ⟨e, he, hw⟩
      obtain rfl := Phrase.expr.inj he
      exact not_denotes_of_isOperation rfl hw
    · show _ ↔ (Phrase.expr (.unary i "&" x)).Has _ (Expr.Denotes s w)
      have hoperand : ¬ ∃ e ∈ (Phrase.expr (.unary i "&" x)).marked, e.Denotes s w := by
        rintro ⟨e, he, hw⟩
        rw [List.mem_singleton.1 he] at hw
        exact not_denotes_of_lowerAddressed haddressed hw
      rw [Phrase.has_iff, or_iff_right hoperand]
      refine Iff.trans ?_ (h.agrees w)
      simp [hfunc]
  refine ⟨hrenders, fun l hl => ?_⟩
  rcases h.stems l hl with hown | ⟨q, hq, hstems⟩
  · rw [List.mem_singleton.1 hown]
    exact .self hrenders rfl
  · exact hstems.of_part hq

/-- What a method is selected from, for the selector. -/
theorem follows_receiver {x : Expr} {name : String} {object : Option Object}
    {selection : Option Selection} (h : (lowerExpr s x).Traces s (.expr x)) :
    (lowerReceiver s (.selector i x name object selection)).Follows s
      [(lowerReceiver s (.selector i x name object selection)).value]
      [.expr (.selector i x name object selection)] [] :=
  h.follows.enclose rfl rfl (fun _ hq => hq) fun _ hq => .inl hq

/-- The field of a struct literal: its key is the name of the field. -/
theorem follows_field {key value : Expr} (hregular : (Phrase.expr (.keyValue i key value)).Regular)
    (hkey : (Expr.keyValue i key value).hasFieldKey = true)
    (h : (lowerExpr s value).Traces s (.expr value)) :
    (lowerExpr s value).Follows s [(lowerExpr s value).value]
      [.expr (.keyValue i key value)] [] := by
  refine h.follows.enclose rfl rfl (fun q hq => List.mem_cons_of_mem _ hq) ?_
  refine List.forall_mem_cons.2 ⟨.inr ?_, fun q hq => .inl hq⟩
  exact Phrase.idle_of_isPath key (hregular.part List.mem_cons_self) (Phrase.isPath_of_isIdent hkey)

theorem follows_rangeTarget {e : Expr} (h : (lowerExpr s e).Traces s (.expr e)) :
    (lowerRangeTarget s (some e)).Follows s (lowerRangeTarget s (some e)).value
      [Phrase.loopAssign e] [] := by
  have hassign : (do
      let target ← lowerExpr s e
      Lower.ofExpr e.info.toPiece (e.info.rangeNode target) : Lower Node).Traces s
        (Phrase.loopAssign e) := by
    refine .statement (.note h.follows rfl) rfl rfl nofun nofun (by simp)
      (by simp [Phrase.parts, Phrase.constituents]) fun w => ?_
    refine writesChild_rangeNode.trans ((isLocal_lowerExpr s e).trans ?_)
    simp [Phrase.assigned]
  have hlist := Lower.Follows.singleton hassign
  rwa [Lower.bind_assoc] at hlist

end Forms

mutual

theorem traces_lowerExpr (s : Scope) :
    ∀ e, (Phrase.expr e).Regular → (lowerExpr s e).Traces s (.expr e)
  | .ident i name object, _ => traces_ident
  | .paren i x, h => (traces_lowerExpr s x (h.part List.mem_cons_self)).paren
  | .selector i x name object selection, h => by
    have hx := traces_lowerExpr s x (h.part List.mem_cons_self)
    have hname : name ≠ "&" := bne_iff_ne.1 h.self.2.2
    have hchecked := h.self.1
    have hidle (hident : x.isIdent = true) : (Phrase.expr x).Idle :=
      Phrase.idle_of_isPath x (h.part List.mem_cons_self) (Phrase.isPath_of_isIdent hident)
    unfold lowerExpr
    split
    · exact .operation (.note hx.follows rfl) rfl rfl (fun _ => Iff.rfl) (fun _ hq => hq)
        (fun _ hq => .inl hq) fun _ => iff_of_false (not_writesChild nofun nofun) nofun
    · exact .operation .ofExpr rfl rfl (fun _ => Iff.rfl) nofun
        (List.forall_mem_singleton.2 (.inr (hidle hchecked)))
        fun _ => iff_of_false (not_writesChild nofun nofun) nofun
    · exact .plain .ofExpr rfl rfl hname rfl (fun _ => Iff.rfl) nofun
        (List.forall_mem_singleton.2 (.inr (hidle hchecked)))
    · exact .plain (.note hx.follows rfl) rfl rfl hname rfl (fun _ => Iff.rfl) (fun _ hq => hq)
        fun _ hq => .inl hq
  | .call i function args callee, h =>
    traces_call h (traces_lowerExpr s function (h.part List.mem_cons_self))
      (follows_lowerReceiver s function (h.part List.mem_cons_self))
      (follows_lowerExprs s args fun _ hq => h.part (List.mem_cons_of_mem _ hq))
  | .composite i elements, h =>
    traces_composite (follows_lowerElements s i.isStruct elements (fun _ hq => h.part hq)
      (hasFieldKey_of_checked h.self.1))
  | .unary i op x, h => by
    have hx := traces_lowerExpr s x (h.part List.mem_cons_self)
    have haddressed := follows_lowerAddressed s i x (h.part List.mem_cons_self)
    unfold lowerExpr
    split
    · rename_i literal hliteral
      split at hliteral
      · rename_i hop
        subst hop
        exact traces_addressed (haddressed literal hliteral) hliteral
      · cases hliteral
    · refine .operation (.note hx.follows rfl) rfl rfl (fun _ => Iff.rfl) (fun _ hq => hq)
        (fun _ hq => .inl hq) fun w => ?_
      show _ ↔ ∃ e ∈ [] ++ (if op = "&" then [x] else []) ++ [], e.Denotes s w
      rw [List.append_nil]
      exact writesChild_operator [x]
  | .binary i op x y, h => by
    have hx := traces_lowerExpr s x (h.part List.mem_cons_self)
    have hy := traces_lowerExpr s y (h.part (List.mem_cons_of_mem _ List.mem_cons_self))
    unfold lowerExpr
    refine .operation (.bind hx.follows (.note hy.follows rfl)) rfl rfl (fun _ => Iff.rfl)
      (fun _ hq => hq) (fun _ hq => .inl hq) fun w => ?_
    show _ ↔ ∃ e ∈ (if op = "&" then [x, y] else []), e.Denotes s w
    exact writesChild_operator [x, y]
  | .keyValue i key value, h => by
    have hkey := traces_lowerExpr s key (h.part List.mem_cons_self)
    have hvalue := traces_lowerExpr s value (h.part (List.mem_cons_of_mem _ List.mem_cons_self))
    unfold lowerExpr
    exact .plain (.bind hkey.follows (.note hvalue.follows rfl)) rfl rfl (by decide) rfl
      (fun _ => Iff.rfl) (fun _ hq => hq) fun _ hq => .inl hq
  | .funcLit i params body graph, h => by
    have hbody := follows_lowerStmts { s with params := params ++ s.params } body
      fun _ hq => h.part hq
    unfold lowerExpr
    exact traces_function (.note hbody rfl) rfl rfl rfl rfl
  | .index i x indices, h => by
    have hx := traces_lowerExpr s x (h.part List.mem_cons_self)
    have hindices := follows_lowerExprs s indices fun _ hq => h.part (List.mem_cons_of_mem _ hq)
    unfold lowerExpr
    exact .plain (.bind hx.follows (.note hindices rfl)) rfl rfl (by decide) rfl (fun _ => Iff.rfl)
      (fun _ hq => hq) fun _ hq => .inl hq
  | .slice i x bounds, h => by
    have hx := traces_lowerExpr s x (h.part List.mem_cons_self)
    have hbounds := follows_lowerExprs s bounds fun _ hq => h.part (List.mem_cons_of_mem _ hq)
    unfold lowerExpr
    exact .plain (.bind hx.follows (.note hbounds rfl)) rfl rfl (by decide) rfl (fun _ => Iff.rfl)
      (fun _ hq => hq) fun _ hq => .inl hq
  | .star i x, h => by
    have hx := traces_lowerExpr s x (h.part List.mem_cons_self)
    unfold lowerExpr
    split
    · rename_i htype
      refine .plain .ofExpr rfl rfl (by decide) rfl (fun _ => Iff.rfl) nofun
        (List.forall_mem_singleton.2 (.inr ?_))
      exact Phrase.idle_of_isPath x (h.part List.mem_cons_self) (h.isPath_of_isType htype)
    · exact .plain (.note hx.follows rfl) rfl rfl (by decide) rfl (fun _ => Iff.rfl)
        (fun _ hq => hq) fun _ hq => .inl hq
  | .typeAssert i x, h => by
    have hx := traces_lowerExpr s x (h.part List.mem_cons_self)
    unfold lowerExpr
    exact .plain (.note hx.follows rfl) rfl rfl (by decide) rfl (fun _ => Iff.rfl) (fun _ hq => hq)
      fun _ hq => .inl hq
  | .atom i, _ => by
    unfold lowerExpr
    exact .plain .ofExpr rfl rfl (by decide) rfl (fun _ => Iff.rfl) nofun nofun

theorem follows_lowerExprs (s : Scope) : ∀ es, (∀ p ∈ es.map Phrase.expr, p.Regular) →
    (lowerExprs s es).Follows s (lowerExprs s es).value (es.map .expr) []
  | [], _ => .pure
  | e :: es, h =>
    .cons (traces_lowerExpr s e (h _ List.mem_cons_self)).follows rfl
      (follows_lowerExprs s es fun p hp => h p (List.mem_cons_of_mem _ hp))

theorem follows_lowerExpr? (s : Scope) : ∀ e, (∀ p ∈ e.toList.map Phrase.expr, p.Regular) →
    (lowerExpr? s e).Follows s (lowerExpr? s e).value (e.toList.map .expr) []
  | none, _ => .pure
  | some e, h => .singleton (traces_lowerExpr s e (h _ List.mem_cons_self))

theorem follows_lowerReceiver (s : Scope) :
    ∀ e, (Phrase.expr e).Regular → e.selectsMethod = true →
      (lowerReceiver s e).Follows s [(lowerReceiver s e).value] [.expr e] []
  | .paren _ x, h, hselects =>
    (follows_lowerReceiver s x (h.part List.mem_cons_self) hselects).enclose rfl rfl
      (fun _ hq => hq) fun _ hq => .inl hq
  | .selector _ x _ _ _, h, _ =>
    follows_receiver (traces_lowerExpr s x (h.part List.mem_cons_self))
  | .ident _ _ _, _, hselects | .call _ _ _ _, _, hselects | .composite _ _, _, hselects
  | .unary _ _ _, _, hselects | .binary _ _ _ _, _, hselects | .keyValue _ _ _, _, hselects
  | .funcLit _ _ _ _, _, hselects | .index _ _ _, _, hselects | .slice _ _ _, _, hselects
  | .star _ _, _, hselects | .typeAssert _ _, _, hselects | .atom _, _, hselects => nomatch hselects

theorem follows_lowerElements (s : Scope) (isStruct : Bool) :
    ∀ es, (∀ p ∈ es.map Phrase.expr, p.Regular) →
      (isStruct = true → ∀ e ∈ es, e.hasFieldKey = true) →
      (lowerElements s isStruct es).Follows s (lowerElements s isStruct es).value (es.map .expr) []
  | [], _, _ => .pure
  | .keyValue i key value :: es, h, hkeys => by
    have hself := h _ List.mem_cons_self
    have hes := follows_lowerElements s isStruct es (fun p hp => h p (List.mem_cons_of_mem _ hp))
      fun hstruct e he => hkeys hstruct e (List.mem_cons_of_mem _ he)
    cases isStruct with
    | true =>
      have hvalue := traces_lowerExpr s value
        (hself.part (List.mem_cons_of_mem _ List.mem_cons_self))
      exact .cons (follows_field hself (hkeys rfl _ List.mem_cons_self) hvalue) rfl hes
    | false =>
      rw [lowerElements_cons_of_not_struct]
      exact .cons (traces_lowerExpr s (.keyValue i key value) hself).follows rfl hes
  | .ident _ _ _ :: es, h, hkeys | .paren _ _ :: es, h, hkeys
  | .selector _ _ _ _ _ :: es, h, hkeys | .call _ _ _ _ :: es, h, hkeys
  | .composite _ _ :: es, h, hkeys | .unary _ _ _ :: es, h, hkeys
  | .binary _ _ _ _ :: es, h, hkeys | .funcLit _ _ _ _ :: es, h, hkeys
  | .index _ _ _ :: es, h, hkeys | .slice _ _ _ :: es, h, hkeys | .star _ _ :: es, h, hkeys
  | .typeAssert _ _ :: es, h, hkeys | .atom _ :: es, h, hkeys =>
    .cons (traces_lowerExpr s _ (h _ List.mem_cons_self)).follows rfl
      (follows_lowerElements s isStruct es (fun p hp => h p (List.mem_cons_of_mem _ hp))
        fun hstruct e he => hkeys hstruct e (List.mem_cons_of_mem _ he))

theorem follows_lowerAddressed (s : Scope) (outer : ExprInfo) :
    ∀ e, (Phrase.expr e).Regular → ∀ m, lowerAddressed s outer e = some m →
      m.Follows s [m.value] [.expr e] [⟨outer.number, true, m.value⟩]
  | .paren _ x, h, m, haddressed =>
    (follows_lowerAddressed s outer x (h.part List.mem_cons_self) m haddressed).enclose rfl rfl
      (fun _ hq => hq) fun _ hq => .inl hq
  | .composite i elements, h, _, haddressed =>
    follows_addressed (follows_lowerElements s i.isStruct elements (fun _ hq => h.part hq)
      (hasFieldKey_of_checked h.self.1)) haddressed
  | .ident _ _ _, _, _, h | .selector _ _ _ _ _, _, _, h | .call _ _ _ _, _, _, h
  | .unary _ _ _, _, _, h | .binary _ _ _ _, _, _, h | .keyValue _ _ _, _, _, h
  | .funcLit _ _ _ _, _, _, h | .index _ _ _, _, _, h | .slice _ _ _, _, _, h | .star _ _, _, _, h
  | .typeAssert _ _, _, _, h | .atom _, _, _, h => nomatch h

theorem follows_lowerRangeTarget (s : Scope) :
    ∀ e, (∀ p ∈ e.toList.map Phrase.loopAssign, p.Regular) → (lowerRangeTarget s e).Follows s
      (lowerRangeTarget s e).value (e.toList.map Phrase.loopAssign) []
  | none, _ => .pure
  | some e, h => by
    have hself := h _ List.mem_cons_self
    exact follows_rangeTarget (traces_lowerExpr s e (hself.part List.mem_cons_self))

theorem traces_lowerStmt (s : Scope) :
    ∀ t, (Phrase.stmt t).Regular → (lowerStmt s t).Traces s (.stmt t)
  | .expr p x, h => by
    have hx := traces_lowerExpr s x (h.part List.mem_cons_self)
    unfold lowerStmt
    exact .keyword (.note hx.follows rfl) (.inr rfl) rfl (fun _ => Iff.rfl) fun _ => Iff.rfl
  | .assign p token targets values, h => by
    have htargets := follows_lowerExprs s targets fun _ hq => h.part (List.mem_append_left _ hq)
    have hvalues := follows_lowerExprs s values fun _ hq => h.part (List.mem_append_right _ hq)
    unfold lowerStmt
    exact .statement (.bind htargets (.note hvalues rfl)) rfl rfl nofun nofun (by simp)
      (fun _ => Iff.rfl) fun _ => writesChild_assignNode.trans (isLocal_lowerExprs s targets)
  | .incDec p token x, h => by
    have hx := traces_lowerExpr s x (h.part List.mem_cons_self)
    unfold lowerStmt
    exact .statement (.note hx.follows rfl) rfl rfl nofun nofun (by simp) (fun _ => Iff.rfl)
      fun _ => writesChild_assignNode.trans (isLocal_lowerExprs s [x])
  | .decl p keyword specs, h => by
    have hspecs (hparts : (Phrase.stmt (.decl p keyword specs)).parts = specs.map .stmt) :=
      follows_lowerStmts s specs fun _ hq => h.part (hparts ▸ hq)
    unfold lowerStmt
    by_cases hvar : keyword = "var"
    · have hparts : (Phrase.stmt (.decl p keyword specs)).parts = specs.map .stmt := if_pos hvar
      rw [if_pos hvar]
      exact .keyword (.note (hspecs hparts) rfl) (.inl rfl) rfl (fun _ => Iff.rfl)
        fun _ => by rw [hparts]
    · have hparts : (Phrase.stmt (.decl p keyword specs)).parts = [] := if_neg hvar
      rw [if_neg hvar]
      exact .keyword (.note .pure rfl) (.inl rfl) rfl (fun _ => Iff.rfl) fun _ => by rw [hparts]
  | .valueSpec p names values, h => by
    have hnames := follows_lowerExprs s names fun _ hq => h.part (List.mem_append_left _ hq)
    have hvalues := follows_lowerExprs s values fun _ hq => h.part (List.mem_append_right _ hq)
    unfold lowerStmt
    exact .statement (.bind hnames (.note hvalues rfl)) rfl rfl nofun nofun (by simp)
      (fun _ => Iff.rfl) fun _ => writesChild_assignNode.trans (isLocal_lowerExprs s names)
  | .ret p results, h => by
    have hresults := follows_lowerExprs s results fun _ hq => h.part hq
    unfold lowerStmt
    exact .keyword (.note hresults rfl) (.inl rfl) rfl (fun _ => Iff.rfl) fun _ => Iff.rfl
  | .go p call, h => by
    have hcall := traces_lowerExpr s call (h.part List.mem_cons_self)
    unfold lowerStmt
    exact .keyword (.note hcall.follows rfl) (.inl rfl) rfl (fun _ => Iff.rfl) fun _ => Iff.rfl
  | .defer p call, h => by
    have hcall := traces_lowerExpr s call (h.part List.mem_cons_self)
    unfold lowerStmt
    exact .keyword (.note hcall.follows rfl) (.inl rfl) rfl (fun _ => Iff.rfl) fun _ => Iff.rfl
  | .send p channel value, h => by
    have hchannel := traces_lowerExpr s channel (h.part List.mem_cons_self)
    have hvalue := traces_lowerExpr s value (h.part (List.mem_cons_of_mem _ List.mem_cons_self))
    unfold lowerStmt
    exact .keyword (.bind hchannel.follows (.note hvalue.follows rfl)) (.inl rfl) rfl
      (fun _ => Iff.rfl) fun _ => Iff.rfl
  | .block p list, h => by
    have hlist := follows_lowerStmts s list fun _ hq => h.part hq
    unfold lowerStmt
    exact .keyword (.note hlist rfl) (.inl rfl) rfl (fun _ => Iff.rfl) fun _ => Iff.rfl
  | .cond p init test body other, h => by
    have hinit := follows_lowerStmt? s init fun _ hq =>
      h.part (List.mem_append_left _ (List.mem_append_left _ hq))
    have htest := traces_lowerExpr s test (h.part (by simp [Phrase.parts, Phrase.constituents]))
    have hbody := traces_lowerStmt s body (h.part (by simp [Phrase.parts, Phrase.constituents]))
    have hother := follows_lowerStmt? s other fun _ hq => h.part (List.mem_append_right _ hq)
    unfold lowerStmt
    exact .keyword (.bind hinit (.bind htest.follows (.bind hbody.follows (.note hother rfl))))
      (.inl rfl) rfl (by simp) (by simp [Phrase.parts, Phrase.constituents])
  | .loop p init test post body, h => by
    have hinit := follows_lowerStmt? s init fun _ hq =>
      h.part (List.mem_append_left _ (List.mem_append_left _ (List.mem_append_left _ hq)))
    have htest := follows_lowerExpr? s test fun _ hq =>
      h.part (List.mem_append_left _ (List.mem_append_left _ (List.mem_append_right _ hq)))
    have hpost := follows_lowerStmt? s post fun _ hq =>
      h.part (List.mem_append_left _ (List.mem_append_right _ hq))
    have hbody := traces_lowerStmt s body (h.part (by simp [Phrase.parts, Phrase.constituents]))
    unfold lowerStmt
    exact .keyword (.bind hinit (.bind htest (.bind hpost (.note hbody.follows rfl)))) (.inl rfl)
      rfl (by simp) (by simp [Phrase.parts, Phrase.constituents])
  | .range p key value x body, h => by
    have hkey := follows_lowerRangeTarget s key fun _ hq =>
      h.part (List.mem_append_left _ (List.mem_append_left _ hq))
    have hvalue := follows_lowerRangeTarget s value fun _ hq =>
      h.part (List.mem_append_left _ (List.mem_append_right _ hq))
    have hbody := traces_lowerStmt s body (h.part (by simp [Phrase.parts]))
    have hx := traces_lowerExpr s x (h.part (by simp [Phrase.parts]))
    unfold lowerStmt
    refine .keyword (.bind hkey (.bind hvalue (.bind hbody.follows (.note hx.follows rfl))))
      (.inl rfl) rfl (fun n => ?_) (fun q => ?_)
    · -- the range comes first among the children, and is lowered last
      show n ∈ (lowerExpr s x).value :: ((lowerRangeTarget s key).value ++
        (lowerRangeTarget s value).value ++ [(lowerStmt s body).value]) ↔ _
      simp only [List.mem_cons, List.mem_append]
      tauto
    · simp only [Phrase.parts, List.mem_cons, List.mem_append]
      tauto
  | .switch p init tag body, h => by
    have hinit := follows_lowerStmt? s init fun _ hq =>
      h.part (List.mem_append_left _ (List.mem_append_left _ hq))
    have htag := follows_lowerExpr? s tag fun _ hq =>
      h.part (List.mem_append_left _ (List.mem_append_right _ hq))
    have hbody := traces_lowerStmt s body (h.part (by simp [Phrase.parts, Phrase.constituents]))
    unfold lowerStmt
    exact .keyword (.bind hinit (.bind htag (.note hbody.follows rfl))) (.inl rfl) rfl (by simp)
      (by simp [Phrase.parts, Phrase.constituents])
  | .typeSwitch p init guard body, h => by
    have hinit := follows_lowerStmt? s init fun _ hq =>
      h.part (List.mem_append_left _ (List.mem_append_left _ hq))
    have hguard := follows_lowerStmt? s guard fun _ hq =>
      h.part (List.mem_append_left _ (List.mem_append_right _ hq))
    have hbody := traces_lowerStmt s body (h.part (by simp [Phrase.parts, Phrase.constituents]))
    unfold lowerStmt
    exact .keyword (.bind hinit (.bind hguard (.note hbody.follows rfl))) (.inl rfl) rfl (by simp)
      (by simp [Phrase.parts, Phrase.constituents])
  | .select p body, h => by
    have hbody := traces_lowerStmt s body (h.part List.mem_cons_self)
    unfold lowerStmt
    exact .keyword (.note hbody.follows rfl) (.inl rfl) rfl (fun _ => Iff.rfl) fun _ => Iff.rfl
  | .caseClause p list body, h => by
    have hlist := follows_lowerExprs s list fun _ hq => h.part (List.mem_append_left _ hq)
    have hbody := follows_lowerStmts s body fun _ hq => h.part (List.mem_append_right _ hq)
    unfold lowerStmt
    exact .keyword (.bind hlist (.note hbody rfl)) (.inl rfl) rfl (fun _ => Iff.rfl)
      fun _ => Iff.rfl
  | .commClause p comm body, h => by
    have hcomm := follows_lowerStmt? s comm fun _ hq => h.part (List.mem_append_left _ hq)
    have hbody := follows_lowerStmts s body fun _ hq => h.part (List.mem_append_right _ hq)
    unfold lowerStmt
    exact .keyword (.bind hcomm (.note hbody rfl)) (.inl rfl) rfl (fun _ => Iff.rfl)
      fun _ => Iff.rfl
  | .labeled p stmt, h => by
    have hstmt := traces_lowerStmt s stmt (h.part List.mem_cons_self)
    unfold lowerStmt
    exact .keyword (.note hstmt.follows rfl) (.inl rfl) rfl (fun _ => Iff.rfl) fun _ => Iff.rfl
  | .branch p, _ => by
    unfold lowerStmt
    exact .keyword .ofStmt (.inl rfl) rfl (fun _ => Iff.rfl) fun _ => Iff.rfl
  | .empty p, _ => by
    unfold lowerStmt
    exact .keyword .ofStmt (.inl rfl) rfl (fun _ => Iff.rfl) fun _ => Iff.rfl

theorem follows_lowerStmts (s : Scope) : ∀ ts, (∀ p ∈ ts.map Phrase.stmt, p.Regular) →
    (lowerStmts s ts).Follows s (lowerStmts s ts).value (ts.map .stmt) []
  | [], _ => .pure
  | t :: ts, h =>
    .cons (traces_lowerStmt s t (h _ List.mem_cons_self)).follows rfl
      (follows_lowerStmts s ts fun p hp => h p (List.mem_cons_of_mem _ hp))

theorem follows_lowerStmt? (s : Scope) : ∀ t, (∀ p ∈ t.toList.map Phrase.stmt, p.Regular) →
    (lowerStmt? s t).Follows s (lowerStmt? s t).value (t.toList.map .stmt) []
  | none, _ => .pure
  | some t, h => .singleton (traces_lowerStmt s t (h _ List.mem_cons_self))

end

end Source

end AwaitLint
