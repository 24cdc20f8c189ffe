import AwaitLint.Proofs.LinkedTree
import AwaitLint.Proofs.Occurrence

/-!
# AwaitLint — lowering keeps every candidate

A call or a literal that the analyses never see is a dropped value that is never reported. Here every
candidate of a body has a node, and the node lies in the tree of the function. What lowering leaves
behind is followed along its recursion (`Lower.Records`): the nodes that were noted lie under the
nodes that were made, and the candidates of the phrases that were lowered are noted.
-/

namespace AwaitLint

namespace Node

variable {info : NodeInfo} {operand : Option Node} {targets values args : List Node}

theorem children_mk :
    (mk info operand targets values args).children = operand.toList ++ targets ++ values ++ args :=
  rfl

end Node

namespace Source

/-! ## Children of lowered nodes -/

section Children

variable {p : Piece} {name : String} {type : ValueType} {n : Node} {ns ms : List Node}

@[simp] theorem children_stmtNode : (p.stmtNode name ns).children = ns := rfl

@[simp] theorem children_otherNode : (p.otherNode name type ns).children = ns := rfl

@[simp] theorem children_assignNode : (p.assignNode name ns ms).children = ns ++ ms := by
  simp [Piece.assignNode, Node.children_mk]

@[simp] theorem children_rangeNode : (p.rangeNode n).children = [n] := rfl

@[simp] theorem children_refNode {kind : Kind} {v : Variable} {owner : Option Node} :
    (p.refNode kind name v owner).children = owner.toList := by
  simp [Piece.refNode, Node.children_mk]

@[simp] theorem children_compositeNode (s : Scope) (isBare : Bool) :
    (s.compositeNode p type isBare ns).children = ns := by
  unfold Scope.compositeNode
  split
  · rfl
  · split <;> rfl

theorem mem_children_of_mem_args {form : CallForm} {recv : Option Node} (hnew : form ≠ .creation)
    (hone : form = .conversion → ns.length = 1) (h : n ∈ ns) :
    n ∈ (form.node p type recv ns).children := by
  cases form with
  | conversion =>
    obtain ⟨m, rfl⟩ := List.length_eq_one_iff.1 (hone rfl)
    exact List.mem_append_left _ h
  | addition name =>
    cases ns with
    | nil => cases h
    | cons m ns => exact h
  | creation => exact absurd rfl hnew
  | value | await | method | plain => exact List.mem_append_right _ h

end Children

/-! ## What lowering records -/

/-- The candidates that occur in the phrase are among the pieces. -/
def Phrase.CoveredBy (pieces : List Lowered) (p : Phrase) : Prop :=
  (∀ q ∈ p.occurring isConstant, q.checked = true) →
    ∀ e, .expr e ∈ p.occurring isConstant → e.isCandidate = true →
      ∃ l ∈ pieces, l.number = e.info.number

/-- The nodes and functions noted lie under `ns`, and the candidates of the phrases `ps` are noted. -/
structure Lower.Records {α : Type} (m : Lower α) (ns : List Node) (ps : List Phrase) : Prop where
  under : ∀ l ∈ m.trace.pieces, ∃ n ∈ ns, Reaches Node.Child n l.node
  functions : ∀ e ∈ m.trace.functions, ∃ n ∈ ns, ∃ fn, Reaches Node.Child n fn ∧ fn.id = e.1
  covers : ∀ p ∈ ps, p.CoveredBy m.trace.pieces

theorem Phrase.CoveredBy.mono {p : Phrase} {xs ys : List Lowered} (h : p.CoveredBy xs)
    (hsub : xs ⊆ ys) : p.CoveredBy ys := by
  intro hchecked e he hcandidate
  obtain ⟨l, hl, hnumber⟩ := h hchecked e he hcandidate
  exact ⟨l, hsub hl, hnumber⟩

namespace Lower.Records

variable {α β : Type} {m : Lower α} {f : α → Lower β} {ns ns' : List Node} {ps ps' : List Phrase}

theorem pure {a : α} : (Pure.pure a : Lower α).Records [] [] := ⟨nofun, nofun, nofun⟩

theorem function {n : Node} {source : FuncSource} : (Lower.function n source).Records [n] [] :=
  ⟨nofun, List.forall_mem_singleton.2 ⟨n, List.mem_singleton_self n, n, Reaches.refl _ n, rfl⟩,
    nofun⟩

theorem ofExpr {p : Piece} {n : Node} : (Lower.ofExpr p n).Records [n] [] :=
  ⟨List.forall_mem_singleton.2 ⟨n, List.mem_singleton_self n, Reaches.refl _ n⟩, nofun, nofun⟩

theorem ofStmt {p : Piece} {n : Node} : (Lower.ofStmt p n).Records [n] [] :=
  ⟨List.forall_mem_singleton.2 ⟨n, List.mem_singleton_self n, Reaches.refl _ n⟩, nofun, nofun⟩

theorem bind (hm : m.Records ns ps) (hf : (f m.value).Records ns' ps') :
    (m >>= f).Records (ns ++ ns') (ps ++ ps') := by
  constructor
  · intro l hl
    rcases List.mem_append.1 hl with hl | hl
    · obtain ⟨n, hn, hreach⟩ := hm.under l hl
      exact ⟨n, List.mem_append_left _ hn, hreach⟩
    · obtain ⟨n, hn, hreach⟩ := hf.under l hl
      exact ⟨n, List.mem_append_right _ hn, hreach⟩
  · intro e he
    rcases List.mem_append.1 he with he | he
    · obtain ⟨n, hn, hfn⟩ := hm.functions e he
      exact ⟨n, List.mem_append_left _ hn, hfn⟩
    · obtain ⟨n, hn, hfn⟩ := hf.functions e he
      exact ⟨n, List.mem_append_right _ hn, hfn⟩
  · intro p hp
    rcases List.mem_append.1 hp with hp | hp
    · exact (hm.covers p hp).mono (List.subset_append_left _ _)
    · exact (hf.covers p hp).mono (List.subset_append_right _ _)

end Lower.Records

/-- A node was made for the phrases. -/
def Lower.Keeps (m : Lower Node) (ps : List Phrase) : Prop := m.Records [m.value] ps

/-- A list of nodes was made for the phrases. -/
def Lower.KeepsAll (m : Lower (List Node)) (ps : List Phrase) : Prop := m.Records m.value ps

theorem notes_ofExpr (p : Piece) (n : Node) :
    ∃ l ∈ (Lower.ofExpr p n).trace.pieces, l.number = p.number :=
  ⟨_, List.mem_singleton_self _, rfl⟩

theorem notes_bind {α β : Type} {m : Lower α} {f : α → Lower β} {k : Nat}
    (h : ∃ l ∈ (f m.value).trace.pieces, l.number = k) :
    ∃ l ∈ (m >>= f).trace.pieces, l.number = k := by
  obtain ⟨l, hl, hnumber⟩ := h
  exact ⟨l, List.mem_append_right _ hl, hnumber⟩

theorem notes_bind_left {α β : Type} {m : Lower α} {f : α → Lower β} {k : Nat}
    (h : ∃ l ∈ m.trace.pieces, l.number = k) : ∃ l ∈ (m >>= f).trace.pieces, l.number = k := by
  obtain ⟨l, hl, hnumber⟩ := h
  exact ⟨l, List.mem_append_left _ hl, hnumber⟩

namespace Lower.Records

variable {α : Type} {m : Lower α} {p : Phrase} {ns ns' : List Node} {ps ps' : List Phrase}

theorem sub (h : m.Records ns ps) (hns : ∀ n ∈ ns, ∃ n' ∈ ns', n = n' ∨ n ∈ n'.children)
    (hps : ps' ⊆ ps) : m.Records ns' ps' := by
  have hlift {n x : Node} (hn : n ∈ ns) (hx : Reaches Node.Child n x) :
      ∃ n' ∈ ns', Reaches Node.Child n' x := by
    obtain ⟨n', hn', rfl | hchild⟩ := hns n hn
    · exact ⟨n, hn', hx⟩
    · exact ⟨n', hn', Reaches.head_iff.2 (.inr ⟨n, hchild, hx⟩)⟩
  refine ⟨fun l hl => ?_, fun e he => ?_, fun p hp => h.covers p (hps hp)⟩
  · obtain ⟨n, hn, hreach⟩ := h.under l hl
    exact hlift hn hreach
  · obtain ⟨n, hn, fn, hreach, hid⟩ := h.functions e he
    obtain ⟨n', hn', hreach'⟩ := hlift hn hreach
    exact ⟨n', hn', fn, hreach', hid⟩

/-- A phrase is kept with its constituents, if it is noted itself or is no candidate. -/
theorem add (h : m.Records ns ps)
    (hps : p.isType = false → p.isConstant = false → p.checked = true →
      ∀ q ∈ p.constituents, q ∈ ps ∨ q.Silent Phrase.isConstant)
    (hown : ∀ e, p = .expr e → e.isCandidate = true →
      ∃ l ∈ m.trace.pieces, l.number = e.info.number) : m.Records ns (p :: ps) := by
  refine ⟨h.under, h.functions, List.forall_mem_cons.2 ⟨fun hchecked e he hcandidate => ?_, h.covers⟩⟩
  rcases Phrase.mem_occurring_iff.1 he with heq | ⟨q, hq, hoccurs⟩
  · exact hown e heq.symm hcandidate
  · obtain ⟨hvalue, hopen, hconstituent, htype⟩ := Phrase.mem_entered_iff.1 hq
    have hself := hchecked p (Phrase.mem_occurring_iff.2 (.inl rfl))
    rcases hps hvalue hopen hself q hconstituent with hmem | hsilent
    · refine h.covers q hmem (fun r hr => ?_) e hoccurs hcandidate
      exact hchecked r (Phrase.mem_occurring_iff.2 (.inr ⟨q, hq, hr⟩))
    · exact absurd hcandidate (Bool.eq_false_iff.1 (hsilent htype _ hoccurs))

theorem add_plain (h : m.Records ns ps) (hp : p.isCandidate = false)
    (hps : p.isType = false → p.isConstant = false → p.checked = true →
      ∀ q ∈ p.constituents, q ∈ ps ∨ q.Silent Phrase.isConstant) : m.Records ns (p :: ps) := by
  refine h.add hps ?_
  rintro e rfl hcandidate
  exact absurd hcandidate (Bool.eq_false_iff.1 hp)

/-! ### One phrase

The nodes made for its constituents are the children of its own node. -/

section Phrase

variable {m : Lower Node}

theorem toKeeps (h : m.Records ns (p :: ps)) (hns : ns ⊆ m.value :: m.value.children) :
    m.Keeps [p] :=
  h.sub (fun _ hn => ⟨m.value, List.mem_singleton_self _, List.mem_cons.1 (hns hn)⟩)
    (List.cons_subset_cons p (List.nil_subset ps))

theorem plain (h : m.Records ns ps) (hp : p.isCandidate = false)
    (hns : ns ⊆ m.value :: m.value.children) (hps : p.constituents ⊆ ps) : m.Keeps [p] :=
  (h.add_plain hp fun _ _ _ _ hq => .inl (hps hq)).toKeeps hns

theorem candidate {e : Expr} (h : m.Records ns ps)
    (hown : ∃ l ∈ m.trace.pieces, l.number = e.info.number)
    (hns : ns ⊆ m.value :: m.value.children)
    (hps : e.checked = true →
      ∀ q ∈ (Phrase.expr e).constituents, q ∈ ps ∨ q.Silent Phrase.isConstant) :
    m.Keeps [.expr e] := by
  have hadd : m.Records ns (.expr e :: ps) := by
    refine h.add (fun _ _ => hps) ?_
    rintro e' ⟨⟩ -
    exact hown
  exact hadd.toKeeps hns

end Phrase

end Lower.Records

open Lower.Records

theorem Lower.Keeps.cons {m : Lower Node} {ms : Lower (List Node)} {ps ps' : List Phrase}
    (hm : m.Keeps ps) (hms : ms.KeepsAll ps') :
    (do return (← m) :: (← ms) : Lower (List Node)).KeepsAll (ps ++ ps') := by
  have h : (do return (← m) :: (← ms) : Lower (List Node)).Records
      ([m.value] ++ (ms.value ++ [])) (ps ++ (ps' ++ [])) := .bind hm (.bind hms .pure)
  rwa [List.append_nil, List.append_nil] at h

theorem Lower.Keeps.singleton {m : Lower Node} {ps : List Phrase} (hm : m.Keeps ps) :
    (do return [← m] : Lower (List Node)).KeepsAll ps := by
  have h : (do return [← m] : Lower (List Node)).Records ([m.value] ++ []) (ps ++ []) :=
    .bind hm .pure
  rwa [List.append_nil, List.append_nil] at h

/-! ## Calls -/

section Calls

variable {s : Scope} {i : ExprInfo} {function : Expr} {args : List Expr} {callee : Option Object}

theorem selectsMethod_of_methodReceiver? {type : ValueType}
    (h : methodReceiver? function = some type) : function.selectsMethod = true := by
  unfold methodReceiver? at h
  unfold Expr.selectsMethod
  split at h
  · rename_i heq
    rw [heq]
    rfl
  · cases h

theorem exists_methodReceiver? (h : function.selectsMethod = true) :
    ∃ type, methodReceiver? function = some type := by
  unfold Expr.selectsMethod at h
  unfold methodReceiver?
  split at h
  · rename_i x _ _ _ heq
    exact ⟨x.valueType, by rw [heq, beq_iff_eq.1 h]⟩
  · cases h

/-- What the form of a call says about the function and the arguments that are not lowered. -/
inductive CallForm.Sound (function : Expr) (args : List Expr) : CallForm → Prop where
  | conversion (hfunction : function.unparen.info.isType = true) (hargs : args.length = 1) :
      Sound function args .conversion
  | addition {name : String} (hfunction : function.namesFunction = true) :
      Sound function args (.addition name)
  | creation (hfunction : function.namesFunction = true)
      (hargs : ∀ e ∈ args, e.info.isType = true) : Sound function args .creation
  | builtin {name : String} (hfunction : function.unparen.isIdent = true) :
      Sound function args (.value name true)
  | value {name : String} : Sound function args (.value name false)
  | await {name : String} (hfunction : function.selectsMethod = true) :
      Sound function args (.await name)
  | method {name : String} (hfunction : function.selectsMethod = true) :
      Sound function args (.method name)
  | plain {name : String} (hfunction : function.namesFunction = true) :
      Sound function args (.plain name)

theorem sound_valueForm : (valueForm function).Sound function args := by
  unfold valueForm
  split
  · rename_i heq
    exact .builtin (by rw [heq]; rfl)
  · exact .value
  · exact .value

theorem sound_declaredForm {f : FuncObject}
    (hchecked : (Expr.call i function args (some (.func f))).checked = true) :
    (s.declaredForm f function args).Sound function args := by
  unfold Scope.declaredForm
  split
  · rename_i recv _ hrecv
    have hselects := selectsMethod_of_methodReceiver? hrecv
    split
    · exact .await hselects
    · exact .method hselects
  · rename_i hnot
    -- the function of the call names the callee, since it selects no method of a value
    have hnames : function.namesFunction = true := by
      rcases Bool.or_eq_true_iff.1 hchecked with hnames | hselected
      · exact hnames
      · obtain ⟨hmethod, hselects⟩ := Bool.and_eq_true_iff.1 hselected
        obtain ⟨type, htype⟩ := exists_methodReceiver? hselects
        exact absurd htype (hnot type hmethod)
    split
    · exact .addition hnames
    · exact .plain hnames

theorem sound_callForm (hchecked : (Expr.call i function args callee).checked = true) :
    (s.callForm function args callee).Sound function args := by
  unfold Scope.callForm
  split
  · rename_i hconversion
    obtain ⟨htype, hlength⟩ := Bool.and_eq_true_iff.1 hconversion
    exact .conversion htype (of_decide_eq_true hlength)
  · split
    · rename_i name
      obtain ⟨hnames, hnew⟩ := Bool.and_eq_true_iff.1 hchecked
      split
      · exact .addition hnames
      · split
        · rename_i heq
          subst heq
          exact .creation hnames (List.all_eq_true.1 hnew)
        · exact sound_valueForm
    · exact sound_declaredForm hchecked
    · exact sound_valueForm

end Calls

theorem length_args_of_conversion {s : Scope} {function : Expr} {args : List Expr}
    {callee : Option Object} (h : s.callForm function args callee = .conversion) :
    args.length = 1 := by
  unfold Scope.callForm valueForm Scope.declaredForm at h
  split at h
  · rename_i hconversion
    exact of_decide_eq_true (Bool.and_eq_true_iff.1 hconversion).2
  · -- no other form is a conversion
    grind

theorem length_lowerExprs (s : Scope) (es : List Expr) :
    (lowerExprs s es).value.length = es.length := by
  induction es with
  | nil => rfl
  | cons e es ih =>
    show (lowerExprs s es).value.length + 1 = es.length + 1
    rw [ih]

/-- A call whose function is not lowered: no candidate occurs in it. -/
theorem keeps_call_args {s : Scope} {i : ExprInfo} {function : Expr} {args : List Expr}
    {callee : Option Object} {form : CallForm} (hargs : (lowerExprs s args).KeepsAll (args.map .expr))
    (hnew : form ≠ .creation) (hone : form = .conversion → args.length = 1)
    (hsilent : (Expr.call i function args callee).checked = true →
      (Phrase.expr function).Silent Phrase.isConstant) :
    (do
      let args ← lowerExprs s args
      Lower.ofExpr i.toPiece (form.node i.toPiece i.valueType none args) : Lower Node).Keeps
        [.expr (.call i function args callee)] := by
  refine candidate (.bind hargs .ofExpr) (notes_bind (notes_ofExpr _ _)) ?_ fun hchecked => ?_
  · refine List.append_subset.2 ⟨fun n hn => List.mem_cons_of_mem _ ?_, by simp⟩
    exact mem_children_of_mem_args hnew (fun h => by rw [length_lowerExprs, hone h]) hn
  · refine List.forall_mem_cons.2 ⟨.inr (hsilent hchecked), fun q hq => .inl ?_⟩
    exact List.mem_append_left _ hq

/-- A call of a method, of which the receiver is lowered. -/
theorem keeps_call_method {s : Scope} {i : ExprInfo} {function : Expr} {args : List Expr}
    {callee : Option Object} {form : CallForm} {name : String}
    (hrecv : (lowerReceiver s function).Keeps
      (if function.selectsMethod then [.expr function] else []))
    (hargs : (lowerExprs s args).KeepsAll (args.map .expr))
    (hform : form = .await name ∨ form = .method name)
    (hselects : (Expr.call i function args callee).checked = true →
      function.selectsMethod = true) :
    (do
      let recv ← lowerReceiver s function
      let args ← lowerExprs s args
      Lower.ofExpr i.toPiece (form.node i.toPiece i.valueType (some recv) args) :
        Lower Node).Keeps [.expr (.call i function args callee)] := by
  refine candidate (.bind hrecv (.bind hargs .ofExpr))
    (notes_bind (notes_bind (notes_ofExpr _ _))) ?_ fun hchecked q hq => .inl ?_
  · rcases hform with rfl | rfl
    · simp [CallForm.node, Node.children_mk]
    · simp [CallForm.node, Node.children_mk]
  · rw [if_pos (hselects hchecked), List.append_nil]
    exact hq

theorem keeps_call {s : Scope} {i : ExprInfo} {function : Expr} {args : List Expr}
    {callee : Option Object} (hfunction : (lowerExpr s function).Keeps [.expr function])
    (hrecv : (lowerReceiver s function).Keeps
      (if function.selectsMethod then [.expr function] else []))
    (hargs : (lowerExprs s args).KeepsAll (args.map .expr)) :
    (lowerExpr s (.call i function args callee)).Keeps [.expr (.call i function args callee)] := by
  have hsound : (Expr.call i function args callee).checked = true →
      (s.callForm function args callee).Sound function args := sound_callForm
  have hone : s.callForm function args callee = .conversion → args.length = 1 :=
    length_args_of_conversion
  unfold lowerExpr
  generalize s.callForm function args callee = form at hsound hone ⊢
  cases form with
  | conversion =>
    refine keeps_call_args hargs (by simp) (fun _ => hone rfl) fun hchecked => ?_
    cases hsound hchecked with
    | conversion hfunction => exact Phrase.silent_of_unparen_isType hfunction
  | addition name =>
    refine keeps_call_args hargs (by simp) (by simp) fun hchecked => ?_
    cases hsound hchecked with
    | addition hfunction => exact Phrase.silent_of_namesFunction hfunction
  | creation =>
    refine candidate .ofExpr (notes_ofExpr _ _) (by simp) fun hchecked => ?_
    cases hsound hchecked with
    | creation hfunction hargs =>
      refine List.forall_mem_cons.2
        ⟨.inr (Phrase.silent_of_namesFunction hfunction), fun q hq => .inr ?_⟩
      obtain ⟨e, he, rfl⟩ := List.mem_map.1 hq
      exact Phrase.silent_of_isType (hargs e he)
  | value name isBuiltin =>
    cases isBuiltin with
    | true =>
      refine keeps_call_args hargs (by simp) (by simp) fun hchecked => ?_
      cases hsound hchecked with
      | builtin hfunction => exact Phrase.silent_of_unparen_isIdent hfunction
    | false =>
      refine candidate (.bind hargs (.bind hfunction .ofExpr))
        (notes_bind (notes_bind (notes_ofExpr _ _))) ?_ fun _ => ?_
      · simp [CallForm.node, Node.children_mk]
      · refine List.forall_mem_cons.2 ⟨.inl ?_, fun q hq => .inl (List.mem_append_left _ hq)⟩
        exact List.mem_append_right _ List.mem_cons_self
  | await name =>
    refine keeps_call_method hrecv hargs (.inl rfl) fun hchecked => ?_
    cases hsound hchecked with
    | await hfunction => exact hfunction
  | method name =>
    refine keeps_call_method hrecv hargs (.inr rfl) fun hchecked => ?_
    cases hsound hchecked with
    | method hfunction => exact hfunction
  | plain name =>
    refine keeps_call_args hargs (by simp) (by simp) fun hchecked => ?_
    cases hsound hchecked with
    | plain hfunction => exact Phrase.silent_of_namesFunction hfunction

/-! ## Expressions and statements -/

section Parts

variable {s : Scope} {i : ExprInfo}

theorem keeps_qualified {x : Expr} {name : String} {object : Option Object} {n : Node} :
    (Lower.ofExpr i.toPiece n).Keeps [.expr (.selector i x name object none)] := by
  refine (add_plain .ofExpr rfl fun _ _ hchecked => ?_).toKeeps (by simp)
  exact List.forall_mem_singleton.2 (.inr (Phrase.silent_of_isIdent hchecked))

theorem keeps_type {x : Expr} {n : Node} (htype : i.isType = true) :
    (Lower.ofExpr i.toPiece n).Keeps [.expr (.star i x)] := by
  refine (add_plain .ofExpr rfl fun hvalue => ?_).toKeeps (by simp)
  exact absurd htype (Bool.eq_false_iff.1 hvalue)

theorem Lower.Keeps.ite {m : Lower Node} {ps : List Phrase} (h : m.Keeps ps) (b : Bool) :
    m.Keeps (if b then ps else []) := by
  cases b with
  | true => exact h
  | false => exact ⟨h.under, h.functions, nofun⟩

theorem Lower.Keeps.paren {m : Lower Node} {x : Expr}
    (h : m.Keeps (if x.selectsMethod then [.expr x] else [])) :
    m.Keeps (if (Expr.paren i x).selectsMethod then [.expr (.paren i x)] else []) := by
  have hparen : (Expr.paren i x).selectsMethod = x.selectsMethod := rfl
  rw [hparen]
  cases hx : x.selectsMethod with
  | true =>
    rw [hx] at h
    exact plain h rfl (by simp) (by simp [Phrase.constituents])
  | false => rwa [hx] at h

theorem keeps_field {m : Lower Node} {key value : Expr} (h : m.Keeps [.expr value]) :
    m.Keeps (if !true || (Expr.keyValue i key value).hasFieldKey then [.expr (.keyValue i key value)]
      else []) := by
  cases hkey : (Expr.keyValue i key value).hasFieldKey with
  | true =>
    refine (add_plain h rfl fun _ _ _ => ?_).toKeeps (by simp)
    refine List.forall_mem_cons.2 ⟨.inr (Phrase.silent_of_isIdent hkey), ?_⟩
    exact List.forall_mem_singleton.2 (.inl List.mem_cons_self)
  | false => exact ⟨h.under, h.functions, nofun⟩

/-- The first element of a literal before the others. -/
theorem Lower.Keeps.element {m : Lower Node} {ms : Lower (List Node)} {e : Expr} {es : List Expr}
    {test : Expr → Bool} (h : m.Keeps (if test e then [.expr e] else []))
    (hes : ms.KeepsAll ((es.filter test).map .expr)) :
    (do return (← m) :: (← ms) : Lower (List Node)).KeepsAll
      (((e :: es).filter test).map .expr) := by
  have hcons := h.cons hes
  rw [List.filter_cons]
  split
  · rename_i htest
    rwa [if_pos htest] at hcons
  · rename_i htest
    rwa [if_neg htest] at hcons

theorem Lower.bind_assoc {α β γ : Type} (m : Lower α) (f : α → Lower β) (g : β → Lower γ) :
    (m >>= f) >>= g = m >>= fun a => f a >>= g := by
  show Lower.andThen (Lower.andThen m f) g = Lower.andThen m fun a => Lower.andThen (f a) g
  simp only [Lower.andThen, List.append_assoc]

theorem lowerElements_cons_of_not_struct (e : Expr) (es : List Expr) :
    lowerElements s false (e :: es)
      = do return (← lowerExpr s e) :: (← lowerElements s false es) := by
  cases e with
  | keyValue i key value =>
    show _ = (lowerExpr s key >>= fun k => lowerExpr s value >>= fun v => Lower.ofExpr i.toPiece _)
      >>= _
    rw [Lower.bind_assoc]
    simp only [Lower.bind_assoc]
    rfl
  | _ => rfl

theorem mem_elements_of_checked {elements : List Expr} {q : Phrase}
    (hchecked : (Expr.composite i elements).checked = true) (hq : q ∈ elements.map .expr) :
    q ∈ (elements.filter fun e => !i.isStruct || e.hasFieldKey).map .expr := by
  obtain ⟨e, he, rfl⟩ := List.mem_map.1 hq
  refine List.mem_map.2 ⟨e, List.mem_filter.2 ⟨he, ?_⟩, rfl⟩
  rcases Bool.or_eq_true_iff.1 hchecked with hplain | hkeys
  · exact Bool.or_eq_true_iff.2 (.inl hplain)
  · exact Bool.or_eq_true_iff.2 (.inr (List.all_eq_true.1 hkeys e he))

theorem keeps_constants {p : Piece} {keyword : String} {specs : List Stmt} {n : Node}
    (hkeyword : keyword ≠ "var") : (Lower.ofStmt p n).Keeps [.stmt (.decl p keyword specs)] := by
  refine (add_plain .ofStmt rfl fun _ hopen => ?_).toKeeps (by simp)
  exact absurd (bne_iff_ne.2 hkeyword) (Bool.eq_false_iff.1 hopen)

/-- The assignment of a range loop stands around its target. -/
theorem keeps_rangeTarget {m : Lower Node} {e : Expr} {ps : List Phrase} (h : m.Keeps ps) :
    (do
      let target ← m
      return [← Lower.ofExpr e.info.toPiece (e.info.rangeNode target)] :
        Lower (List Node)).KeepsAll ps := by
  have hrange : (do
      let target ← m
      return [← Lower.ofExpr e.info.toPiece (e.info.rangeNode target)] :
        Lower (List Node)).Records _ (ps ++ ([] ++ [])) := .bind h (.bind .ofExpr .pure)
  exact hrange.sub (by simp) (by simp)

theorem subset_of_eq_children {ns : List Node} {n : Node} (h : ns = n.children ++ [n]) :
    ns ⊆ n :: n.children := by
  rw [h]
  simp

end Parts

mutual

theorem keeps_lowerExpr (s : Scope) : ∀ e, (lowerExpr s e).Keeps [.expr e]
  | .ident i name object => by
    unfold lowerExpr
    exact plain .ofExpr rfl (by simp) (by simp [Phrase.constituents])
  | .paren i x => by
    have hx := keeps_lowerExpr s x
    unfold lowerExpr
    exact plain (.bind hx .ofExpr) rfl (by simp) (by simp [Phrase.constituents])
  | .selector i x name object selection => by
    have hx := keeps_lowerExpr s x
    unfold lowerExpr
    split
    · exact plain (.bind hx .ofExpr) rfl (by simp) (by simp [Phrase.constituents])
    · exact keeps_qualified
    · exact keeps_qualified
    · exact plain (.bind hx .ofExpr) rfl (by simp) (by simp [Phrase.constituents])
  | .call i function args callee =>
    keeps_call (keeps_lowerExpr s function) (keeps_lowerReceiver s function)
      (keeps_lowerExprs s args)
  | .composite i elements => by
    have helements := keeps_lowerElements s i.isStruct elements
    unfold lowerExpr
    refine candidate (.bind helements .ofExpr) (notes_bind (notes_ofExpr _ _)) (by simp) ?_
    exact fun hchecked q hq => .inl (List.mem_append_left _ (mem_elements_of_checked hchecked hq))
  | .unary i op x => by
    have hx := keeps_lowerExpr s x
    have haddressed := keeps_lowerAddressed s i x
    unfold lowerExpr
    split
    · rename_i literal hliteral
      split at hliteral
      · exact plain (haddressed literal hliteral) rfl (by simp) (by simp [Phrase.constituents])
      · cases hliteral
    · exact plain (.bind hx .ofExpr) rfl (by simp) (by simp [Phrase.constituents])
  | .binary i op x y => by
    have hx := keeps_lowerExpr s x
    have hy := keeps_lowerExpr s y
    unfold lowerExpr
    exact plain (.bind hx (.bind hy .ofExpr)) rfl (by simp) (by simp [Phrase.constituents])
  | .keyValue i key value => by
    have hkey := keeps_lowerExpr s key
    have hvalue := keeps_lowerExpr s value
    unfold lowerExpr
    exact plain (.bind hkey (.bind hvalue .ofExpr)) rfl (by simp) (by simp [Phrase.constituents])
  | .funcLit i params body graph => by
    have hbody := keeps_lowerStmts { s with params := params ++ s.params } body
    unfold lowerExpr
    exact plain (.bind hbody (.bind .function .ofExpr)) rfl (by simp [Node.children_mk])
      (by simp [Phrase.constituents])
  | .index i x indices => by
    have hx := keeps_lowerExpr s x
    have hindices := keeps_lowerExprs s indices
    unfold lowerExpr
    exact plain (.bind hx (.bind hindices .ofExpr)) rfl (by simp) (by simp [Phrase.constituents])
  | .slice i x bounds => by
    have hx := keeps_lowerExpr s x
    have hbounds := keeps_lowerExprs s bounds
    unfold lowerExpr
    exact plain (.bind hx (.bind hbounds .ofExpr)) rfl (by simp) (by simp [Phrase.constituents])
  | .star i x => by
    have hx := keeps_lowerExpr s x
    unfold lowerExpr
    split
    · rename_i htype
      exact keeps_type htype
    · exact plain (.bind hx .ofExpr) rfl (by simp) (by simp [Phrase.constituents])
  | .typeAssert i x => by
    have hx := keeps_lowerExpr s x
    unfold lowerExpr
    exact plain (.bind hx .ofExpr) rfl (by simp) (by simp [Phrase.constituents])
  | .atom i => by
    unfold lowerExpr
    exact plain .ofExpr rfl (by simp) (by simp [Phrase.constituents])

theorem keeps_lowerExprs (s : Scope) : ∀ es, (lowerExprs s es).KeepsAll (es.map .expr)
  | [] => .pure
  | e :: es => (keeps_lowerExpr s e).cons (keeps_lowerExprs s es)

theorem keeps_lowerExpr? (s : Scope) : ∀ e, (lowerExpr? s e).KeepsAll (e.toList.map .expr)
  | none => .pure
  | some e => (keeps_lowerExpr s e).singleton

theorem keeps_lowerReceiver (s : Scope) :
    ∀ e, (lowerReceiver s e).Keeps (if e.selectsMethod then [.expr e] else [])
  | .paren i x => (keeps_lowerReceiver s x).paren
  | .selector i x name object selection => by
    have hx := keeps_lowerExpr s x
    have hselector : (lowerReceiver s (.selector i x name object selection)).Keeps
        [.expr (.selector i x name object selection)] :=
      plain hx rfl (by simp [lowerReceiver]) (by simp [Phrase.constituents])
    exact hselector.ite _
  | .ident _ _ _ | .call _ _ _ _ | .composite _ _ | .unary _ _ _ | .binary _ _ _ _
  | .keyValue _ _ _ | .funcLit _ _ _ _ | .index _ _ _ | .slice _ _ _ | .star _ _
  | .typeAssert _ _ | .atom _ => .ofExpr

theorem keeps_lowerElements (s : Scope) (isStruct : Bool) :
    ∀ es, (lowerElements s isStruct es).KeepsAll
      ((es.filter fun e => !isStruct || e.hasFieldKey).map .expr)
  | [] => .pure
  | .keyValue i key value :: es => by
    have hvalue := keeps_lowerExpr s value
    have hes := keeps_lowerElements s isStruct es
    cases isStruct with
    | true => exact (keeps_field hvalue).element hes
    | false =>
      rw [lowerElements_cons_of_not_struct]
      exact (keeps_lowerExpr s (.keyValue i key value)).element hes
  | .ident _ _ _ :: es | .paren _ _ :: es | .selector _ _ _ _ _ :: es | .call _ _ _ _ :: es
  | .composite _ _ :: es | .unary _ _ _ :: es | .binary _ _ _ _ :: es | .funcLit _ _ _ _ :: es
  | .index _ _ _ :: es | .slice _ _ _ :: es | .star _ _ :: es | .typeAssert _ _ :: es
  | .atom _ :: es =>
    ((keeps_lowerExpr s _).ite (!isStruct || true)).element (keeps_lowerElements s isStruct es)

theorem keeps_lowerAddressed (s : Scope) (outer : ExprInfo) :
    ∀ e m, lowerAddressed s outer e = some m → m.Keeps [.expr e]
  | .paren i x, m, h =>
    plain (keeps_lowerAddressed s outer x m h) rfl (by simp) (by simp [Phrase.constituents])
  | .composite i elements, m, h => by
    have helements := keeps_lowerElements s i.isStruct elements
    rw [lowerAddressed, Option.some.injEq] at h
    subst h
    refine candidate (.bind helements (.bind .ofExpr .ofExpr)) ?_ (by simp) ?_
    · exact notes_bind (notes_bind_left (notes_ofExpr _ _))
    · exact fun hchecked q hq => .inl (List.mem_append_left _ (mem_elements_of_checked hchecked hq))
  | .ident _ _ _, _, h | .selector _ _ _ _ _, _, h | .call _ _ _ _, _, h | .unary _ _ _, _, h
  | .binary _ _ _ _, _, h | .keyValue _ _ _, _, h | .funcLit _ _ _ _, _, h | .index _ _ _, _, h
  | .slice _ _ _, _, h | .star _ _, _, h | .typeAssert _ _, _, h | .atom _, _, h => nomatch h

theorem keeps_lowerRangeTarget (s : Scope) :
    ∀ e, (lowerRangeTarget s e).KeepsAll (e.toList.map .expr)
  | none => .pure
  | some e => keeps_rangeTarget (keeps_lowerExpr s e)

theorem keeps_lowerStmt (s : Scope) : ∀ t, (lowerStmt s t).Keeps [.stmt t]
  | .expr p x => by
    have hx := keeps_lowerExpr s x
    unfold lowerStmt
    exact plain (.bind hx .ofStmt) rfl (by simp [Node.children_mk]) (by simp [Phrase.constituents])
  | .assign p token targets values => by
    have htargets := keeps_lowerExprs s targets
    have hvalues := keeps_lowerExprs s values
    unfold lowerStmt
    exact plain (.bind htargets (.bind hvalues .ofStmt)) rfl (by simp)
      (by simp [Phrase.constituents])
  | .incDec p token x => by
    have hx := keeps_lowerExpr s x
    unfold lowerStmt
    exact plain (.bind hx .ofStmt) rfl (by simp) (by simp [Phrase.constituents])
  | .decl p keyword specs => by
    have hspecs := keeps_lowerStmts s specs
    unfold lowerStmt
    split
    · exact plain (.bind hspecs .ofStmt) rfl (by simp) (by simp [Phrase.constituents])
    · rename_i hkeyword
      exact keeps_constants hkeyword
  | .valueSpec p names values => by
    have hnames := keeps_lowerExprs s names
    have hvalues := keeps_lowerExprs s values
    unfold lowerStmt
    exact plain (.bind hnames (.bind hvalues .ofStmt)) rfl (by simp) (by simp [Phrase.constituents])
  | .ret p results => by
    have hresults := keeps_lowerExprs s results
    unfold lowerStmt
    exact plain (.bind hresults .ofStmt) rfl (by simp) (by simp [Phrase.constituents])
  | .go p call => by
    have hcall := keeps_lowerExpr s call
    unfold lowerStmt
    exact plain (.bind hcall .ofStmt) rfl (by simp) (by simp [Phrase.constituents])
  | .defer p call => by
    have hcall := keeps_lowerExpr s call
    unfold lowerStmt
    exact plain (.bind hcall .ofStmt) rfl (by simp) (by simp [Phrase.constituents])
  | .send p channel value => by
    have hchannel := keeps_lowerExpr s channel
    have hvalue := keeps_lowerExpr s value
    unfold lowerStmt
    exact plain (.bind hchannel (.bind hvalue .ofStmt)) rfl (by simp)
      (by simp [Phrase.constituents])
  | .block p list => by
    have hlist := keeps_lowerStmts s list
    unfold lowerStmt
    exact plain (.bind hlist .ofStmt) rfl (by simp) (by simp [Phrase.constituents])
  | .cond p init test body other => by
    have hinit := keeps_lowerStmt? s init
    have htest := keeps_lowerExpr s test
    have hbody := keeps_lowerStmt s body
    have hother := keeps_lowerStmt? s other
    unfold lowerStmt
    exact plain (.bind hinit (.bind htest (.bind hbody (.bind hother .ofStmt)))) rfl
      (subset_of_eq_children (by simp)) (by simp [Phrase.constituents])
  | .loop p init test post body => by
    have hinit := keeps_lowerStmt? s init
    have htest := keeps_lowerExpr? s test
    have hpost := keeps_lowerStmt? s post
    have hbody := keeps_lowerStmt s body
    unfold lowerStmt
    exact plain (.bind hinit (.bind htest (.bind hpost (.bind hbody .ofStmt)))) rfl
      (subset_of_eq_children (by simp)) (by simp [Phrase.constituents])
  | .range p key value x body => by
    have hkey := keeps_lowerRangeTarget s key
    have hvalue := keeps_lowerRangeTarget s value
    have hbody := keeps_lowerStmt s body
    have hx := keeps_lowerExpr s x
    unfold lowerStmt
    refine plain (.bind hkey (.bind hvalue (.bind hbody (.bind hx .ofStmt)))) rfl ?_
      (by simp [Phrase.constituents])
    -- the operand comes first among the children, and is lowered last
    intro n hn
    simp only [List.mem_append, List.mem_singleton] at hn
    simp [Node.children_mk]
    grind
  | .switch p init tag body => by
    have hinit := keeps_lowerStmt? s init
    have htag := keeps_lowerExpr? s tag
    have hbody := keeps_lowerStmt s body
    unfold lowerStmt
    exact plain (.bind hinit (.bind htag (.bind hbody .ofStmt))) rfl
      (subset_of_eq_children (by simp)) (by simp [Phrase.constituents])
  | .typeSwitch p init guard body => by
    have hinit := keeps_lowerStmt? s init
    have hguard := keeps_lowerStmt? s guard
    have hbody := keeps_lowerStmt s body
    unfold lowerStmt
    exact plain (.bind hinit (.bind hguard (.bind hbody .ofStmt))) rfl
      (subset_of_eq_children (by simp)) (by simp [Phrase.constituents])
  | .select p body => by
    have hbody := keeps_lowerStmt s body
    unfold lowerStmt
    exact plain (.bind hbody .ofStmt) rfl (by simp) (by simp [Phrase.constituents])
  | .caseClause p list body => by
    have hlist := keeps_lowerExprs s list
    have hbody := keeps_lowerStmts s body
    unfold lowerStmt
    exact plain (.bind hlist (.bind hbody .ofStmt)) rfl (by simp) (by simp [Phrase.constituents])
  | .commClause p comm body => by
    have hcomm := keeps_lowerStmt? s comm
    have hbody := keeps_lowerStmts s body
    unfold lowerStmt
    exact plain (.bind hcomm (.bind hbody .ofStmt)) rfl (by simp) (by simp [Phrase.constituents])
  | .labeled p stmt => by
    have hstmt := keeps_lowerStmt s stmt
    unfold lowerStmt
    exact plain (.bind hstmt .ofStmt) rfl (by simp) (by simp [Phrase.constituents])
  | .branch p => by
    unfold lowerStmt
    exact plain .ofStmt rfl (by simp) (by simp [Phrase.constituents])
  | .empty p => by
    unfold lowerStmt
    exact plain .ofStmt rfl (by simp) (by simp [Phrase.constituents])

theorem keeps_lowerStmts (s : Scope) : ∀ ts, (lowerStmts s ts).KeepsAll (ts.map .stmt)
  | [] => .pure
  | t :: ts => (keeps_lowerStmt s t).cons (keeps_lowerStmts s ts)

theorem keeps_lowerStmt? (s : Scope) : ∀ t, (lowerStmt? s t).KeepsAll (t.toList.map .stmt)
  | none => .pure
  | some t => (keeps_lowerStmt s t).singleton

end

/-! ## Declarations -/

theorem records_lowerDecl (c : Config) (d : FuncDecl) :
    (lowerDecl c d).Records [(lowerDecl c d).value] ((d.body.getD []).map .stmt) := by
  have hbody := keeps_lowerStmts ⟨c, d.params⟩ (d.body.getD [])
  have h : (lowerDecl c d).Records _ ((d.body.getD []).map .stmt ++ ([] ++ [])) :=
    .bind hbody (.bind .function .ofStmt)
  refine h.sub (fun n hn => ⟨_, List.mem_singleton_self _, ?_⟩) (by simp)
  simpa [lowerDecl, Node.children_mk, or_comm] using hn

/-- The functions of the body lie below the root. -/
theorem functions_lowerStmts (c : Config) (d : FuncDecl) :
    ∀ e ∈ (lowerStmts ⟨c, d.params⟩ (d.body.getD [])).trace.functions,
      ∃ n ∈ (lowerDecl c d).value.children, ∃ fn, Reaches Node.Child n fn ∧ fn.id = e.1 :=
  (keeps_lowerStmts ⟨c, d.params⟩ (d.body.getD [])).functions

theorem nodup_ids_lowerDecl {d : FuncDecl} (c : Config) (hnumbers : d.numbers.Nodup) :
    (lowerDecl c d).value.ids.Nodup := by
  refine List.nodup_iff_count_le_one.2 fun x => ?_
  have hcount := count_ids_lowerDecl x c d
  have hle := List.nodup_iff_count_le_one.1 hnumbers (x / 2)
  omega

/-- A piece of a sample program, with the number of its line. -/
def Piece.onLine (k : Nat) : Piece := { number := k, span := { line := k } }

namespace Function

variable {c : Config} {d : FuncDecl} {k : Nat}

theorem reaches_of_lowered? {l : Lowered} (h : (ofDecl c d).lowered? k = some l) :
    Reaches Node.Child (ofDecl c d).root l.node := by
  have hmem := List.mem_reverse.1 (List.mem_of_find?_eq_some h)
  obtain ⟨n, hn, hreach⟩ := (records_lowerDecl c d).under l hmem
  obtain rfl := List.mem_singleton.1 hn
  exact hreach

/-- What was noted for a number is found, and lies in the tree. -/
theorem exists_nodeOf?
    (h : ∃ l ∈ (lowerDecl c d).trace.pieces, l.number = k) :
    ∃ n, (ofDecl c d).nodeOf? k = some n ∧ Reaches Node.Child (ofDecl c d).root n := by
  obtain ⟨l, hl, hnumber⟩ := h
  have hsome : ((ofDecl c d).lowered? k).isSome = true := by
    refine List.find?_isSome.2 ⟨l, List.mem_reverse.2 hl, beq_iff_eq.2 hnumber⟩
  obtain ⟨found, hfound⟩ := Option.isSome_iff_exists.1 hsome
  exact ⟨found.node, by rw [nodeOf?, hfound]; rfl, reaches_of_lowered? hfound⟩

/-- **The headline.** Let the numbers of a declaration tell its syntax apart, and let its facts be
those of a type checker.

* Every node but the root is a child of one node of the tree at one position, and that node is its
  parent. The root is nobody's child and has no parent.
* Every call and every composite literal that occurs in the body, outside types and declarations of
  constants, has a node, and the node lies in the tree. -/
theorem candidates_lie_in_tree (c : Config) (d : FuncDecl) (hnumbers : d.numbers.Nodup)
    (hchecked : ∀ p ∈ d.occurring Phrase.isConstant, p.checked = true) :
    let f := ofDecl c d
    (∀ n, Reaches Node.Child f.root n → n.id ≠ f.root.id →
      ∃ p i, Links.OnlyPlace f.root n p i ∧ f.links.parent? n = some p) ∧
    (f.links.parent? f.root = none ∧
      ∀ p, Reaches Node.Child f.root p → ∀ n ∈ p.children, n.id ≠ f.root.id) ∧
    (∀ e, .expr e ∈ d.occurring Phrase.isConstant → e.isCandidate = true →
      ∃ n, f.nodeOf? e.info.number = some n ∧ Reaches Node.Child f.root n) := by
  intro f
  have hids : f.root.ids.Nodup := nodup_ids_lowerDecl c hnumbers
  refine ⟨fun n hn hne => Links.exists_onlyPlace hids hn hne,
    ⟨Links.parent?_root hids, fun p hp n hn => Links.child_ne_root hids hp hn⟩,
    fun e he hcandidate => exists_nodeOf? ?_⟩
  obtain ⟨t, ht, hoccurs⟩ := List.mem_flatMap.1 he
  refine (records_lowerDecl c d).covers _ (List.mem_map_of_mem ht) (fun q hq => ?_) e hoccurs
    hcandidate
  exact hchecked q (List.mem_flatMap.2 ⟨t, ht, hq⟩)

/-! ### A body with many forms -/

namespace Gather

def value (k : Nat) : ExprInfo := { Piece.onLine k with }

def type (k : Nat) : ExprInfo := { Piece.onLine k with isType := true }

def struct (k : Nat) : ExprInfo := { Piece.onLine k with type := some .struct }

def name (k : Nat) (text : String) : Expr := .ident (value k) text none

def method : Object := .func { name := "Add", pkg := "app", isMethod := true }

def function : Object := .func { name := "run", pkg := "app", isMethod := false }

/-- `const n = len("abc")` -/
def constants : Stmt :=
  .decl (.onLine 1) "const" [.valueSpec (.onLine 2) [name 3 "n"]
    [.call (value 4) (name 5 "len") [.atom (value 6)] (some (.builtin "len"))]]

/-- `list = append(list, &(T{field: run(xs[0])}))` -/
def addition : Stmt :=
  .assign (.onLine 10) "=" [name 11 "list"]
    [.call (value 12) (name 13 "append")
      [name 14 "list",
        .unary (value 15) "&" (.paren (value 16) (.composite (struct 17)
          [.keyValue (value 18) (name 19 "field")
            (.call (value 20) (name 21 "run")
              [.index (value 22) (name 23 "xs") [.atom (value 24)]] (some function))]))]
      (some (.builtin "append"))]

/-- `for i = range f(func() { (list.Add)(new(T)) }) {}` -/
def loop : Stmt :=
  .range (.onLine 30) (some (name 31 "i")) none
    (.call (value 32) (name 33 "f")
      [.funcLit (value 34) [] [.expr (.onLine 35)
        (.call (value 36)
          (.paren (value 37) (.selector (value 38) (name 39 "list") "Add" (some method) (some .method)))
          [.call (value 40) (name 41 "new") [.ident (type 42) "T" none] (some (.builtin "new"))]
          (some method))] none] none)
    (.block (.onLine 43) [])

def decl : FuncDecl where
  piece := .onLine 0
  name := "gather"
  params := []
  body := some [constants, addition, loop]
  graph := none

/-- Whether a phrase is a candidate without a node. -/
def isLost : Phrase → Bool
  | .expr e => e.isCandidate && ((ofDecl {} decl).nodeOf? e.info.number).isNone
  | .stmt _ => false

end Gather

theorem candidates_of_gather_lie_in_tree :
    Gather.decl.numbers.Nodup ∧
    (∀ p ∈ Gather.decl.occurring Phrase.isConstant, p.checked = true) ∧
    ((Gather.decl.occurring Phrase.isConstant).filter Phrase.isCandidate).length = 6 ∧
    ∀ e, .expr e ∈ Gather.decl.occurring Phrase.isConstant → e.isCandidate = true →
      ∃ n, (ofDecl {} Gather.decl).nodeOf? e.info.number = some n ∧
        Reaches Node.Child (ofDecl {} Gather.decl).root n := by
  have hnumbers : Gather.decl.numbers.Nodup := by decide
  have hchecked : ∀ p ∈ Gather.decl.occurring Phrase.isConstant, p.checked = true := by
    decide +kernel
  have hcount : ((Gather.decl.occurring Phrase.isConstant).filter Phrase.isCandidate).length = 6 := by
    decide +kernel
  exact ⟨hnumbers, hchecked, hcount, (candidates_lie_in_tree {} Gather.decl hnumbers hchecked).2.2⟩

/-- Where constants are looked into as well, a call occurs that has no node. -/
theorem constant_has_no_node :
    Gather.decl.numbers.Nodup ∧
    (∀ p ∈ Gather.decl.occurring fun _ => false, p.checked = true) ∧
    ∃ e, .expr e ∈ (Gather.decl.occurring fun _ => false) ∧ e.isCandidate = true ∧
      (ofDecl {} Gather.decl).nodeOf? e.info.number = none := by
  have hchecked : ∀ p ∈ Gather.decl.occurring fun _ => false, p.checked = true := by
    decide +kernel
  have hlost : (Gather.decl.occurring fun _ => false).any Gather.isLost = true := by
    decide +kernel
  refine ⟨by decide, hchecked, ?_⟩
  obtain ⟨p, hp, hlost⟩ := List.any_eq_true.1 hlost
  cases p with
  | expr e =>
    obtain ⟨hcandidate, hnode⟩ := Bool.and_eq_true_iff.1 hlost
    exact ⟨e, hp, hcandidate, Option.isNone_iff_eq_none.1 hnode⟩
  | stmt t => cases hlost

end Function

end Source

end AwaitLint
