import AwaitLint.Proofs.TreeSearch
import AwaitLint.Source.Lowering
import Mathlib.Data.List.Count

/-!
# AwaitLint — the identities of lowered nodes

Lowering makes a node's identity from the number of its syntax: twice the number, or the odd number
that follows. `count_ids_lowerDecl` bounds how often an identity stands in the tree of a declaration
by how often the number stands in its syntax, so that syntax without repeated numbers becomes a tree
without repeated identities. The key of a range loop takes both identities of its number, so the
bound for an expression says more: its own number is used for the even identity only (`Accounts`).
-/

namespace AwaitLint

/-- The identities in the tree of a node, one for each place. -/
def Node.ids (n : Node) : List Nat := (n.preorder fun _ => true).map Node.id

theorem Node.ids_eq (n : Node) : n.ids = n.id :: n.children.flatMap Node.ids := by
  rw [ids, preorder_eq, List.map_cons, List.map_flatMap]
  rfl

namespace Source

/-! ## Numbers of syntax -/

mutual

/-- The numbers of an expression and of all syntax within it. -/
def Expr.numbers : Expr → List Nat
  | .ident i _ _ => [i.number]
  | .paren i x => i.number :: x.numbers
  | .selector i x _ _ _ => i.number :: x.numbers
  | .call i function args _ => i.number :: (function.numbers ++ numbersOfExprs args)
  | .composite i elements => i.number :: numbersOfExprs elements
  | .unary i _ x => i.number :: x.numbers
  | .binary i _ x y => i.number :: (x.numbers ++ y.numbers)
  | .keyValue i key value => i.number :: (key.numbers ++ value.numbers)
  | .funcLit i _ body _ => i.number :: numbersOfStmts body
  | .index i x indices => i.number :: (x.numbers ++ numbersOfExprs indices)
  | .slice i x bounds => i.number :: (x.numbers ++ numbersOfExprs bounds)
  | .star i x => i.number :: x.numbers
  | .typeAssert i x => i.number :: x.numbers
  | .atom i => [i.number]

/-- The numbers of the expressions of a list. -/
def numbersOfExprs : List Expr → List Nat
  | [] => []
  | e :: es => e.numbers ++ numbersOfExprs es

/-- The numbers of an optional expression. -/
def numbersOfExpr? : Option Expr → List Nat
  | none => []
  | some e => e.numbers

/-- The numbers of a statement and of all syntax within it. -/
def Stmt.numbers : Stmt → List Nat
  | .expr p x => p.number :: x.numbers
  | .assign p _ targets values => p.number :: (numbersOfExprs targets ++ numbersOfExprs values)
  | .incDec p _ x => p.number :: x.numbers
  | .decl p _ specs => p.number :: numbersOfStmts specs
  | .valueSpec p names values => p.number :: (numbersOfExprs names ++ numbersOfExprs values)
  | .ret p results => p.number :: numbersOfExprs results
  | .go p call => p.number :: call.numbers
  | .defer p call => p.number :: call.numbers
  | .send p channel value => p.number :: (channel.numbers ++ value.numbers)
  | .block p list => p.number :: numbersOfStmts list
  | .cond p init test body other =>
    p.number :: (numbersOfStmt? init ++ test.numbers ++ body.numbers ++ numbersOfStmt? other)
  | .loop p init test post body =>
    p.number :: (numbersOfStmt? init ++ numbersOfExpr? test ++ numbersOfStmt? post ++ body.numbers)
  | .range p key value x body =>
    p.number :: (numbersOfExpr? key ++ numbersOfExpr? value ++ x.numbers ++ body.numbers)
  | .switch p init tag body =>
    p.number :: (numbersOfStmt? init ++ numbersOfExpr? tag ++ body.numbers)
  | .typeSwitch p init guard body =>
    p.number :: (numbersOfStmt? init ++ numbersOfStmt? guard ++ body.numbers)
  | .select p body => p.number :: body.numbers
  | .caseClause p list body => p.number :: (numbersOfExprs list ++ numbersOfStmts body)
  | .commClause p comm body => p.number :: (numbersOfStmt? comm ++ numbersOfStmts body)
  | .labeled p stmt => p.number :: stmt.numbers
  | .branch p => [p.number]
  | .empty p => [p.number]

/-- The numbers of the statements of a list. -/
def numbersOfStmts : List Stmt → List Nat
  | [] => []
  | s :: ss => s.numbers ++ numbersOfStmts ss

/-- The numbers of an optional statement. -/
def numbersOfStmt? : Option Stmt → List Nat
  | none => []
  | some s => s.numbers

end

/-- The numbers of a declaration and of all syntax within it. -/
def FuncDecl.numbers (d : FuncDecl) : List Nat :=
  d.piece.number :: numbersOfStmts (d.body.getD [])

/-- The numbers within an expression, without its own. -/
def Expr.inner (e : Expr) : List Nat := e.numbers.tail

theorem Expr.numbers_eq (e : Expr) : e.numbers = e.info.number :: e.inner := by
  cases e <;> rfl

/-! ## Counting -/

section Count

variable (x : Nat)

theorem count_cons_eq (k : Nat) (l : List Nat) : (k :: l).count x = [k].count x + l.count x := by
  rw [← List.singleton_append, List.count_append]

/-- A number accounts for its even identity and for the odd one that follows, each once. -/
theorem count_identities (k : Nat) : [2 * k].count x + [2 * k + 1].count x ≤ [k].count (x / 2) := by
  simp only [List.count_singleton, beq_iff_eq]
  split <;> split <;> split <;> omega

theorem count_identity (k : Nat) : [2 * k].count x ≤ [k].count (x / 2) := by
  have := count_identities x k
  omega

end Count

/-! ## Lowering -/

namespace Lower

variable {α β : Type}

@[simp] theorem value_pure (a : α) : (pure a : Lower α).value = a := rfl

@[simp] theorem value_bind (m : Lower α) (f : α → Lower β) :
    (m >>= f).value = (f m.value).value := rfl

@[simp] theorem value_ofExpr (p : Piece) (n : Node) : (ofExpr p n).value = n := rfl

@[simp] theorem value_ofStmt (p : Piece) (n : Node) : (ofStmt p n).value = n := rfl

end Lower

section Bounds

variable {x : Nat} {e : Expr} {n : Node}

theorem count_ids_mk (x : Nat) (info : NodeInfo) (operand : Option Node)
    (targets values args : List Node) :
    (Node.mk info operand targets values args).ids.count x
      = [info.id].count x + ((operand.toList.flatMap Node.ids).count x
        + (targets.flatMap Node.ids).count x + (values.flatMap Node.ids).count x
        + (args.flatMap Node.ids).count x) := by
  rw [Node.ids_eq, count_cons_eq, Node.children, List.flatMap_append, List.flatMap_append,
    List.flatMap_append, List.count_append, List.count_append, List.count_append]
  rfl

@[simp] theorem count_ids_stmtNode (x : Nat) (p : Piece) (keyword : String) (args : List Node) :
    (p.stmtNode keyword args).ids.count x
      = [2 * p.number].count x + (args.flatMap Node.ids).count x := by
  simp [Piece.stmtNode, count_ids_mk, Piece.nodeInfo]

@[simp] theorem count_ids_assignNode (x : Nat) (p : Piece) (token : String)
    (targets values : List Node) :
    (p.assignNode token targets values).ids.count x
      = [2 * p.number].count x
        + ((targets.flatMap Node.ids).count x + (values.flatMap Node.ids).count x) := by
  simp [Piece.assignNode, count_ids_mk, Piece.nodeInfo]

@[simp] theorem count_ids_rangeNode (x : Nat) (p : Piece) (target : Node) :
    (p.rangeNode target).ids.count x = [2 * p.number + 1].count x + target.ids.count x := by
  simp [Piece.rangeNode, count_ids_mk, Piece.nodeInfo]

@[simp] theorem count_ids_otherNode (x : Nat) (p : Piece) (name : String) (type : ValueType)
    (args : List Node) :
    (p.otherNode name type args).ids.count x
      = [2 * p.number].count x + (args.flatMap Node.ids).count x := by
  simp [Piece.otherNode, count_ids_mk, Piece.nodeInfo]

@[simp] theorem count_ids_refNode (x : Nat) (p : Piece) (kind : Kind) (name : String)
    (v : Variable) (owner : Option Node) :
    (p.refNode kind name v owner).ids.count x
      = [2 * p.number].count x + (owner.toList.flatMap Node.ids).count x := by
  simp [Piece.refNode, count_ids_mk, Piece.nodeInfo]

/-- The identities of the node of an expression are accounted for by the numbers within the
expression and by the even identity of its own number. -/
def Accounts (x : Nat) (e : Expr) (n : Node) : Prop :=
  n.ids.count x ≤ [2 * e.info.number].count x + e.inner.count (x / 2)

theorem Accounts.le (h : Accounts x e n) : n.ids.count x ≤ e.numbers.count (x / 2) := by
  have hown := count_identity x e.info.number
  unfold Accounts at h
  rw [e.numbers_eq, count_cons_eq]
  omega

theorem count_ids_callNode (x : Nat) (form : CallForm) (p : Piece) (type : ValueType)
    (recv : Option Node) (args : List Node) :
    (form.node p type recv args).ids.count x
      ≤ [2 * p.number].count x + ((recv.toList.flatMap Node.ids).count x
        + (args.flatMap Node.ids).count x) := by
  cases form with
  | conversion =>
    cases args with
    | nil => simp [CallForm.node, count_ids_mk, Piece.nodeInfo]
    | cons arg args =>
      simp only [CallForm.node, count_ids_mk, Piece.nodeInfo, List.head?_cons, Option.toList_some,
        List.flatMap_cons, List.flatMap_nil, List.append_nil, List.count_append, List.count_nil]
      omega
  | addition name =>
    cases args with
    | nil => simp [CallForm.node, count_ids_mk, Piece.nodeInfo]
    | cons arg args =>
      simp only [CallForm.node, count_ids_mk, Piece.nodeInfo, List.head?_cons, Option.toList_some,
        List.tail_cons, List.flatMap_cons, List.flatMap_nil, List.append_nil, List.count_append,
        List.count_nil]
      omega
  | creation | value | await | method | plain => simp [CallForm.node, count_ids_mk, Piece.nodeInfo]

theorem count_ids_compositeNode (x : Nat) (s : Scope) (p : Piece) (type : ValueType) (isBare : Bool)
    (elements : List Node) :
    (s.compositeNode p type isBare elements).ids.count x
      = [2 * p.number].count x + (elements.flatMap Node.ids).count x := by
  unfold Scope.compositeNode
  split
  · simp [count_ids_mk, Piece.nodeInfo]
  · split <;> simp [count_ids_mk, Piece.nodeInfo]

theorem count_ids_identNode (x : Nat) (s : Scope) (i : ExprInfo) (name : String)
    (object : Option Object) (type : ValueType) :
    (s.identNode i name object type).ids.count x = [2 * i.number].count x := by
  unfold Scope.identNode
  split
  · split <;> simp
  · simp

/-- A leaf in the place of an expression. -/
theorem count_ids_leaf (x : Nat) (e : Expr) (name : String) (type : ValueType) :
    (e.info.otherNode name type []).ids.count x ≤ e.numbers.count (x / 2) := by
  have hown := count_identity x e.info.number
  have hcons := count_cons_eq (x / 2) e.info.number e.inner
  rw [count_ids_otherNode, e.numbers_eq, List.flatMap_nil, List.count_nil]
  omega

/-- The first element of a literal becomes its node, or the part of it that holds the value. -/
theorem lowerElements_cons (x : Nat) (s : Scope) (isStruct : Bool) (e : Expr) (es : List Expr) :
    ∃ n, (lowerElements s isStruct (e :: es)).value = n :: (lowerElements s isStruct es).value ∧
      n.ids.count x ≤ (lowerExpr s e).value.ids.count x := by
  cases e with
  | keyValue i key value =>
    cases isStruct with
    | true =>
      refine ⟨(lowerExpr s value).value, rfl, ?_⟩
      simp [lowerExpr]
      omega
    | false =>
      refine ⟨(lowerExpr s (.keyValue i key value)).value, ?_, Nat.le_refl _⟩
      simp [lowerElements, lowerExpr]
  | _ => exact ⟨_, rfl, Nat.le_refl _⟩

theorem count_stmtNode_le {p : Piece} {keyword : String} {args : List Node} {l : List Nat}
    (h : (args.flatMap Node.ids).count x ≤ l.count (x / 2)) :
    (p.stmtNode keyword args).ids.count x ≤ (p.number :: l).count (x / 2) := by
  have hown := count_identity x p.number
  have hcons := count_cons_eq (x / 2) p.number l
  rw [count_ids_stmtNode]
  omega

theorem count_assignNode_le {p : Piece} {token : String} {targets values : List Node} {l : List Nat}
    (h : (targets.flatMap Node.ids).count x + (values.flatMap Node.ids).count x
      ≤ l.count (x / 2)) :
    (p.assignNode token targets values).ids.count x ≤ (p.number :: l).count (x / 2) := by
  have hown := count_identity x p.number
  have hcons := count_cons_eq (x / 2) p.number l
  rw [count_ids_assignNode]
  omega

/-! ### Expressions and statements

One bound for each function of the lowering, by recursion over the syntax. -/

mutual

theorem accounts_lowerExpr (x : Nat) (s : Scope) : ∀ e, Accounts x e (lowerExpr s e).value
  | .ident i name object => by
    simp only [lowerExpr, Lower.value_ofExpr, Accounts, count_ids_identNode, Expr.info]
    omega
  | .paren i y => by
    have hy := (accounts_lowerExpr x s y).le
    simp only [lowerExpr, Lower.value_bind, Lower.value_ofExpr, Accounts, Expr.inner, Expr.numbers,
      List.tail_cons]
    omega
  | .selector i y name object selection => by
    have hy := (accounts_lowerExpr x s y).le
    simp only [lowerExpr, Accounts, Expr.inner, Expr.numbers, Expr.info, List.tail_cons]
    split <;> simp <;> omega
  | .call i function args callee => by
    have hfunction := (accounts_lowerExpr x s function).le
    have hrecv := count_ids_lowerReceiver x s function
    have hargs := count_ids_lowerExprs x s args
    simp only [lowerExpr, Accounts, Expr.inner, Expr.numbers, Expr.info, List.tail_cons,
      List.count_append]
    generalize s.callForm function args callee = form
    have hnode := count_ids_callNode x form i.toPiece i.valueType
    split
    · have := hnode none []
      simp at this ⊢
      omega
    · have := hnode (some (lowerExpr s function).value) (lowerExprs s args).value
      simp at this ⊢
      omega
    · have := hnode (some (lowerReceiver s function).value) (lowerExprs s args).value
      simp at this ⊢
      omega
    · have := hnode (some (lowerReceiver s function).value) (lowerExprs s args).value
      simp at this ⊢
      omega
    · have := hnode none (lowerExprs s args).value
      simp at this ⊢
      omega
  | .composite i elements => by
    have helements := count_ids_lowerElements x s i.isStruct elements
    simp [lowerExpr, Accounts, Expr.inner, Expr.numbers, Expr.info, count_ids_compositeNode]
    omega
  | .unary i op y => by
    have hy := (accounts_lowerExpr x s y).le
    have haddressed := count_ids_lowerAddressed x s i y
    simp only [lowerExpr, Accounts, Expr.inner, Expr.numbers, Expr.info, List.tail_cons]
    split
    · rename_i literal hliteral
      split at hliteral
      · exact haddressed literal hliteral
      · cases hliteral
    · simp
      omega
  | .binary i op y z => by
    have hy := (accounts_lowerExpr x s y).le
    have hz := (accounts_lowerExpr x s z).le
    simp [lowerExpr, Accounts, Expr.inner, Expr.numbers, Expr.info]
    omega
  | .keyValue i key value => by
    have hkey := (accounts_lowerExpr x s key).le
    have hvalue := (accounts_lowerExpr x s value).le
    simp [lowerExpr, Accounts, Expr.inner, Expr.numbers, Expr.info]
    omega
  | .funcLit i params body graph => by
    have hbody := count_ids_lowerStmts x { s with params := params ++ s.params } body
    simp [lowerExpr, Accounts, Expr.inner, Expr.numbers, Expr.info, count_ids_mk, Piece.nodeInfo]
    omega
  | .index i y indices => by
    have hy := (accounts_lowerExpr x s y).le
    have hindices := count_ids_lowerExprs x s indices
    simp [lowerExpr, Accounts, Expr.inner, Expr.numbers, Expr.info]
    omega
  | .slice i y bounds => by
    have hy := (accounts_lowerExpr x s y).le
    have hbounds := count_ids_lowerExprs x s bounds
    simp [lowerExpr, Accounts, Expr.inner, Expr.numbers, Expr.info]
    omega
  | .star i y => by
    have hy := (accounts_lowerExpr x s y).le
    simp only [lowerExpr, Accounts, Expr.inner, Expr.numbers, Expr.info, List.tail_cons]
    split
    · simp
    · simp
      omega
  | .typeAssert i y => by
    have hy := (accounts_lowerExpr x s y).le
    simp [lowerExpr, Accounts, Expr.inner, Expr.numbers, Expr.info]
    omega
  | .atom i => by
    simp [lowerExpr, Accounts, Expr.info]

theorem count_ids_lowerExprs (x : Nat) (s : Scope) :
    ∀ es, ((lowerExprs s es).value.flatMap Node.ids).count x ≤ (numbersOfExprs es).count (x / 2)
  | [] => by simp [lowerExprs]
  | e :: es => by
    have he := (accounts_lowerExpr x s e).le
    have hes := count_ids_lowerExprs x s es
    simp [lowerExprs, numbersOfExprs]
    omega

theorem count_ids_lowerExpr? (x : Nat) (s : Scope) :
    ∀ e, ((lowerExpr? s e).value.flatMap Node.ids).count x ≤ (numbersOfExpr? e).count (x / 2)
  | none => by simp [lowerExpr?]
  | some e => by
    have he := (accounts_lowerExpr x s e).le
    simp [lowerExpr?, numbersOfExpr?]
    omega

theorem count_ids_lowerReceiver (x : Nat) (s : Scope) :
    ∀ e, (lowerReceiver s e).value.ids.count x ≤ e.numbers.count (x / 2)
  | .paren i y => by
    have hy := count_ids_lowerReceiver x s y
    have hcons := count_cons_eq (x / 2) i.number y.numbers
    simp only [lowerReceiver, Expr.numbers]
    omega
  | .selector i y name object selection => by
    have hy := (accounts_lowerExpr x s y).le
    have hcons := count_cons_eq (x / 2) i.number y.numbers
    simp only [lowerReceiver, Expr.numbers]
    omega
  | .ident _ _ _ | .call _ _ _ _ | .composite _ _ | .unary _ _ _ | .binary _ _ _ _
  | .keyValue _ _ _ | .funcLit _ _ _ _ | .index _ _ _ | .slice _ _ _ | .star _ _
  | .typeAssert _ _ | .atom _ => count_ids_leaf x _ _ _

theorem count_ids_lowerElements (x : Nat) (s : Scope) (isStruct : Bool) :
    ∀ es, ((lowerElements s isStruct es).value.flatMap Node.ids).count x
      ≤ (numbersOfExprs es).count (x / 2)
  | [] => by simp [lowerElements]
  | e :: es => by
    have he := (accounts_lowerExpr x s e).le
    have hes := count_ids_lowerElements x s isStruct es
    obtain ⟨n, hvalue, hn⟩ := lowerElements_cons x s isStruct e es
    simp [hvalue, numbersOfExprs]
    omega

theorem count_ids_lowerAddressed (x : Nat) (s : Scope) (outer : ExprInfo) :
    ∀ e m, lowerAddressed s outer e = some m →
      m.value.ids.count x ≤ [2 * outer.number].count x + e.numbers.count (x / 2)
  | .paren i y, m, h => by
    have hy := count_ids_lowerAddressed x s outer y m h
    have hcons := count_cons_eq (x / 2) i.number y.numbers
    simp only [Expr.numbers]
    omega
  | .composite i elements, m, h => by
    have helements := count_ids_lowerElements x s i.isStruct elements
    have hcons := count_cons_eq (x / 2) i.number (numbersOfExprs elements)
    simp only [lowerAddressed, Option.some.injEq] at h
    subst h
    simp only [Lower.value_bind, Lower.value_ofExpr, count_ids_compositeNode, Expr.numbers]
    omega
  | .ident _ _ _, _, h | .selector _ _ _ _ _, _, h | .call _ _ _ _, _, h | .unary _ _ _, _, h
  | .binary _ _ _ _, _, h | .keyValue _ _ _, _, h | .funcLit _ _ _ _, _, h | .index _ _ _, _, h
  | .slice _ _ _, _, h | .star _ _, _, h | .typeAssert _ _, _, h | .atom _, _, h => nomatch h

/-- The assignment of a range loop takes the odd identity, which the target itself leaves free. -/
theorem count_ids_lowerRangeTarget (x : Nat) (s : Scope) :
    ∀ e, ((lowerRangeTarget s e).value.flatMap Node.ids).count x
      ≤ (numbersOfExpr? e).count (x / 2)
  | none => by simp [lowerRangeTarget]
  | some e => by
    have he := accounts_lowerExpr x s e
    have hboth := count_identities x e.info.number
    have hcons := count_cons_eq (x / 2) e.info.number e.inner
    unfold Accounts at he
    simp only [lowerRangeTarget, numbersOfExpr?, Lower.value_bind, Lower.value_ofExpr,
      Lower.value_pure, List.flatMap_cons, List.flatMap_nil, List.append_nil, count_ids_rangeNode,
      e.numbers_eq]
    omega

theorem count_ids_lowerStmt (x : Nat) (s : Scope) :
    ∀ t, (lowerStmt s t).value.ids.count x ≤ t.numbers.count (x / 2)
  | .expr p y => by
    have hy := (accounts_lowerExpr x s y).le
    have hown := count_identity x p.number
    have hcons := count_cons_eq (x / 2) p.number y.numbers
    simp only [lowerStmt, Lower.value_bind, Lower.value_ofStmt, count_ids_mk, Piece.nodeInfo,
      Stmt.numbers, Option.toList_some, List.flatMap_cons, List.flatMap_nil, List.append_nil,
      List.count_nil]
    omega
  | .assign p token targets values => by
    have htargets := count_ids_lowerExprs x s targets
    have hvalues := count_ids_lowerExprs x s values
    refine count_assignNode_le ?_
    rw [List.count_append]
    omega
  | .incDec p token y => by
    have hy := (accounts_lowerExpr x s y).le
    refine count_assignNode_le ?_
    simpa using hy
  | .decl p keyword specs => by
    have hspecs := count_ids_lowerStmts x s specs
    unfold lowerStmt
    split
    · exact count_stmtNode_le hspecs
    · exact count_stmtNode_le (Nat.zero_le _)
  | .valueSpec p names values => by
    have hnames := count_ids_lowerExprs x s names
    have hvalues := count_ids_lowerExprs x s values
    refine count_assignNode_le ?_
    rw [List.count_append]
    omega
  | .ret p results => count_stmtNode_le (count_ids_lowerExprs x s results)
  | .go p call => by
    have hcall := (accounts_lowerExpr x s call).le
    refine count_stmtNode_le ?_
    simpa using hcall
  | .defer p call => by
    have hcall := (accounts_lowerExpr x s call).le
    refine count_stmtNode_le ?_
    simpa using hcall
  | .send p channel value => by
    have hchannel := (accounts_lowerExpr x s channel).le
    have hvalue := (accounts_lowerExpr x s value).le
    refine count_stmtNode_le ?_
    simp
    omega
  | .block p list => count_stmtNode_le (count_ids_lowerStmts x s list)
  | .cond p init test body other => by
    have hinit := count_ids_lowerStmt? x s init
    have htest := (accounts_lowerExpr x s test).le
    have hbody := count_ids_lowerStmt x s body
    have hother := count_ids_lowerStmt? x s other
    refine count_stmtNode_le ?_
    simp
    omega
  | .loop p init test post body => by
    have hinit := count_ids_lowerStmt? x s init
    have htest := count_ids_lowerExpr? x s test
    have hpost := count_ids_lowerStmt? x s post
    have hbody := count_ids_lowerStmt x s body
    refine count_stmtNode_le ?_
    simp
    omega
  | .range p key value y body => by
    have hown := count_identity x p.number
    have hkey := count_ids_lowerRangeTarget x s key
    have hvalue := count_ids_lowerRangeTarget x s value
    have hbody := count_ids_lowerStmt x s body
    have hy := (accounts_lowerExpr x s y).le
    simp only [lowerStmt, Lower.value_bind, Lower.value_ofStmt, count_ids_mk, Piece.nodeInfo,
      Stmt.numbers, Option.toList_some, List.flatMap_cons, List.flatMap_append, List.flatMap_nil,
      List.append_nil, List.count_nil, List.count_append]
    rw [count_cons_eq (x / 2)]
    simp only [List.count_append]
    omega
  | .switch p init tag body => by
    have hinit := count_ids_lowerStmt? x s init
    have htag := count_ids_lowerExpr? x s tag
    have hbody := count_ids_lowerStmt x s body
    refine count_stmtNode_le ?_
    simp
    omega
  | .typeSwitch p init guard body => by
    have hinit := count_ids_lowerStmt? x s init
    have hguard := count_ids_lowerStmt? x s guard
    have hbody := count_ids_lowerStmt x s body
    refine count_stmtNode_le ?_
    simp
    omega
  | .select p body => by
    have hbody := count_ids_lowerStmt x s body
    refine count_stmtNode_le ?_
    simpa using hbody
  | .caseClause p list body => by
    have hlist := count_ids_lowerExprs x s list
    have hbody := count_ids_lowerStmts x s body
    refine count_stmtNode_le ?_
    simp
    omega
  | .commClause p comm body => by
    have hcomm := count_ids_lowerStmt? x s comm
    have hbody := count_ids_lowerStmts x s body
    refine count_stmtNode_le ?_
    simp
    omega
  | .labeled p stmt => by
    have hstmt := count_ids_lowerStmt x s stmt
    refine count_stmtNode_le ?_
    simpa using hstmt
  | .branch p => count_stmtNode_le (Nat.le_refl _)
  | .empty p => count_stmtNode_le (Nat.le_refl _)

theorem count_ids_lowerStmts (x : Nat) (s : Scope) :
    ∀ ts, ((lowerStmts s ts).value.flatMap Node.ids).count x ≤ (numbersOfStmts ts).count (x / 2)
  | [] => by simp [lowerStmts]
  | t :: ts => by
    have ht := count_ids_lowerStmt x s t
    have hts := count_ids_lowerStmts x s ts
    simp [lowerStmts, numbersOfStmts]
    omega

theorem count_ids_lowerStmt? (x : Nat) (s : Scope) :
    ∀ t, ((lowerStmt? s t).value.flatMap Node.ids).count x ≤ (numbersOfStmt? t).count (x / 2)
  | none => by simp [lowerStmt?]
  | some t => by
    have ht := count_ids_lowerStmt x s t
    simp [lowerStmt?, numbersOfStmt?]
    omega

end

end Bounds

/-! ## Declarations -/

/-- Each identity in the tree of a declaration is that of a piece of syntax, and occurs no more
often than its number. -/
theorem count_ids_lowerDecl (x : Nat) (c : Config) (d : FuncDecl) :
    (lowerDecl c d).value.ids.count x ≤ d.numbers.count (x / 2) := by
  have hown := count_identity x d.piece.number
  have hbody := count_ids_lowerStmts x ⟨c, d.params⟩ (d.body.getD [])
  have hcons := count_cons_eq (x / 2) d.piece.number (numbersOfStmts (d.body.getD []))
  simp only [lowerDecl, Lower.value_bind, Lower.value_ofStmt, count_ids_mk, Piece.nodeInfo,
    Option.toList_none, List.flatMap_nil, List.count_nil, FuncDecl.numbers]
  omega

end Source

end AwaitLint
