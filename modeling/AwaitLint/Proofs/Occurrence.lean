import AwaitLint.Source.Lowering

/-!
# AwaitLint — what occurs in a function body

Syntax is made of expressions and statements within each other, here called phrases. A phrase occurs
in another if it is one of its constituents, or occurs in one of them; type expressions are not
entered.

* **`Phrase.occurring`** — the phrases that occur in a phrase. Which further phrases are not entered
  is a parameter.
* **`Expr.checked`** — what the type checker ensures of an expression where the facts it leaves
  behind decide how the expression is read.
* **`silent_of_namesFunction`** — no call and no literal occurs in the name of a function.
-/

namespace AwaitLint.Source

/-! ## Phrases -/

inductive Phrase where
  | expr (e : Expr)
  | stmt (t : Stmt)

namespace Phrase

/-- The expressions and statements that a phrase is made of. -/
def constituents : Phrase → List Phrase
  | expr (.ident _ _ _) => []
  | expr (.paren _ x) => [expr x]
  | expr (.selector _ x _ _ _) => [expr x]
  | expr (.call _ function args _) => expr function :: args.map expr
  | expr (.composite _ elements) => elements.map expr
  | expr (.unary _ _ x) => [expr x]
  | expr (.binary _ _ x y) => [expr x, expr y]
  | expr (.keyValue _ key value) => [expr key, expr value]
  | expr (.funcLit _ _ body _) => body.map stmt
  | expr (.index _ x indices) => expr x :: indices.map expr
  | expr (.slice _ x bounds) => expr x :: bounds.map expr
  | expr (.star _ x) => [expr x]
  | expr (.typeAssert _ x) => [expr x]
  | expr (.atom _) => []
  | stmt (.expr _ x) => [expr x]
  | stmt (.assign _ _ targets values) => targets.map expr ++ values.map expr
  | stmt (.incDec _ _ x) => [expr x]
  | stmt (.decl _ _ specs) => specs.map stmt
  | stmt (.valueSpec _ names values) => names.map expr ++ values.map expr
  | stmt (.ret _ results) => results.map expr
  | stmt (.go _ call) => [expr call]
  | stmt (.defer _ call) => [expr call]
  | stmt (.send _ channel value) => [expr channel, expr value]
  | stmt (.block _ list) => list.map stmt
  | stmt (.cond _ init test body other) =>
    init.toList.map stmt ++ [expr test, stmt body] ++ other.toList.map stmt
  | stmt (.loop _ init test post body) =>
    init.toList.map stmt ++ test.toList.map expr ++ post.toList.map stmt ++ [stmt body]
  | stmt (.range _ key value x body) =>
    key.toList.map expr ++ value.toList.map expr ++ [expr x, stmt body]
  | stmt (.switch _ init tag body) => init.toList.map stmt ++ tag.toList.map expr ++ [stmt body]
  | stmt (.typeSwitch _ init guard body) =>
    init.toList.map stmt ++ guard.toList.map stmt ++ [stmt body]
  | stmt (.select _ body) => [stmt body]
  | stmt (.caseClause _ list body) => list.map expr ++ body.map stmt
  | stmt (.commClause _ comm body) => comm.toList.map stmt ++ body.map stmt
  | stmt (.labeled _ t) => [stmt t]
  | stmt (.branch _) => []
  | stmt (.empty _) => []

def isType : Phrase → Bool
  | expr e => e.info.isType
  | stmt _ => false

/-- The constituents that are entered: none of a type or of a phrase that is shut, and no types. -/
def entered (shut : Phrase → Bool) (p : Phrase) : List Phrase :=
  if p.isType || shut p then [] else p.constituents.filter fun q => !q.isType

/-! ### Constituents are smaller -/

noncomputable def weight : Phrase → Nat
  | expr e => sizeOf e
  | stmt t => sizeOf t

theorem total_exprs (es : List Expr) : total weight (es.map expr) ≤ sizeOf es := by
  induction es with
  | nil => exact Nat.zero_le _
  | cons e es ih =>
    simp only [List.map_cons, total_cons, weight, List.cons.sizeOf_spec]
    omega

theorem total_stmts (ts : List Stmt) : total weight (ts.map stmt) ≤ sizeOf ts := by
  induction ts with
  | nil => exact Nat.zero_le _
  | cons t ts ih =>
    simp only [List.map_cons, total_cons, weight, List.cons.sizeOf_spec]
    omega

theorem total_expr? (e : Option Expr) : total weight (e.toList.map expr) ≤ sizeOf e := by
  cases e <;> simp [weight]

theorem total_stmt? (t : Option Stmt) : total weight (t.toList.map stmt) ≤ sizeOf t := by
  cases t <;> simp [weight]

theorem total_constituents_expr (e : Expr) : total weight (expr e).constituents < sizeOf e := by
  cases e with
  | call i function args callee =>
    have := total_exprs args
    simp [constituents, weight]
    omega
  | composite i elements =>
    have := total_exprs elements
    simp [constituents]
    omega
  | funcLit i params body graph =>
    have := total_stmts body
    simp [constituents]
    omega
  | index i x indices =>
    have := total_exprs indices
    simp [constituents, weight]
    omega
  | slice i x bounds =>
    have := total_exprs bounds
    simp [constituents, weight]
    omega
  | _ => simp [constituents, weight] <;> omega

theorem total_constituents_stmt (t : Stmt) : total weight (stmt t).constituents < sizeOf t := by
  cases t with
  | assign p token xs ys | valueSpec p xs ys =>
    have := total_exprs xs
    have := total_exprs ys
    simp [constituents]
    omega
  | decl p keyword ts | block p ts =>
    have := total_stmts ts
    simp [constituents]
    omega
  | ret p results =>
    have := total_exprs results
    simp [constituents]
    omega
  | cond p init test body other =>
    have := total_stmt? init
    have := total_stmt? other
    simp [constituents, weight]
    omega
  | loop p init test post body =>
    have := total_stmt? init
    have := total_expr? test
    have := total_stmt? post
    simp [constituents, weight]
    omega
  | range p key value x body =>
    have := total_expr? key
    have := total_expr? value
    simp [constituents, weight]
    omega
  | switch p init tag body =>
    have := total_stmt? init
    have := total_expr? tag
    simp [constituents, weight]
    omega
  | typeSwitch p init guard body =>
    have := total_stmt? init
    have := total_stmt? guard
    simp [constituents, weight]
    omega
  | caseClause p list body =>
    have := total_exprs list
    have := total_stmts body
    simp [constituents]
    omega
  | commClause p comm body =>
    have := total_stmt? comm
    have := total_stmts body
    simp [constituents]
    omega
  | _ => simp +arith [constituents, weight]

theorem weight_lt_of_mem_constituents {p q : Phrase} (h : q ∈ p.constituents) :
    q.weight < p.weight := by
  have hle := le_total weight h
  cases p with
  | expr e => exact Nat.lt_of_le_of_lt hle (total_constituents_expr e)
  | stmt t => exact Nat.lt_of_le_of_lt hle (total_constituents_stmt t)

theorem mem_entered_iff {shut : Phrase → Bool} {p q : Phrase} :
    q ∈ p.entered shut ↔
      p.isType = false ∧ shut p = false ∧ q ∈ p.constituents ∧ q.isType = false := by
  unfold entered
  cases p.isType <;> cases shut p <;> simp

/-- The phrase and those that occur in it. -/
def occurring (shut : Phrase → Bool) (p : Phrase) : List Phrase :=
  p :: (p.entered shut).attach.flatMap fun q => occurring shut q.1
termination_by p.weight
decreasing_by exact weight_lt_of_mem_constituents (mem_entered_iff.1 q.2).2.2.1

variable {shut : Phrase → Bool} {p q : Phrase}

theorem mem_occurring_iff :
    q ∈ p.occurring shut ↔ q = p ∨ ∃ r ∈ p.entered shut, q ∈ r.occurring shut := by
  rw [occurring]
  simp

/-! ## Candidates -/

end Phrase

/-- Whether the expression is a call or a composite literal. -/
def Expr.isCandidate : Expr → Bool
  | call _ _ _ _ | composite _ _ => true
  | _ => false

def Phrase.isCandidate : Phrase → Bool
  | expr e => e.isCandidate
  | stmt _ => false

/-- The phrases that occur in the body of a declaration. -/
def FuncDecl.occurring (shut : Phrase → Bool) (d : FuncDecl) : List Phrase :=
  (d.body.getD []).flatMap fun t => (Phrase.stmt t).occurring shut

/-- Whether the phrase declares no variables, but constants or types. -/
def Phrase.isConstant : Phrase → Bool
  | stmt (.decl _ keyword _) => keyword != "var"
  | _ => false

/-! ## What the type checker ensures -/

namespace Expr

def isIdent : Expr → Bool
  | ident _ _ _ => true
  | _ => false

/-- Whether the expression, within its parentheses, is the name of a function: an identifier, one
qualified by a package, a method of a type, or one of these with type arguments. -/
def namesFunction : Expr → Bool
  | paren _ x => x.namesFunction
  | ident _ _ _ => true
  | selector _ x _ _ none => x.isIdent
  | selector _ x _ _ (some .methodExpr) => x.unparen.info.isType
  | index _ x indices => x.namesFunction && indices.all fun e => e.info.isType
  | _ => false

/-- Whether the expression selects a method of a value. -/
def selectsMethod (e : Expr) : Bool :=
  match e.unparen with
  | selector _ _ _ _ selection => selection == some .method
  | _ => false

/-- Whether the element of a literal has no key, or the name of a field as its key. -/
def hasFieldKey : Expr → Bool
  | keyValue _ key _ => key.isIdent
  | _ => true

/-- What the type checker ensures of the form of an expression by what it says of its meaning.

* A selector that selects nothing from a value qualifies a name.
* The keys of a struct literal are names of fields.
* The callee is named by the function of the call or selected by it; the operand of `new` is a
  type. -/
def checked : Expr → Bool
  | selector _ x _ _ none => x.isIdent
  | composite i elements => !i.isStruct || elements.all hasFieldKey
  | call _ function args (some (.builtin name)) =>
    function.namesFunction && (name != "new" || args.all fun e => e.info.isType)
  | call _ function _ (some (.func f)) =>
    function.namesFunction || (f.isMethod && function.selectsMethod)
  | _ => true

end Expr

/-! ## Phrases without candidates -/

namespace Phrase

def checked : Phrase → Bool
  | expr e => e.checked
  | stmt _ => true

/-- No candidate occurs in the phrase, if it is entered at all. -/
def Silent (shut : Phrase → Bool) (p : Phrase) : Prop :=
  p.isType = false → ∀ q ∈ p.occurring shut, q.isCandidate = false

variable {shut : Phrase → Bool} {p : Phrase}

theorem Silent.of_constituents (hself : p.isCandidate = false)
    (h : ∀ q ∈ p.constituents, q.Silent shut) : p.Silent shut := by
  intro _ q hq
  rcases mem_occurring_iff.1 hq with rfl | ⟨r, hr, hq⟩
  · exact hself
  · obtain ⟨-, -, hr, htype⟩ := mem_entered_iff.1 hr
    exact h r hr htype q hq

theorem silent_of_isType {e : Expr} (h : e.info.isType = true) : (expr e).Silent shut := by
  intro htype
  rw [isType, h] at htype
  cases htype

theorem silent_paren {i : ExprInfo} {x : Expr} (h : (expr x).Silent shut) :
    (expr (.paren i x)).Silent shut :=
  .of_constituents rfl (List.forall_mem_singleton.2 h)

theorem silent_of_isIdent {e : Expr} (h : e.isIdent = true) : (expr e).Silent shut := by
  cases e with
  | ident i name object => exact .of_constituents rfl nofun
  | _ => cases h

theorem silent_of_unparen_isType {e : Expr} (h : e.unparen.info.isType = true) :
    (expr e).Silent shut := by
  induction e using Expr.unparen.induct with
  | case1 i x ih => exact silent_paren (ih h)
  | case2 e hnot =>
    rw [Expr.unparen] at h
    · exact silent_of_isType h
    · exact hnot

theorem silent_of_unparen_isIdent {e : Expr} (h : e.unparen.isIdent = true) :
    (expr e).Silent shut := by
  induction e using Expr.unparen.induct with
  | case1 i x ih => exact silent_paren (ih h)
  | case2 e hnot =>
    rw [Expr.unparen] at h
    · exact silent_of_isIdent h
    · exact hnot

theorem silent_of_namesFunction {e : Expr} (h : e.namesFunction = true) :
    (expr e).Silent shut := by
  induction e using Expr.namesFunction.induct with
  | case1 i x ih => exact silent_paren (ih h)
  | case2 i name object => exact silent_of_isIdent rfl
  | case3 i x name object =>
    exact .of_constituents rfl (List.forall_mem_singleton.2 (silent_of_isIdent h))
  | case4 i x name object =>
    exact .of_constituents rfl (List.forall_mem_singleton.2 (silent_of_unparen_isType h))
  | case5 i x indices ih =>
    obtain ⟨hx, hindices⟩ := Bool.and_eq_true_iff.1 h
    refine .of_constituents rfl (List.forall_mem_cons.2 ⟨ih hx, fun q hq => ?_⟩)
    obtain ⟨e, he, rfl⟩ := List.mem_map.1 hq
    exact silent_of_isType (List.all_eq_true.1 hindices e he)
  | case6 e _ _ _ _ _ =>
    rw [Expr.namesFunction] at h
    all_goals simp_all

end Phrase

end AwaitLint.Source
