import AwaitLint.Proofs.Identities
import AwaitLint.Proofs.Occurrence
import AwaitLint.Proofs.Walk

/-!
# AwaitLint — what the source says is written

A local is written where the source assigns to it, counts it up or down, declares it, makes it the
key or the value of a range loop, or takes its address. Function literals inside a piece of syntax
are left out, and parentheses are ignored.

* **`Phrase.parts`** — what a phrase is made of. A range loop is made of the assignments to its key
  and value, beside its range and its body; constants are not looked into.
* **`Phrase.Has`** — an expression stands in a given role within a phrase.
* **`Phrase.Writes`** — the local is written; **`Phrase.Conjoins`** — it is an operand of the binary
  operator that is spelled like the address operator.
* **`idle_of_isPath`** — names and types write nothing.
-/

namespace AwaitLint.Source

/-! ## Parts -/

def Stmt.piece : Stmt → Piece
  | expr p _ | assign p _ _ _ | incDec p _ _ | decl p _ _ | valueSpec p _ _ | ret p _ | go p _
  | defer p _ | send p _ _ | block p _ | cond p _ _ _ _ | loop p _ _ _ _ | range p _ _ _ _
  | switch p _ _ _ | typeSwitch p _ _ _ | select p _ | caseClause p _ _ | commClause p _ _
  | labeled p _ | branch p | empty p => p

namespace Phrase

def number : Phrase → Nat
  | expr e => e.info.number
  | stmt t => t.piece.number

/-- The assignment that a range loop makes to its key or its value. -/
def loopAssign (e : Expr) : Phrase := stmt (.assign e.info.toPiece "range" [e] [])

/-- What a phrase is made of. -/
def parts : Phrase → List Phrase
  | stmt (.decl _ keyword specs) => if keyword = "var" then specs.map stmt else []
  | stmt (.range _ key value x body) =>
    key.toList.map loopAssign ++ value.toList.map loopAssign ++ [expr x, stmt body]
  | p => p.constituents

def Part (p q : Phrase) : Prop := q ∈ p.parts

def isLiteral : Phrase → Bool
  | expr (.funcLit _ _ _ _) => true
  | _ => false

/-- `q` is a part of `p` and no function literal. -/
def Inner (p q : Phrase) : Prop := q ∈ p.parts ∧ q.isLiteral = false

def unparen : Phrase → Phrase
  | expr e => expr e.unparen
  | stmt t => stmt t

/-! ## Roles -/

/-- The targets of an assignment, of a counting statement or of a declaration of variables. -/
def assigned : Phrase → List Expr
  | stmt (.assign _ _ targets _) => targets
  | stmt (.incDec _ _ x) => [x]
  | stmt (.valueSpec _ names _) => names
  | _ => []

/-- The operand whose address is taken. -/
def addressed : Phrase → List Expr
  | expr (.unary _ op x) => if op = "&" then [x] else []
  | _ => []

/-- The operands of a bitwise conjunction. -/
def conjoined : Phrase → List Expr
  | expr (.binary _ op x y) => if op = "&" then [x, y] else []
  | _ => []

def written (p : Phrase) : List Expr := p.assigned ++ p.addressed

/-- What a tree without the number of operands takes to be written. -/
def marked (p : Phrase) : List Expr := p.written ++ p.conjoined

theorem marked_stmt (t : Stmt) : (stmt t).marked = (stmt t).assigned := by
  simp [marked, written, addressed, conjoined]

/-- Within the phrase, outside function literals nested in it, an expression in the role satisfies
`who`. -/
def Has (role : Phrase → List Expr) (who : Expr → Prop) (p : Phrase) : Prop :=
  ∃ q, Reaches Inner p q ∧ ∃ e ∈ role q, who e

variable {role : Phrase → List Expr} {who who' : Expr → Prop} {p q : Phrase}

theorem has_iff :
    p.Has role who ↔ (∃ e ∈ role p, who e) ∨
      ∃ q ∈ p.parts, q.isLiteral = false ∧ q.Has role who := by
  constructor
  · rintro ⟨r, hr, hwho⟩
    rcases Reaches.head_iff.1 hr with rfl | ⟨q, ⟨hq, hlit⟩, hqr⟩
    · exact .inl hwho
    · exact .inr ⟨q, hq, hlit, r, hqr, hwho⟩
  · rintro (hwho | ⟨q, hq, hlit, r, hqr, hwho⟩)
    · exact ⟨p, Reaches.refl _ p, hwho⟩
    · exact ⟨r, Reaches.head_iff.2 (.inr ⟨q, ⟨hq, hlit⟩, hqr⟩), hwho⟩

theorem has_marked_iff : p.Has marked who ↔ p.Has written who ∨ p.Has conjoined who := by
  constructor
  · rintro ⟨q, hq, e, he, hwho⟩
    rcases List.mem_append.1 he with he | he
    · exact .inl ⟨q, hq, e, he, hwho⟩
    · exact .inr ⟨q, hq, e, he, hwho⟩
  · rintro (⟨q, hq, e, he, hwho⟩ | ⟨q, hq, e, he, hwho⟩)
    · exact ⟨q, hq, e, List.mem_append_left _ he, hwho⟩
    · exact ⟨q, hq, e, List.mem_append_right _ he, hwho⟩

/-- What stands in a role is a part. -/
theorem mem_parts_of_mem_marked {e : Expr} (h : e ∈ p.marked) : expr e ∈ p.parts := by
  cases p with
  | expr e' =>
    cases e' with
    | unary i op x | binary i op x y =>
      simp only [marked, written, assigned, addressed, conjoined, List.nil_append,
        List.append_nil] at h
      split at h
      · simpa [parts, constituents] using h
      · cases h
    | _ => cases h
  | stmt t =>
    cases t with
    | assign | incDec | valueSpec =>
      simp only [marked, written, assigned, addressed, conjoined, List.append_nil,
        List.mem_singleton] at h
      simp [parts, constituents, h]
    | _ => cases h

/-! ## Phrases that write nothing -/

/-- Nothing within the phrase stands in a marked role. -/
def Idle (p : Phrase) : Prop := ∀ q, Reaches Inner p q → q.marked = []

theorem Idle.not_has (h : p.Idle) : ¬ p.Has marked who := by
  rintro ⟨q, hq, e, he, -⟩
  exact List.not_mem_nil (h q hq ▸ he)

theorem Idle.of_parts (hself : p.marked = []) (h : ∀ q ∈ p.parts, q.Idle) : p.Idle := by
  intro r hr
  rcases Reaches.head_iff.1 hr with rfl | ⟨q, ⟨hq, -⟩, hqr⟩
  · exact hself
  · exact h q hq r hqr

end Phrase

/-! ## What the type checker ensures -/

namespace Expr

/-- Whether the expression is made of names and types. -/
def isPath : Expr → Bool
  | ident _ _ _ | atom _ => true
  | paren _ x | star _ x | selector _ x _ _ _ => x.isPath
  | index _ x indices => x.isPath && indices.all fun e => e.info.isType
  | _ => false

/-- Whether a selected name is no operator. -/
def selectsName : Expr → Bool
  | selector _ _ name _ _ => name != "&"
  | _ => true

/-- What is ensured of the form of an expression: its meaning is that of its form (`checked`), types
are made of names, and names are no operators. -/
def isRegular (e : Expr) : Bool := e.checked && (!e.info.isType || e.isPath) && e.selectsName

theorem isPath_unparen (e : Expr) : e.unparen.isPath = e.isPath := by
  induction e using unparen.induct with
  | case1 i x ih => exact ih
  | case2 e hnot =>
    rw [unparen]
    exact hnot

end Expr

namespace Phrase

def isRegular : Phrase → Bool
  | expr e => e.isRegular
  | stmt _ => true

/-- The phrase and all within it have the form that the type checker ensures. -/
def Regular (p : Phrase) : Prop := ∀ q, Reaches Part p q → q.isRegular = true

variable {p q : Phrase} {e : Expr}

theorem Regular.part (h : p.Regular) (hq : q ∈ p.parts) : q.Regular := fun r hr =>
  h r (Reaches.head_iff.2 (.inr ⟨q, hq, hr⟩))

theorem Regular.self (h : (expr e).Regular) :
    e.checked = true ∧ (e.info.isType = true → e.isPath = true) ∧ e.selectsName = true := by
  have hself : e.isRegular = true := h _ (Reaches.refl _ _)
  unfold Expr.isRegular at hself
  simp only [Bool.and_eq_true, Bool.or_eq_true, Bool.not_eq_true'] at hself
  obtain ⟨⟨hchecked, htype⟩, hname⟩ := hself
  exact ⟨hchecked, fun h => htype.resolve_left (by rw [h]; exact nofun), hname⟩

theorem Regular.unparen (h : (expr e).Regular) : (expr e.unparen).Regular := by
  induction e using Expr.unparen.induct with
  | case1 i x ih => exact ih (h.part List.mem_cons_self)
  | case2 e hnot =>
    rw [Expr.unparen]
    · exact h
    · exact hnot

theorem Regular.isPath_of_isType (h : (expr e).Regular) (htype : e.info.isType = true) :
    e.isPath = true :=
  h.self.2.1 htype

/-- **Names and types write nothing.** -/
theorem idle_of_isPath (e : Expr) (h : (expr e).Regular) (hpath : e.isPath = true) :
    (expr e).Idle := by
  cases e with
  | ident | atom => exact .of_parts rfl nofun
  | paren i x | star i x | selector i x name object selection =>
    exact .of_parts rfl (List.forall_mem_singleton.2
      (idle_of_isPath x (h.part List.mem_cons_self) hpath))
  | index i x indices =>
    obtain ⟨hx, htypes⟩ := Bool.and_eq_true_iff.1 hpath
    refine .of_parts rfl (List.forall_mem_cons.2
      ⟨idle_of_isPath x (h.part List.mem_cons_self) hx, fun q hq => ?_⟩)
    obtain ⟨e, he, rfl⟩ := List.mem_map.1 hq
    have hregular : (expr e).Regular := h.part (List.mem_cons_of_mem _ hq)
    exact idle_of_isPath e hregular
      (hregular.isPath_of_isType (List.all_eq_true.1 htypes e he))
  | _ => cases hpath
termination_by sizeOf e
decreasing_by
  all_goals
    refine weight_lt_of_mem_constituents (p := expr _) (q := expr _) ?_
    simp_all [constituents]

theorem Regular.isPath_of_unparen_isType (h : (expr e).Regular)
    (htype : e.unparen.info.isType = true) : e.isPath = true := by
  rw [← e.isPath_unparen]
  exact h.unparen.isPath_of_isType htype

theorem isPath_of_isIdent (h : e.isIdent = true) : e.isPath = true := by
  cases e with
  | ident => rfl
  | _ => cases h

theorem Regular.isPath_of_namesFunction (h : (expr e).Regular) (hnames : e.namesFunction = true) :
    e.isPath = true := by
  induction e using Expr.namesFunction.induct with
  | case1 i x ih => exact ih (h.part List.mem_cons_self) hnames
  | case2 i name object => rfl
  | case3 i x name object =>
    show x.isPath = true
    exact isPath_of_isIdent hnames
  | case4 i x name object => exact (h.part List.mem_cons_self).isPath_of_unparen_isType hnames
  | case5 i x indices ih =>
    obtain ⟨hx, htypes⟩ := Bool.and_eq_true_iff.1 hnames
    exact Bool.and_eq_true_iff.2 ⟨ih (h.part List.mem_cons_self) hx, htypes⟩
  | case6 e _ _ _ _ _ =>
    rw [Expr.namesFunction] at hnames
    all_goals simp_all

end Phrase

/-! ## Locals and declarations -/

namespace Expr

/-- The variable that the expression names, parentheses ignored; the blank name names none. -/
def namedVar? (e : Expr) : Option VarObject :=
  match e.unparen with
  | ident _ name (some (.var v)) => if name = "_" then none else some v
  | _ => none

/-- The expression names the local variable or parameter with identity `k`. -/
def NamesLocal (k : Nat) (e : Expr) : Prop :=
  ∃ v, e.namedVar? = some v ∧ v.scope = .inner ∧ v.id = k

end Expr

namespace Phrase

/-- The source of the phrase writes the local with identity `k`: outside function literals nested in
it, the local is assigned to or its address is taken. -/
def Writes (k : Nat) (p : Phrase) : Prop := p.unparen.Has written (Expr.NamesLocal k)

/-- The local with identity `k` is an operand of a bitwise conjunction. -/
def Conjoins (k : Nat) (p : Phrase) : Prop := p.unparen.Has conjoined (Expr.NamesLocal k)

/-- A function literal within the phrase has a parameter or result with identity `k`. -/
def Declares (k : Nat) (p : Phrase) : Prop :=
  ∃ i params body graph, Reaches Part p (expr (.funcLit i params body graph)) ∧ k ∈ params

/-- The phrase names a variable. -/
def Names (v : VarObject) (p : Phrase) : Prop :=
  ∃ i name, Reaches Part p (expr (.ident i name (some (.var v))))

variable {p q : Phrase} {e : Expr} {v : VarObject} {k : Nat}

theorem Declares.of_part (h : q.Declares k) (hq : q ∈ p.parts) : p.Declares k := by
  obtain ⟨i, params, body, graph, hr, hk⟩ := h
  exact ⟨i, params, body, graph, Reaches.head_iff.2 (.inr ⟨q, hq, hr⟩), hk⟩

theorem Names.of_reaches (h : q.Names v) (hq : Reaches Part p q) : p.Names v := by
  obtain ⟨i, name, hr⟩ := h
  exact ⟨i, name, hq.trans hr⟩

theorem reaches_of_inner (h : Reaches Inner p q) : Reaches Part p q := by
  obtain ⟨path, hpath⟩ := h
  exact ⟨path, hpath.mono fun hstep => hstep.1⟩

/-- What stands in a role within a phrase lies under whatever the phrase lies under. -/
theorem reaches_marked {r : Phrase} (hp : Reaches Part r p) (hq : Reaches Inner p q)
    (he : e ∈ q.marked) : Reaches Part r (expr e) :=
  (hp.trans (reaches_of_inner hq)).tail (mem_parts_of_mem_marked he)

theorem reaches_unparen (p : Phrase) : Reaches Part p p.unparen := by
  cases p with
  | stmt t => exact Reaches.refl _ _
  | expr e =>
    show Reaches Part (expr e) (expr e.unparen)
    induction e using Expr.unparen.induct with
    | case1 i x ih => exact Reaches.head_iff.2 (.inr ⟨expr x, List.mem_cons_self, ih⟩)
    | case2 e hnot =>
      rw [Expr.unparen]
      · exact Reaches.refl _ _
      · exact hnot

theorem names_of_namedVar? (h : e.namedVar? = some v) : (expr e).Names v := by
  unfold Expr.namedVar? at h
  split at h
  · rename_i i name u heq
    have hunparen : Reaches Part (expr e) (expr e.unparen) := reaches_unparen (expr e)
    split at h
    · cases h
    · obtain rfl := Option.some.inj h
      exact ⟨i, name, heq ▸ hunparen⟩
  · cases h

end Phrase

/-- A declaration, as the function literal that it gives a name to. -/
def FuncDecl.literal (d : FuncDecl) : Expr :=
  .funcLit { d.piece with } d.params (d.body.getD []) d.graph

/-- What holds of a declaration that was parsed and type-checked.

* Its pieces of syntax have numbers of their own.
* Its expressions have the form that goes with their meaning.
* Parameters are declared in functions.
* One identity is that of one variable. -/
structure FuncDecl.Checked (d : FuncDecl) : Prop where
  numbers : d.numbers.Nodup
  regular : (Phrase.expr d.literal).Regular
  params : ∀ v, (Phrase.expr d.literal).Names v → (Phrase.expr d.literal).Declares v.id →
    v.scope = .inner
  objects : ∀ v u, (Phrase.expr d.literal).Names v → (Phrase.expr d.literal).Names u →
    v.id = u.id → v = u

/-! ## Checking a declaration -/

namespace Phrase

/-- The phrases within a phrase, down to a depth. -/
def within : Nat → Phrase → List Phrase
  | 0, p => [p]
  | depth + 1, p => p :: p.parts.flatMap (within depth)

/-- Whether the phrase has no phrases below the depth. -/
def endsWithin : Nat → Phrase → Bool
  | 0, p => p.parts.isEmpty
  | depth + 1, p => p.parts.all (endsWithin depth)

def var? : Phrase → Option VarObject
  | expr (.ident _ _ (some (.var v))) => some v
  | _ => none

def params : Phrase → List Nat
  | expr (.funcLit _ params _ _) => params
  | _ => []

variable {p q : Phrase} {depth : Nat}

theorem mem_within (h : p.endsWithin depth = true) (hq : Reaches Part p q) :
    q ∈ p.within depth := by
  induction depth generalizing p with
  | zero =>
    rcases Reaches.head_iff.1 hq with rfl | ⟨r, hr, -⟩
    · exact List.mem_singleton_self _
    · rw [Part, List.isEmpty_iff.1 h] at hr
      cases hr
  | succ depth ih =>
    rcases Reaches.head_iff.1 hq with rfl | ⟨r, hr, hrq⟩
    · exact List.mem_cons_self
    · exact List.mem_cons_of_mem _ (List.mem_flatMap.2 ⟨r, hr, ih (List.all_eq_true.1 h r hr) hrq⟩)

end Phrase

/-- The phrases of a declaration are looked through one by one. A table that has every identity once
tells that the variables are those of their identities. -/
theorem FuncDecl.Checked.of_within {d : FuncDecl} (depth : Nat) (table : Nat → VarObject)
    (ids : List Nat) (hends : (Phrase.expr d.literal).endsWithin depth = true)
    (hnumbers : d.numbers.Nodup)
    (hregular : ((Phrase.expr d.literal).within depth).all Phrase.isRegular = true)
    (htable : ∀ k, (table k).id = k)
    (hvars : ((Phrase.expr d.literal).within depth).filterMap Phrase.var? = ids.map table)
    (hparams : ∀ k ∈ ids, k ∈ ((Phrase.expr d.literal).within depth).flatMap Phrase.params →
      (table k).scope = .inner) : d.Checked := by
  have hnames : ∀ v, (Phrase.expr d.literal).Names v → v.id ∈ ids ∧ v = table v.id := by
    rintro v ⟨i, name, hv⟩
    have hmem : v ∈ ((Phrase.expr d.literal).within depth).filterMap Phrase.var? :=
      List.mem_filterMap.2 ⟨_, Phrase.mem_within hends hv, rfl⟩
    rw [hvars] at hmem
    obtain ⟨k, hk, rfl⟩ := List.mem_map.1 hmem
    rw [htable]
    exact ⟨hk, rfl⟩
  refine ⟨hnumbers, fun q hq => ?_, fun v hv hdeclares => ?_, fun v u hv hu hid => ?_⟩
  · exact List.all_eq_true.1 hregular q (Phrase.mem_within hends hq)
  · obtain ⟨hid, heq⟩ := hnames v hv
    obtain ⟨i, params, body, graph, hr, hk⟩ := hdeclares
    rw [heq]
    exact hparams v.id hid (List.mem_flatMap.2 ⟨_, Phrase.mem_within hends hr, hk⟩)
  · rw [(hnames v hv).2, (hnames u hu).2, hid]

end AwaitLint.Source
