import AwaitLint.Proofs.LoweredWrites

/-!
# AwaitLint — the variables that an instruction defines

What the front end reports as written by an instruction, compared with what its source writes.

* **`traces_lowerDecl`** — the nodes of a declaration write what its phrases write.
* **`Function.definitions_exact`** — the headline.
-/

namespace AwaitLint

namespace Source

open Node

theorem traces_lowerDecl (c : Config) {d : FuncDecl} (h : (Phrase.expr d.literal).Regular) :
    (lowerDecl c d).Traces ⟨c, []⟩ (.expr d.literal) := by
  have hbody : (lowerStmts ⟨c, d.params⟩ (d.body.getD [])).Follows ⟨c, d.params ++ []⟩
      (lowerStmts ⟨c, d.params⟩ (d.body.getD [])).value ((d.body.getD []).map .stmt) [] := by
    rw [List.append_nil]
    exact follows_lowerStmts ⟨c, d.params⟩ (d.body.getD []) fun _ hq => h.part hq
  exact traces_function (.note hbody rfl) rfl rfl rfl rfl

section Checked

variable {d : FuncDecl} {s : Scope} {p : Phrase} {e : Expr} {v : VarObject} {w : Variable} {k : Nat}

theorem isMember_variable :
    (s.variable v).isMember = false ↔ v.id ∈ s.params ∨ v.scope = .inner := by
  unfold Variable.isMember Scope.variable
  dsimp only
  by_cases hparam : v.id ∈ s.params
  · rw [if_pos (List.contains_iff_mem.2 hparam)]
    simp [hparam]
  · rw [if_neg (mt List.contains_iff_mem.1 hparam)]
    cases v.scope <;> simp [hparam]

/-- In a scope of declared parameters, an expression denotes the local that it names. -/
theorem FuncDecl.Checked.denotes_iff (hd : d.Checked)
    (hs : ∀ k ∈ s.params, (Phrase.expr d.literal).Declares k)
    (he : Reaches Phrase.Part (.expr d.literal) (.expr e)) :
    (∃ w, e.Denotes s w ∧ w.id = k) ↔ e.NamesLocal k := by
  constructor
  · rintro ⟨w, ⟨v, hv, rfl, hlocal⟩, rfl⟩
    refine ⟨v, hv, ?_, rfl⟩
    rcases isMember_variable.1 hlocal with hparam | hscope
    · exact hd.params v ((Phrase.names_of_namedVar? hv).of_reaches he) (hs _ hparam)
    · exact hscope
  · rintro ⟨v, hv, hscope, rfl⟩
    exact ⟨s.variable v, ⟨v, hv, rfl, isMember_variable.2 (.inr hscope)⟩, rfl⟩

theorem FuncDecl.Checked.has_iff (hd : d.Checked)
    (hs : ∀ k ∈ s.params, (Phrase.expr d.literal).Declares k)
    (hp : Reaches Phrase.Part (.expr d.literal) p) :
    (∃ w, p.Has Phrase.marked (Expr.Denotes s w) ∧ w.id = k) ↔
      p.Has Phrase.marked (Expr.NamesLocal k) := by
  constructor
  · rintro ⟨w, ⟨q, hq, e, he, hw⟩, hid⟩
    exact ⟨q, hq, e, he, (hd.denotes_iff hs (Phrase.reaches_marked hp hq he)).1 ⟨w, hw, hid⟩⟩
  · rintro ⟨q, hq, e, he, hnames⟩
    obtain ⟨w, hw, hid⟩ := (hd.denotes_iff hs (Phrase.reaches_marked hp hq he)).2 hnames
    exact ⟨w, ⟨q, hq, e, he, hw⟩, hid⟩

/-- Within a declaration, the variables of a scope are told apart by their identities. -/
theorem FuncDecl.Checked.eq_of_id_eq {e' : Expr} {w' : Variable} (hd : d.Checked)
    (he : Reaches Phrase.Part (.expr d.literal) (.expr e)) (hw : e.Denotes s w)
    (he' : Reaches Phrase.Part (.expr d.literal) (.expr e')) (hw' : e'.Denotes s w')
    (hid : w.id = w'.id) : w = w' := by
  obtain ⟨v, hv, rfl, -⟩ := hw
  obtain ⟨v', hv', rfl, -⟩ := hw'
  rw [hd.objects v v' ((Phrase.names_of_namedVar? hv).of_reaches he)
    ((Phrase.names_of_namedVar? hv').of_reaches he') hid]

/-- The scope within a phrase is made of declared parameters, if the scope around it is. -/
theorem declares_of_mem_scope (hp : Reaches Phrase.Part (.expr d.literal) p)
    (hs : ∀ k ∈ s.params, (Phrase.expr d.literal).Declares k) :
    ∀ k ∈ (p.scope s).params, (Phrase.expr d.literal).Declares k := by
  cases p with
  | stmt t => exact hs
  | expr e =>
    have he : Reaches Phrase.Part (.expr d.literal) (.expr e.unparen) :=
      hp.trans (Phrase.reaches_unparen (.expr e))
    show ∀ k ∈ (e.unparen.scope s).params, _
    cases heq : e.unparen with
    | funcLit i params body graph =>
      intro k hk
      rcases List.mem_append.1 hk with hk | hk
      · exact ⟨i, params, body, graph, heq ▸ he, hk⟩
      · exact hs k hk
    | _ => exact hs

end Checked

namespace Function

variable {f : Function} {c : Config} {d : FuncDecl} {n : Node}

/-- The identities of the variables that the node is reported to write. -/
def definedIds (f : Function) (n : Node) : List (Option Nat) :=
  (f.frontEnd.defUse n).defs.map (Option.map Variable.id)

theorem mem_definedIds {k : Nat} :
    some k ∈ f.definedIds n ↔ ∃ w, some w ∈ (f.frontEnd.defUse n).defs ∧ w.id = k := by
  unfold definedIds
  simp [List.mem_map, Option.map_eq_some_iff]

/-- What a body evaluates was noted for a piece of syntax, and is no target of an assignment. -/
theorem exists_lowered? {nodes : List FlowNode} (h : n ∈ f.evaluated nodes) :
    ∃ l, f.lowered? l.number = some l ∧ l.node = n ∧ f.links.isAssignTarget n = false := by
  obtain ⟨hmem, htarget⟩ := List.mem_filter.1 h
  obtain ⟨l, hl, rfl⟩ := List.mem_map.1 hmem
  obtain ⟨flow, -, hflow⟩ := List.mem_filterMap.1 hl
  have hlowered : ∃ number, f.lowered? number = some l := by
    cases flow with
    | implicitReturn => cases hflow
    | piece number | returnStmt number => exact ⟨number, hflow⟩
  obtain ⟨number, hnumber⟩ := hlowered
  have hfound := List.find?_some hnumber
  rw [← beq_iff_eq.1 hfound] at hnumber
  exact ⟨l, hnumber, rfl, by simpa using htarget⟩

/-! ### A node and its phrase -/

section Rendered

variable {s : Scope} {p : Phrase} {w : Variable} {k : Nat}

/-- The variables reported for a node that is no target, in the terms of its syntax. -/
theorem mem_defs_of_renders (hids : (ofDecl c d).root.ids.Nodup)
    (hn : Reaches Child (ofDecl c d).root n) (htarget : (ofDecl c d).links.isAssignTarget n = false)
    (h : Renders s n p) :
    some w ∈ ((ofDecl c d).frontEnd.defUse n).defs ↔
      p.unparen.Has Phrase.marked (Expr.Denotes (p.scope s) w) ∨
        (∃ e, p = .expr e ∧ e.Denotes (p.scope s) w) ∧
          ((ofDecl c d).links.parent? n).any isAddressOf = true := by
  have hlinked : LinkedWrite (ofDecl c d).links n ↔
      ((ofDecl c d).links.parent? n).any isAddressOf = true := by
    unfold LinkedWrite
    rw [htarget]
    exact or_iff_right nofun
  refine (mem_defs_iff hids hn).trans (or_congr (h.writes w) (and_congr ?_ hlinked))
  refine (h.refers w).trans (exists_congr fun e => and_congr_right fun hp => ?_)
  rw [hp]
  exact denotes_scope_iff.symm

theorem nodup_definedIds (hd : d.Checked) (hp : Reaches Phrase.Part (.expr d.literal) p)
    (hn : Reaches Child (ofDecl c d).root n) (htarget : (ofDecl c d).links.isAssignTarget n = false)
    (h : Renders s n p) : ((ofDecl c d).definedIds n).Nodup := by
  have hids : (ofDecl c d).root.ids.Nodup := nodup_ids_lowerDecl c hd.numbers
  have hdenotes : ∀ w, some w ∈ ((ofDecl c d).frontEnd.defUse n).defs →
      ∃ e, Reaches Phrase.Part (.expr d.literal) (.expr e) ∧ e.Denotes (p.scope s) w := by
    intro w hw
    rcases (mem_defs_of_renders hids hn htarget h).1 hw with ⟨q, hq, e, he, hw⟩ | ⟨⟨e, rfl, hw⟩, -⟩
    · exact ⟨e, Phrase.reaches_marked (hp.trans (Phrase.reaches_unparen p)) hq he, hw⟩
    · exact ⟨e, hp, hw⟩
  refine (nodup_defs (ofDecl c d).links n).map_on fun x hx y hy hxy => ?_
  cases x with
  | none => exact (Option.map_eq_none_iff.1 hxy.symm).symm
  | some w =>
    obtain ⟨w', rfl, hid⟩ := Option.map_eq_some_iff.1 hxy.symm
    obtain ⟨e, he, hw⟩ := hdenotes w hx
    obtain ⟨e', he', hw'⟩ := hdenotes w' hy
    rw [hd.eq_of_id_eq he hw he' hw' hid.symm]

theorem mem_definedIds_iff (hd : d.Checked) (hp : Reaches Phrase.Part (.expr d.literal) p)
    (hs : ∀ k ∈ s.params, (Phrase.expr d.literal).Declares k)
    (hn : Reaches Child (ofDecl c d).root n) (htarget : (ofDecl c d).links.isAssignTarget n = false)
    (h : Renders s n p) :
    some k ∈ (ofDecl c d).definedIds n ↔
      p.unparen.Has Phrase.marked (Expr.NamesLocal k) ∨
        (∃ e, p = .expr e ∧ e.NamesLocal k) ∧
          ((ofDecl c d).links.parent? n).any isAddressOf = true := by
  have hids : (ofDecl c d).root.ids.Nodup := nodup_ids_lowerDecl c hd.numbers
  have hscope := declares_of_mem_scope hp hs
  have hhas := hd.has_iff (k := k) hscope (hp.trans (Phrase.reaches_unparen p))
  rw [mem_definedIds]
  simp only [mem_defs_of_renders hids hn htarget h, or_and_right, exists_or]
  refine or_congr hhas ?_
  constructor
  · rintro ⟨w, ⟨⟨e, rfl, hw⟩, hparent⟩, hid⟩
    exact ⟨⟨e, rfl, (hd.denotes_iff hscope hp).1 ⟨w, hw, hid⟩⟩, hparent⟩
  · rintro ⟨⟨e, rfl, hnames⟩, hparent⟩
    obtain ⟨w, hw, hid⟩ := (hd.denotes_iff hscope hp).2 hnames
    exact ⟨w, ⟨⟨e, rfl, hw⟩, hparent⟩, hid⟩

end Rendered

/-- **The headline.** Let the declaration be parsed and type-checked, and let a body of it execute
an instruction.

* No variable is reported twice.
* The instruction stands for a phrase of the declaration. Reported are the locals and parameters
  that the phrase writes, outside function literals nested in it. Reported beside them are the
  operands of a binary `&` in the phrase, which are not written, and the phrase itself where it is a
  name and an operand of `&`. -/
theorem definitions_exact (c : Config) {d : FuncDecl} (hd : d.Checked) {fn : Node} {b : Body}
    {i : Instr} (hb : (ofDecl c d).bodyOf fn = .ok b) (hi : i ∈ b.instrs) :
    let f := ofDecl c d
    (f.definedIds i.node).Nodup ∧
    ∃ p, Reaches Phrase.Part (.expr d.literal) p ∧ f.nodeOf? p.number = some i.node ∧
      ∀ k, some k ∈ f.definedIds i.node ↔
        p.Writes k ∨ p.Conjoins k ∨
          (∃ e, p = .expr e ∧ e.NamesLocal k) ∧
            (f.links.parent? i.node).any isAddressOf = true := by
  intro f
  obtain ⟨g, hg⟩ := blocks_of_bodyOf hb
  obtain ⟨nodes, hnodes⟩ := exists_mem_evaluated hg hi
  obtain ⟨l, hl, hnode, htarget⟩ := exists_lowered? hnodes
  have hn : Reaches Child f.root i.node := hnode ▸ reaches_of_lowered? hl
  have hpiece : l ∈ (lowerDecl c d).trace.pieces :=
    List.mem_reverse.1 (List.mem_of_find?_eq_some hl)
  obtain ⟨p, s, hp, hnumber, hs, hrenders⟩ := (traces_lowerDecl c hd.regular).stems l hpiece
  rw [hnode] at hrenders
  refine ⟨nodup_definedIds hd hp hn htarget hrenders, p, hp, ?_, fun k => ?_⟩
  · show (f.lowered? p.number).map (·.node) = some i.node
    rw [hnumber, hl, ← hnode]
    rfl
  · -- around the declaration there are no parameters
    have hdeclared : ∀ k ∈ s.params, (Phrase.expr d.literal).Declares k := fun k hk =>
      (hs k hk).resolve_left List.not_mem_nil
    rw [← or_assoc]
    exact (mem_definedIds_iff hd hp hdeclared hn htarget hrenders).trans
      (or_congr_left Phrase.has_marked_iff)

/-! ### A loop with a mask -/

namespace Mask

def names : List String := ["x", "y", "xs", "z", "i", "v", "f", "total", "p"]

/-- All variables are those of functions, but for `total`. -/
def var (k : Nat) : VarObject where
  id := k
  name := names.getD k ""
  type := .basic "int"
  scope := if k = 7 then .package else .inner

def ref (k v : Nat) : Expr := .ident { Piece.onLine k with } (names.getD v "") (some (.var (var v)))

/-- `z := x & y` -/
def conjunction : Stmt :=
  .assign (.onLine 1) ":=" [ref 2 3] [.binary { Piece.onLine 3 with } "&" (ref 4 0) (ref 5 1)]

/-- `f := func(p *int) { v++ }` -/
def literal : Stmt :=
  .assign (.onLine 20) ":=" [ref 21 6]
    [.funcLit { Piece.onLine 22 with } [8] [.incDec (.onLine 23) "++" (ref 24 5)] none]

/-- `total, x = f(&(v)), y` -/
def address : Stmt :=
  .assign (.onLine 30) "=" [ref 31 7, ref 32 0]
    [.call { Piece.onLine 33 with } (ref 34 6)
      [.unary { Piece.onLine 35 with } "&" (.paren { Piece.onLine 36 with } (ref 37 5))] none,
      ref 38 1]

/-- `for i, v := range xs { ... }` -/
def loop : Stmt :=
  .range (.onLine 10) (some (ref 11 4)) (some (ref 12 5)) (ref 13 2)
    (.block (.onLine 14) [literal, address])

def graph : FlowGraph :=
  [⟨[.piece 1, .piece 13], [1], true⟩, ⟨[], [2, 3], true⟩,
    ⟨[.piece 11, .piece 12, .piece 20, .piece 30], [1], true⟩, ⟨[.implicitReturn], [], true⟩]

def decl : FuncDecl where
  piece := .onLine 0
  name := "mask"
  params := [0, 1, 2]
  body := some [conjunction, loop]
  graph := some graph

theorem checked : decl.Checked :=
  .of_within 8 var [3, 0, 1, 4, 5, 2, 6, 5, 7, 0, 6, 5, 1] (by decide +kernel) (by decide)
    (by decide +kernel) (fun _ => rfl) rfl (by decide +kernel)

end Mask

theorem mask_defines :
    Mask.decl.Checked ∧
    ∃ b, (ofDecl {} Mask.decl).bodyOf (ofDecl {} Mask.decl).root = .ok b ∧
      (b.instrs.map fun i => (ofDecl {} Mask.decl).definedIds i.node) =
        [[some 3, some 0, some 1], [], [some 4], [some 5], [some 6], [some 0, some 5]] ∧
      ∀ i ∈ b.instrs, ∃ p, Reaches Phrase.Part (.expr Mask.decl.literal) p ∧
        (ofDecl {} Mask.decl).nodeOf? p.number = some i.node ∧
        ∀ k, some k ∈ (ofDecl {} Mask.decl).definedIds i.node ↔
          p.Writes k ∨ p.Conjoins k ∨ (∃ e, p = .expr e ∧ e.NamesLocal k) ∧
            ((ofDecl {} Mask.decl).links.parent? i.node).any isAddressOf = true := by
  have hrun : (((ofDecl {} Mask.decl).bodyOf (ofDecl {} Mask.decl).root).toOption.map fun b =>
      b.instrs.map fun i => (ofDecl {} Mask.decl).definedIds i.node) =
        some [[some 3, some 0, some 1], [], [some 4], [some 5], [some 6], [some 0, some 5]] := by
    decide +kernel
  obtain ⟨b, hb, hdefs⟩ := Option.map_eq_some_iff.1 hrun
  have hb := eq_ok_of_toOption hb
  exact ⟨Mask.checked, b, hb, hdefs, fun i hi => (definitions_exact {} Mask.checked hb hi).2⟩

/-- The operands of the first statement are reported as written, although it writes `z` alone. -/
theorem operand_reported_as_defined :
    Mask.decl.Checked ∧ Reaches Phrase.Part (.expr Mask.decl.literal) (.stmt Mask.conjunction) ∧
    (∃ b, (ofDecl {} Mask.decl).bodyOf (ofDecl {} Mask.decl).root = .ok b ∧
      ∃ i ∈ b.instrs,
        (ofDecl {} Mask.decl).nodeOf? (Phrase.stmt Mask.conjunction).number = some i.node ∧
        some 0 ∈ (ofDecl {} Mask.decl).definedIds i.node) ∧
    ¬ (Phrase.stmt Mask.conjunction).Writes 0 := by
  refine ⟨Mask.checked, ?_, ⟨_, rfl, ?_⟩, ?_⟩
  · exact Reaches.head_iff.2 (.inr ⟨_, List.mem_cons_self, Reaches.refl _ _⟩)
  · let n := (lowerStmt ⟨{}, [0, 1, 2]⟩ Mask.conjunction).value
    refine ⟨⟨0, 1, 0, n⟩, Body.mem_instrs.2 ⟨_, rfl, ?_, rfl⟩, rfl, by decide +kernel⟩
    have htarget : (ofDecl {} Mask.decl).links.isAssignTarget n = false := by decide +kernel
    rw [evaluated_blockOf]
    show (([n, _] : List Node).filter _)[0]? = some n
    rw [List.filter_cons_of_pos (by rw [htarget]; rfl)]
    rfl
  · rintro ⟨q, hq, e, he, v, hv, -, hid⟩
    have hall : ∀ q ∈ (Phrase.stmt Mask.conjunction).within 3, ∀ e ∈ q.written,
        e.namedVar?.all (fun v => v.id != 0) = true := by
      decide +kernel
    have hother := hall q (Phrase.mem_within (by decide +kernel) (Phrase.reaches_of_inner hq)) e he
    rw [hv] at hother
    exact bne_iff_ne.1 hother hid

end Function

end Source

end AwaitLint
