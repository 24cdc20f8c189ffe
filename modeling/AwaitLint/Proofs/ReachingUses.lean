import AwaitLint.Flow.DataFlow
import AwaitLint.Proofs.BodyWalk
import AwaitLint.Proofs.TreeSearch

/-!
# AwaitLint — what the data-flow queries answer

The queries of `DataFlow` in terms of what instructions write and read. The sweeps only replace
the sets of reaching definitions, so a solved body keeps its links, instructions and facts
(`solve_eq`).

* **`mem_reachingFrom`** — a use that a definition reaches reads the variable, and the definition
  writes it, whatever the sets hold (`defines_of_mem_definitionsAt`).
* **`Writes`**, **`Reads`** — what an instruction does by its node alone (`mem_uses_resolve`).
* **`owner?_mem`** — owners are instructions of the body.
* **`mem_definedAt_or_shared`** — the variables of an assignment are found through its node, unless
  another writing instruction evaluates that node too.
-/

namespace AwaitLint.DataFlow

variable {df : DataFlow} {fe : FrontEnd} {b : Body} {i s : Instr} {d : Nat} {v : Option Variable}

/-! ## Sweeps keep the facts -/

theorem foldl_relax_eq (df : DataFlow) (os : List Nat) :
    ∃ sets, os.foldl relax df = { df with reachSets := sets } := by
  induction os generalizing df with
  | nil => exact ⟨df.reachSets, rfl⟩
  | cons o os ih =>
    obtain ⟨sets, hsets⟩ := ih (df.relax o)
    exact ⟨sets, by rw [List.foldl_cons, hsets]; rfl⟩

theorem saturate_eq (df : DataFlow) : ∃ sets, df.saturate = { df with reachSets := sets } := by
  induction df using saturate.induct with
  | case1 df next hgrown ih =>
    obtain ⟨swept, hswept⟩ := foldl_relax_eq df df.body.ordinals
    obtain ⟨sets, hsets⟩ := ih
    refine ⟨sets, ?_⟩
    unfold saturate
    rw [if_pos hgrown, hsets]
    show { df.sweep with reachSets := sets } = _
    rw [sweep, hswept]
  | case2 df next hdone =>
    unfold saturate
    rw [if_neg hdone]
    exact foldl_relax_eq df df.body.ordinals

/-- A solved body differs from a resolved one in the reaching sets only. -/
theorem solve_eq (fe : FrontEnd) (b : Body) :
    ∃ sets, solve fe b = { resolved fe b with reachSets := sets } :=
  saturate_eq _

theorem body_solve (fe : FrontEnd) (b : Body) : (solve fe b).body = b := by
  obtain ⟨sets, hsets⟩ := solve_eq fe b
  rw [hsets]
  rfl

theorem links_solve (fe : FrontEnd) (b : Body) : (solve fe b).links = fe.links := by
  obtain ⟨sets, hsets⟩ := solve_eq fe b
  rw [hsets]
  rfl

/-- What a solved body knows of an instruction depends on its node alone. -/
theorem defUse_solve (hi : i ∈ b.instrs) : (solve fe b).defUse i.id = resolve fe i.node := by
  obtain ⟨sets, hsets⟩ := solve_eq fe b
  rw [hsets]
  show (b.instrs.map fun i => resolve fe i.node).getD i.id {} = _
  rw [List.getD_eq_getElem?_getD, List.getElem?_map, Body.getElem?_instrs hi]
  rfl

/-! ## What an instruction writes and reads -/

theorem mem_defs_of_defines : df.defines v d = true ↔ v ∈ (df.defUse d).defs := by
  simp [defines]

/-- The instruction writes `v`. -/
def Writes (fe : FrontEnd) (v : Option Variable) (i : Instr) : Prop := v ∈ (resolve fe i.node).defs

/-- The instruction reads `v`. -/
def Reads (fe : FrontEnd) (v : Option Variable) (i : Instr) : Prop := v ∈ (resolve fe i.node).uses

instance : Decidable (Writes fe v i) := inferInstanceAs (Decidable (v ∈ (resolve fe i.node).defs))

instance : Decidable (Reads fe v i) := inferInstanceAs (Decidable (v ∈ (resolve fe i.node).uses))

theorem defines_solve (hi : i ∈ b.instrs) : (solve fe b).defines v i.id = true ↔ Writes fe v i := by
  rw [mem_defs_of_defines, defUse_solve hi]
  rfl

theorem defines_solve_eq_false (hi : i ∈ b.instrs) :
    (solve fe b).defines v i.id = false ↔ ¬ Writes fe v i := by
  rw [← defines_solve hi, Bool.not_eq_true]

theorem reads_solve (hi : i ∈ b.instrs) : (solve fe b).reads v i.id = true ↔ Reads fe v i := by
  unfold reads
  rw [defUse_solve hi, List.contains_iff_mem]
  rfl

theorem uses_foldl_define (ts : List Node) (du : DefUse) :
    (ts.foldl (fun du t => du.define t.var) du).uses = du.uses := by
  induction ts generalizing du with
  | nil => rfl
  | cons t ts ih => exact ih (du.define t.var)

theorem mem_uses_foldl_use {cs : List Node} {du : DefUse} :
    v ∈ (cs.foldl (fun du c => du.use c.var) du).uses ↔ v ∈ du.uses ∨ ∃ c ∈ cs, c.var = v := by
  induction cs generalizing du with
  | nil => simp
  | cons c cs ih =>
    have hone : v ∈ (du.use c.var).uses ↔ v ∈ du.uses ∨ c.var = v := by
      show v ∈ DefUse.insertOnce du.uses c.var ↔ _
      unfold DefUse.insertOnce
      split
      · rename_i hold
        exact ⟨.inl, fun h => h.elim id fun heq => heq ▸ hold⟩
      · rw [List.mem_append, List.mem_singleton, eq_comm (a := v)]
    rw [List.foldl_cons, ih, hone, or_assoc]
    simp only [List.mem_cons, or_and_right, exists_or, exists_eq_left]

/-- An instruction reads what the front end says, and the members of its tree that are not
assigned. -/
theorem mem_uses_resolve {n : Node} :
    v ∈ (resolve fe n).uses ↔ v ∈ (fe.defUse n).uses ∨
      ∃ c ∈ n.findAll (fun c =>
        c.kind = .fieldRef && c.var.isSome && !fe.links.isAssignTarget c), c.var = v := by
  unfold resolve
  dsimp only
  rw [mem_uses_foldl_use, uses_foldl_define]

/-! ## Definitions and uses -/

theorem defines_of_mem_definitionsAt (h : d ∈ df.definitionsAt i v) : df.defines v d = true := by
  unfold definitionsAt at h
  cases hprev : df.previousDef? i v with
  | none =>
    rw [hprev] at h
    exact (List.mem_filter.1 h).2
  | some d' =>
    -- the nearest earlier writer is one of the filtered instructions
    rw [hprev] at h
    obtain rfl := List.mem_singleton.1 h
    obtain ⟨j, hj, rfl⟩ := Option.map_eq_some_iff.1 hprev
    have hin := (List.mem_filter.1 (List.mem_of_getLast? hj)).2
    exact (Bool.and_eq_true _ _ ▸ hin).2

/-- Every asked variable counts that the instruction reads; without symbols, all of them do. -/
theorem mem_reachingTo_symbols {symbols : List (Option Variable)} :
    d ∈ df.reachingTo i symbols ↔
      ∃ v, (symbols = [] ∨ v ∈ symbols) ∧ df.reads v i.id = true ∧ d ∈ df.definitionsAt i v := by
  unfold reachingTo
  rw [List.mem_eraseDups, List.mem_flatMap]
  refine exists_congr fun v => ?_
  cases symbols with
  | nil => simp [reads]
  | cons w ws => simp [and_assoc]

theorem mem_reachingTo :
    d ∈ df.reachingTo i [v] ↔ df.reads v i.id = true ∧ d ∈ df.definitionsAt i v := by
  rw [mem_reachingTo_symbols]
  simp

theorem mem_reachingFrom :
    s ∈ df.reachingFrom d [v] ↔
      s ∈ df.body.instrs ∧ df.reads v s.id = true ∧ d ∈ df.definitionsAt s v := by
  unfold reachingFrom
  rw [List.mem_filter, List.contains_iff_mem, ← mem_reachingTo]
  rfl

theorem mem_instrs_of_mem_reachingFrom {symbols : List (Option Variable)}
    (h : s ∈ df.reachingFrom d symbols) : s ∈ df.body.instrs :=
  (List.mem_filter.1 h).1

theorem mem_definitionsOf :
    i ∈ df.definitionsOf v ↔ i ∈ df.body.instrs ∧ df.defines v i.id = true :=
  List.mem_filter

/-! ## Owners -/

theorem ownerWhere?_some {p : Instr → Bool} {n : Node} (h : df.ownerWhere? p n = some i) :
    i ∈ df.body.instrs ∧ p i = true ∧ i.node.contains (df.anchor n) = true := by
  unfold ownerWhere? at h
  refine ⟨List.mem_of_find?_eq_some h, ?_⟩
  have hacc := List.find?_some h
  rwa [Bool.and_eq_true] at hacc

theorem owner?_mem {n : Node} (h : df.owner? n = some i) : i ∈ df.body.instrs :=
  (ownerWhere?_some h).1

/-- No instruction before the owner contains the node. -/
theorem owner?_first {n : Node} {j : Instr} (h : df.owner? n = some i) (hj : j ∈ df.body.instrs)
    (hlt : j.id < i.id) : j.node.contains (df.anchor n) = false := by
  unfold owner? ownerWhere? at h
  obtain ⟨-, before, after, hsplit, hnot⟩ := List.find?_eq_some_iff_append.1 h
  have hsorted := df.body.pairwise_instrs
  rw [hsplit] at hj hsorted
  rcases List.mem_append.1 hj with hj | hj
  · simpa using hnot j hj
  · -- the owner and what follows it have no smaller number
    rcases List.mem_cons.1 hj with rfl | hj
    · exact absurd hlt (Nat.lt_irrefl _)
    · have hgt := (List.pairwise_cons.1 (List.pairwise_append.1 hsorted).2.1).1 j hj
      omega

/-- Only a collection literal inside a creation is looked up through another node. -/
theorem anchor_eq_self {n : Node}
    (h : ¬ (n.kind = .collection ∧ ∃ p, df.links.parent? n = some p ∧ p.kind = .new)) :
    df.anchor n = n := by
  unfold anchor
  cases hp : df.links.parent? n with
  | none => rfl
  | some p =>
    show (if _ then p else n) = n
    rw [if_neg]
    simp only [Bool.and_eq_true, decide_eq_true_eq]
    exact fun hboth => h ⟨hboth.1, p, hp, hboth.2⟩

/-- A variable that an assignment writes is found through its node, or another instruction that
writes something evaluates the node as well. -/
theorem mem_definedAt_or_shared (hi : i ∈ df.body.instrs) (hkind : i.node.kind = .assign)
    (hv : df.defines v i.id = true) :
    v ∈ df.definedAt i.node ∨ ∃ j ∈ df.body.instrs, j ≠ i ∧ (df.defUse j.id).defs ≠ [] ∧
      j.node.contains i.node = true := by
  have hanchor : df.anchor i.node = i.node := anchor_eq_self (by simp [hkind])
  have hmem : v ∈ (df.defUse i.id).defs := mem_defs_of_defines.1 hv
  have hdefs : (!(df.defUse i.id).defs.isEmpty) = true := by
    rw [Bool.not_eq_true', List.isEmpty_eq_false_iff]
    exact List.ne_nil_of_mem hmem
  unfold definedAt
  cases hfind : df.ownerWhere? (fun i => !(df.defUse i.id).defs.isEmpty) i.node with
  | none =>
    -- the search cannot fail: the assignment itself is accepted
    have hnot : ¬ (!(df.defUse i.id).defs.isEmpty && i.node.contains (df.anchor i.node)) = true :=
      List.find?_eq_none.1 hfind i hi
    rw [hanchor, hdefs, Node.contains_self] at hnot
    exact absurd rfl hnot
  | some j =>
    by_cases hji : j = i
    · left
      rw [hji]
      exact hmem
    · right
      obtain ⟨hj, hacc, hcontains⟩ := ownerWhere?_some hfind
      rw [hanchor] at hcontains
      rw [Bool.not_eq_true', List.isEmpty_eq_false_iff] at hacc
      exact ⟨j, hj, hji, hacc, hcontains⟩

end AwaitLint.DataFlow

namespace AwaitLint.Sample

/-- A local variable of sample programs, of a type that is tracked by default. -/
def taskNamed (name : String) : Variable :=
  ⟨0, name, .local, .named "github.com/mpyw/mustawait/future.Task"⟩

end AwaitLint.Sample
