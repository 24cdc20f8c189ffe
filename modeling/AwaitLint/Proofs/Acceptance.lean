import AwaitLint.Proofs.PostDominance
import AwaitLint.Proofs.ReachingUses
import AwaitLint.Verdict

/-!
# AwaitLint — what an accepted value has gone through

Each acceptance test of `AwaitLint/Verdict.lean` is inverted once, with everything that it has
checked when it says yes. What follows from a verdict is derived from these lemmas, without
opening the tests again.

* **`decide_judged`** — a verdict about variables or lists comes from `Analysis.judge`, on the
  control and data flow of the body around the target (`around_inv`).
* **`judge_viaVariable`**, **`mem_sourceVars`**, **`consumedIn_inv`** — every tracked variable of
  the source has a use, and its uses are accepted directly or through lists.
* **`viaList_inv`**, **`awaitsList_inv`**, **`listAwaitedAfter_inv`** — an item has an add site,
  the site is reached, and an instruction that post-dominates its owner awaits a whole list.
-/

namespace AwaitLint

/-! ## Decisions with faults -/

section Faults

variable {ε α β : Type} {f : α → Except ε Bool} {l : List α}

/-- A computation with a result is a first part with a result and the rest. -/
theorem bind_eq_ok {x : Except ε α} {g : α → Except ε β} {r : β} :
    (x >>= g) = .ok r ↔ ∃ y, x = .ok y ∧ g y = .ok r := by
  cases x with
  | error e => exact ⟨nofun, nofun⟩
  | ok y => exact ⟨fun h => ⟨y, rfl, h⟩, fun ⟨_, hy, h⟩ => Except.ok.inj hy ▸ h⟩

theorem eq_ok_of_toOption {x : Except ε α} {y : α} (h : x.toOption = some y) : x = .ok y := by
  cases x with
  | error e => cases h
  | ok z => exact congrArg Except.ok (Option.some.inj h)

theorem allM_eq_true : l.allM f = .ok true ↔ ∀ x ∈ l, f x = .ok true := by
  induction l with
  | nil => exact ⟨fun _ => nofun, fun _ => rfl⟩
  | cons x l ih =>
    rw [List.forall_mem_cons, ← ih, List.allM, bind_eq_ok]
    constructor
    · intro ⟨y, hx, h⟩
      cases y with
      | false => cases h
      | true => exact ⟨hx, h⟩
    · intro ⟨hx, h⟩
      exact ⟨true, hx, h⟩

theorem exists_of_anyM_eq_true (h : l.anyM f = .ok true) : ∃ x ∈ l, f x = .ok true := by
  induction l with
  | nil => cases h
  | cons x l ih =>
    rw [List.anyM, bind_eq_ok] at h
    obtain ⟨y, hx, h⟩ := h
    cases y with
    | true => exact ⟨x, List.mem_cons_self, hx⟩
    | false =>
      obtain ⟨z, hz, hfz⟩ := ih h
      exact ⟨z, List.mem_cons_of_mem _ hz, hfz⟩

end Faults

/-! ## The decision -/

variable {c : Config} {fe : FrontEnd} {target : Node} {d : Decision}

/-- A verdict about variables or lists is the judgement on the owner of the target. -/
theorem Config.decide_judged (h : c.decide fe target = .ok d)
    (hverdict : d.verdict = .viaVariable ∨ d.verdict = .viaList) :
    ∃ a owner, Analysis.around c fe target = .ok a ∧ a.df.owner? target = some owner ∧
      a.judge owner target = .ok d.verdict := by
  unfold Config.decide at h
  -- the early exits give other verdicts
  split at h
  · cases h
    simp at hverdict
  split at h
  · cases h
    simp at hverdict
  split at h
  · cases h
    simp at hverdict
  split at h
  · cases h
  · cases h
    simp at hverdict
  · rename_i a ha
    split at h
    · cases h
      simp at hverdict
    · rename_i owner howner
      obtain ⟨verdict, hjudge, hd⟩ := bind_eq_ok.1 h
      cases hd
      exact ⟨a, owner, ha, howner, hjudge⟩

/-- The node awaits a call that combines tracked values, or a local list of tracked values; a
conversion may stand in between. -/
def Config.AwaitsWholeList (c : Config) (n : Node) : Prop :=
  n.kind = .await ∧ ∃ x,
    (n.operand = some x ∨ ∃ y, n.operand = some y ∧ y.kind = .conversion ∧ y.operand = some x) ∧
    (x.kind = .call ∧ c.isBulkAwait x.name = true ∧ c.tracks x.type = true ∨
      x.kind = .localRef ∧ ∃ v, x.var = some v ∧ c.isList v.type = true)

namespace Analysis

variable {a : Analysis} {b : Body} {owner source s : Instr} {v : Variable} {item n : Node}

/-- The control flow and the data flow of an analysis are those of one body. -/
theorem around_inv (h : around c fe target = .ok a) :
    ∃ b, ControlFlow.ofBody b = .ok a.cf ∧ a.df.body = b ∧ a.config = c ∧
      a.links = fe.links := by
  unfold around at h
  split at h
  · cases h
  · rename_i cf hcf
    cases h
    obtain ⟨b, hb⟩ : ∃ b, ControlFlow.ofBody b = .ok cf := by
      unfold ControlFlow.around at hcf
      dsimp only at hcf
      split at hcf
      · cases hcf
      · split at hcf
        · cases hcf
        · exact ⟨_, hcf⟩
    refine ⟨b, hb, ?_, rfl, rfl⟩
    show (DataFlow.solve fe cf.body).body = b
    rw [DataFlow.body_solve, ControlFlow.body_eq hb]

theorem judge_viaVariable (h : a.judge owner target = .ok .viaVariable) :
    ∃ vars, vars ≠ [] ∧ a.sourceVars (a.source owner target) = .ok vars ∧
      ∀ v ∈ vars, a.consumedIn (a.source owner target) v = .ok true := by
  obtain ⟨vars, hvars, h⟩ := bind_eq_ok.1 h
  cases vars with
  | nil =>
    -- without variables the value is looked for in a list
    obtain ⟨inList, -, h⟩ := bind_eq_ok.1 h
    cases inList <;> cases h
  | cons v vs =>
    obtain ⟨accepted, hall, h⟩ := bind_eq_ok.1 h
    cases accepted with
    | false => cases h
    | true => exact ⟨v :: vs, nofun, hvars, allM_eq_true.1 hall⟩

theorem judge_viaList (h : a.judge owner target = .ok .viaList) : a.viaList target = .ok true := by
  obtain ⟨vars, -, h⟩ := bind_eq_ok.1 h
  cases vars with
  | nil =>
    obtain ⟨inList, hlist, h⟩ := bind_eq_ok.1 h
    cases inList with
    | false => cases h
    | true => exact hlist
  | cons v vs =>
    obtain ⟨accepted, -, h⟩ := bind_eq_ok.1 h
    cases accepted <;> cases h

/-! ## Variables of the source -/

theorem mem_varsWhere {p : ValueType → Bool} {vs : List (Option Variable)} {found : List Variable}
    (h : varsWhere p vs = .ok found) : v ∈ found ↔ some v ∈ vs ∧ p v.type = true := by
  induction vs generalizing found with
  | nil =>
    cases h
    simp
  | cons w vs ih =>
    cases w with
    | none => cases h
    | some w =>
      unfold varsWhere at h
      split at h
      · cases h
      · rename_i found' hrest
        have hmem := ih hrest
        cases h
        by_cases hp : p w.type = true
        · rw [if_pos hp, List.mem_cons, hmem, List.mem_cons, Option.some.injEq]
          constructor
          · intro hv
            rcases hv with hv | ⟨hv, hpv⟩
            · exact ⟨.inl hv, hv ▸ hp⟩
            · exact ⟨.inr hv, hpv⟩
          · intro ⟨hv, hpv⟩
            exact hv.imp_right fun hv => ⟨hv, hpv⟩
        · rw [if_neg hp, hmem, List.mem_cons, Option.some.injEq]
          constructor
          · intro ⟨hv, hpv⟩
            exact ⟨.inr hv, hpv⟩
          · intro ⟨hv, hpv⟩
            refine ⟨hv.resolve_left fun heq => ?_, hpv⟩
            exact hp (heq ▸ hpv)

/-- A source with variables is an assignment, and the variables are the tracked ones among those
found through its node. -/
theorem sourceVars_inv {vars : List Variable} (h : a.sourceVars source = .ok vars)
    (hne : vars ≠ []) :
    source.node.kind = .assign ∧
      ∀ v, v ∈ vars ↔ some v ∈ a.df.definedAt source.node ∧ a.config.tracks v.type = true := by
  unfold sourceVars at h
  split at h
  · rename_i hkind
    exact ⟨hkind, fun v => mem_varsWhere h⟩
  · cases h
    exact absurd rfl hne

/-- The source is an instruction of the body, also when it is found in a successor block. -/
theorem source_mem (hcf : ControlFlow.ofBody b = .ok a.cf) (howner : owner ∈ b.instrs) :
    a.source owner target ∈ b.instrs := by
  unfold source
  cases hcond : a.conditionalOwner? owner target with
  | none => exact howner
  | some i =>
    have hin : i ∈ a.cf.successorInstrs owner := List.mem_of_find?_eq_some hcond
    obtain ⟨o, -, hio⟩ := List.mem_flatMap.1 hin
    rw [ControlFlow.body_eq hcf] at hio
    exact (Body.mem_instrsOf.1 hio).1

/-- An accepted variable has uses, and they are accepted directly or each through a list. -/
theorem consumedIn_inv (h : a.consumedIn source v = .ok true) :
    a.df.reachingFrom source.id [some v] ≠ [] ∧
      (a.consumedDirectly source v (a.df.reachingFrom source.id [some v]) = true ∨
        ∀ s ∈ a.df.reachingFrom source.id [some v],
          ∃ ref, s.node.localRef? v = some ref ∧ a.viaList ref = .ok true) := by
  unfold consumedIn at h
  dsimp only at h
  split at h
  · cases h
  · rename_i huses
    refine ⟨fun hnil => huses (List.isEmpty_iff.2 hnil), ?_⟩
    split at h
    · rename_i hdirect
      exact .inl hdirect
    · right
      intro s hs
      have hlist := allM_eq_true.1 h s hs
      split at hlist
      · rename_i ref href
        exact ⟨ref, href, hlist⟩
      · cases hlist

theorem localRef?_some {m ref : Node} (h : m.localRef? v = some ref) :
    ref.kind = .localRef ∧ ref.var = some v := by
  have hacc := (Node.find?_some h).1
  rw [Bool.and_eq_true, decide_eq_true_eq, beq_iff_eq] at hacc
  exact hacc

/-! ## Post-dominators by number -/

/-- `listed` compares numbers, which is the same as comparing instructions of one body. -/
theorem listed_postDominators {cf : ControlFlow} {i : Instr} (hcf : ControlFlow.ofBody b = .ok cf)
    (hs : s ∈ b.instrs) : listed (cf.postDominators i) s = true ↔ s ∈ cf.postDominators i := by
  unfold listed
  rw [List.any_eq_true]
  constructor
  · intro ⟨j, hj, hid⟩
    have hjin : j ∈ b.instrs := ((ControlFlow.mem_postDominators hcf).1 hj).2.1
    rw [← Body.eq_of_id_eq hjin hs (beq_iff_eq.1 hid)]
    exact hj
  · intro h
    exact ⟨s, h, beq_self_eq_true s.id⟩

theorem mem_postDominators_of_listed {i : Instr} (hcf : ControlFlow.ofBody b = .ok a.cf)
    (hs : s ∈ b.instrs) (h : listed (a.cf.postDominators i) s = true) :
    s ∈ a.cf.postDominators i :=
  (listed_postDominators hcf hs).1 h

theorem consumedDirectly_inv {uses : List Instr} (hcf : ControlFlow.ofBody b = .ok a.cf)
    (h : a.consumedDirectly source v uses = true) (hs : s ∈ uses) (hin : s ∈ b.instrs) :
    s ∈ a.cf.postDominators source ∧
      (s.node.hasDirectAwait = true ∨ s.node.returnsVar v = true) := by
  have hboth := List.all_eq_true.1 h s hs
  rw [Bool.and_eq_true, Bool.or_eq_true] at hboth
  exact ⟨mem_postDominators_of_listed hcf hin hboth.1, hboth.2⟩

/-! ## Lists -/

/-- The node that stands at the add site for an item: the conversion around it, or itself. -/
def placed (a : Analysis) (item : Node) : Node :=
  match a.links.parent? item with
  | some p => if p.kind = .conversion then p else item
  | none => item

theorem placed_cases (a : Analysis) (item : Node) :
    a.placed item = item ∨
      a.links.parent? item = some (a.placed item) ∧ (a.placed item).kind = .conversion := by
  unfold placed
  cases hp : a.links.parent? item with
  | none => exact .inl rfl
  | some p =>
    by_cases hconv : p.kind = .conversion
    · right
      simp only [if_pos hconv]
      exact ⟨trivial, hconv⟩
    · exact .inl (if_neg hconv)

theorem placed_eq_self
    (h : ∀ p, a.links.parent? item = some p → p.kind ≠ .conversion) : a.placed item = item := by
  rcases a.placed_cases item with hsame | ⟨hp, hconv⟩
  · exact hsame
  · exact absurd hconv (h _ hp)

theorem viaList_eq (a : Analysis) (item : Node) :
    a.viaList item =
      match a.links.parent? (a.placed item) with
      | none => .ok false
      | some site =>
        match a.listAt site (a.placed item) with
        | .error f => .error f
        | .ok none => .ok false
        | .ok (some list) =>
          match a.df.owner? site with
          | none => .ok false
          | some owner =>
            if a.reachesSite (a.placed item) owner then a.listAwaitedAfter list owner
            else .ok false := rfl

theorem viaList_inv (h : a.viaList item = .ok true) :
    ∃ site list owner, a.links.parent? (a.placed item) = some site ∧
      a.listAt site (a.placed item) = .ok (some list) ∧ a.df.owner? site = some owner ∧
      a.reachesSite (a.placed item) owner = true ∧ a.listAwaitedAfter list owner = .ok true := by
  rw [viaList_eq] at h
  split at h
  · cases h
  · rename_i site hsite
    split at h
    · cases h
    · cases h
    · rename_i list hlist
      split at h
      · cases h
      · rename_i owner howner
        split at h
        · rename_i hreaches
          exact ⟨site, list, owner, hsite, hlist, howner, hreaches, h⟩
        · cases h

/-- The add site of a plain reference post-dominates every definition of its variable. -/
theorem reachesSite_inv (hcf : ControlFlow.ofBody b = .ok a.cf) (hbody : a.df.body = b)
    (h : a.reachesSite item owner = true) (hkind : item.kind = .localRef)
    (hvar : item.var = some v) (howner : owner ∈ b.instrs) (hs : s ∈ b.instrs)
    (hdef : a.df.defines (some v) s.id = true) : owner ∈ a.cf.postDominators s := by
  unfold reachesSite at h
  rw [hkind, hvar, Bool.or_eq_true, List.all_eq_true] at h
  have hall := h.resolve_left (by simp)
  refine mem_postDominators_of_listed hcf howner (hall s ?_)
  exact DataFlow.mem_definitionsOf.2 ⟨hbody ▸ hs, hdef⟩

/-- An expression without the conversion around it. -/
def unconverted (x : Node) : Node :=
  match x.operand with
  | some y => if x.kind = Kind.conversion then y else x
  | none => x

theorem unconverted_cases (x : Node) :
    unconverted x = x ∨ x.kind = .conversion ∧ x.operand = some (unconverted x) := by
  unfold unconverted
  cases hop : x.operand with
  | none => exact .inl rfl
  | some y =>
    by_cases hconv : x.kind = .conversion
    · right
      simp only [if_pos hconv]
      exact ⟨hconv, trivial⟩
    · exact .inl (if_neg hconv)

theorem awaitsList_eq (a : Analysis) (n : Node) :
    a.awaitsList n =
      if n.kind ≠ .await then .ok false
      else
        match n.operand with
        | none => .ok false
        | some x =>
          match (unconverted x).kind with
          | .call =>
            .ok (a.config.isBulkAwait (unconverted x).name && a.config.tracks (unconverted x).type)
          | .localRef => typeOf (unconverted x).var >>= fun t => .ok (a.config.isList t)
          | _ => .ok false := rfl

theorem awaitsList_inv (h : a.awaitsList n = .ok true) : a.config.AwaitsWholeList n := by
  rw [awaitsList_eq] at h
  split at h
  · cases h
  · rename_i hawait
    split at h
    · cases h
    · rename_i x hx
      refine ⟨Decidable.not_not.1 hawait, unconverted x, ?_, ?_⟩
      · rcases unconverted_cases x with hsame | hconv
        · left
          rw [hsame]
          exact hx
        · exact .inr ⟨x, hx, hconv⟩
      · split at h
        · rename_i hcall
          have hboth := Except.ok.inj h
          rw [Bool.and_eq_true] at hboth
          exact .inl ⟨hcall, hboth⟩
        · rename_i href
          obtain ⟨t, ht, hlist⟩ := bind_eq_ok.1 h
          unfold typeOf at ht
          split at ht
          · rename_i v hv
            cases ht
            exact .inr ⟨href, v, hv, Except.ok.inj hlist⟩
          · cases ht
        · cases h

/-- The await that an accepted list is credited with: a definition of the list reaches it, and it is
executed after the add site on every path. -/
theorem listAwaitedAfter_inv {list : Variable} (hcf : ControlFlow.ofBody b = .ok a.cf)
    (hbody : a.df.body = b) (h : a.listAwaitedAfter list owner = .ok true) :
    ∃ d ∈ a.df.definitionsOf (some list), ∃ s ∈ a.df.reachingFrom d.id [],
      s ∈ a.cf.postDominators owner ∧ ∃ n ∈ s.node.children, a.config.AwaitsWholeList n := by
  obtain ⟨d, hd, h⟩ := exists_of_anyM_eq_true h
  obtain ⟨s, hs, h⟩ := exists_of_anyM_eq_true h
  split at h
  · rename_i hlisted
    obtain ⟨n, hn, hawaits⟩ := exists_of_anyM_eq_true h
    have hin : s ∈ b.instrs := hbody ▸ DataFlow.mem_instrs_of_mem_reachingFrom hs
    exact ⟨d, hd, s, hs, mem_postDominators_of_listed hcf hin hlisted, n, hn, awaitsList_inv hawaits⟩
  · cases h

end Analysis

end AwaitLint
