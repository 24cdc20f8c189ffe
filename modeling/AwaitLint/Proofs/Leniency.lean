import AwaitLint.Proofs.Consumption
import AwaitLint.Proofs.LoweredFunctions
import AwaitLint.Proofs.TrackedNames

/-!
# AwaitLint — configurations that allow more

Let `c'` track the types that `c` tracks and list at least the sinks, exclusions, combining calls
and add methods that `c` lists (`Config.Allows`). Every test that accepts a value under `c` then
accepts it under `c'`: the names are only ever asked for in favour of a value.

* **`Allows.endsInSink`**, **`Allows.isCandidate`** — the tests on the tree.
* **`viaList_under`**, **`consumedIn_under`** — the tests on lists and variables, for one analysis
  whose configuration is exchanged (`Analysis.under`).
* **`reported_under_stricter`** — what `c'` reports, `c` reports.
-/

namespace AwaitLint

/-! ## Configurations -/

/-- `c'` tracks what `c` tracks and lists every name that `c` lists, except for the methods that
await their receiver, which no verdict asks for. -/
structure Config.Allows (c c' : Config) : Prop where
  tracks : ∀ t, c'.tracks t = c.tracks t
  sinks : c.sinks.entries ⊆ c'.sinks.entries
  excluded : c.excluded.entries ⊆ c'.excluded.entries
  bulkAwait : c.bulkAwait.entries ⊆ c'.bulkAwait.entries
  addMethods : c.addMethods.entries ⊆ c'.addMethods.entries

/-- The value is a candidate, and some path drops it. -/
def Config.Reports (c : Config) (fe : FrontEnd) (target : Node) : Prop :=
  c.isCandidate fe.links target = true ∧ c.isConsumed fe target = .ok false

/-- Equal entries track the same types, once no configuration remembers names of other entries. -/
theorem Config.Coherent.tracks_eq {c c' : Config} (hc : c.Coherent) (hc' : c'.Coherent)
    (h : c'.trackedTypes.entries = c.trackedTypes.entries) (t : ValueType) :
    c'.tracks t = c.tracks t := by
  have hnames : c'.trackedNames = c.trackedNames := by
    rw [hc, hc']
    unfold parseTracked
    rw [h]
  unfold tracks
  rw [hnames]

namespace Config.Allows

variable {c c' : Config} {links : Links} {n : Node}

theorem isList (h : c.Allows c') (t : ValueType) : c'.isList t = c.isList t := by
  unfold Config.isList
  cases t.elem with
  | none => rfl
  | some e => exact h.tracks e

theorem endsInSink (h : c.Allows c') (hn : c.endsInSink links n = true) :
    c'.endsInSink links n = true := by
  unfold Config.endsInSink at hn ⊢
  dsimp only at hn ⊢
  rw [Bool.or_eq_true] at hn ⊢
  refine hn.imp_right fun hsink => ?_
  exact List.contains_iff_mem.2 (h.sinks (List.contains_iff_mem.1 hsink))

/-- Exclusions only take candidates away. -/
theorem isCandidate (h : c.Allows c') (hn : c'.isCandidate links n = true) :
    c.isCandidate links n = true := by
  unfold Config.isCandidate at hn ⊢
  simp only [Bool.and_eq_true, Bool.not_eq_true'] at hn ⊢
  obtain ⟨⟨hshape, hkept⟩, htracked⟩ := hn
  refine ⟨⟨hshape, ?_⟩, h.tracks n.type ▸ htracked⟩
  by_contra hexcluded
  have hmem := List.contains_iff_mem.1 (Bool.not_eq_false _ ▸ hexcluded)
  have hexcluded' : c'.isExcluded n.name = true := List.contains_iff_mem.2 (h.excluded hmem)
  rw [hexcluded'] at hkept
  cases hkept

theorem awaitsWholeList (h : c.Allows c') (hn : c.AwaitsWholeList n) : c'.AwaitsWholeList n := by
  obtain ⟨hawait, x, hx, hwhole⟩ := hn
  refine ⟨hawait, x, hx, ?_⟩
  rcases hwhole with ⟨hcall, hbulk, htracked⟩ | ⟨href, v, hv, hlist⟩
  · left
    refine ⟨hcall, ?_, (h.tracks _).trans htracked⟩
    exact List.contains_iff_mem.2 (h.bulkAwait (List.contains_iff_mem.1 hbulk))
  · exact .inr ⟨href, v, hv, (h.isList _).trans hlist⟩

end Config.Allows

/-! ## One analysis under two configurations -/

namespace Analysis

variable {a : Analysis} {c : Config} {owner source : Instr} {item site n target : Node}
  {v list : Variable}

/-- The analysis of the same function under another configuration. -/
def under (a : Analysis) (c : Config) : Analysis := { a with config := c }

theorem around_under (c c' : Config) (fe : FrontEnd) (target : Node) :
    around c' fe target = (around c fe target).map (·.under c') := by
  unfold around
  cases ControlFlow.around fe target <;> rfl

theorem Resolved.under (h : a.Resolved) (c : Config) : (a.under c).Resolved :=
  ⟨h.facts, h.nodes, h.parents⟩

/-- `AwaitsWholeList` is what the test on awaits accepts. -/
theorem awaitsList_iff : a.awaitsList n = .ok true ↔ a.config.AwaitsWholeList n := by
  refine ⟨awaitsList_inv, fun h => ?_⟩
  obtain ⟨hawait, x, hx, hwhole⟩ := h
  -- a call or a reference is no conversion, so it is found behind at most one
  have hkind : x.kind ≠ .conversion := by
    rcases hwhole with ⟨hcall, -⟩ | ⟨href, -⟩
    · rw [hcall]
      decide
    · rw [href]
      decide
  obtain ⟨y, hy, hyx⟩ : ∃ y, n.operand = some y ∧ unconverted y = x := by
    rcases hx with hx | ⟨y, hy, hconv, hyx⟩
    · refine ⟨x, hx, ?_⟩
      rcases unconverted_cases x with hsame | ⟨hconv, -⟩
      · exact hsame
      · exact absurd hconv hkind
    · refine ⟨y, hy, ?_⟩
      unfold unconverted
      rw [hyx]
      exact if_pos hconv
  rw [awaitsList_eq, if_neg (not_not.2 hawait), hy]
  simp only [hyx]
  rcases hwhole with ⟨hcall, hbulk, htracked⟩ | ⟨href, v, hv, hlist⟩
  · rw [hcall]
    show Except.ok (a.config.isBulkAwait x.name && a.config.tracks x.type) = _
    rw [hbulk, htracked]
    rfl
  · rw [href, hv]
    show Except.ok (a.config.isList v.type) = _
    rw [hlist]

section Lists

variable (hc : a.config.Allows c)
include hc

theorem listAt_under (h : a.listAt site item = .ok (some list)) :
    (a.under c).listAt site item = .ok (some list) := by
  unfold listAt at h ⊢
  split at h
  · -- a collection literal: the same variables are lists
    split at h
    · cases h
    · rename_i hitem
      have hlists : (a.under c).config.isList = a.config.isList := funext hc.isList
      rw [if_neg hitem, hlists]
      exact h
  · -- an add call: its name stays on the list
    split at h
    · cases h
    · rename_i hadds
      rw [Bool.not_eq_true', Bool.not_eq_false, Bool.and_eq_true] at hadds
      have hname : (a.under c).config.isAddMethod site.name = true :=
        List.contains_iff_mem.2 (hc.addMethods (List.contains_iff_mem.1 hadds.2))
      rw [hadds.1, hname]
      have hlists : ∀ t, (a.under c).config.isList t = a.config.isList t := hc.isList
      simp only [hlists]
      exact h
  · cases h

theorem listAwaitedAfter_under (hres : a.Resolved)
    (h : a.listAwaitedAfter list owner = .ok true) :
    (a.under c).listAwaitedAfter list owner = .ok true := by
  have hres' := hres.under c
  obtain ⟨d, hd, h⟩ := exists_of_anyM_eq_true h
  obtain ⟨s, hs, h⟩ := exists_of_anyM_eq_true h
  have hin := DataFlow.mem_instrs_of_mem_reachingFrom hs
  split at h
  · rename_i hlater
    obtain ⟨n, hn, hawaits⟩ := exists_of_anyM_eq_true h
    have hawaits' : (a.under c).awaitsList n = .ok true :=
      awaitsList_iff.2 (hc.awaitsWholeList (awaitsList_iff.1 hawaits))
    -- the same definition, use and await; all other questions have an answer
    refine (anyM_eq_true fun d _ => anyM_ok fun s hs => ?_).2 ⟨d, hd, ?_⟩
    · exact hres'.awaitsLater_ok _ (DataFlow.mem_instrs_of_mem_reachingFrom hs)
    refine (anyM_eq_true fun s hs => ?_).2 ⟨s, hs, ?_⟩
    · exact hres'.awaitsLater_ok _ (DataFlow.mem_instrs_of_mem_reachingFrom hs)
    show (if listed (a.cf.postDominators owner) s then _ else _) = _
    rw [if_pos hlater]
    refine (anyM_eq_true fun m hm => ?_).2 ⟨n, hn, hawaits'⟩
    exact Resolved.awaitsList_ok ((hres.nodes s hin).child hm)
  · cases h

theorem viaList_under (hres : a.Resolved) (h : a.viaList item = .ok true) :
    (a.under c).viaList item = .ok true := by
  obtain ⟨site, list, owner, hsite, hlist, howner, hreaches, hawaited⟩ := viaList_inv h
  have hsite' : (a.under c).links.parent? ((a.under c).placed item) = some site := hsite
  have hlist' : (a.under c).listAt site ((a.under c).placed item) = .ok (some list) :=
    listAt_under hc hlist
  have howner' : (a.under c).df.owner? site = some owner := howner
  have hreaches' : (a.under c).reachesSite ((a.under c).placed item) owner = true := hreaches
  rw [viaList_eq]
  simp only [hsite', hlist', howner', hreaches', if_true]
  exact listAwaitedAfter_under hc hres hawaited

theorem consumedIn_under (hres : a.Resolved) (h : a.consumedIn source v = .ok true) :
    (a.under c).consumedIn source v = .ok true := by
  obtain ⟨huses, hconsumed⟩ := consumedIn_inv h
  have huses' : ¬ ((a.under c).df.reachingFrom source.id [some v]).isEmpty = true :=
    fun hempty => huses (List.isEmpty_iff.1 hempty)
  unfold consumedIn
  dsimp only
  rw [if_neg huses']
  split
  · rfl
  · rename_i hindirect
    rw [consumedByLists_eq_allM, allM_eq_true]
    intro s hs
    obtain ⟨ref, href, hlist⟩ := hconsumed.resolve_left hindirect s hs
    rw [href]
    exact viaList_under hc hres hlist

theorem sourceVars_under : (a.under c).sourceVars source = a.sourceVars source := by
  have htracks : (a.under c).config.tracks = a.config.tracks := funext hc.tracks
  unfold sourceVars
  rw [htracks]
  rfl

/-- A value that is dropped under the configuration that allows more is dropped. -/
theorem judge_of_under (hres : a.Resolved) (h : (a.under c).judge owner target = .ok .notConsumed) :
    a.judge owner target = .ok .notConsumed := by
  obtain ⟨vars, hvars, h⟩ := bind_eq_ok.1 h
  have hvars : a.sourceVars (a.source owner target) = .ok vars := sourceVars_under hc ▸ hvars
  refine bind_eq_ok.2 ⟨vars, hvars, ?_⟩
  cases vars with
  | nil =>
    obtain ⟨inList', hlist', h⟩ := bind_eq_ok.1 h
    obtain ⟨inList, hlist⟩ := hres.viaList_ok target
    refine bind_eq_ok.2 ⟨inList, hlist, ?_⟩
    cases inList with
    | false => rfl
    | true =>
      rw [viaList_under hc hres hlist] at hlist'
      cases hlist'
      cases h
  | cons v vs =>
    obtain ⟨accepted', hall', h⟩ := bind_eq_ok.1 h
    obtain ⟨accepted, hall⟩ : ∃ r, a.viaVariable (a.source owner target) (v :: vs) = .ok r :=
      allM_ok fun w _ => hres.consumedIn_ok _ w
    refine bind_eq_ok.2 ⟨accepted, hall, ?_⟩
    cases accepted with
    | false => rfl
    | true =>
      have hyes : (a.under c).viaVariable (a.source owner target) (v :: vs) = .ok true :=
        allM_eq_true.2 fun w hw => consumedIn_under hc hres (allM_eq_true.1 hall w hw)
      have hyes' : accepted' = true := Except.ok.inj (hall'.symm.trans hyes)
      cases hyes'
      cases h

end Lists

end Analysis

/-! ## Reports -/

/-- The body that an analysis was made of is resolved if all bodies are. -/
theorem Analysis.resolved_around {c : Config} {fe : FrontEnd} {target : Node} {a : Analysis}
    (h : ∀ fn b, fe.body fn = .ok b → fe.Resolved b) (ha : around c fe target = .ok a) :
    a.Resolved := by
  unfold around at ha
  split at ha
  · cases ha
  · rename_i cf hcf
    cases ha
    unfold ControlFlow.around at hcf
    dsimp only at hcf
    split at hcf
    · cases hcf
    · split at hcf
      · cases hcf
      · rename_i b hb
        rw [ControlFlow.body_eq hcf]
        exact (h _ b hb).analysis c cf

/-- Bodies over the nodes of a resolved tree are resolved. -/
theorem FrontEnd.Resolved.of_tree {fe : FrontEnd} {root : Node} {b : Body} (hroot : root.Resolved)
    (hlinks : fe.links = ({} : Links).link root)
    (hnodes : ∀ i ∈ b.instrs, Reaches Node.Child root i.node)
    (hfacts : ∀ i ∈ b.instrs, none ∉ (fe.defUse i.node).defs) : fe.Resolved b where
  facts := hfacts
  nodes i hi m hm := hroot m ((hnodes i hi).trans hm)
  parents _ _ hp m hm := hroot m ((Links.reaches_of_parent? (hlinks ▸ hp)).trans hm)

/-- A value is dropped when no early exit is taken and the judgement on its owner says so. -/
theorem Config.isConsumed_eq_false {c : Config} {fe : FrontEnd} {target : Node} :
    c.isConsumed fe target = .ok false ↔
      ¬ (target.kind = .call && c.endsInSink fe.links target) = true ∧
        ¬ fe.links.isAwaited target = true ∧ ¬ fe.links.isReturned target = true ∧
        ∃ a owner, Analysis.around c fe target = .ok a ∧ a.df.owner? target = some owner ∧
          a.judge owner target = .ok .notConsumed := by
  unfold isConsumed
  rw [bind_eq_ok]
  constructor
  · rintro ⟨d, hd, hdropped⟩
    have hdropped : d.verdict.isConsumed = false := Except.ok.inj hdropped
    have hverdict : d.verdict = .notConsumed := by simpa [Verdict.isConsumed] using hdropped
    unfold decide at hd
    split at hd
    · cases hd
      cases hverdict
    rename_i hsunk
    split at hd
    · cases hd
      cases hverdict
    rename_i hawaited
    split at hd
    · cases hd
      cases hverdict
    rename_i hreturned
    refine ⟨hsunk, hawaited, hreturned, ?_⟩
    split at hd
    · cases hd
    · cases hd
      cases hverdict
    · rename_i a ha
      split at hd
      · cases hd
        cases hverdict
      · rename_i owner howner
        obtain ⟨verdict, hjudge, hd⟩ := bind_eq_ok.1 hd
        cases hd
        exact ⟨a, owner, ha, howner, hverdict ▸ hjudge⟩
  · rintro ⟨hsunk, hawaited, hreturned, a, owner, ha, howner, hjudge⟩
    refine ⟨⟨.notConsumed, none⟩, ?_, rfl⟩
    unfold decide
    rw [if_neg hsunk, if_neg hawaited, if_neg hreturned, ha]
    dsimp only
    rw [howner]
    exact bind_eq_ok.2 ⟨.notConsumed, hjudge, rfl⟩

/-- **Allowing more reports less.** Where every local reference has a variable and no fact is about
an unknown one, each value that is reported under the configuration that allows more is reported
under the other. -/
theorem reported_under_stricter (c c' : Config) (hc : c.Allows c') (fe : FrontEnd)
    (hres : ∀ fn b, fe.body fn = .ok b → fe.Resolved b) (target : Node)
    (h : c'.Reports fe target) : c.Reports fe target := by
  obtain ⟨hcandidate, hdropped⟩ := h
  obtain ⟨hsunk, hawaited, hreturned, a', owner, ha', howner, hjudge⟩ :=
    Config.isConsumed_eq_false.1 hdropped
  -- the analysis under `c'` is that under `c` with the configuration exchanged
  rw [Analysis.around_under c c'] at ha'
  obtain ⟨a, ha, rfl⟩ : ∃ a, Analysis.around c fe target = .ok a ∧ a.under c' = a' := by
    cases ha : Analysis.around c fe target with
    | error e =>
      rw [ha] at ha'
      cases ha'
    | ok a =>
      rw [ha] at ha'
      exact ⟨a, rfl, Except.ok.inj ha'⟩
  obtain ⟨-, -, -, hconfig, -⟩ := Analysis.around_inv ha
  refine ⟨hc.isCandidate hcandidate, Config.isConsumed_eq_false.2 ?_⟩
  refine ⟨fun hsunk' => hsunk ?_, hawaited, hreturned, a, owner, ha, howner, ?_⟩
  · rw [Bool.and_eq_true] at hsunk' ⊢
    exact ⟨hsunk'.1, hc.endsInSink hsunk'.2⟩
  · exact Analysis.judge_of_under (hconfig ▸ hc) (Analysis.resolved_around hres ha) hjudge

/-! ### Fewer names

The program of `Collecting` without `append` among the add methods, and then without any sink or
combining call. -/

namespace Stricter

open Sample Collecting

def lax : Config := { Config.default with addMethods := some ["Add", "Insert"] }

def strict : Config := { lax with sinks := none, bulkAwait := none, addMethods := some ["Add"] }

theorem strict_allows_lax : strict.Allows lax where
  tracks := Config.Coherent.tracks_eq (Config.coherent_of_forgotten rfl)
    (Config.coherent_of_forgotten rfl) rfl
  sinks := List.nil_subset _
  excluded := List.Subset.refl _
  bulkAwait := List.nil_subset _
  addMethods := by decide

theorem resolved (fn : Node) (b : Body) (hb : frontEnd.body fn = .ok b) : frontEnd.Resolved b := by
  have hbody : b = body := by
    change Registry.bodyOf _ fn = _ at hb
    unfold Registry.bodyOf at hb
    split at hb
    · rename_i b' hfound
      cases hb
      exact List.mem_singleton.1 (List.mem_of_find?_eq_some hfound)
    · cases hb
  subst hbody
  -- the statements of the function are what its blocks evaluate
  have hnodes : body.instrs.map (·.node) = func.children := rfl
  have hroot : func.Resolved := .of_preorder (by decide +kernel)
  refine .of_tree hroot rfl (fun i hi => ?_) (by decide +kernel)
  have hchild : i.node ∈ func.children := hnodes ▸ List.mem_map_of_mem hi
  exact (Reaches.refl Node.Child func).tail hchild

end Stricter

open Collecting Stricter in
/-- The value of `g` is reported once `append` adds nothing, and stays reported when more names go. -/
theorem gathered_reported_under_stricter :
    strict.Allows lax ∧ Config.default.isConsumed frontEnd gathered = .ok true ∧
      lax.Reports frontEnd gathered ∧ strict.Reports frontEnd gathered := by
  have hlax : lax.Reports frontEnd gathered :=
    ⟨by decide +kernel, eq_ok_of_toOption (by decide +kernel)⟩
  exact ⟨strict_allows_lax, eq_ok_of_toOption (by decide +kernel), hlax,
    reported_under_stricter strict lax strict_allows_lax frontEnd resolved gathered hlax⟩

end AwaitLint
