import AwaitLint.Config
import AwaitLint.Proofs.QualifiedNames
import Mathlib.Data.List.Count

/-!
# AwaitLint — the problems of a configuration

A check goes through six lists and reports every fault in one go. The settings of plain identifiers
are gone through in no particular order, so the faults are compared as a multiset: by how often each
of them is reported.

* **`faults`** — how often a fault has to be reported, read off the entries alone.
* **`count_malformedNames_flatMap`** — what a walk over settings reports about one of them, by what
  each step adds: a setting answers for its own entries only.
* **`count_problemsIn`** — every fault is found as often as it has to be, in every order.
* **`problems_reported_exactly`** — the headline.
-/

namespace AwaitLint.Config

open Text

variable {c : Config}

/-- How often a fault is to be reported. -/
def faults (c : Config) : Problem → Nat
  | .noTrackedTypes => if c.trackedTypes.entries = [] then 1 else 0
  | .malformedType text =>
    if TypeName.ofText? text = none then c.trackedTypes.entries.count text else 0
  | .noAwaitMethods => if c.awaitMethods.entries = [] then 1 else 0
  | .malformedName key name =>
    if key ≠ .trackedTypes ∧ ¬ Identifier name then (c.get key).entries.count name else 0

/-- What a check reports. -/
def reported : Except (List Problem) Config → List Problem
  | .ok _ => []
  | .error problems => problems

/-! ## One list -/

/-- The complaint about a list without entries. -/
theorem count_complaint (p q : Problem) (l : List String) :
    (if l.isEmpty then [q] else []).count p = if p = q ∧ l = [] then 1 else 0 := by
  cases l with
  | nil =>
    show [q].count p = _
    rw [List.count_singleton]
    by_cases h : p = q
    · simp [h]
    · simp [h, Ne.symm h]
  | cons entry l => simp

/-- The complaints about the entries of a list that are at fault. -/
theorem count_complaints {complain : String → Problem} (hinj : Function.Injective complain)
    (bad : String → Bool) (l : List String) (entry : String) :
    ((l.filter bad).map complain).count (complain entry)
      = if bad entry = true then l.count entry else 0 := by
  rw [List.count_map_of_injective _ _ hinj]
  split
  · rename_i hbad
    exact List.count_filter hbad
  · rename_i hgood
    exact List.count_eq_zero_of_not_mem fun hmem => hgood (List.mem_filter.1 hmem).2

theorem count_complaints_of_ne {complain : String → Problem} {p : Problem}
    (hne : ∀ entry, p ≠ complain entry) (l : List String) : (l.map complain).count p = 0 := by
  apply List.count_eq_zero_of_not_mem
  intro hmem
  obtain ⟨entry, -, heq⟩ := List.mem_map.1 hmem
  exact hne entry heq.symm

theorem count_malformedTypes (l : List String) (text : String) :
    ((l.filter fun s => (TypeName.ofText? s).isNone).map Problem.malformedType).count
        (.malformedType text)
      = if TypeName.ofText? text = none then l.count text else 0 := by
  rw [count_complaints fun _ _ h => Problem.malformedType.inj h]
  simp only [Option.isNone_iff_eq_none]

theorem count_malformedNames (c : Config) (key : Key) (name : String) :
    (c.malformedNames key).count (.malformedName key name)
      = if Identifier name then 0 else (c.get key).entries.count name := by
  rw [malformedNames, count_complaints fun _ _ h => (Problem.malformedName.inj h).2]
  by_cases hname : Identifier name
  · rw [if_pos hname, (isIdentifier_iff name).2 hname]
    rfl
  · have hbad : isIdentifier name = false := by
      rw [← Bool.not_eq_true, isIdentifier_iff]
      exact hname
    rw [if_neg hname, hbad]
    rfl

/-! ## The walk over the settings -/

/-- **One step**: a setting says nothing about the entries of another one. -/
theorem count_malformedNames_of_ne {key other : Key} (h : key ≠ other) (name : String) :
    (c.malformedNames other).count (.malformedName key name) = 0 := by
  apply count_complaints_of_ne
  intro entry heq
  exact h (Problem.malformedName.inj heq).1

/-- **A walk**: on a walk that comes to no setting twice, each one answers for its own entries. -/
theorem count_malformedNames_flatMap {order : List Key} (h : order.Nodup) (key : Key)
    (name : String) :
    (order.flatMap c.malformedNames).count (.malformedName key name)
      = if key ∈ order then (c.malformedNames key).count (.malformedName key name) else 0 := by
  induction order with
  | nil => rfl
  | cons k order ih =>
    obtain ⟨hk, hrest⟩ := List.nodup_cons.1 h
    rw [List.flatMap_cons, List.count_append, ih hrest]
    by_cases hkey : key = k
    · -- the walk is at the setting and does not come back to it
      subst hkey
      rw [if_neg hk, if_pos List.mem_cons_self, Nat.add_zero]
    · rw [count_malformedNames_of_ne hkey, Nat.zero_add]
      simp [hkey]

theorem count_flatMap_of_ne {p : Problem} (hne : ∀ key name, p ≠ .malformedName key name)
    (order : List Key) : (order.flatMap c.malformedNames).count p = 0 := by
  apply List.count_eq_zero_of_not_mem
  intro hmem
  obtain ⟨key, -, hkey⟩ := List.mem_flatMap.1 hmem
  obtain ⟨name, -, heq⟩ := List.mem_map.1 hkey
  exact hne key name heq.symm

theorem mem_nameKeys_iff (key : Key) : key ∈ nameKeys ↔ key ≠ .trackedTypes := by
  cases key <;> decide

/-! ## All faults -/

theorem count_problemsIn {order : List Key} (h : order.Perm nameKeys) (p : Problem) :
    (c.problemsIn order).count p = c.faults p := by
  rw [problemsIn, List.count_append, List.count_append, List.count_append, count_complaint,
    count_complaint]
  cases p with
  | noTrackedTypes =>
    rw [count_complaints_of_ne (by simp), count_flatMap_of_ne (by simp)]
    simp [faults]
  | malformedType text =>
    rw [count_malformedTypes, count_flatMap_of_ne (by simp)]
    simp [faults]
  | noAwaitMethods =>
    rw [count_complaints_of_ne (by simp), count_flatMap_of_ne (by simp)]
    simp [faults]
  | malformedName key name =>
    have hnodup : order.Nodup := h.nodup_iff.2 (by decide)
    have hmem : key ∈ order ↔ key ≠ .trackedTypes := h.mem_iff.trans (mem_nameKeys_iff key)
    rw [count_complaints_of_ne (by simp), count_malformedNames_flatMap hnodup, count_malformedNames]
    by_cases hkey : key = .trackedTypes
    · have hnot : key ∉ order := by
        rw [hmem, not_not]
        exact hkey
      rw [if_neg hnot]
      simp [faults, hkey]
    · rw [if_pos (hmem.2 hkey)]
      simp [faults, hkey]

theorem reported_validateIn (c : Config) (order : List Key) :
    reported (c.validateIn order) = c.problemsIn order := by
  rw [validateIn]
  split
  · rename_i hnone
    exact (List.isEmpty_iff.1 hnone).symm
  · rfl

theorem validateIn_eq_ok_iff (c : Config) (order : List Key) :
    (∃ next, c.validateIn order = .ok next) ↔ c.problemsIn order = [] := by
  constructor
  · intro h
    obtain ⟨next, hnext⟩ := h
    rw [← reported_validateIn, hnext]
    rfl
  · intro h
    refine ⟨{ c with parsed := c.parseTracked }, ?_⟩
    rw [validateIn, h]
    rfl

/-- **A check reports every problem and nothing else.** In whichever order the settings of plain
identifiers are gone through, what is reported has one complaint about missing tracked types if there
are none, one about each of their entries that cannot be read, one about missing await methods if
there are none, and one about each entry of another setting that is no identifier, under the key of
that setting. An entry that stands in a list several times counts as often. The check succeeds iff
there is nothing of that kind, and the order of the settings changes the order of the report at
most. -/
theorem problems_reported_exactly (c : Config) {order : List Key} (horder : order.Perm nameKeys) :
    (∀ p, (reported (c.validateIn order)).count p = c.faults p) ∧
    ((∃ next, c.validateIn order = .ok next) ↔ ∀ p, c.faults p = 0) ∧
    (reported (c.validateIn order)).Perm (reported c.validate) := by
  have hcount : ∀ p, (c.problemsIn order).count p = c.faults p := count_problemsIn horder
  refine ⟨?_, ?_, ?_⟩
  · intro p
    rw [reported_validateIn, hcount]
  · rw [validateIn_eq_ok_iff, List.eq_nil_iff_forall_not_mem]
    refine forall_congr' fun p => ?_
    rw [← hcount, List.count_eq_zero]
  · show List.Perm _ (reported (c.validateIn nameKeys))
    rw [reported_validateIn, reported_validateIn, List.perm_iff_count]
    intro p
    rw [hcount, count_problemsIn (.refl _)]

/-! ### Faults in every list -/

namespace Faulty

/-- A tracked type without a path, twice; no await methods; and one word that is no identifier under
two keys, twice under one of them. -/
def config : Config where
  trackedTypes := some ["Task", "example.com/app.Job", "Task"]
  sinks := some ["go", "Forget"]
  addMethods := some ["go", "append", "go"]

/-- The order in which the settings are gone through. -/
def order : List Key := nameKeys.reverse

end Faulty

open Faulty in
/-- An early fault hides none of the later ones. -/
theorem faulty_config_reported :
    order.Perm nameKeys ∧
    (reported (config.validateIn order)).count (.malformedType "Task") = 2 ∧
    (reported (config.validateIn order)).count .noAwaitMethods = 1 ∧
    (reported (config.validateIn order)).count (.malformedName .addMethods "go") = 2 ∧
    (reported (config.validateIn order)).count (.malformedName .sinks "go") = 1 ∧
    (reported (config.validateIn order)).length = 6 := by
  have horder : order.Perm nameKeys := List.reverse_perm nameKeys
  obtain ⟨hcount, -⟩ := problems_reported_exactly config horder
  rw [hcount, hcount, hcount, hcount]
  refine ⟨horder, ?_, ?_, ?_, ?_, ?_⟩
  all_goals decide +kernel

end AwaitLint.Config
