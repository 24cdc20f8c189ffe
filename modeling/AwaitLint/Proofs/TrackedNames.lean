import AwaitLint.Config.Calls
import AwaitLint.Config.File
import AwaitLint.Proofs.Walk

/-!
# AwaitLint — the remembered names of tracked types

Questions about types are answered from names that a configuration remembers, and the names are
remembered in two ways: by the first question, which passes over entries that are no qualified
names, and by a check that finds no fault. This module shows that the memory is never seen.

* **`parsed_ofFile`** — loading a file remembers nothing, whatever reads it.
* **`Coherent`** — the names that questions are answered from are those of the current list. It
  holds of a configuration that remembers nothing.
* **`Coherent.call`** — every call keeps it, direct assignments apart; **`coherent_of_validated`** —
  a check without a fault brings it back.
* **`Coherent.tracks_iff`** — under it, a type is tracked iff a current entry names the type or one
  of the components nested in it.
* **`tracks_by_current_entries`** — the headline, over every sequence of calls.
-/

namespace AwaitLint

/-! ## Components of a type -/

namespace ValueType

/-- `c` is a component of the multiple result `t`. -/
def Component (t c : ValueType) : Prop := c ∈ t.tuple

/- The names of a type are those of everything it reaches through components. The induction follows
the two functions that collect them. -/
mutual

theorem mem_names_iff (s : String) :
    ∀ t : ValueType, s ∈ t.names ↔ s ≠ "" ∧ ∃ u, Reaches Component t u ∧ u.name = s
  | mk name elem tuple => by
    have htuple := mem_namesOf_iff s tuple
    have hown : s ∈ (if name.isEmpty then [] else [name]) ↔ s ≠ "" ∧ name = s := by
      by_cases hname : name = ""
      · rw [if_pos (String.isEmpty_iff.2 hname)]
        exact ⟨nofun, fun ⟨hs, heq⟩ => absurd (heq.symm.trans hname) hs⟩
      · rw [if_neg fun hempty => hname (String.isEmpty_iff.1 hempty), List.mem_singleton]
        exact ⟨fun heq => ⟨heq ▸ hname, heq.symm⟩, fun ⟨_, heq⟩ => heq.symm⟩
    rw [names, List.mem_append, hown, htuple, ← and_or_left]
    refine and_congr_right fun _ => ?_
    constructor
    · rintro (rfl | ⟨c, hc, u, hu, rfl⟩)
      · exact ⟨_, .refl _ _, rfl⟩
      · exact ⟨u, Reaches.head_iff.2 (.inr ⟨c, hc, hu⟩), rfl⟩
    · rintro ⟨u, hu, rfl⟩
      rcases Reaches.head_iff.1 hu with rfl | ⟨c, hc, hcu⟩
      · exact .inl rfl
      · exact .inr ⟨c, hc, u, hcu, rfl⟩

theorem mem_namesOf_iff (s : String) :
    ∀ ts : List ValueType,
      s ∈ namesOf ts ↔ s ≠ "" ∧ ∃ c ∈ ts, ∃ u, Reaches Component c u ∧ u.name = s
  | [] => by simp [namesOf]
  | t :: ts => by
    rw [namesOf, List.mem_append, mem_names_iff s t, mem_namesOf_iff s ts, ← and_or_left]
    simp only [List.mem_cons, exists_eq_or_imp]

end

end ValueType

theorem TypeName.denotes_empty (n : TypeName) : n.denotes "" = false := rfl

namespace Config

/-! ## Loaded configurations -/

theorem parsed_assign (c : Config) (key : Key) (list : NameList) :
    (c.assign key list).parsed = c.parsed := by
  cases key <;> rfl

theorem parsed_foldl_assign (lists : List (Key × NameList)) (c : Config) :
    (lists.foldl (fun c given => c.assign given.1 given.2) c).parsed = c.parsed := by
  induction lists generalizing c with
  | nil => rfl
  | cons given lists ih => rw [List.foldl_cons, ih, parsed_assign]

/-- A file fills in lists only: whatever reads it, the configuration remembers nothing. -/
theorem parsed_ofFile {read : Reader} {text : String} {c : Config}
    (h : ofFile read text = .ok c) : c.parsed = [] := by
  unfold ofFile at h
  split at h
  · cases h
  · cases h
    exact parsed_foldl_assign _ default

/-! ## One call

What a call does, form by form; everything below is derived from these equations. -/

section Call

variable {c : Config}

theorem call_set {name : String} {key : Key} (h : Key.ofFlag? name = some key) (value : String) :
    c.call (.set name value) = (c.setKey key value, .done) := by
  simp only [call, set?, h, Option.map_some]

theorem call_set_unknown {name : String} (h : Key.ofFlag? name = none) (value : String) :
    c.call (.set name value) = (c, .unknownKey name) := by
  simp only [call, set?, h, Option.map_none]

theorem call_validate (h : c.problems = []) :
    c.call .validate = ({ c with parsed := c.parseTracked }, .done) := by
  simp only [call, validate_eq, h, List.isEmpty_nil, if_true]

theorem call_validate_invalid (h : c.problems ≠ []) :
    c.call .validate = (c, .invalid c.problems) := by
  simp only [call, validate_eq, List.isEmpty_iff, h, if_false]

/-- A question leaves the configuration as it is, or remembers the names it is answered from. -/
theorem afterTracks_cases (c : Config) (t : ValueType) :
    c.afterTracks t = c ∨ c.afterTracks t = { c with parsed := c.trackedNames } := by
  unfold afterTracks
  split
  · exact .inl rfl
  · exact .inr rfl

theorem afterIsList_cases (c : Config) (t : ValueType) :
    c.afterIsList t = c ∨ c.afterIsList t = { c with parsed := c.trackedNames } := by
  unfold afterIsList
  split
  · exact c.afterTracks_cases _
  · exact .inl rfl

theorem call_of_isFailure {x : Call} (h : (c.call x).2.isFailure = true) : (c.call x).1 = c := by
  cases x with
  | assign key list => cases h
  | tracks t => cases h
  | isList t => cases h
  | set name value =>
    cases hkey : Key.ofFlag? name with
    | none => rw [call_set_unknown hkey]
    | some key =>
      rw [call_set hkey] at h
      cases h
  | validate =>
    by_cases hproblems : c.problems = []
    · rw [call_validate hproblems] at h
      cases h
    · rw [call_validate_invalid hproblems]

end Call

/-! ## Lists -/

/-- The list that a call puts in place, with its setting. -/
def Call.writes? : Call → Option (Key × NameList)
  | .set name value => (Key.ofFlag? name).map fun key => (key, NameList.ofText value)
  | .assign key list => some (key, list)
  | .validate | .tracks _ | .isList _ => none

theorem get_remember (c : Config) (names : List TypeName) (key : Key) :
    ({ c with parsed := names } : Config).get key = c.get key := by
  cases key <;> rfl

theorem get_setKey (c : Config) (key other : Key) (value : String) :
    (c.setKey key value).get other = (c.assign key (NameList.ofText value)).get other := by
  unfold setKey
  dsimp only
  split
  · exact get_remember _ _ _
  · rfl

/-- A call that writes a list leaves the others alone. -/
theorem get_call_of_writes {c : Config} {x : Call} {key : Key} {list : NameList}
    (h : x.writes? = some (key, list)) (other : Key) :
    (c.call x).1.get other = (c.assign key list).get other := by
  cases x with
  | assign k l =>
    cases h
    rfl
  | set name value =>
    obtain ⟨k, hk, heq⟩ := Option.map_eq_some_iff.1 h
    cases heq
    rw [call_set hk]
    exact get_setKey c key other value
  | validate => cases h
  | tracks t => cases h
  | isList t => cases h

/-- A call that writes no list leaves all of them alone. -/
theorem get_call_of_not_writes {c : Config} {x : Call} (h : x.writes? = none) (key : Key) :
    (c.call x).1.get key = c.get key := by
  cases x with
  | assign k l => cases h
  | set name value => rw [call_set_unknown (Option.map_eq_none_iff.1 h)]
  | validate =>
    by_cases hproblems : c.problems = []
    · rw [call_validate hproblems]
      exact get_remember c _ key
    · rw [call_validate_invalid hproblems]
  | tracks t =>
    show (c.afterTracks t).get key = c.get key
    rcases c.afterTracks_cases t with heq | heq <;> rw [heq]
    exact get_remember c _ key
  | isList t =>
    show (c.afterIsList t).get key = c.get key
    rcases c.afterIsList_cases t with heq | heq <;> rw [heq]
    exact get_remember c _ key

/-! ## Coherence -/

/-- Questions are answered from the names of the current list. -/
def Coherent (c : Config) : Prop := c.trackedNames = c.parseTracked

theorem coherent_of_forgotten {c : Config} (h : c.parsed = []) : c.Coherent := by
  unfold Coherent trackedNames
  rw [h]
  rfl

theorem coherent_of_parsed {c : Config} (h : c.parsed = c.parseTracked) : c.Coherent := by
  unfold Coherent trackedNames
  rw [h, ite_self]

/-- A check without a fault leaves the names of the current list behind. -/
theorem coherent_of_validated {c : Config} (h : (c.call .validate).2 = .done) :
    (c.call .validate).1.Coherent := by
  by_cases hproblems : c.problems = []
  · rw [call_validate hproblems]
    exact coherent_of_parsed rfl
  · rw [call_validate_invalid hproblems] at h
    cases h

/-- Whether the call puts a list in place directly. -/
def Call.isAssign : Call → Bool
  | .assign _ _ => true
  | _ => false

namespace Coherent

variable {c : Config}

theorem remember (h : c.Coherent) : Coherent { c with parsed := c.trackedNames } :=
  coherent_of_parsed h

theorem setKey (h : c.Coherent) (key : Key) (value : String) : (c.setKey key value).Coherent := by
  cases key with
  | trackedTypes => exact coherent_of_forgotten rfl
  | sinks | excluded | awaitMethods | bulkAwait | addMethods => exact h

/-- **One call**: whatever it is, short of a direct assignment, it keeps the memory coherent. -/
theorem call (h : c.Coherent) {x : Call} (hx : x.isAssign = false) : (c.call x).1.Coherent := by
  cases x with
  | assign key list => cases hx
  | set name value =>
    cases hkey : Key.ofFlag? name with
    | none =>
      rw [call_set_unknown hkey]
      exact h
    | some key =>
      rw [call_set hkey]
      exact h.setKey key value
  | validate =>
    by_cases hproblems : c.problems = []
    · rw [call_validate hproblems]
      exact coherent_of_parsed rfl
    · rw [call_validate_invalid hproblems]
      exact h
  | tracks t =>
    show (c.afterTracks t).Coherent
    rcases c.afterTracks_cases t with heq | heq <;> rw [heq]
    · exact h
    · exact h.remember
  | isList t =>
    show (c.afterIsList t).Coherent
    rcases c.afterIsList_cases t with heq | heq <;> rw [heq]
    · exact h
    · exact h.remember

/-- **A run**: so do calls one after another. -/
theorem afterCalls (h : c.Coherent) {calls : List Call} (hcalls : ∀ x ∈ calls, x.isAssign = false) :
    (c.afterCalls calls).Coherent := by
  induction calls generalizing c with
  | nil => exact h
  | cons x calls ih =>
    obtain ⟨hx, hrest⟩ := List.forall_mem_cons.1 hcalls
    exact ih (h.call hx) hrest

end Coherent

/-! ## What is tracked -/

/-- An entry of the current tracked types that is a qualified name denotes the type or a component
nested in it at any depth. -/
def NamesTracked (c : Config) (t : ValueType) : Prop :=
  ∃ u, Reaches ValueType.Component t u ∧
    ∃ s ∈ c.trackedTypes.entries, ∃ n, TypeName.ofText? s = some n ∧ n.denotes u.name = true

theorem Coherent.tracks_iff {c : Config} (h : c.Coherent) (t : ValueType) :
    c.tracks t = true ↔ c.NamesTracked t := by
  unfold tracks NamesTracked
  rw [h]
  simp only [List.any_eq_true, parseTracked, List.mem_filterMap, ValueType.mem_names_iff]
  constructor
  · rintro ⟨_, ⟨-, u, hu, rfl⟩, n, ⟨s, hs, hn⟩, hden⟩
    exact ⟨u, hu, s, hs, n, hn, hden⟩
  · rintro ⟨u, hu, s, hs, n, hn, hden⟩
    have hname : u.name ≠ "" := by
      intro hempty
      rw [hempty, n.denotes_empty] at hden
      cases hden
    exact ⟨u.name, ⟨hname, u, hu, rfl⟩, n, ⟨s, hs, hn⟩, hden⟩

theorem Coherent.isList_iff {c : Config} (h : c.Coherent) (t : ValueType) :
    c.isList t = true ↔ ∃ e, t.elem = some e ∧ c.NamesTracked e := by
  unfold isList
  cases t.elem with
  | none => exact ⟨nofun, nofun⟩
  | some e =>
    show c.tracks e = true ↔ _
    rw [h.tracks_iff]
    exact ⟨fun htracked => ⟨e, rfl, htracked⟩, fun ⟨_, heq, htracked⟩ => Option.some.inj heq ▸ htracked⟩

/-- The calls after which questions are answered by the current list: none of them assigns a list
directly, or a check without a fault follows the last one that does. -/
def Settled (c : Config) (calls : List Call) : Prop :=
  (∀ x ∈ calls, x.isAssign = false) ∨
    ∃ before after, calls = before ++ .validate :: after ∧
      ((c.afterCalls before).call .validate).2 = .done ∧ ∀ x ∈ after, x.isAssign = false

theorem Settled.coherent {c : Config} (hc : c.parsed = []) {calls : List Call}
    (h : c.Settled calls) : (c.afterCalls calls).Coherent := by
  rcases h with hcalls | ⟨before, after, rfl, hdone, hafter⟩
  · exact (coherent_of_forgotten hc).afterCalls hcalls
  · rw [afterCalls, List.foldl_append, List.foldl_cons]
    exact (coherent_of_validated hdone).afterCalls hafter

/-- **Types are judged by the current entries.** Take any calls on a configuration that remembers
nothing, such as the defaults, the empty configuration or that of a file. Unless a list was assigned
directly and not checked since, a type is tracked iff a current entry that is a qualified name
denotes the type or one of its components, and it is a list of tracked values iff that holds of its
elements. A call changes the list that it writes and no other. One that fails changes no list and no
answer to any later call. -/
theorem tracks_by_current_entries {c₀ : Config} (hc : c₀.parsed = []) (calls : List Call) :
    let c := c₀.afterCalls calls
    (c₀.Settled calls → ∀ t,
      (∃ b, (c.call (.tracks t)).2 = .bool b ∧ (b = true ↔ c.NamesTracked t)) ∧
      ∃ b, (c.call (.isList t)).2 = .bool b ∧
        (b = true ↔ ∃ e, t.elem = some e ∧ c.NamesTracked e)) ∧
    ∀ x,
      (∀ key list, x.writes? = some (key, list) →
        (c.call x).1.get key = list ∧
        ∀ other, other ≠ key → (c.call x).1.get other = c.get other) ∧
      (x.writes? = none → ∀ key, (c.call x).1.get key = c.get key) ∧
      ((c.call x).2.isFailure = true →
        (∀ key, (c.call x).1.get key = c.get key) ∧
        ∀ later, (c.call x).1.answers later = c.answers later) := by
  intro c
  refine ⟨fun hsettled t => ?_, fun x => ⟨fun key list hwrites => ?_, fun hnone key => ?_, ?_⟩⟩
  · have hcoherent : c.Coherent := hsettled.coherent hc
    exact ⟨⟨_, rfl, hcoherent.tracks_iff t⟩, _, rfl, hcoherent.isList_iff t⟩
  · refine ⟨?_, fun other hother => ?_⟩
    · rw [get_call_of_writes hwrites, get_assign_self]
    · rw [get_call_of_writes hwrites, get_assign_of_ne _ _ hother]
  · exact get_call_of_not_writes hnone key
  · intro hfailure
    rw [call_of_isFailure hfailure]
    exact ⟨fun _ => rfl, fun _ => rfl⟩

/-! A file leaves the tracked types alone. Its configuration is asked about a task, so that it
remembers the names of the task library. Then the list is replaced behind its back, the settings
are checked, and an unknown setting is written. -/

namespace Reassigned

/-- The defaults with the sinks of a file. -/
def loaded : Config := { default with sinks := some ["Detach"] }

def task : ValueType := .named "github.com/mpyw/mustawait/future.Task"

/-- A job of a later major version, two levels deep in a result. -/
def nestedJob : ValueType := .tupleOf [task, .tupleOf [.named "example.com/app/v2.Job"]]

def assigned : List Call :=
  [.tracks task, .assign .trackedTypes (some [" example.com/app.Job"])]

def calls : List Call := assigned ++ .validate :: [.set "tracked" "example.com/app.Other"]

theorem ofFile_eq_loaded :
    ofFile (fun _ => .ok [(.sinks, some ["Detach"])]) "sinks: [Detach]" = .ok loaded :=
  rfl

/-- Before the check, the old names still count. -/
example : ((loaded.afterCalls assigned).call (.tracks task)).2 = .bool true := by decide +kernel

theorem settled_calls : loaded.Settled calls :=
  .inr ⟨assigned, _, rfl, by decide +kernel, by decide⟩

theorem ofText?_entry :
    TypeName.ofText? " example.com/app.Job" = some ⟨"example.com/app", "Job"⟩ := by
  decide +kernel

theorem entries_afterCalls :
    (loaded.afterCalls calls).trackedTypes.entries = [" example.com/app.Job"] := by
  decide +kernel

theorem namesTracked_nestedJob : (loaded.afterCalls calls).NamesTracked nestedJob := by
  have hjob : Reaches ValueType.Component nestedJob (.named "example.com/app/v2.Job") :=
    ((Reaches.refl _ _).tail (List.mem_cons_of_mem _ List.mem_cons_self)).tail List.mem_cons_self
  exact ⟨_, hjob, _, entries_afterCalls ▸ List.mem_cons_self, _, ofText?_entry, by decide +kernel⟩

theorem not_namesTracked_task : ¬ (loaded.afterCalls calls).NamesTracked task := by
  rintro ⟨u, hu, s, hs, n, hn, hdenotes⟩
  -- the task has no components, and the only entry names the job
  obtain rfl | ⟨v, hv, -⟩ := Reaches.head_iff.1 hu
  · rw [entries_afterCalls, List.mem_singleton] at hs
    subst hs
    rw [ofText?_entry, Option.some.injEq] at hn
    subst hn
    exact absurd hdenotes (by decide +kernel)
  · cases hv

end Reassigned

/-- After the check, the job is tracked and the task is not. -/
theorem reassigned_types_tracked :
    Reassigned.loaded.parsed = [] ∧ Reassigned.loaded.Settled Reassigned.calls ∧
      ((Reassigned.loaded.afterCalls Reassigned.calls).call (.tracks Reassigned.nestedJob)).2
        = .bool true ∧
      ((Reassigned.loaded.afterCalls Reassigned.calls).call (.tracks Reassigned.task)).2
        = .bool false := by
  have hloaded : Reassigned.loaded.parsed = [] := parsed_ofFile Reassigned.ofFile_eq_loaded
  obtain ⟨hanswers, -⟩ := tracks_by_current_entries hloaded Reassigned.calls
  refine ⟨hloaded, Reassigned.settled_calls, ?_, ?_⟩
  · obtain ⟨⟨b, hb, hiff⟩, -⟩ := hanswers Reassigned.settled_calls Reassigned.nestedJob
    rw [hb, hiff.2 Reassigned.namesTracked_nestedJob]
  · obtain ⟨⟨b, hb, hiff⟩, -⟩ := hanswers Reassigned.settled_calls Reassigned.task
    rw [hb, Bool.eq_false_iff.2 fun htracked => Reassigned.not_namesTracked_task (hiff.1 htracked)]

end Config

end AwaitLint
