import AwaitLint.Source.GoType
import AwaitLint.Proofs.QualifiedNames
import AwaitLint.Proofs.TrackedNames

/-!
# AwaitLint — which types of the source are tracked

A type of the source reaches the configuration only as a name, an element and components, and the
configuration compares the name as a text. This module tells its answers by the types themselves.

* **`Shows`** — the type behind aliases, at most one pointer and aliases again; **`Tracked`** — the
  type shows a named one whose qualified name is covered, or is a result with such a component.
* **`denotes_qualifiedName`** — the name that is handed over is found iff the type shows a named one
  with a package: what has no package has no dot in its name.
* **`tracks_iff_tracked`** — hence tracking is exactly `Tracked`, by induction over the type, and
  `isList_iff_tracked` asks the same of the element of the underlying type.
* **`AliasStep.alike`** — putting an alias in place of a component changes none of what is handed over.
* **`source_types_judged_exactly`** — the headline.
-/

namespace AwaitLint

namespace Source.GoType

/-! ## Tracked types -/

/-- `u` is the type behind some of the aliases of a type. -/
inductive Unfolds : GoType → GoType → Prop
  | refl (t : GoType) : Unfolds t t
  | synonym {t u : GoType} (h : Unfolds t u) : Unfolds (synonym t) u

/-- `u` is what is left of `t` without aliases, at most one pointer and aliases again. -/
inductive Shows (t u : GoType) : Prop
  | itself (h : Unfolds t u)
  | pointer {elem : GoType} (h : Unfolds t (pointer elem)) (helem : Unfolds elem u)

/-- The type is a result with a tracked component, or shows a named type with a package, the
qualified name of which is covered by one of the names. -/
inductive Tracked (names : List TypeName) : GoType → Prop
  | component {ts : List GoType} {t : GoType} (hmem : t ∈ ts) (h : Tracked names t) :
      Tracked names (tuple ts)
  | named {t under : GoType} {pkg name : String} {n : TypeName}
      (hshows : Shows t (named (some pkg) name under)) (hn : n ∈ names)
      (hcovers : n.Covers (pkg ++ "." ++ name)) : Tracked names t

/-- Types as a program has them: what has no package is predeclared, and its name has no dot. -/
inductive PlainNames : GoType → Prop
  | basic {name : String} (h : '.' ∉ name.toList) : PlainNames (basic name)
  | named {pkg : Option String} {name : String} {under : GoType}
      (h : pkg = none → '.' ∉ name.toList) (hunder : PlainNames under) :
      PlainNames (named pkg name under)
  | synonym {t : GoType} (h : PlainNames t) : PlainNames (synonym t)
  | pointer {elem : GoType} (h : PlainNames elem) : PlainNames (pointer elem)
  | slice {elem : GoType} (h : PlainNames elem) : PlainNames (slice elem)
  | array {elem : GoType} (h : PlainNames elem) : PlainNames (array elem)
  | struct : PlainNames struct
  | tuple {ts : List GoType} (h : ∀ t ∈ ts, PlainNames t) : PlainNames (tuple ts)
  | other : PlainNames other

def isTuple : GoType → Bool
  | tuple _ => true
  | _ => false

/-- One component of a type, at any depth, is replaced by an alias of it. A list of results is no
component of that kind: it has no name. -/
inductive AliasStep : GoType → GoType → Prop
  | here {t : GoType} (h : t.isTuple = false) : AliasStep t (synonym t)
  | named {under under' : GoType} (pkg : Option String) (name : String)
      (h : AliasStep under under') : AliasStep (named pkg name under) (named pkg name under')
  | synonym {t t' : GoType} (h : AliasStep t t') : AliasStep (synonym t) (synonym t')
  | pointer {t t' : GoType} (h : AliasStep t t') : AliasStep (pointer t) (pointer t')
  | slice {t t' : GoType} (h : AliasStep t t') : AliasStep (slice t) (slice t')
  | array {t t' : GoType} (h : AliasStep t t') : AliasStep (array t) (array t')
  | tuple {t t' : GoType} (front back : List GoType) (h : AliasStep t t') :
      AliasStep (tuple (front ++ t :: back)) (tuple (front ++ t' :: back))

/-! ## Aliases and pointers -/

theorem unfolds_unalias (t : GoType) : Unfolds t t.unalias := by
  fun_induction unalias t with
  | case1 t ih => exact .synonym ih
  | case2 t => exact .refl _

theorem Unfolds.unalias_eq {t u : GoType} (h : Unfolds t u) : t.unalias = u.unalias := by
  induction h with
  | refl t => rfl
  | synonym h ih => exact ih

theorem unwrapPointer_of_unalias {t elem : GoType} (h : t.unalias = pointer elem) :
    t.unwrapPointer = elem := by
  rw [unwrapPointer, h]

theorem unwrapPointer_of_ne {t : GoType} (h : ∀ elem, t.unalias ≠ pointer elem) :
    t.unwrapPointer = t := by
  unfold unwrapPointer
  split
  · rename_i elem heq
    exact absurd heq (h elem)
  · rfl

/-- A pointer behind aliases is taken off, and nothing else is. -/
theorem unwrapPointer_cases (t : GoType) :
    (∃ elem, t.unalias = pointer elem ∧ t.unwrapPointer = elem) ∨
      (∀ elem, t.unalias ≠ pointer elem) ∧ t.unwrapPointer = t := by
  by_cases h : ∃ elem, t.unalias = pointer elem
  · obtain ⟨elem, helem⟩ := h
    exact .inl ⟨elem, helem, unwrapPointer_of_unalias helem⟩
  · have hne : ∀ elem, t.unalias ≠ pointer elem := fun elem heq => h ⟨elem, heq⟩
    exact .inr ⟨hne, unwrapPointer_of_ne hne⟩

theorem shows_named_iff {t under : GoType} {pkg : Option String} {name : String} :
    Shows t (named pkg name under) ↔ t.unwrapPointer.unalias = named pkg name under := by
  constructor
  · intro h
    cases h with
    | itself h =>
      have hview : t.unalias = named pkg name under := h.unalias_eq
      rw [unwrapPointer_of_ne fun elem => by simp [hview], hview]
    | pointer h helem =>
      rw [unwrapPointer_of_unalias h.unalias_eq, helem.unalias_eq]
      rfl
  · intro h
    rcases t.unwrapPointer_cases with ⟨elem, helem, hunwrap⟩ | ⟨-, hunwrap⟩
    · rw [hunwrap] at h
      exact .pointer (helem ▸ unfolds_unalias t) (h ▸ unfolds_unalias elem)
    · rw [hunwrap] at h
      exact .itself (h ▸ unfolds_unalias t)

namespace PlainNames

variable {t : GoType}

theorem unalias (h : PlainNames t) : PlainNames t.unalias := by
  fun_induction GoType.unalias t with
  | case1 t ih =>
    cases h with
    | synonym h => exact ih h
  | case2 t => exact h

theorem unwrapPointer (h : PlainNames t) : PlainNames t.unwrapPointer := by
  rcases t.unwrapPointer_cases with ⟨elem, helem, hunwrap⟩ | ⟨-, hunwrap⟩
  · have hview := h.unalias
    rw [helem] at hview
    rw [hunwrap]
    cases hview with
    | pointer hinner => exact hinner
  · rw [hunwrap]
    exact h

theorem underlying (h : PlainNames t) : PlainNames t.underlying := by
  fun_induction GoType.underlying t with
  | case1 t ih =>
    cases h with
    | synonym h => exact ih h
  | case2 pkg name under ih =>
    cases h with
    | named h hunder => exact ih hunder
  | case3 t => exact h

/-- The element of a list behind its names. -/
theorem elem (h : PlainNames t) {elem : GoType}
    (helem : t.underlying = GoType.slice elem ∨ t.underlying = GoType.array elem) :
    PlainNames elem := by
  have hunder := h.underlying
  rcases helem with heq | heq
  · rw [heq] at hunder
    cases hunder with
    | slice h => exact h
  · rw [heq] at hunder
    cases hunder with
    | array h => exact h

end PlainNames

/-! ## The name of a type -/

/-- The comparison finds a dot in the qualified name exactly if the type shows a named one with a
package. -/
theorem denotes_qualifiedName {t : GoType} (ht : t.PlainNames) {n : TypeName} (hn : n.Proper) :
    n.denotes t.qualifiedName = true ↔
      ∃ pkg name under, Shows t (named (some pkg) name under) ∧ n.Covers (pkg ++ "." ++ name) := by
  have hplain : PlainNames t.unwrapPointer.unalias := ht.unwrapPointer.unalias
  simp only [shows_named_iff, qualifiedName]
  cases hview : t.unwrapPointer.unalias with
  | named pkg name under =>
    rw [hview] at hplain
    cases hplain with
    | named hdot hunder =>
      cases pkg with
      | none => simp [n.denotes_of_dot_not_mem (hdot rfl)]
      | some pkg =>
        show n.denotes (pkg ++ "." ++ name) = true ↔ _
        rw [TypeName.denotes_iff hn.ident.dot_not_mem]
        simp
  | basic name =>
    rw [hview] at hplain
    cases hplain with
    | basic hdot => simp [n.denotes_of_dot_not_mem hdot]
  | synonym t => simp [n.denotes_empty]
  | pointer elem => simp [n.denotes_empty]
  | slice elem => simp [n.denotes_empty]
  | array elem => simp [n.denotes_empty]
  | struct => simp [n.denotes_empty]
  | tuple ts => simp [n.denotes_empty]
  | other => simp [n.denotes_empty]

/-! ## What is handed over -/

theorem toValueTypes_eq_map (ts : List GoType) : toValueTypes ts = ts.map toValueType := by
  induction ts with
  | nil => rfl
  | cons t ts ih => rw [toValueTypes, ih, List.map_cons]

/-- A result list of one type is that type, any other one a list of components. -/
theorem toValueType_tuple_cases (ts : List GoType) :
    (∃ t, ts = [t] ∧ (tuple ts).toValueType = t.toValueType) ∨
      ts.length ≠ 1 ∧ (tuple ts).toValueType = .tupleOf (ts.map toValueType) := by
  match ts with
  | [] => exact .inr ⟨by simp, rfl⟩
  | [t] => exact .inl ⟨t, rfl, by rw [toValueType]⟩
  | t :: u :: ts =>
    refine .inr ⟨by simp, ?_⟩
    rw [toValueType, toValueTypes_eq_map]
    simp

theorem toValueType_of_not_tuple {t : GoType} (h : t.isTuple = false) :
    t.toValueType = .mk t.qualifiedName t.listElem? [] := by
  cases t with
  | tuple ts => cases h
  | basic | named | synonym | pointer | slice | array | struct | other => rfl

theorem listElem?_eq_some_iff {t : GoType} {v : ValueType} :
    t.listElem? = some v ↔
      ∃ elem, (t.underlying = slice elem ∨ t.underlying = array elem) ∧ elem.toValueType = v := by
  fun_induction underlying t with
  | case1 t ih => rw [listElem?, ih]
  | case2 pkg name under ih => rw [listElem?, ih]
  | case3 t hsynonym hnamed =>
    cases t with
    | synonym t => exact absurd rfl (hsynonym t)
    | named pkg name under => exact absurd rfl (hnamed pkg name under)
    | slice elem => simp [listElem?]
    | array elem => simp [listElem?]
    | basic name => simp [listElem?]
    | pointer elem => simp [listElem?]
    | struct => simp [listElem?]
    | tuple ts => simp [listElem?]
    | other => simp [listElem?]

/-! ## Aliases in place of components -/

/-- What is handed over of two types is the same, also behind a pointer and in a list. -/
structure Alike (t u : GoType) : Prop where
  name : u.qualifiedName = t.qualifiedName
  pointed : (pointer u).qualifiedName = (pointer t).qualifiedName
  elem : u.listElem? = t.listElem?
  value : u.toValueType = t.toValueType

theorem alike_of_not_tuple {t u : GoType} (ht : t.isTuple = false) (hu : u.isTuple = false)
    (hname : u.qualifiedName = t.qualifiedName)
    (hpointed : (pointer u).qualifiedName = (pointer t).qualifiedName)
    (helem : u.listElem? = t.listElem?) : Alike t u := by
  refine ⟨hname, hpointed, helem, ?_⟩
  rw [toValueType_of_not_tuple ht, toValueType_of_not_tuple hu, hname, helem]

theorem qualifiedName_synonym (t : GoType) : (synonym t).qualifiedName = t.qualifiedName := by
  have hview : (synonym t).unwrapPointer.unalias = t.unwrapPointer.unalias := by
    rcases t.unwrapPointer_cases with ⟨elem, helem, hunwrap⟩ | ⟨hne, hunwrap⟩
    · have hsynonym : (synonym t).unalias = pointer elem := helem
      rw [unwrapPointer_of_unalias hsynonym, hunwrap]
    · have hsynonym : ∀ elem, (synonym t).unalias ≠ pointer elem := hne
      rw [unwrapPointer_of_ne hsynonym, hunwrap]
      rfl
  rw [qualifiedName, qualifiedName, hview]

theorem toValueType_tuple_congr {ts us : List GoType}
    (h : us.map toValueType = ts.map toValueType) :
    (tuple us).toValueType = (tuple ts).toValueType := by
  have hlength : us.length = ts.length := by
    rw [← List.length_map toValueType, h, List.length_map]
  rcases toValueType_tuple_cases ts with ⟨t, rfl, ht⟩ | ⟨hts, ht⟩
  · rcases toValueType_tuple_cases us with ⟨u, rfl, hu⟩ | ⟨hus, -⟩
    · rw [ht, hu]
      exact List.singleton_inj.1 h
    · exact absurd hlength hus
  · rcases toValueType_tuple_cases us with ⟨u, rfl, -⟩ | ⟨-, hu⟩
    · exact absurd hlength.symm hts
    · rw [ht, hu, h]

/-- **One step**: an alias in place of a component is not seen. -/
theorem AliasStep.alike {t u : GoType} (h : AliasStep t u) : Alike t u := by
  induction h with
  | @here t h => exact alike_of_not_tuple h rfl (qualifiedName_synonym t) rfl rfl
  | named pkg name h ih =>
    -- what a name stands for is no part of the name
    cases pkg with
    | none => exact alike_of_not_tuple rfl rfl rfl rfl ih.elem
    | some pkg => exact alike_of_not_tuple rfl rfl rfl rfl ih.elem
  | @synonym t t' h ih =>
    have hname : (GoType.synonym t').qualifiedName = (GoType.synonym t).qualifiedName := by
      rw [qualifiedName_synonym, qualifiedName_synonym, ih.name]
    exact alike_of_not_tuple rfl rfl hname ih.pointed ih.elem
  | pointer h ih => exact alike_of_not_tuple rfl rfl ih.pointed rfl rfl
  | slice h ih => exact alike_of_not_tuple rfl rfl rfl rfl (congrArg some ih.value)
  | array h ih => exact alike_of_not_tuple rfl rfl rfl rfl (congrArg some ih.value)
  | tuple front back h ih =>
    refine ⟨rfl, rfl, rfl, toValueType_tuple_congr ?_⟩
    rw [List.map_append, List.map_append, List.map_cons, List.map_cons, ih.value]

/-- **Any number of steps**: nor are aliases in place of several components. -/
theorem toValueType_eq_of_reaches {t u : GoType} (h : Reaches AliasStep t u) :
    u.toValueType = t.toValueType :=
  h.closed (fun v => v.toValueType = t.toValueType) (fun hv hstep => hstep.alike.value.trans hv) rfl

/-! ## Tracked types, constructor by constructor -/

theorem Unfolds.tuple_eq {ts : List GoType} {u : GoType} (h : Unfolds (tuple ts) u) : u = tuple ts := by
  cases h with
  | refl => rfl

theorem tracked_tuple_iff {names : List TypeName} {ts : List GoType} :
    Tracked names (tuple ts) ↔ ∃ t ∈ ts, Tracked names t := by
  constructor
  · intro h
    cases h with
    | component hmem h => exact ⟨_, hmem, h⟩
    | named hshows hn hcovers =>
      -- behind a list of results there is nothing else
      cases hshows with
      | itself h => cases h.tuple_eq
      | pointer h helem => cases h.tuple_eq
  · rintro ⟨t, hmem, h⟩
    exact .component hmem h

theorem tracked_iff_of_not_tuple {names : List TypeName} {t : GoType} (ht : t.isTuple = false) :
    Tracked names t ↔ ∃ n ∈ names, ∃ pkg name under,
      Shows t (named (some pkg) name under) ∧ n.Covers (pkg ++ "." ++ name) := by
  constructor
  · intro h
    cases h with
    | component hmem h => cases ht
    | named hshows hn hcovers => exact ⟨_, hn, _, _, _, hshows, hcovers⟩
  · rintro ⟨n, hn, pkg, name, under, hshows, hcovers⟩
    exact .named hshows hn hcovers

end Source.GoType

namespace Config

open Source Source.GoType

variable {c : Config}

/-! ## Questions about what is handed over -/

theorem tracks_tupleOf (c : Config) (ts : List ValueType) :
    c.tracks (.tupleOf ts) = true ↔ ∃ t ∈ ts, c.tracks t = true := by
  show (ValueType.namesOf ts).any _ = true ↔ _
  induction ts with
  | nil => simp [ValueType.namesOf]
  | cons t ts ih =>
    rw [ValueType.namesOf, List.any_append, Bool.or_eq_true, ih]
    simp only [List.mem_cons, exists_eq_or_imp]
    exact Iff.rfl

theorem tracks_mk (c : Config) (name : String) (elem : Option ValueType) :
    c.tracks (.mk name elem []) = true ↔ ∃ n ∈ c.trackedNames, n.denotes name = true := by
  rw [tracks, ValueType.names, ValueType.namesOf, List.append_nil]
  by_cases hname : name = ""
  · simp [hname, TypeName.denotes_empty]
  · simp [hname]

theorem isList_iff_exists (c : Config) (v : ValueType) :
    c.isList v = true ↔ ∃ e, v.elem = some e ∧ c.tracks e = true := by
  rw [isList]
  cases v.elem with
  | none => simp
  | some e => simp

/-! ## Questions about types of the source -/

theorem tracks_tuple_iff (c : Config) (ts : List GoType) :
    c.tracks (tuple ts).toValueType = true ↔ ∃ t ∈ ts, c.tracks t.toValueType = true := by
  rcases toValueType_tuple_cases ts with ⟨t, rfl, ht⟩ | ⟨-, ht⟩
  · rw [ht]
    simp
  · rw [ht, tracks_tupleOf]
    simp

section NamesRead

-- names that were read have no dot behind the one that sets them off from their path
variable (hnames : ∀ n ∈ c.trackedNames, ∃ s, TypeName.ofText? s = some n)
include hnames

theorem tracks_iff_of_not_tuple {t : GoType} (ht : t.PlainNames) (htuple : t.isTuple = false) :
    c.tracks t.toValueType = true ↔ Tracked c.trackedNames t := by
  rw [toValueType_of_not_tuple htuple, tracks_mk, tracked_iff_of_not_tuple htuple]
  refine exists_congr fun n => and_congr_right fun hn => ?_
  obtain ⟨s, hs⟩ := hnames n hn
  exact denotes_qualifiedName ht (TypeName.proper_of_ofText? hs)

theorem tracks_iff_tracked {t : GoType} (ht : t.PlainNames) :
    c.tracks t.toValueType = true ↔ Tracked c.trackedNames t := by
  -- the components of a result are types with plain names again
  induction ht with
  | tuple h ih =>
    rw [tracks_tuple_iff, tracked_tuple_iff]
    exact exists_congr fun t => and_congr_right fun hmem => ih t hmem
  | basic h => exact tracks_iff_of_not_tuple hnames (.basic h) rfl
  | named h hunder => exact tracks_iff_of_not_tuple hnames (.named h hunder) rfl
  | synonym h => exact tracks_iff_of_not_tuple hnames (.synonym h) rfl
  | pointer h => exact tracks_iff_of_not_tuple hnames (.pointer h) rfl
  | slice h => exact tracks_iff_of_not_tuple hnames (.slice h) rfl
  | array h => exact tracks_iff_of_not_tuple hnames (.array h) rfl
  | struct => exact tracks_iff_of_not_tuple hnames .struct rfl
  | other => exact tracks_iff_of_not_tuple hnames .other rfl

theorem isList_iff_tracked {t : GoType} (ht : t.PlainNames) (htuple : t.isTuple = false) :
    c.isList t.toValueType = true ↔
      ∃ elem, (t.underlying = slice elem ∨ t.underlying = array elem) ∧
        Tracked c.trackedNames elem := by
  rw [toValueType_of_not_tuple htuple, isList_iff_exists]
  constructor
  · rintro ⟨e, he, htracks⟩
    obtain ⟨elem, helem, rfl⟩ := listElem?_eq_some_iff.1 he
    exact ⟨elem, helem, (tracks_iff_tracked hnames (ht.elem helem)).1 htracks⟩
  · rintro ⟨elem, helem, htracked⟩
    exact ⟨elem.toValueType, listElem?_eq_some_iff.2 ⟨elem, helem, rfl⟩,
      (tracks_iff_tracked hnames (ht.elem helem)).2 htracked⟩

end NamesRead

/-- **Types of the source are judged exactly.** Let the tracked names have been read from texts. A
type is tracked iff it is a result with a tracked component, or a named type with a package, behind
aliases and at most one pointer, whose qualified name is covered by one of the names. A type other
than a result is a list of tracked values iff the type underlying it is a slice or an array of tracked
elements. Putting aliases in place of components, at any depth, changes neither answer. -/
theorem source_types_judged_exactly
    (hnames : ∀ n ∈ c.trackedNames, ∃ s, TypeName.ofText? s = some n) :
    (∀ t : GoType, t.PlainNames →
      (c.tracks t.toValueType = true ↔ Tracked c.trackedNames t) ∧
      (t.isTuple = false →
        (c.isList t.toValueType = true ↔
          ∃ elem, (t.underlying = slice elem ∨ t.underlying = array elem) ∧
            Tracked c.trackedNames elem))) ∧
    ∀ t u : GoType, Reaches AliasStep t u →
      c.tracks u.toValueType = c.tracks t.toValueType ∧
      c.isList u.toValueType = c.isList t.toValueType := by
  refine ⟨fun t ht => ⟨tracks_iff_tracked hnames ht, isList_iff_tracked hnames ht⟩, ?_⟩
  intro t u h
  rw [toValueType_eq_of_reaches h]
  exact ⟨rfl, rfl⟩

/-! ### Aliases around a pointer -/

namespace Wrapped

/-- An instance of a generic type. -/
def future : GoType := named (some "github.com/mpyw/mustawait/future") "Future" struct

/-- The results of a call: a pointer to a future behind an alias of it, and an error. -/
def results : GoType := tuple [synonym (pointer (synonym future)), named none "error" other]

/-- A named list of pointers. -/
def futures : GoType := named (some "example.com/app") "Futures" (slice (pointer future))

def futuresOfAlias : GoType :=
  named (some "example.com/app") "Futures" (slice (pointer (synonym future)))

theorem namesRead : ∀ n ∈ default.trackedNames, ∃ s, TypeName.ofText? s = some n := by
  intro n hn
  rw [coherent_of_forgotten rfl, parseTracked, List.mem_filterMap] at hn
  obtain ⟨s, -, hs⟩ := hn
  exact ⟨s, hs⟩

theorem plain_future : future.PlainNames := .named (by simp) .struct

theorem plain_results : results.PlainNames := by
  refine .tuple (List.forall_mem_cons.2 ⟨?_, List.forall_mem_singleton.2 ?_⟩)
  · exact .synonym (.pointer (.synonym plain_future))
  · exact .named (fun _ => by decide +kernel) .other

theorem plain_futures : futures.PlainNames := .named (by simp) (.slice (.pointer plain_future))

theorem future_mem :
    (⟨"github.com/mpyw/mustawait/future", "Future"⟩ : TypeName) ∈ default.trackedNames := by
  decide +kernel

end Wrapped

open Wrapped in
/-- One pointer is looked through, two are not. A name of a list says nothing about its elements. -/
theorem wrapped_futures_judged :
    results.PlainNames ∧ default.tracks results.toValueType = true ∧
    futures.PlainNames ∧ default.tracks futures.toValueType = false ∧
    default.isList futures.toValueType = true ∧
    Reaches AliasStep futures futuresOfAlias ∧
    default.isList futuresOfAlias.toValueType = true ∧
    default.tracks (pointer (pointer future)).toValueType = false := by
  obtain ⟨hjudged, haliases⟩ := source_types_judged_exactly namesRead
  have hfuture : Shows (pointer future) future := .pointer (.refl _) (.refl _)
  have hresult : Shows (synonym (pointer (synonym future))) future :=
    .pointer (.synonym (.refl _)) (.synonym (.refl _))
  have hlist : default.isList futures.toValueType = true :=
    ((hjudged futures plain_futures).2 rfl).2 ⟨_, .inl rfl, .named hfuture future_mem .same⟩
  have hstep : AliasStep futures futuresOfAlias := .named _ _ (.slice (.pointer (.here rfl)))
  have hreaches : Reaches AliasStep futures futuresOfAlias := (Reaches.refl _ _).tail hstep
  refine ⟨plain_results, ?_, plain_futures, ?_, hlist, hreaches, ?_, ?_⟩
  · exact (hjudged results plain_results).1.2
      (.component List.mem_cons_self (.named hresult future_mem .same))
  · decide +kernel
  · rw [(haliases futures futuresOfAlias hreaches).2, hlist]
  · decide +kernel

end Config

end AwaitLint
