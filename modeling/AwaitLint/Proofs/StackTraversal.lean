import AwaitLint.Proofs.TreeSearch
import Mathlib.Data.List.Basic

/-!
# AwaitLint — walks with a stack are recursive walks

Trees are walked with a stack of nodes still to visit. This module compares these walks with the
recursion that visits a node and then its children one after the other. A node that several parents
share stands at several places, and both visit it once for each of them.

* **`inspect`**, **`descend`** — the loop and the recursion with a callback that keeps a state and
  decides, from the state and the node, whether to go on to the children. What is on the stack is
  what the recursion has still to do (`inspect_eq_foldl`).
* **`listing`** — the nodes that the recursion meets when the decision depends on the node only.
* **`inspect_logging`**, **`inspect_seeking`**, **`inspect_gathering`** — the walks of the library
  are loops with a callback. A callback that has found its node rejects all that follows, so the
  loop empties the stack without another change (`inspect_seeking_some`).
* **`traversals_eq_recursion`** — the headline.
-/

namespace AwaitLint.Node

/-! ## The loop and the recursion -/

section Callback

variable {σ : Type} (f : σ → Node → σ × Bool)

/-- Visits the nodes under a stack. The callback takes what is kept and a node, and answers with
what is kept from then on and whether the children of the node are visited. -/
def inspect (s : σ) : List Node → σ
  | [] => s
  | n :: stack =>
    if (f s n).2 then inspect (f s n).1 (n.children ++ stack) else inspect (f s n).1 stack
termination_by stack => stackSize stack
decreasing_by
  · exact stackSize_enter_lt n stack
  · exact stackSize_skip_lt n stack

/-- Visits a node and then, if the callback says so, its children in their order. -/
def descend (s : σ) (n : Node) : σ :=
  if (f s n).2 then n.children.attach.foldl (fun s c => descend s c.1) (f s n).1 else (f s n).1
termination_by n.size
decreasing_by exact size_lt_of_mem_children c.2

theorem descend_eq (s : σ) (n : Node) :
    descend f s n = if (f s n).2 then n.children.foldl (descend f) (f s n).1 else (f s n).1 := by
  rw [descend, List.foldl_attach]

/-- The stack holds what the recursion has still to visit. -/
theorem inspect_eq_foldl (s : σ) (stack : List Node) :
    inspect f s stack = stack.foldl (descend f) s := by
  induction s, stack using inspect.induct f with
  | case1 s => rw [inspect, List.foldl_nil]
  | case2 s n stack henter ih =>
    rw [inspect, if_pos henter, ih, List.foldl_append, List.foldl_cons, descend_eq, if_pos henter]
  | case3 s n stack hskip ih =>
    rw [inspect, if_neg hskip, ih, List.foldl_cons, descend_eq, if_neg hskip]

end Callback

/-! ## Lists of nodes -/

/-- A node and then, if `enter` accepts it, the lists of its children in their order. -/
def listing (enter : Node → Bool) (n : Node) : List Node :=
  n :: if enter n then n.children.attach.flatMap fun c => listing enter c.1 else []
termination_by n.size
decreasing_by exact size_lt_of_mem_children c.2

theorem listing_eq (enter : Node → Bool) (n : Node) :
    n.listing enter = n :: if enter n then n.children.flatMap (listing enter) else [] := by
  rw [listing, ← List.flatMap_map Subtype.val, List.attach_map_subtype_val]

theorem preorder_eq_listing (enter : Node → Bool) (n : Node) :
    n.preorder enter = n.listing enter := by
  induction hn : n.size using Nat.strongRecOn generalizing n with
  | ind k ih =>
    subst hn
    rw [preorder_eq_cons, listing_eq]
    have hchildren : n.children.flatMap (preorder enter) = n.children.flatMap (listing enter) :=
      List.flatMap_congr fun c hc => ih _ (size_lt_of_mem_children hc) c rfl
    rw [hchildren]

/-! ## The walks of the library as loops -/

/-- Keeps a list of the nodes visited. -/
def logging (enter : Node → Bool) (log : List Node) (n : Node) : List Node × Bool :=
  (log ++ [n], enter n)

/-- Keeps the first node of the function of `root` that satisfies `p`, and goes on to nothing from
then on. -/
def seeking (root : Node) (p : Node → Bool) (found : Option Node) (n : Node) :
    Option Node × Bool :=
  if found.isSome then (found, false)
  else if p n then (some n, false)
  else (none, root.inScope n)

/-- Keeps all nodes of the function of `root` that satisfy `p`. -/
def gathering (root : Node) (p : Node → Bool) (out : List Node) (n : Node) : List Node × Bool :=
  (if p n then out ++ [n] else out, root.inScope n)

theorem inspect_logging (enter : Node → Bool) (log stack : List Node) :
    inspect (logging enter) log stack = log ++ visit enter stack := by
  induction stack using visit.induct enter generalizing log with
  | case1 => rw [inspect, visit, List.append_nil]
  | case2 n stack henter ih =>
    have hdown : (logging enter log n).2 = true := henter
    rw [inspect, if_pos hdown, ih, visit, if_pos henter]
    exact List.append_assoc log [n] _
  | case3 n stack hskip ih =>
    have hdown : ¬ (logging enter log n).2 = true := hskip
    rw [inspect, if_neg hdown, ih, visit, if_neg hskip]
    exact List.append_assoc log [n] _

theorem inspect_gathering (root : Node) (p : Node → Bool) (out stack : List Node) :
    inspect (gathering root p) out stack = out ++ (visit root.inScope stack).filter p := by
  have hkeep (out : List Node) (n : Node) (rest : List Node) :
      (if p n then out ++ [n] else out) ++ rest.filter p = out ++ (n :: rest).filter p := by
    rw [List.filter_cons]
    split
    · exact List.append_assoc out [n] _
    · rfl
  induction stack using visit.induct root.inScope generalizing out with
  | case1 => rw [inspect, visit, List.filter_nil, List.append_nil]
  | case2 n stack henter ih =>
    have hdown : (gathering root p out n).2 = true := henter
    rw [inspect, if_pos hdown, ih, visit, if_pos henter]
    exact hkeep out n _
  | case3 n stack hskip ih =>
    have hdown : ¬ (gathering root p out n).2 = true := hskip
    rw [inspect, if_neg hdown, ih, visit, if_neg hskip]
    exact hkeep out n _

/-- Once a node is found, the rest of the stack is emptied without a change. -/
theorem inspect_seeking_some (root : Node) (p : Node → Bool) (m : Node) (stack : List Node) :
    inspect (seeking root p) (some m) stack = some m := by
  induction stack with
  | nil => rw [inspect]
  | cons n stack ih =>
    have hstep : seeking root p (some m) n = (some m, false) := rfl
    rw [inspect, hstep]
    exact ih

theorem inspect_seeking (root : Node) (p : Node → Bool) (stack : List Node) :
    inspect (seeking root p) none stack = firstMatch p root.inScope stack := by
  induction stack using firstMatch.induct p root.inScope with
  | case1 => rw [inspect, firstMatch]
  | case2 n stack hp =>
    have hstep : seeking root p none n = (some n, false) := if_pos hp
    rw [inspect, hstep, firstMatch, if_pos hp]
    exact inspect_seeking_some root p n stack
  | case3 n stack hp henter ih =>
    have hstep : seeking root p none n = (none, root.inScope n) := if_neg hp
    rw [inspect, hstep, firstMatch, if_neg hp, if_pos henter, if_pos henter, ih]
  | case4 n stack hp hskip ih =>
    have hstep : seeking root p none n = (none, root.inScope n) := if_neg hp
    rw [inspect, hstep, firstMatch, if_neg hp, if_neg hskip, if_neg hskip, ih]

/-! ## The headline -/

/-- The nodes of a function in the order of the recursion: functions are not entered, other than the
root itself. -/
def ownListing (root : Node) : List Node :=
  root.listing fun n => decide (n.id = root.id ∨ n.kind ≠ .func)

theorem preorder_inScope_eq (root : Node) : root.preorder root.inScope = root.ownListing := by
  have htest : root.inScope = fun n => decide (n.id = root.id ∨ n.kind ≠ .func) := by
    funext n
    rw [Bool.eq_iff_iff]
    simp [inScope, same]
  rw [preorder_eq_listing, htest]
  rfl

/-- **Walks with a stack are recursive walks.** For every node, whatever nodes under it are shared:
the loop ends with what the recursion ends with, for every callback that keeps a state; for a test
on nodes it visits the nodes of the recursion in their order, each as often. A search returns the
first match of the recursion that enters no function but the root, and stays with it while the loop
empties its stack; a search for all matches returns all of them, with repetition. -/
theorem traversals_eq_recursion (root : Node) :
    (∀ (σ : Type) (f : σ → Node → σ × Bool) (s : σ), inspect f s [root] = descend f s root) ∧
    (∀ enter, inspect (logging enter) [] [root] = root.listing enter ∧
      root.preorder enter = root.listing enter) ∧
    (∀ p, inspect (seeking root p) none [root] = root.ownListing.find? p ∧
      root.find? p = root.ownListing.find? p) ∧
    ∀ p, inspect (gathering root p) [] [root] = root.ownListing.filter p ∧
      root.findAll p = root.ownListing.filter p := by
  refine ⟨fun σ f s => ?_, fun enter => ⟨?_, preorder_eq_listing enter root⟩, fun p => ?_,
    fun p => ?_⟩
  · rw [inspect_eq_foldl, List.foldl_cons, List.foldl_nil]
  · rw [inspect_logging, List.nil_append]
    exact preorder_eq_listing enter root
  · have hfind : root.find? p = root.ownListing.find? p := by
      rw [find?_eq_find?_preorder, preorder_inScope_eq]
    rw [inspect_seeking]
    exact ⟨hfind, hfind⟩
  · have hall : root.findAll p = root.ownListing.filter p := by
      rw [findAll, preorder_inScope_eq]
    rw [inspect_gathering, List.nil_append]
    exact ⟨hall, hall⟩

end AwaitLint.Node
