import AwaitLint.Flow.ControlFlow
import AwaitLint.Flow.DataFlow
import AwaitLint.Verdict
import Mathlib.Data.List.Basic

/-!
# AwaitLint — flow analyses and the nodes of a body

The flow analyses go by the numbers and blocks of instructions. When the nodes of a body are
exchanged and the front end says of the new ones what it said of the old, they answer the same, with
the nodes exchanged.

* **`ControlFlow.ofBody_mapNodes`**, **`ControlFlow.postDominators_mapNodes`** — control flow.
* **`DataFlow.solve_mapNodes`** — reaching definitions, from what one step of the fixpoint computes
  (`DataFlow.relax_mapNodes`).
-/

namespace AwaitLint

variable (f : Node → Node)

/-- The instruction with its node exchanged. -/
def Instr.mapNode (i : Instr) : Instr := { i with node := f i.node }

/-- The block with its nodes exchanged. -/
def Block.mapNodes (b : Block) : Block := { b with nodes := b.nodes.map f, branch := b.branch.map f }

/-- The body with its nodes exchanged. -/
def Body.mapNodes (b : Body) : Body :=
  { b with func := f b.func, blocks := b.blocks.map (Block.mapNodes f) }

/-! ## Bodies -/

namespace Body

theorem evaluated_mapNodes (b : Block) : (b.mapNodes f).evaluated = b.evaluated.map f := by
  unfold Block.evaluated
  rw [List.map_append]
  show b.nodes.map f ++ (b.branch.map f).toList = _
  cases b.branch <;> rfl

theorem numbered_mapNodes (ordinal next : Nat) (blocks : List Block) :
    numbered ordinal next (blocks.map (Block.mapNodes f))
      = (numbered ordinal next blocks).map (Instr.mapNode f) := by
  induction blocks generalizing ordinal next with
  | nil => rfl
  | cons b blocks ih =>
    rw [List.map_cons, numbered, numbered, ih, evaluated_mapNodes, List.length_map, List.map_append]
    congr 1
    refine List.ext_getElem? fun i => ?_
    simp only [List.getElem?_mapIdx, List.getElem?_map, Option.map_map]
    rfl

theorem instrs_mapNodes (b : Body) : (b.mapNodes f).instrs = b.instrs.map (Instr.mapNode f) :=
  numbered_mapNodes f 0 0 b.blocks

theorem instrsOf_mapNodes (b : Body) (ordinal : Nat) :
    (b.mapNodes f).instrsOf ordinal = (b.instrsOf ordinal).map (Instr.mapNode f) := by
  unfold instrsOf
  rw [instrs_mapNodes, List.filter_map]
  rfl

theorem edges_mapNodes (b : Body) : (b.mapNodes f).edges = b.edges := by
  unfold edges
  show ((b.blocks.map (Block.mapNodes f)).zipIdx).flatMap _ = _
  rw [List.zipIdx_map, List.flatMap_map]
  rfl

theorem preds_mapNodes (b : Body) (ordinal : Nat) : (b.mapNodes f).preds ordinal = b.preds ordinal := by
  unfold preds
  rw [edges_mapNodes]

theorem ordinals_mapNodes (b : Body) : (b.mapNodes f).ordinals = b.ordinals := by
  show List.range (b.blocks.map (Block.mapNodes f)).length = _
  rw [List.length_map]
  rfl

theorem findIdx?_mapNodes (blocks : List Block) (kind : BlockKind) :
    (blocks.map (Block.mapNodes f)).findIdx? (fun blk => blk.kind = kind)
      = blocks.findIdx? fun blk => blk.kind = kind :=
  List.findIdx?_map

theorem entry?_mapNodes (b : Body) : Body.entry? (b.mapNodes f) = b.entry? := by
  have hkind : (b.mapNodes f).blocks = b.blocks.map (Block.mapNodes f) := rfl
  unfold entry?
  rw [hkind, findIdx?_mapNodes, List.isEmpty_map]

theorem exit?_mapNodes (b : Body) : (b.mapNodes f).exit? = b.exit? := by
  have hkind : (b.mapNodes f).blocks = b.blocks.map (Block.mapNodes f) := rfl
  unfold exit?
  rw [hkind, findIdx?_mapNodes, List.isEmpty_map, List.length_map]

end Body

/-! ## Control flow -/

namespace ControlFlow

/-- The control flow with the nodes of its body exchanged. -/
def mapNodes (cf : ControlFlow) : ControlFlow := { cf with body := cf.body.mapNodes f }

theorem ofBody_mapNodes (b : Body) : ofBody (b.mapNodes f) = (ofBody b).map (mapNodes f) := by
  have hgraph (entry exit : Nat) : blockGraph (b.mapNodes f) entry exit = blockGraph b entry exit := by
    unfold blockGraph
    rw [Body.ordinals_mapNodes, Body.edges_mapNodes]
  have hregions : (b.mapNodes f).hasExceptionRegions = b.hasExceptionRegions := rfl
  unfold ofBody
  rw [Body.entry?_mapNodes, Body.exit?_mapNodes, hregions]
  simp only [hgraph]
  cases b.hasExceptionRegions with
  | true => rfl
  | false => cases b.entry? <;> cases b.exit? <;> rfl

theorem postDominators_mapNodes (cf : ControlFlow) (i : Instr) :
    (cf.mapNodes f).postDominators (i.mapNode f) = (cf.postDominators i).map (Instr.mapNode f) := by
  have hparent : (cf.mapNodes f).tree.parent? (i.mapNode f).block = cf.tree.parent? i.block := rfl
  have hinstrs : (cf.mapNodes f).body.instrsOf = fun o => (cf.body.instrsOf o).map (Instr.mapNode f) :=
    funext (Body.instrsOf_mapNodes f cf.body)
  unfold postDominators
  rw [hparent, hinstrs]
  cases cf.tree.parent? i.block with
  | none => rfl
  | some _ =>
    dsimp only
    rw [List.map_append, List.map_flatMap, List.map_drop]
    rfl

theorem successorInstrs_mapNodes (cf : ControlFlow) (i : Instr) :
    (cf.mapNodes f).successorInstrs (i.mapNode f)
      = (cf.successorInstrs i).map (Instr.mapNode f) := by
  have hinstrs : (cf.mapNodes f).body.instrsOf = fun o => (cf.body.instrsOf o).map (Instr.mapNode f) :=
    funext (Body.instrsOf_mapNodes f cf.body)
  unfold successorInstrs
  rw [hinstrs, List.map_flatMap]
  rfl

end ControlFlow

theorem Analysis.listed_mapNode (l : List Instr) (i : Instr) :
    Analysis.listed (l.map (Instr.mapNode f)) (i.mapNode f) = Analysis.listed l i := by
  unfold Analysis.listed
  rw [List.any_map]
  rfl

/-! ## Data flow -/

namespace DataFlow

variable (links : Links) (df : DataFlow)

/-- The data flow with the nodes of its body exchanged, and other links. -/
def mapNodes : DataFlow := { df with links, body := df.body.mapNodes f }

theorem select_mapNodes {p p' : Instr → Bool} (hp : ∀ i, p' (i.mapNode f) = p i) :
    (df.mapNodes f links).select p' = df.select p := by
  unfold select
  show ((df.body.mapNodes f).instrs.filter p').map (·.id) = _
  rw [Body.instrs_mapNodes, List.filter_map, List.map_map]
  have hfilter : df.body.instrs.filter (p' ∘ Instr.mapNode f) = df.body.instrs.filter p :=
    List.filter_congr fun i _ => hp i
  rw [hfilter]
  rfl

theorem any_instrsOf_mapNodes (b : Body) (ordinal : Nat) {p p' : Instr → Bool}
    (hp : ∀ i, p' (i.mapNode f) = p i) :
    ((b.mapNodes f).instrsOf ordinal).any p' = (b.instrsOf ordinal).any p := by
  rw [Body.instrsOf_mapNodes, List.any_map]
  exact List.any_congr rfl fun i => hp i

theorem rewrittenAfter_mapNodes (i : Instr) (v : Option Variable) :
    (df.mapNodes f links).rewrittenAfter (i.mapNode f) v = df.rewrittenAfter i v :=
  any_instrsOf_mapNodes f df.body i.block fun _ => rfl

theorem writes_mapNodes (ordinal : Nat) :
    (df.mapNodes f links).writes ordinal = df.writes ordinal :=
  funext fun _ => any_instrsOf_mapNodes f df.body ordinal fun _ => rfl

theorem defs_mapNodes (ordinal : Nat) : (df.mapNodes f links).defs ordinal = df.defs ordinal := by
  refine select_mapNodes f links df fun i => ?_
  simp only [rewrittenAfter_mapNodes]
  rfl

theorem kills_mapNodes (ordinal : Nat) : (df.mapNodes f links).kills ordinal = df.kills ordinal := by
  refine select_mapNodes f links df fun i => ?_
  rw [writes_mapNodes]
  rfl

theorem incoming_mapNodes (ordinal : Nat) :
    (df.mapNodes f links).incoming ordinal = df.incoming ordinal := by
  have houtgoing : (df.mapNodes f links).outgoing = df.outgoing := by
    funext o
    unfold outgoing
    rw [defs_mapNodes, kills_mapNodes]
    rfl
  unfold incoming
  refine select_mapNodes f links df fun i => ?_
  show (((df.body.mapNodes f).preds ordinal).flatMap _).contains i.id = _
  rw [Body.preds_mapNodes, houtgoing]

theorem relax_mapNodes (ordinal : Nat) :
    (df.mapNodes f links).relax ordinal = (df.relax ordinal).mapNodes f links := by
  unfold relax
  rw [incoming_mapNodes]
  rfl

theorem sweep_mapNodes : (df.mapNodes f links).sweep = df.sweep.mapNodes f links := by
  have hfoldl : ∀ (os : List Nat) (df : DataFlow),
      os.foldl relax (df.mapNodes f links) = (os.foldl relax df).mapNodes f links := by
    intro os
    induction os with
    | nil => exact fun df => rfl
    | cons o os ih =>
      intro df
      rw [List.foldl_cons, List.foldl_cons, relax_mapNodes, ih]
  unfold sweep
  show (df.body.mapNodes f).ordinals.foldl relax _ = _
  rw [Body.ordinals_mapNodes, hfoldl]

theorem room_mapNodes : (df.mapNodes f links).room = df.room := by
  unfold room
  show total (fun s => (df.body.mapNodes f).instrs.length - s.length) df.reachSets = _
  rw [Body.instrs_mapNodes, List.length_map]

theorem saturate_mapNodes : (df.mapNodes f links).saturate = df.saturate.mapNodes f links := by
  induction df using saturate.induct with
  | case1 df next hlt ih =>
    rw [saturate.eq_def (df.mapNodes f links), saturate.eq_def df]
    dsimp only
    rw [sweep_mapNodes, room_mapNodes, room_mapNodes, if_pos hlt, if_pos hlt]
    exact ih
  | case2 df next hlt =>
    rw [saturate.eq_def (df.mapNodes f links), saturate.eq_def df]
    dsimp only
    rw [sweep_mapNodes, room_mapNodes, room_mapNodes, if_neg hlt, if_neg hlt]

/-- **Reaching definitions do not depend on the nodes**, only on what the front end says of them. -/
theorem solve_mapNodes {fe fe' : FrontEnd} {b : Body}
    (h : ∀ i ∈ b.instrs, resolve fe' (f i.node) = resolve fe i.node) :
    solve fe' (b.mapNodes f) = (solve fe b).mapNodes f fe'.links := by
  have hresolved : resolved fe' (b.mapNodes f) = (resolved fe b).mapNodes f fe'.links := by
    unfold resolved mapNodes
    rw [Body.instrs_mapNodes, List.map_map]
    have hfacts : b.instrs.map ((fun i => resolve fe' i.node) ∘ Instr.mapNode f)
        = b.instrs.map fun i => resolve fe i.node := List.map_congr_left h
    have hblocks : (b.mapNodes f).blocks.map (fun _ => ([] : List Nat))
        = b.blocks.map fun _ => [] := List.map_map
    rw [hfacts, hblocks]
  unfold solve
  rw [hresolved, saturate_mapNodes]

theorem definitionsAt_mapNodes (i : Instr) (v : Option Variable) :
    (df.mapNodes f links).definitionsAt (i.mapNode f) v = df.definitionsAt i v := by
  have hprevious : (df.mapNodes f links).previousDef? (i.mapNode f) v = df.previousDef? i v := by
    unfold previousDef?
    show (((df.body.mapNodes f).instrsOf i.block).filter _).getLast?.map _ = _
    rw [Body.instrsOf_mapNodes, List.filter_map, List.getLast?_map, Option.map_map]
    rfl
  unfold definitionsAt
  rw [hprevious]
  rfl

theorem reachingTo_mapNodes (i : Instr) (symbols : List (Option Variable)) :
    (df.mapNodes f links).reachingTo (i.mapNode f) symbols = df.reachingTo i symbols := by
  have hat : (df.mapNodes f links).definitionsAt (i.mapNode f) = df.definitionsAt i :=
    funext (definitionsAt_mapNodes f links df i)
  unfold reachingTo
  rw [hat]
  rfl

theorem reachingFrom_mapNodes (id : Nat) (symbols : List (Option Variable)) :
    (df.mapNodes f links).reachingFrom id symbols
      = (df.reachingFrom id symbols).map (Instr.mapNode f) := by
  unfold reachingFrom
  show ((df.body.mapNodes f).instrs).filter _ = _
  rw [Body.instrs_mapNodes, List.filter_map]
  refine congrArg _ (List.filter_congr fun i _ => ?_)
  show ((df.mapNodes f links).reachingTo (i.mapNode f) _).contains id = _
  rw [reachingTo_mapNodes]
  rfl

theorem definitionsOf_mapNodes (v : Option Variable) :
    (df.mapNodes f links).definitionsOf v = (df.definitionsOf v).map (Instr.mapNode f) := by
  unfold definitionsOf
  show ((df.body.mapNodes f).instrs).filter _ = _
  rw [Body.instrs_mapNodes, List.filter_map]
  rfl

end DataFlow

end AwaitLint
