import Mathlib.Logic.Relation
import Mathlib.Tactic
import Hippocrates.Flow.Blocks
import Hippocrates.Lib.Potential

/-!
`ContextGraph::construct` of `FlowAnalyzer.cpp`: the graph of the blocks between two trace events,
each in the context of the calls that lead to it.

* `FnContext`: a context. Each call that is followed makes a new one; a context returns to the one
  it was called from. Pointers to contexts are their places.
* `NodeId`: a pointer to a node: the root, or the place in the node cache.
* `successors`, `constructSuccessors`, `visit`, `constructLoop`: the loop over the frontier. A
  failed assertion, and a null pointer, end the run.
* `GraphInput`: the contexts and the blocks of the two events.
-/

namespace Hippocrates

/-- A context: the calls that lead to it, where it returns to, and its persistent values. -/
structure FnContext where
  callStack : List Instr
  parent : Option CtxId
  pm : PmSets
deriving DecidableEq

/-- `FnContext::contains`. -/
def FnContext.contains (c : FnContext) (cb : Instr) : Bool := decide (cb ∈ c.callStack)

/-- `FnContext::caller`. -/
def FnContext.caller (c : FnContext) : Option Instr := c.callStack.getLast?

/-- A pointer to a node. -/
inductive NodeId where
  | root
  | cached (ctx : CtxId) (first : Instr)
deriving DecidableEq

structure GraphNode where
  block : ContextBlock
  parents : Finset NodeId
  children : Finset NodeId
  constructed : Bool
deriving DecidableEq

/-- A node that is new. -/
def GraphNode.fresh (b : ContextBlock) : GraphNode := ⟨b, ∅, ∅, false⟩

/-- The state of the loop. All contexts share one `callBaseCache_`. The nodes but the root are those
of `nodeCache_`. -/
structure ConstructState where
  ctxs : List FnContext
  callBaseCache : Instr → Option CtxId
  nodes : NodeId → Option GraphNode
  frontier : List NodeId
  leaves : List NodeId

namespace ConstructState

variable (M : FlowModule) (s : ConstructState)

/-- `FnContext::doCall`, in the context `c`. -/
def doCall (c : CtxId) (ctx : FnContext) (cb : Instr) : CtxId × List FnContext :=
  match s.callBaseCache cb with
  | some nctx => (nctx, s.ctxs)
  | none => (s.ctxs.length, s.ctxs ++ [⟨ctx.callStack ++ [cb], some c, ctx.pm⟩])

/-- The persistent values of the parent, after the return. -/
def returnPm (ctx parent : FnContext) (ri : Instr) : Option PmSets :=
  match ri.getReturnValue with
  | none => some (parent.pm.doReturn ctx.pm)
  | some v =>
    if !v.isPointer then some (parent.pm.doReturn ctx.pm)
    else
      match ctx.pm.pointsToPm M.aliases v, ctx.caller with
      | some true, some cb =>
        (parent.pm.addKnownPmValue M.aliases (M.result cb)).map fun pm => pm.doReturn ctx.pm
      | some false, _ => some (parent.pm.doReturn ctx.pm)
      | _, _ => none

/-- `FnContext::doReturn`, to the parent `p`. -/
def doReturn (ctx : FnContext) (p : CtxId) (ri : Instr) : Option (List FnContext) :=
  match s.ctxs[p]? with
  | none => none
  | some parent => (returnPm M ctx parent ri).map fun pm => s.ctxs.set p { parent with pm := pm }

/-- The contexts and instructions that come after a block, and the contexts there are then. -/
def successors (b : ContextBlock) : Option (List (CtxId × Instr) × List FnContext) := do
  let ctx ← s.ctxs[b.ctx]?
  if b.last.isReturn then
    match ctx.parent with
    | none => some ([], s.ctxs)
    | some p =>
      let ctxs ← s.doReturn M ctx p b.last
      let cb ← ctx.caller
      let next ← M.next cb -- "bad assumptions!"
      some ([(p, next)], ctxs)
  else if b.last.isCallBase then
    let f ← b.last.getCalledFunction -- "don't know how to handle this yet!"
    if ctx.contains b.last then
      let next ← M.next b.last
      some ([(b.ctx, next)], s.ctxs)
    else
      let next ← M.entryFront f
      let r := s.doCall b.ctx ctx b.last
      some ([(r.1, next)], r.2)
  else if isTerminator M.isInvoke b.last then
    let firsts ← (M.succBlocks b.last).mapM getFirstNonPHIOrDbgOrLifetime
    some (firsts.map fun i => (b.ctx, i), s.ctxs)
  else none -- "wat"

/-- The node is marked. -/
def mark (k : NodeId) (nodes : NodeId → Option GraphNode) : NodeId → Option GraphNode :=
  Function.update nodes k ((nodes k).map fun n => { n with constructed := true })

/-- The node cache, with new nodes for the successors it lacks. -/
def cacheNodes (succs : List (CtxId × Instr)) (nodes : NodeId → Option GraphNode) :
    NodeId → Option GraphNode
  | .root => nodes .root
  | .cached c i =>
    match nodes (.cached c i) with
    | some n => some n
    | none =>
      if (c, i) ∈ succs then some (GraphNode.fresh (ContextBlock.create M c i i)) else none

/-- The places of the successors in the node cache. -/
def cachedIds (succs : List (CtxId × Instr)) : List NodeId :=
  succs.map fun p => .cached p.1 p.2

/-- `constructSuccessors`. -/
def constructSuccessors (k : NodeId) (b : ContextBlock) : Option (List NodeId × ConstructState) :=
  (s.successors M b).map fun r =>
    (cachedIds r.1,
      { s with ctxs := r.2, nodes := cacheNodes M r.1 (mark k s.nodes) })

/-- The children are linked with their parent. -/
def link (k : NodeId) (kids : List NodeId) (nodes : NodeId → Option GraphNode) :
    NodeId → Option GraphNode := fun k' =>
  (nodes k').map fun n =>
    { n with
      parents := if k' ∈ kids then insert k n.parents else n.parents
      children := if k' = k then n.children ∪ kids.toFinset else n.children }

/-- The node has been constructed. -/
def isConstructed (k : NodeId) : Bool := (s.nodes k).any GraphNode.constructed

/-- `FnContext::operator==`: the stacks. -/
def sameStack (c c' : CtxId) : Bool :=
  (s.ctxs[c]?).map FnContext.callStack == (s.ctxs[c']?).map FnContext.callStack

/-- `ContextBlock::operator==`. -/
def sameBlock (b c : ContextBlock) : Bool :=
  b.first == c.first && b.last == c.last && s.sameStack b.ctx c.ctx

/-- The end of the traversal at a node that is equal to the end block. -/
def finish (stop : ContextBlock) (k : NodeId) (n : GraphNode) : ConstructState :=
  { s with
    nodes := Function.update s.nodes k
      (some { n with constructed := true, block := { n.block with traceInst := stop.traceInst } })
    leaves := s.leaves ++ [k] }

/-- The children of a node enter the graph, and the frontier if they have not been constructed. -/
def adopt (k : NodeId) (kids : List NodeId) : ConstructState :=
  { s with
    nodes := link k kids s.nodes
    frontier := s.frontier ++ kids.filter fun k' => !s.isConstructed k'
    leaves := if kids.isEmpty then s.leaves ++ [k] else s.leaves }

/-- One round, for the first node of the frontier. -/
def visit (stop : ContextBlock) (k : NodeId) : Option ConstructState := do
  let n ← s.nodes k
  if n.constructed then some s
  else if s.sameBlock n.block stop then some (s.finish stop k n)
  else
    let r ← s.constructSuccessors M k n.block
    some (r.2.adopt k r.1)

end ConstructState

/-- How the loop ends: with a graph, or at a node where an assertion fails or a pointer is null. -/
inductive Outcome where
  | done (s : ConstructState)
  | aborted (s : ConstructState) (k : NodeId)

/-- `construct`, with a bound for the number of rounds. -/
def constructLoop (M : FlowModule) (stop : ContextBlock) : ℕ → ConstructState → Option Outcome
  | 0, s => if s.frontier = [] then some (.done s) else none
  | n + 1, s =>
    match s.frontier with
    | [] => some (.done s)
    | k :: frontier =>
      match { s with frontier := frontier }.visit M stop k with
      | none => some (.aborted s k)
      | some s' => constructLoop M stop n s'

section Loop

variable {M : FlowModule} {stop : ContextBlock} {s s' : ConstructState} {n : ℕ} {k : NodeId}
  {frontier : List NodeId}

lemma constructLoop_nil (h : s.frontier = []) : constructLoop M stop n s = some (.done s) := by
  cases n <;> simp [constructLoop, h]

lemma constructLoop_none (hk : s.frontier = k :: frontier)
    (hv : { s with frontier := frontier }.visit M stop k = none) :
    constructLoop M stop (n + 1) s = some (.aborted s k) := by
  simp [constructLoop, hk, hv]

lemma constructLoop_some (hk : s.frontier = k :: frontier)
    (hv : { s with frontier := frontier }.visit M stop k = some s') :
    constructLoop M stop (n + 1) s = constructLoop M stop n s' := by
  simp [constructLoop, hk, hv]

end Loop

/-- The calls on the stacks, and where the contexts return to. -/
def frames (ctxs : List FnContext) : List (List Instr × Option CtxId) :=
  ctxs.map fun c => (c.callStack, c.parent)

/-- The stacks consist of calls; a context that returns to another has been called. -/
structure ContextsValid (M : FlowModule) (frames : List (List Instr × Option CtxId)) : Prop where
  calls : ∀ fr ∈ frames, ∀ cb ∈ fr.1, cb ∈ M.insts ∧ cb.isCallBase = true
  parent : ∀ fr ∈ frames, ∀ p, fr.2 = some p → p < frames.length ∧ fr.1 ≠ []

/-- What the construction starts from: the contexts of the two events, and their blocks. -/
structure GraphInput (M : FlowModule) where
  ctxs : List FnContext
  root : ContextBlock
  stop : ContextBlock
  valid : ContextsValid M (frames ctxs)
  root_ctx : root.ctx < ctxs.length
  stop_ctx : stop.ctx < ctxs.length
  root_first : root.first ∈ M.insts
  root_eq : root = ContextBlock.create M root.ctx root.first root.traceInst

namespace GraphInput

variable {M : FlowModule} (G : GraphInput M)

/-- The input for two trace events: the contexts of their stacks, and the instructions of their
locations. -/
def ofEvents (ctxs : List FnContext) (start stop : CtxId × Instr)
    (valid : ContextsValid M (frames ctxs)) (hstart : start.1 < ctxs.length)
    (hstop : stop.1 < ctxs.length) (hinst : start.2 ∈ M.insts) : GraphInput M where
  ctxs := ctxs
  root := ContextBlock.createAt M start.1 start.2
  stop := ContextBlock.createAt M stop.1 stop.2
  valid := valid
  root_ctx := hstart
  stop_ctx := hstop
  root_first := ContextBlock.createAt_first_mem hinst
  root_eq := rfl

/-- The root is in the frontier. -/
def init : ConstructState where
  ctxs := G.ctxs
  callBaseCache := fun _ => none
  nodes := fun k => if k = .root then some (GraphNode.fresh G.root) else none
  frontier := [.root]
  leaves := []

/-- `construct`, with a bound for the number of rounds. -/
def construct (n : ℕ) : Option Outcome := constructLoop M G.stop n G.init

/-- The states of the loop. -/
inductive Run : ConstructState → Prop
  | init : Run G.init
  | visit {s s' : ConstructState} {k : NodeId} {frontier : List NodeId} (h : Run s)
      (hk : s.frontier = k :: frontier)
      (hv : { s with frontier := frontier }.visit M G.stop k = some s') : Run s'

end GraphInput

/-! ### Contexts -/

section Frames

variable {ctxs : List FnContext} {c p : CtxId} {ctx : FnContext}

lemma length_frames : (frames ctxs).length = ctxs.length := List.length_map _

lemma getElem?_frames (h : ctxs[c]? = some ctx) :
    (frames ctxs)[c]? = some (ctx.callStack, ctx.parent) := by
  rw [frames, List.getElem?_map, h, Option.map_some]

/-- A change of the persistent values does not show. -/
lemma frames_set (h : ctxs[p]? = some ctx) (pm : PmSets) :
    frames (ctxs.set p { ctx with pm := pm }) = frames ctxs := by
  rw [frames, List.map_set]
  refine List.ext_getElem? fun i => ?_
  rw [List.getElem?_set, frames, List.length_map]
  split_ifs with hi hlt
  · rw [← hi, List.getElem?_map, h, Option.map_some]
  · rw [← hi, List.getElem?_map, List.getElem?_eq_none (Nat.not_lt.mp hlt), Option.map_none]
  · rfl

end Frames

namespace ConstructState

variable {M : FlowModule} {s s' : ConstructState} {b : ContextBlock} {k : NodeId}
  {succs : List (CtxId × Instr)} {ctxs : List FnContext} {frontier : List NodeId}

/-! ### What comes after a block -/

/-- What comes after a block in the context `ctx`. `extra` is the new context, if there is one. -/
inductive Succession (M : FlowModule) (s : ConstructState) (b : ContextBlock) (ctx : FnContext) :
    List (CtxId × Instr) → List (List Instr × Option CtxId) → Prop
  | leave (hret : b.last.isReturn = true) (hparent : ctx.parent = none) :
      Succession M s b ctx [] []
  | ret {p : CtxId} {cb next : Instr} (hret : b.last.isReturn = true)
      (hparent : ctx.parent = some p) (hcb : ctx.caller = some cb) (hnext : M.next cb = some next) :
      Succession M s b ctx [(p, next)] []
  | skip {next : Instr} (hcall : b.last.isCallBase = true) (hstack : b.last ∈ ctx.callStack)
      (hnext : M.next b.last = some next) : Succession M s b ctx [(b.ctx, next)] []
  | call {f : FnId} {next : Instr} (hcall : b.last.isCallBase = true)
      (hf : b.last.getCalledFunction = some f) (hstack : b.last ∉ ctx.callStack)
      (hnext : M.entryFront f = some next) :
      Succession M s b ctx [(s.ctxs.length, next)] [(ctx.callStack ++ [b.last], some b.ctx)]
  | branch {firsts : List Instr} (hret : b.last.isReturn = false)
      (hcall : b.last.isCallBase = false)
      (hfirsts : (M.succBlocks b.last).mapM getFirstNonPHIOrDbgOrLifetime = some firsts) :
      Succession M s b ctx (firsts.map fun i => (b.ctx, i)) []

/-- What `successors` can do. -/
lemma succession_of_successors (hcache : ∀ cb, s.callBaseCache cb = none)
    (h : s.successors M b = some (succs, ctxs)) : ∃ ctx extra, s.ctxs[b.ctx]? = some ctx ∧
      frames ctxs = frames s.ctxs ++ extra ∧ Succession M s b ctx succs extra := by
  rw [successors] at h
  obtain ⟨ctx, hctx, h⟩ := Option.bind_eq_some_iff.mp h
  split_ifs at h with hret hcall hstack hterm
  · cases hparent : ctx.parent with
    | none =>
        simp only [hparent, Option.some.injEq, Prod.mk.injEq] at h
        obtain ⟨rfl, rfl⟩ := h
        exact ⟨ctx, [], hctx, (List.append_nil _).symm, .leave hret hparent⟩
    | some p =>
        simp only [hparent] at h
        obtain ⟨ctxs', hdo, h⟩ := Option.bind_eq_some_iff.mp h
        obtain ⟨cb, hcb, h⟩ := Option.bind_eq_some_iff.mp h
        obtain ⟨next, hnext, h⟩ := Option.bind_eq_some_iff.mp h
        obtain ⟨rfl, rfl⟩ := Prod.mk.inj (Option.some.inj h)
        refine ⟨ctx, [], hctx, ?_, .ret hret hparent hcb hnext⟩
        -- a return changes what is known of the parent, but not its calls
        rw [doReturn] at hdo
        cases hp : s.ctxs[p]? with
        | none => simp [hp] at hdo
        | some parent =>
            rw [hp] at hdo
            obtain ⟨pm, -, rfl⟩ := Option.map_eq_some_iff.mp hdo
            rw [frames_set hp, List.append_nil]
  · obtain ⟨f, -, h⟩ := Option.bind_eq_some_iff.mp h
    obtain ⟨next, hnext, h⟩ := Option.bind_eq_some_iff.mp h
    obtain ⟨rfl, rfl⟩ := Prod.mk.inj (Option.some.inj h)
    exact ⟨ctx, [], hctx, (List.append_nil _).symm,
      .skip hcall (decide_eq_true_iff.mp hstack) hnext⟩
  · obtain ⟨f, hf, h⟩ := Option.bind_eq_some_iff.mp h
    obtain ⟨next, hnext, h⟩ := Option.bind_eq_some_iff.mp h
    obtain ⟨rfl, rfl⟩ := Prod.mk.inj (Option.some.inj h)
    -- the call is not on the stack, so a new context is opened
    have hnot : b.last ∉ ctx.callStack := fun hmem => hstack (decide_eq_true_iff.mpr hmem)
    rw [doCall, hcache]
    exact ⟨ctx, _, hctx, by simp [frames], .call hcall hf hnot hnext⟩
  · obtain ⟨firsts, hfirsts, h⟩ := Option.bind_eq_some_iff.mp h
    obtain ⟨rfl, rfl⟩ := Prod.mk.inj (Option.some.inj h)
    exact ⟨ctx, [], hctx, (List.append_nil _).symm,
      .branch (Bool.eq_false_iff.mpr hret) (Bool.eq_false_iff.mpr hcall) hfirsts⟩

/-- A block as `ContextBlock::create` makes them. -/
structure ValidBlock (M : FlowModule) (ctxs : List FnContext) (b : ContextBlock) : Prop where
  ctx : b.ctx < ctxs.length
  first : b.first ∈ M.insts
  last : b.last = M.scrollDown b.first (M.following b.first)

lemma ValidBlock.last_mem (h : ValidBlock M ctxs b) : b.last ∈ M.insts := by
  rw [h.last]
  exact @ContextBlock.last_mem M b.ctx b.first b.traceInst h.first

lemma ValidBlock.last_cases (h : ValidBlock M ctxs b) :
    M.isDefinedCall b.last = true ∨ isTerminator M.isInvoke b.last = true := by
  rw [h.last]
  exact @ContextBlock.last_cases M b.ctx b.first b.traceInst h.first

lemma Succession.mem {ctx : FnContext} {extra : List (List Instr × Option CtxId)}
    (h : Succession M s b ctx succs extra) (hvalid : ContextsValid M (frames s.ctxs))
    (hb : ValidBlock M s.ctxs b) (hctx : s.ctxs[b.ctx]? = some ctx) :
    ∀ p ∈ succs, p.1 < (frames s.ctxs ++ extra).length ∧ p.2 ∈ M.insts := by
  have hframe := List.mem_of_getElem? (getElem?_frames hctx)
  have hlt : b.ctx < (frames s.ctxs ++ extra).length := by
    rw [List.length_append, length_frames]
    exact Nat.lt_add_right _ hb.ctx
  cases h with
  | leave => simp
  | ret _ hparent hcb hnext =>
      obtain ⟨hp, -⟩ := hvalid.parent _ hframe _ hparent
      have hcb := (hvalid.calls _ hframe _ (List.mem_of_getLast? hcb)).1
      simpa using ⟨hp, FlowModule.mem_insts_of_next hcb hnext⟩
  | skip _ _ hnext =>
      simpa using ⟨by simpa using hlt, FlowModule.mem_insts_of_next hb.last_mem hnext⟩
  | call _ _ _ hnext => simpa [length_frames] using FlowModule.mem_insts_of_entryFront hnext
  | branch _ _ hfirsts =>
      intro p hp
      obtain ⟨i, hi, rfl⟩ := List.mem_map.mp hp
      obtain ⟨blk, hblk, hfirst⟩ := (mem_of_mapM hfirsts).mp hi
      obtain ⟨j, hj, hmem⟩ := FlowModule.exists_firstNonPHI hblk
      obtain rfl := Option.some.inj (hj.symm.trans hfirst)
      exact ⟨hlt, hmem⟩

lemma Succession.valid {ctx : FnContext} {extra : List (List Instr × Option CtxId)}
    (h : Succession M s b ctx succs extra) (hvalid : ContextsValid M (frames s.ctxs))
    (hb : ValidBlock M s.ctxs b) (hctx : s.ctxs[b.ctx]? = some ctx) :
    ContextsValid M (frames s.ctxs ++ extra) := by
  have hframe := List.mem_of_getElem? (getElem?_frames hctx)
  cases h with
  | call hcall =>
      constructor
      -- the new context has the calls of this one, and the call that opens it
      · intro fr hfr cb hcb
        rcases List.mem_append.mp hfr with hfr | hfr
        · exact hvalid.calls fr hfr cb hcb
        · obtain rfl := List.mem_singleton.mp hfr
          rcases List.mem_append.mp hcb with hcb | hcb
          · exact hvalid.calls _ hframe cb hcb
          · obtain rfl := List.mem_singleton.mp hcb
            exact ⟨hb.last_mem, hcall⟩
      · intro fr hfr p hp
        rw [List.length_append]
        rcases List.mem_append.mp hfr with hfr | hfr
        · obtain ⟨hlt, hne⟩ := hvalid.parent fr hfr p hp
          exact ⟨Nat.lt_add_right _ hlt, hne⟩
        · obtain rfl := List.mem_singleton.mp hfr
          obtain rfl := Option.some.inj hp
          rw [length_frames]
          exact ⟨Nat.lt_add_right _ hb.ctx, by simp⟩
  | leave => simpa using hvalid
  | ret => simpa using hvalid
  | skip => simpa using hvalid
  | branch => simpa using hvalid

/-- After a call of a defined function comes its entry, in a new context. -/
lemma Succession.entry {ctx : FnContext} {extra : List (List Instr × Option CtxId)}
    (h : Succession M s b ctx succs extra) (hcall : M.isDefinedCall b.last = true)
    (hstack : b.last ∉ ctx.callStack) : ∃ f next, b.last.getCalledFunction = some f ∧
      M.entryFront f = some next ∧ succs = [(s.ctxs.length, next)] ∧
        extra = [(ctx.callStack ++ [b.last], some b.ctx)] := by
  have hbase := FlowModule.isCallBase_of_isDefinedCall hcall
  have hnoret := FlowModule.isReturn_of_isCallBase hbase
  cases h with
  | call _ hf _ hnext => exact ⟨_, _, hf, hnext, rfl, rfl⟩
  | leave hret => simp [hnoret] at hret
  | ret hret => simp [hnoret] at hret
  | skip _ hmem => exact absurd hmem hstack
  | branch _ hno => simp [hbase] at hno

/-- Where the run cannot go on: at an invoke that is not followed into a function, at a return to an
invoke, and at the return of a pointer when the alias analysis does not know it, or does not know
the result of the call although the pointer is persistent. -/
inductive Unhandled (M : FlowModule) (ctx : FnContext) (last : Instr) : Prop
  | invoke (hcall : last.isCallBase = true) (h : M.isInvoke last.id = true)
      (hskip : M.isDefinedCall last = false ∨ last ∈ ctx.callStack)
  | toInvoke {cb : Instr} (hret : last.isReturn = true) (hparent : ctx.parent ≠ none)
      (hcb : ctx.caller = some cb) (h : M.isInvoke cb.id = true)
  | pointer {v : Value} (hret : last.isReturn = true) (hparent : ctx.parent ≠ none)
      (hv : last.getReturnValue = some v) (hptr : v.isPointer = true)
      (h : M.aliases.getPointsToSet v = none)
  | result {v : Value} {cb : Instr} (hret : last.isReturn = true) (hparent : ctx.parent ≠ none)
      (hv : last.getReturnValue = some v) (hptr : v.isPointer = true)
      (hpm : ctx.pm.pointsToPm M.aliases v = some true) (hcb : ctx.caller = some cb)
      (h : M.aliases.getPointsToSet (M.result cb) = none)

/-- The persistent values of the parent are known, unless those of a pointer are not. -/
lemma returnPm_eq_none_iff {ctx parent : FnContext} {ri cb : Instr} (hcb : ctx.caller = some cb) :
    returnPm M ctx parent ri = none ↔ ∃ v, ri.getReturnValue = some v ∧ v.isPointer = true ∧
      (M.aliases.getPointsToSet v = none ∨ ctx.pm.pointsToPm M.aliases v = some true ∧
        M.aliases.getPointsToSet (M.result cb) = none) := by
  rw [returnPm]
  cases hv : ri.getReturnValue with
  | none => simp
  | some v =>
      simp only [Option.some.injEq, exists_eq_left']
      split_ifs with hptr
      · simp only [Bool.not_eq_true'] at hptr
        simp [hptr]
      · have hptr : v.isPointer = true := by simpa using hptr
        cases hpts : M.aliases.getPointsToSet v with
        | none => simp [PmSets.pointsToPm, hpts, hptr]
        | some set =>
            rw [PmSets.pointsToPm, hpts, Option.map_some, hcb]
            cases decide (0 < ctx.pm.getNumPmAliases (PmDesc.targets v set)) with
            | false => simp [hptr]
            | true => simp [hptr, PmSets.addKnownPmValue]

/-- A call that is no invoke is followed by an instruction. -/
lemma next_eq_none_iff_isInvoke {i : Instr} (hi : i ∈ M.insts) (hcall : i.isCallBase = true) :
    M.next i = none ↔ M.isInvoke i.id = true := by
  rw [FlowModule.next_eq_none_iff hi, FlowModule.isInvoke_of_isCallBase hcall]

/-- A return. -/
lemma ret_eq_none_iff {ctx : FnContext} {p : CtxId} (hvalid : ContextsValid M (frames s.ctxs))
    (hctx : s.ctxs[b.ctx]? = some ctx) (hret : b.last.isReturn = true)
    (hparent : ctx.parent = some p) : s.successors M b = none ↔ Unhandled M ctx b.last := by
  have hframe := List.mem_of_getElem? (getElem?_frames hctx)
  obtain ⟨hp, hne⟩ := hvalid.parent _ hframe p hparent
  rw [length_frames] at hp
  obtain ⟨cb, hcb⟩ : ∃ cb, ctx.caller = some cb := ⟨_, List.getLast?_eq_some_getLast hne⟩
  obtain ⟨hmem, hcall⟩ := hvalid.calls _ hframe cb (List.mem_of_getLast? hcb)
  have hpm := @returnPm_eq_none_iff M ctx s.ctxs[p] b.last cb hcb
  have hsome : ctx.parent ≠ none := by simp [hparent]
  rw [successors, hctx]
  simp only [Option.bind_eq_bind, Option.bind_some, hret, if_true, hparent, doReturn,
    List.getElem?_eq_getElem hp, hcb]
  cases hnext : M.next cb with
  | none =>
      refine iff_of_true (by simp) (.toInvoke hret hsome hcb ?_)
      exact (next_eq_none_iff_isInvoke hmem hcall).mp hnext
  | some next =>
      have hinvoke : M.isInvoke cb.id ≠ true := fun htrue => by
        rw [(next_eq_none_iff_isInvoke hmem hcall).mpr htrue] at hnext
        cases hnext
      -- the successor is there, so only what is known of persistent memory can fail
      have hleft : ((returnPm M ctx s.ctxs[p] b.last).map fun pm =>
          s.ctxs.set p { s.ctxs[p] with pm := pm }).bind (fun ctxs => some ([(p, next)], ctxs)) =
            none ↔ returnPm M ctx s.ctxs[p] b.last = none := by
        cases returnPm M ctx s.ctxs[p] b.last <;> simp
      refine hleft.trans (hpm.trans ⟨?_, fun hun => ?_⟩)
      · rintro ⟨v, hv, hptr, hpts | ⟨hpts, hresult⟩⟩
        · exact .pointer hret hsome hv hptr hpts
        · exact .result hret hsome hv hptr hpts hcb hresult
      · cases hun with
        | invoke hcall' =>
            rw [FlowModule.isReturn_of_isCallBase hcall'] at hret
            cases hret
        | toInvoke _ _ hcb' h =>
            obtain rfl := Option.some.inj (hcb.symm.trans hcb')
            exact absurd h hinvoke
        | pointer _ _ hv hptr h => exact ⟨_, hv, hptr, .inl h⟩
        | result _ _ hv hptr hpm hcb' h =>
            obtain rfl := Option.some.inj (hcb.symm.trans hcb')
            exact ⟨_, hv, hptr, .inr ⟨hpm, h⟩⟩

/-- A call. -/
lemma call_eq_none_iff {ctx : FnContext} (hb : ValidBlock M s.ctxs b)
    (hctx : s.ctxs[b.ctx]? = some ctx) (hcall : b.last.isCallBase = true) :
    s.successors M b = none ↔ Unhandled M ctx b.last := by
  have hret := FlowModule.isReturn_of_isCallBase hcall
  have hun : Unhandled M ctx b.last ↔ M.isInvoke b.last.id = true ∧
      (M.isDefinedCall b.last = false ∨ b.last ∈ ctx.callStack) := by
    refine ⟨fun hun => ?_, fun h => .invoke hcall h.1 h.2⟩
    cases hun with
    | invoke _ h hskip => exact ⟨h, hskip⟩
    | toInvoke hret' => simp [hret] at hret'
    | pointer hret' => simp [hret] at hret'
    | result hret' => simp [hret] at hret'
  -- a call that is no invoke ends the block only if it is followed
  have hdef : M.isDefinedCall b.last = true ∨ M.isInvoke b.last.id = true := by
    rw [← FlowModule.isInvoke_of_isCallBase hcall]
    exact hb.last_cases
  rw [hun, successors, hctx]
  simp only [Option.bind_eq_bind, Option.bind_some, hret, hcall, if_true, Bool.false_eq_true,
    if_false, FnContext.contains, decide_eq_true_iff]
  cases hcalled : M.isDefinedCall b.last with
  | true =>
      obtain ⟨f, hf, hf'⟩ := FlowModule.isDefinedCall_iff.mp hcalled
      obtain ⟨next, hnext, -⟩ := FlowModule.exists_entryFront hf'
      simp only [hf, Option.bind_some, hnext, Bool.true_eq_false, false_or]
      split_ifs with hstack
      · rw [← next_eq_none_iff_isInvoke hb.last_mem hcall]
        cases M.next b.last <;> simp [hstack]
      · simp [hstack]
  | false =>
      have hinvoke := hdef.resolve_left (by simp [hcalled])
      refine iff_of_true ?_ ⟨hinvoke, .inl rfl⟩
      cases hf : b.last.getCalledFunction with
      | none => rfl
      | some f =>
          have hf' : M.isDefined f = false := by
            rwa [FlowModule.isDefinedCall, hf] at hcalled
          have hnext := (next_eq_none_iff_isInvoke hb.last_mem hcall).mpr hinvoke
          simp only [Option.bind_some, FlowModule.entryFront_eq_none hf', hnext, Option.bind_none,
            ite_self]

/-- A terminator that is no call, and does not return to another context. -/
lemma leave_or_branch_ne_none {ctx : FnContext} (hb : ValidBlock M s.ctxs b)
    (hctx : s.ctxs[b.ctx]? = some ctx) (hcall : b.last.isCallBase = false)
    (hret : ¬ (b.last.isReturn = true ∧ ctx.parent ≠ none)) : s.successors M b ≠ none := by
  have hterm : isTerminator M.isInvoke b.last = true := by
    refine hb.last_cases.resolve_left fun hdef => ?_
    rw [FlowModule.isCallBase_of_isDefinedCall hdef] at hcall
    cases hcall
  rw [successors, hctx]
  simp only [Option.bind_eq_bind, Option.bind_some, hcall, Bool.false_eq_true, if_false, hterm,
    if_true]
  split_ifs with hret'
  · have hparent : ctx.parent = none := by
      by_contra hne
      exact hret ⟨hret', hne⟩
    simp [hparent]
  · have hfirsts : ∀ blk ∈ M.succBlocks b.last, ∃ j, getFirstNonPHIOrDbgOrLifetime blk = some j ∧
        getFirstNonPHIOrDbgOrLifetime blk = some j := by
      intro blk hblk
      obtain ⟨j, hj, -⟩ := FlowModule.exists_firstNonPHI hblk
      exact ⟨j, hj, hj⟩
    rw [mapM_eq_filterMap hfirsts]
    simp

/-- **Where the run ends early.** -/
lemma successors_eq_none_iff {ctx : FnContext} (hvalid : ContextsValid M (frames s.ctxs))
    (hb : ValidBlock M s.ctxs b) (hctx : s.ctxs[b.ctx]? = some ctx) :
    s.successors M b = none ↔ Unhandled M ctx b.last := by
  cases hcall : b.last.isCallBase with
  | true => exact call_eq_none_iff hb hctx hcall
  | false =>
      by_cases hret : b.last.isReturn = true ∧ ctx.parent ≠ none
      · obtain ⟨p, hp⟩ := Option.ne_none_iff_exists'.mp hret.2
        exact ret_eq_none_iff hvalid hctx hret.1 hp
      · refine iff_of_false (leave_or_branch_ne_none hb hctx hcall hret) fun hun => ?_
        cases hun with
        | invoke hcall' => simp [hcall] at hcall'
        | toInvoke hret' hparent => exact hret ⟨hret', hparent⟩
        | pointer hret' hparent => exact hret ⟨hret', hparent⟩
        | result hret' hparent => exact hret ⟨hret', hparent⟩

end ConstructState

end Hippocrates
