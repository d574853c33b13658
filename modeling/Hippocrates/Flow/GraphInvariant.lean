import Mathlib.Tactic
import Hippocrates.Flow.Construct

/-!
What holds in every state of the loop of `ContextGraph::construct`.

* `Visited`: what a round does: nothing, the end of the traversal at the end block, or new nodes for
  the successors.
* `Grows`: contexts keep their calls and their parents, and nodes keep their blocks.
* `Inv`: the invariant. The nodes that have not been constructed are in the frontier, and one whose
  block ends with a call of a defined function has the entry of the function among its children.
-/

namespace Hippocrates

/-- What the traversal does not change of a block. -/
def ContextBlock.span (b : ContextBlock) : CtxId × Instr × Instr := (b.ctx, b.first, b.last)

namespace ConstructState

variable {M : FlowModule} {s s' : ConstructState} {stop b b' : ContextBlock} {k k' : NodeId}
  {n n' : GraphNode} {succs : List (CtxId × Instr)} {ctxs : List FnContext}

/-! ### One round -/

/-- The state with the nodes and contexts that come after a node. -/
def expand (M : FlowModule) (s : ConstructState) (k : NodeId) (succs : List (CtxId × Instr))
    (ctxs : List FnContext) : ConstructState :=
  { s with ctxs := ctxs, nodes := cacheNodes M succs (mark k s.nodes) }.adopt k (cachedIds succs)

/-- What a round does. -/
inductive Visited (M : FlowModule) (stop : ContextBlock) (s : ConstructState) (k : NodeId) :
    ConstructState → Prop
  | again {n : GraphNode} (hn : s.nodes k = some n) (h : n.constructed = true) :
      Visited M stop s k s
  | stop {n : GraphNode} (hn : s.nodes k = some n) (h : n.constructed = false)
      (hsame : s.sameBlock n.block stop = true) : Visited M stop s k (s.finish stop k n)
  | expand {n : GraphNode} {succs : List (CtxId × Instr)} {ctxs : List FnContext}
      (hn : s.nodes k = some n) (h : n.constructed = false)
      (hsame : s.sameBlock n.block stop = false)
      (hsuccs : s.successors M n.block = some (succs, ctxs)) :
      Visited M stop s k (expand M s k succs ctxs)

lemma visited_of_visit (h : s.visit M stop k = some s') : Visited M stop s k s' := by
  obtain ⟨n, hn, h⟩ := Option.bind_eq_some_iff.mp h
  split_ifs at h with hcon hsame
  · obtain rfl := Option.some.inj h
    exact .again hn hcon
  · obtain rfl := Option.some.inj h
    exact .stop hn (Bool.eq_false_iff.mpr hcon) hsame
  · obtain ⟨r, hr, h⟩ := Option.bind_eq_some_iff.mp h
    obtain rfl := Option.some.inj h
    obtain ⟨⟨succs, ctxs⟩, hsuccs, rfl⟩ := Option.map_eq_some_iff.mp hr
    exact .expand hn (Bool.eq_false_iff.mpr hcon) (Bool.eq_false_iff.mpr hsame) hsuccs

/-- A round fails only where there is no successor. -/
lemma visit_eq_none (hk : (s.nodes k).isSome = true) (h : s.visit M stop k = none) :
    ∃ n, s.nodes k = some n ∧ n.constructed = false ∧ s.sameBlock n.block stop = false ∧
      s.successors M n.block = none := by
  obtain ⟨n, hn⟩ := Option.isSome_iff_exists.mp hk
  rw [visit, hn] at h
  simp only [Option.bind_eq_bind, Option.bind_some] at h
  split_ifs at h with hcon hsame
  refine ⟨n, hn, Bool.eq_false_iff.mpr hcon, Bool.eq_false_iff.mpr hsame, ?_⟩
  rw [constructSuccessors] at h
  cases hsuccs : s.successors M n.block with
  | none => rfl
  | some r => simp [hsuccs] at h

/-! ### The nodes after a round -/

lemma cacheNodes_of_some {nodes : NodeId → Option GraphNode} (h : nodes k = some n) :
    cacheNodes M succs nodes k = some n := by
  cases k <;> simp [cacheNodes, h]

lemma cacheNodes_of_none {nodes : NodeId → Option GraphNode} (h : nodes k = none)
    (hn : cacheNodes M succs nodes k = some n) : ∃ c i, k = .cached c i ∧ (c, i) ∈ succs ∧
      n = GraphNode.fresh (ContextBlock.create M c i i) := by
  cases k with
  | root => simp [cacheNodes, h] at hn
  | cached c i =>
      simp only [cacheNodes, h] at hn
      split_ifs at hn with hmem
      exact ⟨c, i, rfl, hmem, (Option.some.inj hn).symm⟩

lemma nodes_expand : (expand M s k succs ctxs).nodes k' =
    (cacheNodes M succs (mark k s.nodes) k').map fun n =>
      { n with
        parents := if k' ∈ cachedIds succs then insert k n.parents else n.parents
        children := if k' = k then n.children ∪ (cachedIds succs).toFinset else n.children } :=
  rfl

/-- The other nodes keep their blocks and children; the node itself is constructed. -/
lemma nodes_expand_of_some (hn : s.nodes k' = some n) :
    ∃ n', (expand M s k succs ctxs).nodes k' = some n' ∧ n'.block = n.block ∧
      n'.constructed = (n.constructed || k' == k) ∧
      n'.children = if k' = k then n.children ∪ (cachedIds succs).toFinset else n.children := by
  by_cases hk : k' = k
  · subst hk
    have hmark : mark k' s.nodes k' = some { n with constructed := true } := by
      rw [mark, Function.update_self, hn, Option.map_some]
    have hexpand := @nodes_expand M s k' k' succs ctxs
    rw [cacheNodes_of_some hmark, Option.map_some] at hexpand
    refine ⟨_, hexpand, rfl, ?_, rfl⟩
    simp
  · have hmark : mark k s.nodes k' = some n := by
      rw [mark, Function.update_of_ne hk, hn]
    have hexpand := @nodes_expand M s k k' succs ctxs
    rw [cacheNodes_of_some hmark, Option.map_some] at hexpand
    refine ⟨_, hexpand, rfl, ?_, rfl⟩
    simp [hk]

/-- A node that is new. -/
lemma nodes_expand_of_none (hk : s.nodes k = some n) (hnone : s.nodes k' = none)
    (hn' : (expand M s k succs ctxs).nodes k' = some n') :
    ∃ c i, k' = .cached c i ∧ (c, i) ∈ succs ∧ n'.block = ContextBlock.create M c i i ∧
      n'.constructed = false ∧ n'.children = ∅ := by
  have hne : k' ≠ k := fun heq => by
    rw [heq, hk] at hnone
    cases hnone
  have hmark : mark k s.nodes k' = none := by
    rw [mark, Function.update_of_ne hne, hnone]
  rw [nodes_expand] at hn'
  obtain ⟨n₁, hn₁, rfl⟩ := Option.map_eq_some_iff.mp hn'
  obtain ⟨c, i, rfl, hmem, rfl⟩ := cacheNodes_of_none hmark hn₁
  refine ⟨c, i, rfl, hmem, rfl, rfl, ?_⟩
  rw [if_neg hne]
  rfl

/-- Where a node comes from: it was there before, or it is new. -/
inductive Expanded (M : FlowModule) (s : ConstructState) (k : NodeId)
    (succs : List (CtxId × Instr)) (k' : NodeId) (n' : GraphNode) : Prop
  | old {n : GraphNode} (hold : s.nodes k' = some n) (hblock : n'.block = n.block)
      (hcon : n'.constructed = (n.constructed || k' == k))
      (hchildren : n'.children =
        if k' = k then n.children ∪ (cachedIds succs).toFinset else n.children) :
      Expanded M s k succs k' n'
  | fresh {c : CtxId} {i : Instr} (hkey : k' = .cached c i) (hmem : (c, i) ∈ succs)
      (hblock : n'.block = ContextBlock.create M c i i) (hcon : n'.constructed = false)
      (hchildren : n'.children = ∅) : Expanded M s k succs k' n'

lemma expanded_of_nodes (hk : s.nodes k = some n)
    (hn' : (expand M s k succs ctxs).nodes k' = some n') : Expanded M s k succs k' n' := by
  cases hold : s.nodes k' with
  | some n₀ =>
      obtain ⟨n₁, hn₁, hblock, hcon, hchildren⟩ := @nodes_expand_of_some M s k k' n₀ succs ctxs hold
      obtain rfl := Option.some.inj (hn₁.symm.trans hn')
      exact .old hold hblock hcon hchildren
  | none =>
      obtain ⟨c, i, hkey, hmem, hblock, hcon, hchildren⟩ := nodes_expand_of_none hk hold hn'
      exact .fresh hkey hmem hblock hcon hchildren

/-- The successors are nodes. -/
lemma isSome_nodes_expand {c : CtxId} {i : Instr} (h : (c, i) ∈ succs) :
    ((expand M s k succs ctxs).nodes (.cached c i)).isSome = true := by
  rw [nodes_expand, Option.isSome_map, cacheNodes]
  split
  · rfl
  · rw [if_pos h]
    rfl

/-! ### What a round keeps -/

/-- Contexts keep their calls and parents, and nodes their blocks. -/
structure Grows (s s' : ConstructState) : Prop where
  contexts : ∃ extra, frames s'.ctxs = frames s.ctxs ++ extra
  nodes : ∀ k n, s.nodes k = some n → ∃ n', s'.nodes k = some n' ∧ n'.block.span = n.block.span

lemma Grows.length_le (h : Grows s s') : s.ctxs.length ≤ s'.ctxs.length := by
  obtain ⟨extra, hextra⟩ := h.contexts
  have hlen := congrArg List.length hextra
  rw [List.length_append, length_frames, length_frames] at hlen
  omega

lemma Grows.getElem?_frames {c : CtxId} (h : Grows s s') (hc : c < s.ctxs.length) :
    (frames s'.ctxs)[c]? = (frames s.ctxs)[c]? := by
  obtain ⟨extra, hextra⟩ := h.contexts
  rw [hextra, List.getElem?_append_left (by rwa [length_frames])]

lemma sameStack_eq {c c' : CtxId} : s.sameStack c c' =
    (((frames s.ctxs)[c]?).map Prod.fst == ((frames s.ctxs)[c']?).map Prod.fst) := by
  simp only [sameStack, frames, List.getElem?_map, Option.map_map]
  rfl

lemma Grows.sameBlock_eq (h : Grows s s') (hspan : b'.span = b.span)
    (hb : b.ctx < s.ctxs.length) (hstop : stop.ctx < s.ctxs.length) :
    s'.sameBlock b' stop = s.sameBlock b stop := by
  simp only [ContextBlock.span, Prod.mk.injEq] at hspan
  obtain ⟨hctx, hfirst, hlast⟩ := hspan
  rw [sameBlock, sameBlock, sameStack_eq, sameStack_eq, hctx, hfirst, hlast,
    h.getElem?_frames hb, h.getElem?_frames hstop]

lemma Grows.validBlock (h : Grows s s') (hspan : b'.span = b.span) (hb : ValidBlock M s.ctxs b) :
    ValidBlock M s'.ctxs b' := by
  simp only [ContextBlock.span, Prod.mk.injEq] at hspan
  obtain ⟨hctx, hfirst, hlast⟩ := hspan
  refine ⟨?_, hfirst ▸ hb.first, ?_⟩
  · rw [hctx]
    exact hb.ctx.trans_le h.length_le
  · rw [hlast, hfirst]
    exact hb.last

/-- If the block ends with a call of a defined function that is not on the stack, and is not the end
block, then the entry of the function, in the context with the call, is a child. -/
def Entered (M : FlowModule) (stop : ContextBlock) (s : ConstructState) (n : GraphNode) : Prop :=
  M.isDefinedCall n.block.last = true → s.sameBlock n.block stop = false →
    ∀ stack p, (frames s.ctxs)[n.block.ctx]? = some (stack, p) → n.block.last ∉ stack →
      ∃ k ∈ n.children, ∃ child f, s.nodes k = some child ∧
        n.block.last.getCalledFunction = some f ∧ M.entryFront f = some child.block.first ∧
        (frames s.ctxs)[child.block.ctx]? = some (stack ++ [n.block.last], some n.block.ctx)

lemma Grows.entered (h : Grows s s') (hspan : n'.block.span = n.block.span)
    (hchildren : n'.children = n.children) (hn : n.block.ctx < s.ctxs.length)
    (hstop : stop.ctx < s.ctxs.length) (hent : Entered M stop s n) : Entered M stop s' n' := by
  intro hcall hsame stack p hframe hstack
  rw [h.sameBlock_eq hspan hn hstop] at hsame
  simp only [ContextBlock.span, Prod.mk.injEq] at hspan
  obtain ⟨hctx, -, hlast⟩ := hspan
  rw [hctx, h.getElem?_frames hn] at hframe
  rw [hlast] at hcall hstack ⊢
  obtain ⟨k, hk, child, f, hchild, hf, hentry, hcallee⟩ := hent hcall hsame stack p hframe hstack
  obtain ⟨child', hchild', hspan'⟩ := h.nodes k child hchild
  simp only [ContextBlock.span, Prod.mk.injEq] at hspan'
  obtain ⟨hctx', hfirst', -⟩ := hspan'
  have hlt : child.block.ctx < s.ctxs.length := by
    rw [← length_frames]
    exact (List.getElem?_eq_some_iff.mp hcallee).1
  refine ⟨k, hchildren ▸ hk, child', f, hchild', hf, hfirst' ▸ hentry, ?_⟩
  rw [hctx', h.getElem?_frames hlt, hctx]
  exact hcallee

/-- What holds of a node: it lies at its place in the cache, and its children are nodes. -/
structure ValidNode (M : FlowModule) (ctxs : List FnContext) (nodes : NodeId → Option GraphNode)
    (k : NodeId) (n : GraphNode) : Prop where
  block : ValidBlock M ctxs n.block
  key : ∀ c i, k = .cached c i → n.block.ctx = c ∧ n.block.first = i
  children : ∀ k' ∈ n.children, (nodes k').isSome = true

lemma Grows.validNode (h : Grows s s') (hspan : n'.block.span = n.block.span)
    (hn : ValidNode M s.ctxs s.nodes k n)
    (hchildren : ∀ k' ∈ n'.children, (s'.nodes k').isSome = true) :
    ValidNode M s'.ctxs s'.nodes k n' := by
  refine ⟨h.validBlock hspan hn.block, fun c i hk => ?_, hchildren⟩
  simp only [ContextBlock.span, Prod.mk.injEq] at hspan
  rw [hspan.1, hspan.2.1]
  exact hn.key c i hk

lemma Grows.isSome (h : Grows s s') (hk : (s.nodes k).isSome = true) :
    (s'.nodes k).isSome = true := by
  obtain ⟨n, hn⟩ := Option.isSome_iff_exists.mp hk
  obtain ⟨n', hn', -⟩ := h.nodes k n hn
  exact Option.isSome_iff_exists.mpr ⟨n', hn'⟩

/-- **The invariant** of the loop; `todo` is what is in the frontier at the start of a round. -/
structure Inv (G : GraphInput M) (todo : List NodeId) (s : ConstructState) : Prop where
  contexts : ∃ extra, frames s.ctxs = frames G.ctxs ++ extra
  valid : ContextsValid M (frames s.ctxs)
  cache : ∀ cb, s.callBaseCache cb = none
  root : (s.nodes .root).isSome = true
  node : ∀ k n, s.nodes k = some n → ValidNode M s.ctxs s.nodes k n
  queued : ∀ k ∈ todo, (s.nodes k).isSome = true
  pending : ∀ k n, s.nodes k = some n → n.constructed = false → k ∈ todo
  entered : ∀ k n, s.nodes k = some n → n.constructed = true → Entered M G.stop s n

variable {G : GraphInput M} {todo frontier : List NodeId}

lemma Inv.stop_lt (h : Inv G todo s) : G.stop.ctx < s.ctxs.length := by
  obtain ⟨extra, hextra⟩ := h.contexts
  have hlen := congrArg List.length hextra
  rw [List.length_append, length_frames, length_frames] at hlen
  have hle : G.ctxs.length ≤ s.ctxs.length := by omega
  exact G.stop_ctx.trans_le hle

/-- The first node of the frontier is taken out. -/
lemma Inv.pop (h : Inv G todo s) : Inv G todo { s with frontier := frontier } :=
  ⟨h.contexts, h.valid, h.cache, h.root, h.node, h.queued, h.pending, h.entered⟩

lemma Inv.init : Inv G [.root] G.init := by
  have hroot : ∀ k n, G.init.nodes k = some n → k = .root ∧ n = GraphNode.fresh G.root := by
    intro k n hn
    simp only [GraphInput.init] at hn
    split_ifs at hn with hk
    exact ⟨hk, (Option.some.inj hn).symm⟩
  refine ⟨⟨[], (List.append_nil _).symm⟩, G.valid, fun _ => rfl, rfl, fun k n hn => ?_,
    fun k hk => ?_, fun k n hn _ => ?_, fun k n hn hcon => ?_⟩
  · obtain ⟨rfl, rfl⟩ := hroot k n hn
    refine ⟨⟨G.root_ctx, G.root_first, ?_⟩, fun c i hk => (by cases hk), ?_⟩
    · rw [GraphNode.fresh, G.root_eq]
      rfl
    · simp [GraphNode.fresh]
  · obtain rfl := List.mem_singleton.mp hk
    rfl
  · obtain ⟨rfl, -⟩ := hroot k n hn
    exact List.mem_singleton_self _
  · obtain ⟨-, rfl⟩ := hroot k n hn
    cases hcon

/-! ### The rounds keep the invariant -/

/-- The node is constructed already. -/
lemma Inv.again (h : Inv G (k :: todo) s) (hn : s.nodes k = some n) (hcon : n.constructed = true) :
    Inv G todo s := by
  refine ⟨h.contexts, h.valid, h.cache, h.root, h.node,
    fun k' hk' => h.queued k' (List.mem_cons_of_mem k hk'), fun k' n' hn' hcon' => ?_, h.entered⟩
  refine (List.mem_cons.mp (h.pending k' n' hn' hcon')).resolve_left fun heq => ?_
  obtain rfl : n = n' := Option.some.inj (hn.symm.trans (heq ▸ hn'))
  rw [hcon] at hcon'
  cases hcon'

lemma nodes_finish_self : (s.finish stop k n).nodes k =
    some { n with constructed := true, block := { n.block with traceInst := stop.traceInst } } :=
  Function.update_self _ _ _

lemma nodes_finish_of_ne (hk : k' ≠ k) : (s.finish stop k n).nodes k' = s.nodes k' :=
  Function.update_of_ne hk _ _

lemma grows_finish (hn : s.nodes k = some n) : Grows s (s.finish stop k n) := by
  refine ⟨⟨[], (List.append_nil _).symm⟩, fun k' n' hn' => ?_⟩
  by_cases hk : k' = k
  · subst hk
    obtain rfl := Option.some.inj (hn.symm.trans hn')
    exact ⟨_, nodes_finish_self, rfl⟩
  · exact ⟨n', (nodes_finish_of_ne hk).trans hn', rfl⟩

/-- The node is equal to the end block. -/
lemma Inv.finish (h : Inv G (k :: todo) s) (hn : s.nodes k = some n)
    (hsame : s.sameBlock n.block G.stop = true) : Inv G todo (s.finish G.stop k n) := by
  have hgrow := @grows_finish s G.stop k n hn
  -- only the node itself changes, and it keeps its span and its children
  have hcases : ∀ k' n', (s.finish G.stop k n).nodes k' = some n' →
      (k' = k ∧ n'.constructed = true ∧ n'.block.span = n.block.span ∧ n'.children = n.children) ∨
        (k' ≠ k ∧ s.nodes k' = some n') := by
    intro k' n' hn'
    by_cases hk : k' = k
    · subst hk
      obtain rfl := Option.some.inj (nodes_finish_self.symm.trans hn')
      exact .inl ⟨rfl, rfl, rfl, rfl⟩
    · exact .inr ⟨hk, (nodes_finish_of_ne hk).symm.trans hn'⟩
  refine ⟨h.contexts, h.valid, h.cache, hgrow.isSome h.root, fun k' n' hn' => ?_,
    fun k' hk' => hgrow.isSome (h.queued k' (List.mem_cons_of_mem k hk')),
    fun k' n' hn' hcon => ?_, fun k' n' hn' hcon => ?_⟩
  · rcases hcases k' n' hn' with ⟨rfl, -, hspan, hchildren⟩ | ⟨-, hold⟩
    · refine hgrow.validNode hspan (h.node k' n hn) fun k₁ hk₁ => hgrow.isSome ?_
      exact (h.node k' n hn).children k₁ (hchildren ▸ hk₁)
    · exact hgrow.validNode rfl (h.node k' n' hold) fun k₁ hk₁ =>
        hgrow.isSome ((h.node k' n' hold).children k₁ hk₁)
  · rcases hcases k' n' hn' with ⟨-, htrue, -⟩ | ⟨hne, hold⟩
    · rw [htrue] at hcon
      cases hcon
    · exact (List.mem_cons.mp (h.pending k' n' hold hcon)).resolve_left hne
  · rcases hcases k' n' hn' with ⟨rfl, -, hspan, -⟩ | ⟨-, hold⟩
    · intro _ hdiff
      rw [hgrow.sameBlock_eq hspan (h.node k' n hn).block.ctx h.stop_lt, hsame] at hdiff
      cases hdiff
    · exact hgrow.entered rfl rfl (h.node k' n' hold).block.ctx h.stop_lt
        (h.entered k' n' hold hcon)

lemma grows_expand {extra : List (List Instr × Option CtxId)}
    (hframes : frames ctxs = frames s.ctxs ++ extra) : Grows s (expand M s k succs ctxs) := by
  refine ⟨⟨extra, hframes⟩, fun k' n hn => ?_⟩
  obtain ⟨n', hn', hblock, -⟩ := @nodes_expand_of_some M s k k' n succs ctxs hn
  exact ⟨n', hn', by rw [hblock]⟩

lemma frontier_expand : (expand M s k succs ctxs).frontier = s.frontier ++
    (cachedIds succs).filter fun k' => !(expand M s k succs ctxs).isConstructed k' := by
  have hsame : ∀ k', (expand M s k succs ctxs).isConstructed k' =
      (cacheNodes M succs (mark k s.nodes) k').any GraphNode.constructed := by
    intro k'
    rw [isConstructed, nodes_expand, Option.any_map]
  simp only [hsame]
  rfl

lemma mem_cachedIds : k ∈ cachedIds succs ↔ ∃ c i, (c, i) ∈ succs ∧ k = .cached c i := by
  simp only [cachedIds, List.mem_map, Prod.exists, eq_comm]

section Expand

variable {extra : List (List Instr × Option CtxId)} {ctx : FnContext}

/-- What holds of the nodes after the successors have entered the graph. -/
lemma Inv.expand_node (h : Inv G (k :: s.frontier) s) (hn : s.nodes k = some n)
    (hctx : s.ctxs[n.block.ctx]? = some ctx) (hframes : frames ctxs = frames s.ctxs ++ extra)
    (hsucc : Succession M s n.block ctx succs extra)
    (hn' : (expand M s k succs ctxs).nodes k' = some n') :
    ValidNode M ctxs (expand M s k succs ctxs).nodes k' n' := by
  have hgrow := @grows_expand M s k succs ctxs extra hframes
  have hlen : ctxs.length = (frames s.ctxs ++ extra).length := by rw [← hframes, length_frames]
  cases expanded_of_nodes hn hn' with
  | @old n₀ hold hblock _ hchildren =>
      refine hgrow.validNode (by rw [hblock]) (h.node k' n₀ hold) fun k₁ hk₁ => ?_
      rw [hchildren] at hk₁
      split_ifs at hk₁ with hk
      · rcases Finset.mem_union.mp hk₁ with hk₁ | hk₁
        · exact hgrow.isSome ((h.node k' n₀ hold).children k₁ hk₁)
        · obtain ⟨c, i, hmem, rfl⟩ := mem_cachedIds.mp (List.mem_toFinset.mp hk₁)
          exact isSome_nodes_expand hmem
      · exact hgrow.isSome ((h.node k' n₀ hold).children k₁ hk₁)
  | @fresh c i hkey hmem hblock _ hchildren =>
      obtain ⟨hc, hi⟩ := hsucc.mem h.valid (h.node k n hn).block hctx _ hmem
      refine ⟨?_, fun c' i' hk => ?_, by simp [hchildren]⟩
      · rw [hblock]
        exact ⟨hlen ▸ hc, hi, rfl⟩
      · obtain ⟨rfl, rfl⟩ := NodeId.cached.inj (hkey.symm.trans hk)
        exact ⟨by rw [hblock]; rfl, by rw [hblock]; rfl⟩

/-- The nodes of the new frontier are in the graph. -/
lemma Inv.expand_queued (h : Inv G (k :: s.frontier) s)
    (hframes : frames ctxs = frames s.ctxs ++ extra)
    (hk' : k' ∈ (expand M s k succs ctxs).frontier) :
    ((expand M s k succs ctxs).nodes k').isSome = true := by
  rw [frontier_expand] at hk'
  rcases List.mem_append.mp hk' with hk' | hk'
  · exact (grows_expand hframes).isSome (h.queued k' (List.mem_cons_of_mem k hk'))
  · obtain ⟨c, i, hmem, rfl⟩ := mem_cachedIds.mp (List.mem_filter.mp hk').1
    exact isSome_nodes_expand hmem

/-- What is not constructed is in the new frontier. -/
lemma Inv.expand_pending (h : Inv G (k :: s.frontier) s) (hn : s.nodes k = some n)
    (hn' : (expand M s k succs ctxs).nodes k' = some n') (hcon : n'.constructed = false) :
    k' ∈ (expand M s k succs ctxs).frontier := by
  rw [frontier_expand, List.mem_append]
  cases expanded_of_nodes hn hn' with
  | @old n₀ hold _ hcon' _ =>
      rw [hcon] at hcon'
      obtain ⟨hcon₀, hne⟩ := Bool.or_eq_false_iff.mp hcon'.symm
      exact .inl ((List.mem_cons.mp (h.pending k' n₀ hold hcon₀)).resolve_left (by simpa using hne))
  | @fresh c i hkey hmem _ _ _ =>
      refine .inr (List.mem_filter.mpr ⟨mem_cachedIds.mpr ⟨c, i, hmem, hkey⟩, ?_⟩)
      rw [isConstructed, hn', Option.any_some, hcon]
      rfl

/-- A call of a defined function has been followed. -/
lemma Inv.entered_self (h : Inv G (k :: s.frontier) s) (hn : s.nodes k = some n)
    (hctx : s.ctxs[n.block.ctx]? = some ctx) (hframes : frames ctxs = frames s.ctxs ++ extra)
    (hsucc : Succession M s n.block ctx succs extra) (hblock : n'.block = n.block)
    (hchildren : (cachedIds succs).toFinset ⊆ n'.children) :
    Entered M G.stop (expand M s k succs ctxs) n' := by
  intro hcall _ stack p hframe hstack
  have hgrow := @grows_expand M s k succs ctxs extra hframes
  rw [hblock] at hcall hframe hstack ⊢
  rw [hgrow.getElem?_frames (h.node k n hn).block.ctx, getElem?_frames hctx] at hframe
  obtain ⟨rfl, -⟩ := Prod.mk.inj (Option.some.inj hframe)
  obtain ⟨f, next, hf, hnext, rfl, rfl⟩ := hsucc.entry hcall hstack
  have hmem : (s.ctxs.length, next) ∈ [(s.ctxs.length, next)] := List.mem_singleton_self _
  obtain ⟨child, hchild⟩ :=
    Option.isSome_iff_exists.mp (@isSome_nodes_expand M s k _ ctxs s.ctxs.length next hmem)
  obtain ⟨hkey, hfirst⟩ := (h.expand_node hn hctx hframes hsucc hchild).key _ _ rfl
  refine ⟨_, hchildren (List.mem_toFinset.mpr (mem_cachedIds.mpr ⟨_, _, hmem, rfl⟩)), child, f,
    hchild, hf, hfirst ▸ hnext, ?_⟩
  rw [hkey]
  change (frames ctxs)[s.ctxs.length]? = _
  rw [hframes, List.getElem?_append_right (by rw [length_frames]), length_frames, Nat.sub_self]
  rfl

/-- The calls followed before are still followed, and that of the node is now. -/
lemma Inv.expand_entered (h : Inv G (k :: s.frontier) s) (hn : s.nodes k = some n)
    (hctx : s.ctxs[n.block.ctx]? = some ctx) (hframes : frames ctxs = frames s.ctxs ++ extra)
    (hsucc : Succession M s n.block ctx succs extra)
    (hn' : (expand M s k succs ctxs).nodes k' = some n') (hcon : n'.constructed = true) :
    Entered M G.stop (expand M s k succs ctxs) n' := by
  cases expanded_of_nodes hn hn' with
  | fresh _ _ _ hcon' =>
      rw [hcon] at hcon'
      cases hcon'
  | @old n₀ hold hblock hcon' hchildren =>
      by_cases hk : k' = k
      · subst hk
        obtain rfl := Option.some.inj (hn.symm.trans hold)
        refine h.entered_self hn hctx hframes hsucc hblock ?_
        rw [hchildren, if_pos rfl]
        exact Finset.subset_union_right
      · have hcon₀ : n₀.constructed = true := by simpa [hcon, hk] using hcon'.symm
        rw [if_neg hk] at hchildren
        exact (grows_expand hframes).entered (by rw [hblock]) hchildren
          (h.node k' n₀ hold).block.ctx h.stop_lt (h.entered k' n₀ hold hcon₀)

end Expand

/-- The successors enter the graph. -/
lemma Inv.expand (h : Inv G (k :: s.frontier) s) (hn : s.nodes k = some n)
    (hsuccs : s.successors M n.block = some (succs, ctxs)) :
    Inv G (expand M s k succs ctxs).frontier (expand M s k succs ctxs) := by
  obtain ⟨ctx, extra, hctx, hframes, hsucc⟩ := succession_of_successors h.cache hsuccs
  have hcontexts : ∃ extra', frames ctxs = frames G.ctxs ++ extra' := by
    obtain ⟨extra', hextra'⟩ := h.contexts
    exact ⟨extra' ++ extra, by rw [hframes, hextra', List.append_assoc]⟩
  have hvalid : ContextsValid M (frames ctxs) := by
    rw [hframes]
    exact hsucc.valid h.valid (h.node k n hn).block hctx
  exact ⟨hcontexts, hvalid, h.cache, (grows_expand hframes).isSome h.root,
    fun k' n' hn' => h.expand_node hn hctx hframes hsucc hn',
    fun k' hk' => h.expand_queued hframes hk', fun k' n' hn' hcon => h.expand_pending hn hn' hcon,
    fun k' n' hn' hcon => h.expand_entered hn hctx hframes hsucc hn' hcon⟩

/-- **One round** keeps the invariant. -/
lemma Inv.visit (h : Inv G s.frontier s) (hk : s.frontier = k :: frontier)
    (hv : { s with frontier := frontier }.visit M G.stop k = some s') : Inv G s'.frontier s' := by
  have hpop : Inv G (k :: frontier) { s with frontier := frontier } := (hk ▸ h).pop
  cases visited_of_visit hv with
  | again hn hcon => exact hpop.again hn hcon
  | stop hn _ hsame => exact hpop.finish hn hsame
  | expand hn _ _ hsuccs => exact hpop.expand hn hsuccs

/-- **The states of the loop.** -/
lemma Inv.run (h : G.Run s) : Inv G s.frontier s := by
  induction h with
  | init => exact Inv.init
  | visit _ hk hv ih => exact ih.visit hk hv

/-- When the frontier is empty, all nodes have been constructed. -/
lemma Inv.isConstructed (h : Inv G [] s) (hn : s.nodes k = some n) : n.constructed = true := by
  by_contra hcon
  exact absurd (h.pending k n hn (Bool.eq_false_iff.mpr hcon)) List.not_mem_nil

end ConstructState

end Hippocrates
