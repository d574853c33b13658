import Mathlib.Tactic
import Hippocrates.Flow.StepsInto

/-!
What lies in the graph when it steps into every call.

* `PathStep`, `Path`: the program goes on from an instruction, below the calls that have led there.
  A call that is on the stack already is passed over, as in the graph.
* `Passed`: a node that has been constructed has a node for each place its block passes control to;
  `passed_of_run` carries it through the rounds.
* `OpenedFrom`: the contexts that the calls of a path have opened.

`Path.covered`: every instruction on a path from a node lies in a node, as far as the path comes
before the end block and before a return to the caller; so does every store of a called function.
-/

namespace Hippocrates

namespace ConstructState

/-! ### Paths through the program -/

/-- One step of the program from the instruction `i` below the calls `stack`. -/
inductive PathStep (M : FlowModule) : List Instr → Instr → List Instr → Instr → Prop
  | next {stack : List Instr} {i j : Instr} (hcall : M.isDefinedCall i = false)
      (hnext : M.next i = some j) : PathStep M stack i stack j
  | branch {stack : List Instr} {i j : Instr} {b : Block}
      (hterm : isTerminator M.isInvoke i = true) (hret : i.isReturn = false)
      (hcall : i.isCallBase = false) (hb : b ∈ M.succBlocks i)
      (hj : getFirstNonPHIOrDbgOrLifetime b = some j) : PathStep M stack i stack j
  | enter {stack : List Instr} {i j : Instr} {f : FnId} (hcall : M.isDefinedCall i = true)
      (hstack : i ∉ stack) (hf : i.getCalledFunction = some f) (hj : M.entryFront f = some j) :
      PathStep M stack i (stack ++ [i]) j
  | skip {stack : List Instr} {i j : Instr} (hcall : M.isDefinedCall i = true) (hstack : i ∈ stack)
      (hnext : M.next i = some j) : PathStep M stack i stack j
  | ret {stack : List Instr} {i cb j : Instr} (hret : i.isReturn = true)
      (hnext : M.next cb = some j) : PathStep M (stack ++ [cb]) i stack j

variable {M : FlowModule}

/-- The end of the end block, below its calls. -/
def AtStop (G : GraphInput M) (stack : List Instr) (i : Instr) : Prop :=
  i = G.stop.last ∧ ((frames G.ctxs)[G.stop.ctx]?).map Prod.fst = some stack

/-- The program comes from `first`, below the calls `base`, to an instruction below `stack`. It has
not passed the end block, and has not returned from `base`. -/
inductive Path (G : GraphInput M) (base : List Instr) (first : Instr) : List Instr → Instr → Prop
  | start : Path G base first base first
  | step {stack stack' : List Instr} {i j : Instr} (h : Path G base first stack i)
      (hend : ¬ AtStop G stack i) (hstep : PathStep M stack i stack' j) (hbase : base <+: stack') :
      Path G base first stack' j

/-! ### Where a block passes control to -/

/-- The places that come after the last instruction of a block, but for a call that is followed. -/
inductive Passes (M : FlowModule) (fr : List (List Instr × Option CtxId)) (c : CtxId)
    (last : Instr) : CtxId → Instr → Prop
  | ret {stack : List Instr} {p : CtxId} {cb next : Instr} (hret : last.isReturn = true)
      (hc : fr[c]? = some (stack, some p)) (hcb : stack.getLast? = some cb)
      (hnext : M.next cb = some next) : Passes M fr c last p next
  | skip {stack : List Instr} {q : Option CtxId} {next : Instr} (hcall : last.isCallBase = true)
      (hc : fr[c]? = some (stack, q)) (hstack : last ∈ stack) (hnext : M.next last = some next) :
      Passes M fr c last c next
  | branch {b : Block} {j : Instr} (hret : last.isReturn = false)
      (hcall : last.isCallBase = false) (hb : b ∈ M.succBlocks last)
      (hj : getFirstNonPHIOrDbgOrLifetime b = some j) : Passes M fr c last c j

/-- There is a node at each of these places, unless the block is the end block. -/
def Passed (M : FlowModule) (stop : ContextBlock) (s : ConstructState) (n : GraphNode) : Prop :=
  s.sameBlock n.block stop = false → ∀ c i,
    Passes M (frames s.ctxs) n.block.ctx n.block.last c i → (s.nodes (.cached c i)).isSome = true

variable {G : GraphInput M} {s s' : ConstructState} {n n' : GraphNode} {b stop : ContextBlock}
  {k : NodeId} {c : CtxId} {i j : Instr}

lemma Passes.congr {fr fr' : List (List Instr × Option CtxId)} {last : Instr} {c' : CtxId}
    (hfr : fr'[c]? = fr[c]?) (h : Passes M fr' c last c' i) : Passes M fr c last c' i := by
  cases h with
  | ret hret hc hcb hnext => exact .ret hret (hfr ▸ hc) hcb hnext
  | skip hcall hc hstack hnext => exact .skip hcall (hfr ▸ hc) hstack hnext
  | branch hret hcall hb hj => exact .branch hret hcall hb hj

/-- They are among the successors that the construction finds. -/
lemma Succession.mem_of_passes {ctx : FnContext} {succs : List (CtxId × Instr)}
    {extra : List (List Instr × Option CtxId)} (h : Succession M s b ctx succs extra)
    (hctx : s.ctxs[b.ctx]? = some ctx) (hpass : Passes M (frames s.ctxs) b.ctx b.last c i) :
    (c, i) ∈ succs := by
  have hframe := getElem?_frames hctx
  cases hpass with
  | ret hret hc hcb hnext =>
      obtain ⟨rfl, hparent⟩ := Prod.mk.inj (Option.some.inj (hframe.symm.trans hc))
      cases h with
      | leave _ hnone => rw [hparent] at hnone; cases hnone
      | ret _ hp hcb' hnext' =>
          obtain rfl := Option.some.inj (hp.symm.trans hparent)
          obtain rfl := Option.some.inj (hcb.symm.trans hcb')
          obtain rfl := Option.some.inj (hnext.symm.trans hnext')
          exact List.mem_singleton_self _
      -- a return is neither a call nor a branch
      | skip hcall => rw [FlowModule.isReturn_of_isCallBase hcall] at hret; cases hret
      | call hcall => rw [FlowModule.isReturn_of_isCallBase hcall] at hret; cases hret
      | branch hnot => rw [hnot] at hret; cases hret
  | skip hcall hc hstack hnext =>
      obtain ⟨rfl, -⟩ := Prod.mk.inj (Option.some.inj (hframe.symm.trans hc))
      have hnot := FlowModule.isReturn_of_isCallBase hcall
      cases h with
      | leave hret => rw [hnot] at hret; cases hret
      | ret hret => rw [hnot] at hret; cases hret
      | skip _ _ hnext' =>
          obtain rfl := Option.some.inj (hnext.symm.trans hnext')
          exact List.mem_singleton_self _
      | call _ _ hoff => exact absurd hstack hoff
      | branch _ hno => rw [hno] at hcall; cases hcall
  | @branch blk _ hret hcall hb hj =>
      cases h with
      | leave hyes => rw [hyes] at hret; cases hret
      | ret hyes => rw [hyes] at hret; cases hret
      | skip hyes => rw [hyes] at hcall; cases hcall
      | call hyes => rw [hyes] at hcall; cases hcall
      | branch _ _ hfirsts =>
          exact List.mem_map.mpr ⟨i, (mem_of_mapM hfirsts).mpr ⟨blk, hb, hj⟩, rfl⟩

lemma Grows.passed (h : Grows s s') (hspan : n'.block.span = n.block.span)
    (hn : n.block.ctx < s.ctxs.length) (hstop : stop.ctx < s.ctxs.length)
    (hpassed : Passed M stop s n) : Passed M stop s' n' := by
  intro hsame c i hpass
  rw [h.sameBlock_eq hspan hn hstop] at hsame
  simp only [ContextBlock.span, Prod.mk.injEq] at hspan
  obtain ⟨hctx, -, hlast⟩ := hspan
  rw [hctx, hlast] at hpass
  exact h.isSome (hpassed hsame c i (hpass.congr (h.getElem?_frames hn)))

/-- **In every state of the loop** control is passed to nodes. -/
lemma passed_of_run (h : G.Run s) :
    ∀ k n, s.nodes k = some n → n.constructed = true → Passed M G.stop s n := by
  induction h with
  | init =>
      intro k n hn hcon
      simp only [GraphInput.init] at hn
      split_ifs at hn
      obtain rfl := Option.some.inj hn
      cases hcon
  | @visit s s' k frontier hrun hk hv ih =>
      have hinv : Inv G (k :: frontier) { s with frontier := frontier } :=
        (hk ▸ Inv.run hrun).pop
      intro k' n' hn' hcon
      cases visited_of_visit hv with
      | again => exact ih k' n' hn' hcon
      | @stop n hn _ hsame =>
          have hgrow := @grows_finish _ G.stop k n hn
          by_cases hkk : k' = k
          · -- the node is the end block, after which nothing has to come
            subst hkk
            obtain rfl := Option.some.inj (nodes_finish_self.symm.trans hn')
            have hkeep := @Grows.sameBlock_eq _ _ G.stop n.block
              { n.block with traceInst := G.stop.traceInst } hgrow rfl
              (hinv.node k' n hn).block.ctx hinv.stop_lt
            intro hdiff
            rw [hkeep, hsame] at hdiff
            cases hdiff
          · have hold := (nodes_finish_of_ne hkk).symm.trans hn'
            exact hgrow.passed rfl (hinv.node k' n' hold).block.ctx hinv.stop_lt
              (ih k' n' hold hcon)
      | @expand n succs ctxs hn _ _ hsuccs =>
          obtain ⟨ctx, extra, hctx, hframes, hsucc⟩ := succession_of_successors hinv.cache hsuccs
          have hgrow := @grows_expand M _ k succs ctxs extra hframes
          cases expanded_of_nodes hn hn' with
          | fresh _ _ _ hnot => rw [hcon] at hnot; cases hnot
          | @old n₀ hold hblock hcon' _ =>
              by_cases hkk : k' = k
              · subst hkk
                -- the node has its successors now
                obtain rfl := Option.some.inj (hn.symm.trans hold)
                intro _ c i hpass
                rw [hblock] at hpass
                have hlt := (hinv.node k' n hn).block.ctx
                exact isSome_nodes_expand
                  (hsucc.mem_of_passes hctx (hpass.congr (hgrow.getElem?_frames hlt)))
              · have hcon₀ : n₀.constructed = true := by simpa [hcon, hkk] using hcon'.symm
                exact hgrow.passed (by rw [hblock]) (hinv.node k' n₀ hold).block.ctx hinv.stop_lt
                  (ih k' n₀ hold hcon₀)

/-! ### The contexts of a path -/

/-- The context `c` has been opened by calls that were followed from `c₀` on. -/
inductive OpenedFrom (fr : List (List Instr × Option CtxId)) (c₀ : CtxId) : CtxId → Prop
  | self : OpenedFrom fr c₀ c₀
  | call {c c' : CtxId} {stack : List Instr} {p : Option CtxId} {cb : Instr}
      (h : OpenedFrom fr c₀ c) (hc : fr[c]? = some (stack, p))
      (hc' : fr[c']? = some (stack ++ [cb], some c)) : OpenedFrom fr c₀ c'

/-- As long as it does not return from `base`, it returns to one of them. -/
lemma OpenedFrom.parent {fr : List (List Instr × Option CtxId)} {c₀ : CtxId}
    {base stack : List Instr} {q p : Option CtxId} {cb : Instr} (hbase : fr[c₀]? = some (base, q))
    (h : OpenedFrom fr c₀ c) (hc : fr[c]? = some (stack ++ [cb], p)) (hle : base <+: stack) :
    ∃ c' p', p = some c' ∧ OpenedFrom fr c₀ c' ∧ fr[c']? = some (stack, p') := by
  cases h with
  | self =>
      obtain ⟨rfl, -⟩ := Prod.mk.inj (Option.some.inj (hbase.symm.trans hc))
      have hlen := hle.length_le
      rw [List.length_append, List.length_singleton] at hlen
      omega
  | call h hc' hcall =>
      obtain ⟨hstack, rfl⟩ := Prod.mk.inj (Option.some.inj (hcall.symm.trans hc))
      obtain ⟨rfl, -⟩ := List.append_singleton_inj.mp hstack
      exact ⟨_, _, rfl, h, hc'⟩

/-- A node lies at the instruction, below the calls `stack`, in a context opened from `c₀`. -/
def Covered (M : FlowModule) (s : ConstructState) (c₀ : CtxId) (stack : List Instr) (i : Instr) :
    Prop :=
  ∃ k n p, s.nodes k = some n ∧ OpenedFrom (frames s.ctxs) c₀ n.block.ctx ∧
    (frames s.ctxs)[n.block.ctx]? = some (stack, p) ∧ i ∈ n.block.insts M

lemma first_mem_insts (b : ContextBlock) : b.first ∈ b.insts M := by
  rw [ContextBlock.insts, ContextBlock.upTo]
  split_ifs <;> exact List.mem_cons_self

lemma mem_of_mem_upTo {last : Instr} {l : List Instr} (h : i ∈ ContextBlock.upTo last l) :
    i ∈ l := by
  induction l with
  | nil => exact h
  | cons a l ih =>
      rw [ContextBlock.upTo] at h
      split_ifs at h
      · exact List.mem_cons.mpr (.inl (List.mem_singleton.mp h))
      · exact List.mem_cons.mpr ((List.mem_cons.mp h).imp_right ih)

lemma ValidBlock.mem_insts {ctxs : List FnContext} (hb : ValidBlock M ctxs b)
    (hi : i ∈ b.insts M) : i ∈ M.insts := by
  obtain ⟨_, _, hwalk⟩ := FlowModule.exists_walksTo hb.first
  exact hwalk.mem i (mem_of_mem_upTo hi)

/-- Before its end a block goes on. -/
lemma ValidBlock.next_mem {ctxs : List FnContext} (hb : ValidBlock M ctxs b) (hi : i ∈ b.insts M)
    (hne : i ≠ b.last) : ∃ j, M.next i = some j ∧ j ∈ b.insts M := by
  have hlast : b.last ∈ b.first :: M.following b.first := hb.last ▸ FlowModule.scrollDown_mem
  obtain ⟨pre, j, rest, hsplit, hj⟩ := FlowModule.mem_upTo_next hlast hi hne
  refine ⟨j, ?_, hj⟩
  rw [FlowModule.next, FlowModule.following_of_split hb.first hsplit]
  rfl

/-- What ends a basic block is at the end of its block. -/
lemma ValidBlock.eq_last {ctxs : List FnContext} (hb : ValidBlock M ctxs b) (hi : i ∈ b.insts M)
    (hmem : i ∈ M.insts) (hterm : isTerminator M.isInvoke i = true) : i = b.last := by
  by_contra hne
  obtain ⟨j, hj, -⟩ := hb.next_mem hi hne
  rw [(FlowModule.next_eq_none_iff hmem).mpr hterm] at hj
  cases hj

lemma isTerminator_of_isReturn (h : i.isReturn = true) : isTerminator M.isInvoke i = true := by
  rw [Instr.isReturn] at h
  rw [isTerminator]
  split at h
  · simp [*, terminators, beq_iff_eq.mp h]
  · cases h

/-- A node at a place is covered with its first instruction. -/
lemma Inv.covered_cached {todo : List NodeId} (hinv : Inv G todo s) {c₀ : CtxId}
    {stack : List Instr} {p : Option CtxId} (hnode : (s.nodes (.cached c i)).isSome = true)
    (hopen : OpenedFrom (frames s.ctxs) c₀ c) (hc : (frames s.ctxs)[c]? = some (stack, p)) :
    Covered M s c₀ stack i := by
  obtain ⟨n, hn⟩ := Option.isSome_iff_exists.mp hnode
  obtain ⟨rfl, rfl⟩ := (hinv.node _ n hn).key c i rfl
  exact ⟨_, n, p, hn, hopen, hc, first_mem_insts n.block⟩

/-- A block that ends before the end of the path is not the end block. -/
lemma Inv.sameBlock_eq_false {todo : List NodeId} (hinv : Inv G todo s) {stack : List Instr}
    {p : Option CtxId} (hc : (frames s.ctxs)[b.ctx]? = some (stack, p))
    (hend : ¬ AtStop G stack b.last) : s.sameBlock b G.stop = false := by
  rw [← Bool.not_eq_true]
  intro hsame
  simp only [sameBlock, Bool.and_eq_true, beq_iff_eq, sameStack_eq, hc, Option.map_some] at hsame
  obtain ⟨extra, hextra⟩ := hinv.contexts
  refine hend ⟨hsame.1.2, ?_⟩
  rw [hsame.2, hextra, List.getElem?_append_left (by rw [length_frames]; exact G.stop_ctx)]

/-- **What is called lies in the graph**: at the end of a run in which every block is cut at its
calls, each instruction on a path from a node lies in a node. -/
theorem Path.covered (h : G.Run s) (hdone : s.frontier = [])
    (hall : ∀ k n, s.nodes k = some n → SteppedInto M G.stop s n) (hn : s.nodes k = some n)
    {base stack : List Instr} {q : Option CtxId}
    (hbase : (frames s.ctxs)[n.block.ctx]? = some (base, q))
    (hpath : Path G base n.block.first stack i) : Covered M s n.block.ctx stack i := by
  have hinv := Inv.run h
  have hcon : ∀ k n, s.nodes k = some n → n.constructed = true := by
    rw [hdone] at hinv
    exact fun k n hn => hinv.isConstructed hn
  induction hpath with
  | start => exact ⟨k, n, q, hn, .self, hbase, first_mem_insts n.block⟩
  | @step stack stack' i j _ hend hstep hle ih =>
      obtain ⟨k', n', p, hn', hopen, hframe, hmem⟩ := ih
      have hb := (hinv.node k' n' hn').block
      have hi := hb.mem_insts hmem
      have hdiff : i = n'.block.last → s.sameBlock n'.block G.stop = false := fun hlast =>
        hinv.sameBlock_eq_false hframe (hlast ▸ hend)
      have hpassed : i = n'.block.last → ∀ c i',
          Passes M (frames s.ctxs) n'.block.ctx n'.block.last c i' →
            (s.nodes (.cached c i')).isSome = true := fun hlast =>
        passed_of_run h k' n' hn' (hcon k' n' hn') (hdiff hlast)
      -- the node goes on in its block, unless the instruction is the last one there
      cases hstep with
      | next hcall hnext =>
          have hne : i ≠ n'.block.last := by
            rintro rfl
            rcases hb.last_cases with hlast | hlast
            · rw [hcall] at hlast
              cases hlast
            · rw [(FlowModule.next_eq_none_iff hi).mpr hlast] at hnext
              cases hnext
          obtain ⟨j', hj', hmem'⟩ := hb.next_mem hmem hne
          obtain rfl := Option.some.inj (hnext.symm.trans hj')
          exact ⟨k', n', p, hn', hopen, hframe, hmem'⟩
      | branch hterm hret hcall hblk hj =>
          have hlast := hb.eq_last hmem hi hterm
          rw [hlast] at hret hcall hblk
          have hnode := hpassed hlast _ _ (.branch hret hcall hblk hj)
          exact hinv.covered_cached hnode hopen hframe
      | enter hcall hstack hf hj =>
          have hstep := hall k' n' hn'
          obtain rfl := hstep.cut i hmem hcall
          obtain ⟨kc, -, child, f', hchild, hf', hentry, hframe'⟩ :=
            hstep.entered (hcon k' n' hn') hcall (hdiff rfl) stack p hframe hstack
          obtain rfl := Option.some.inj (hf.symm.trans hf')
          obtain rfl := Option.some.inj (hj.symm.trans hentry)
          exact ⟨kc, child, _, hchild, hopen.call hframe hframe', hframe',
            first_mem_insts child.block⟩
      | skip hcall hstack hnext =>
          obtain rfl := (hall k' n' hn').cut i hmem hcall
          have hbase := FlowModule.isCallBase_of_isDefinedCall hcall
          have hnode := hpassed rfl _ _ (.skip hbase hframe hstack hnext)
          exact hinv.covered_cached hnode hopen hframe
      | @ret _ _ cb _ hret hnext =>
          have hlast := hb.eq_last hmem hi (isTerminator_of_isReturn hret)
          obtain ⟨c, p', rfl, hopen', hframe'⟩ := hopen.parent hbase hframe hle
          rw [hlast] at hret
          have hnode := hpassed hlast _ _ (.ret hret hframe List.getLast?_concat hnext)
          exact hinv.covered_cached hnode hopen' hframe'

/-- The store of `update` lies on a path. -/
example : Path storingInput [] (storeInst 0) [callInst 1 "update"] (storeInst 4) :=
  have hstop : storingInput.stop.last = retInst 3 := rfl
  have hne : ∀ i, i ≠ retInst 3 → ¬ AtStop storingInput [] i := fun _ hi h => hi (h.1.trans hstop)
  .step (.step .start (hne _ (by decide)) (.next rfl rfl) List.nil_prefix) (hne _ (by decide))
    (.enter rfl List.not_mem_nil rfl rfl) List.nil_prefix

end ConstructState

end Hippocrates
