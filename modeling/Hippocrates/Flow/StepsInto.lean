import Mathlib.Tactic
import Hippocrates.Flow.GraphInvariant

/-!
When the context graph steps into every call.

A block is meant to end with the first call of a defined function, and the graph goes on in the
function. But the instruction a block starts with is not looked at.

* `SteppedInto`: the calls of defined functions in the block of a node are followed.
* `steppedInto_iff`: they are in all nodes exactly when no block starts with such a call, and goes
  on after it.
* `NoCallFirst`, `isDefinedCall_first`: in a module without two calls in a row, and without a call
  at the start of a function or a successor, no block starts with one.
* `nested`: a function that starts with a call.
-/

namespace Hippocrates

open ConstructState

/-- No instruction of the block other than the last is a call of a defined function; and if the last
is one, the function is entered, unless the call is on the stack or the block is the end block. A
node that has not been constructed has no children yet. -/
structure SteppedInto (M : FlowModule) (stop : ContextBlock) (s : ConstructState) (n : GraphNode) :
    Prop where
  cut : ∀ i ∈ n.block.insts M, M.isDefinedCall i = true → i = n.block.last
  entered : n.constructed = true → Entered M stop s n

variable {M : FlowModule} {G : GraphInput M} {s : ConstructState}

/-! ### Modules where no block starts with a call -/

/-- No call of a defined function comes next after a call, or is the first instruction of a function
or of a successor. -/
structure NoCallFirst (M : FlowModule) : Prop where
  after : ∀ i ∈ M.insts, i.isCallBase = true → ∀ j ∈ M.next i, M.isDefinedCall j = false
  entry : ∀ p ∈ M.module.funs, ∀ j ∈ M.entryFront p.1, M.isDefinedCall j = false
  successor : ∀ i ∈ M.insts, ∀ b ∈ M.succBlocks i, ∀ j ∈ getFirstNonPHIOrDbgOrLifetime b,
    M.isDefinedCall j = false

/-- What comes after a block does not start with a call. -/
lemma NoCallFirst.succession (hM : NoCallFirst M) {b : ContextBlock} {ctx : FnContext}
    {succs : List (CtxId × Instr)} {extra : List (List Instr × Option CtxId)}
    (h : Succession M s b ctx succs extra) (hvalid : ContextsValid M (frames s.ctxs))
    (hb : ValidBlock M s.ctxs b) (hctx : s.ctxs[b.ctx]? = some ctx) :
    ∀ p ∈ succs, M.isDefinedCall p.2 = false := by
  cases h with
  | leave => simp
  | ret _ _ hcb hnext =>
      have hframe := List.mem_of_getElem? (getElem?_frames hctx)
      obtain ⟨hmem, hcall⟩ := hvalid.calls _ hframe _ (List.mem_of_getLast? hcb)
      simpa using hM.after _ hmem hcall _ hnext
  | skip hcall _ hnext => simpa using hM.after _ hb.last_mem hcall _ hnext
  | call _ _ _ hnext =>
      obtain ⟨body, hbody, -⟩ := Option.bind_eq_some_iff.mp hnext
      simpa using hM.entry _ (Module.mem_of_lookup hbody) _ hnext
  | branch _ _ hfirsts =>
      intro p hp
      obtain ⟨i, hi, rfl⟩ := List.mem_map.mp hp
      obtain ⟨blk, hblk, hfirst⟩ := (mem_of_mapM hfirsts).mp hi
      exact hM.successor _ hb.last_mem blk hblk i hfirst

/-- Then no block starts with a call, if the first one does not. -/
lemma isDefinedCall_first (hM : NoCallFirst M) (hroot : M.isDefinedCall G.root.first = false)
    (h : G.Run s) : ∀ k n, s.nodes k = some n → M.isDefinedCall n.block.first = false := by
  induction h with
  | init =>
      intro k n hn
      simp only [GraphInput.init] at hn
      split_ifs at hn
      obtain rfl := Option.some.inj hn
      exact hroot
  | @visit s s' k frontier hrun hk hv ih =>
      have hinv := Inv.run hrun
      intro k' n' hn'
      cases visited_of_visit hv with
      | again => exact ih k' n' hn'
      | @stop n hn _ _ =>
          by_cases hkk : k' = k
          · subst hkk
            obtain rfl := Option.some.inj (nodes_finish_self.symm.trans hn')
            exact ih k' n hn
          · exact ih k' n' ((nodes_finish_of_ne hkk).symm.trans hn')
      | @expand n succs ctxs hn _ _ hsuccs =>
          cases expanded_of_nodes hn hn' with
          | old hold hblock => exact hblock ▸ ih _ _ hold
          -- a new node lies at a successor
          | fresh _ hmem hblock =>
              obtain ⟨ctx, extra, hctx, -, hsucc⟩ := succession_of_successors hinv.cache hsuccs
              rw [hblock]
              exact hM.succession hsucc hinv.valid (hinv.node k n hn).block hctx _ hmem

/-! ### All calls -/

/-- **The graph steps into every call** exactly when no block starts with a call of a defined
function that an instruction follows. At the end of the loop all nodes are constructed. -/
theorem steppedInto_iff (h : G.Run s) :
    ((∀ k n, s.nodes k = some n → SteppedInto M G.stop s n) ↔
      ∀ k n, s.nodes k = some n → M.isDefinedCall n.block.first = true →
        M.next n.block.first = none) ∧
    (s.frontier = [] → ∀ k n, s.nodes k = some n → n.constructed = true) := by
  have hinv := Inv.run h
  have hcut : ∀ k n, s.nodes k = some n →
      ((∀ i ∈ n.block.insts M, M.isDefinedCall i = true → i = n.block.last) ↔
        (M.isDefinedCall n.block.first = true → M.next n.block.first = none)) := by
    intro k n hn
    have hb := (hinv.node k n hn).block
    have hiff := @ContextBlock.cut_iff M n.block.ctx n.block.first n.block.traceInst hb.first
    have heq : ContextBlock.create M n.block.ctx n.block.first n.block.traceInst = n.block := by
      rw [ContextBlock.create, ← hb.last]
    rwa [heq] at hiff
  refine ⟨⟨fun hstep k n hn => ?_, fun hstart k n hn => ?_⟩, fun hnil k n hn => ?_⟩
  · exact (hcut k n hn).mp (hstep k n hn).cut
  · exact ⟨(hcut k n hn).mpr (hstart k n hn), hinv.entered k n hn⟩
  · rw [hnil] at hinv
    exact hinv.isConstructed hn

/-! ### Functions that store first, and one that starts with a call -/

/-- A call without arguments. -/
def callInst (n : ℕ) (f : String) : Instr := ⟨InstId.orig n, .call (.function (FnId.named f)) []⟩

def retInst (n : ℕ) : Instr := ⟨InstId.orig n, .other "ret" []⟩

/-- A store to a persistent pointer. -/
def storeInst (n : ℕ) : Instr :=
  ⟨InstId.orig n, .store (.constant "0" (.other "i64")) (.constant "pool" .i8Ptr)⟩

/-- `main` stores, calls `update`, which stores, and stores again. -/
def storing : FlowModule where
  module := ⟨[(FnId.named "main", ⟨[[storeInst 0, callInst 1 "update", storeInst 2, retInst 3]]⟩),
    (FnId.named "update", ⟨[[storeInst 4, retInst 5]]⟩)], 0⟩
  isInvoke _ := false
  successors _ := []
  type _ := .i8Ptr
  aliases := ⟨fun _ => some [], fun _ => false⟩
  wf := by
    refine ⟨by decide, by decide, ?_, ?_, by decide⟩
    · simp [FnId.Below, FnId.named]
    · simp [Module.insts, Function.insts, InstId.Below, InstId.orig, callInst, retInst, storeInst]
  terminated := by
    simp only [Module.blockList, List.flatMap_cons, List.map_cons, List.map_nil, List.flatMap_nil,
      List.append_nil, List.cons_append, List.nil_append, List.forall_mem_cons]
    exact ⟨⟨[_, _, _], _, rfl, rfl, by decide, by decide⟩,
      ⟨[_], _, rfl, rfl, by decide, by decide⟩, by simp⟩
  successors_lt := by simp

/-- From the store before the call to the store after it. -/
def storingInput : GraphInput storing :=
  .ofEvents [⟨[], none, PmSets.empty⟩] (0, storeInst 0) (0, storeInst 2)
    ⟨by simp [frames], by simp [frames]⟩ (by decide) (by decide) (by decide)

/-- At the end of the run there is a node for each piece, and the store of `update` is in one. -/
theorem steppedInto_iff_storing : ∃ s, storingInput.Run s ∧ s.frontier = [] ∧
    (∀ k n, s.nodes k = some n → SteppedInto storing storingInput.stop s n ∧
      n.constructed = true) ∧
    ∃ n, s.nodes (.cached 1 (storeInst 4)) = some n ∧ storeInst 4 ∈ n.block.insts storing := by
  have h : storingInput.Run _ := .visit (.visit (.visit .init rfl rfl) rfl rfl) rfl rfl
  have hM : NoCallFirst storing := ⟨by decide, by decide, by decide⟩
  obtain ⟨hstep, hdone⟩ := steppedInto_iff h
  have hall := hstep.mpr fun k n hn hcall => by
    rw [isDefinedCall_first hM (by decide) h k n hn] at hcall
    cases hcall
  exact ⟨_, h, rfl, fun k n hn => ⟨hall k n hn, hdone rfl k n hn⟩, _, rfl, by decide⟩

/-- `main` stores and calls `update`, which only calls `write`, which stores. -/
def nested : FlowModule where
  module := ⟨[(FnId.named "main", ⟨[[storeInst 0, callInst 1 "update", storeInst 2, retInst 3]]⟩),
    (FnId.named "update", ⟨[[callInst 4 "write", retInst 5]]⟩),
    (FnId.named "write", ⟨[[storeInst 6, retInst 7]]⟩)], 0⟩
  isInvoke _ := false
  successors _ := []
  type _ := .i8Ptr
  aliases := ⟨fun _ => some [], fun _ => false⟩
  wf := by
    refine ⟨by decide, by decide, ?_, ?_, by decide⟩
    · simp [FnId.Below, FnId.named]
    · simp [Module.insts, Function.insts, InstId.Below, InstId.orig, callInst, retInst, storeInst]
  terminated := by
    simp only [Module.blockList, List.flatMap_cons, List.map_cons, List.map_nil, List.flatMap_nil,
      List.append_nil, List.cons_append, List.nil_append, List.forall_mem_cons]
    refine ⟨⟨[_, _, _], _, rfl, rfl, by decide, by decide⟩,
      ⟨[_], _, rfl, rfl, by decide, by decide⟩, ⟨[_], _, rfl, rfl, by decide, by decide⟩, by simp⟩
  successors_lt := by simp

/-- From the store before the call to the store after it. -/
def nestedInput : GraphInput nested :=
  .ofEvents [⟨[], none, PmSets.empty⟩] (0, storeInst 0) (0, storeInst 2)
    ⟨by simp [frames], by simp [frames]⟩ (by decide) (by decide) (by decide)

/-- In the graph the call of `write` is in the middle of a block. -/
theorem nested_not_steppedInto : ∃ s, nestedInput.construct 4 = some (.done s) ∧
    ∃ k n, s.nodes k = some n ∧ ¬ SteppedInto nested nestedInput.stop s n := by
  refine ⟨_, rfl, .cached 1 (callInst 4 "write"), _, rfl, fun hstep => ?_⟩
  have hcut := hstep.cut (callInst 4 "write") (by decide) (by decide)
  revert hcut
  decide

end Hippocrates
