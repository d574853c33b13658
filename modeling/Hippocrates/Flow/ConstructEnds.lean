import Mathlib.Logic.Relation
import Mathlib.Tactic
import Hippocrates.Flow.StepsInto
import Hippocrates.Lib.Potential

/-!
The loop of `ContextGraph::construct` ends.

Every call that is followed makes a new context, so there is no bound for the contexts from the
start. But a context has one node for each instruction at most, and a call is followed only when it
is not on the stack.

* `rank`: the number of calls that can be followed from a context. A new context has a lower rank.
* `opened`: the places for nodes, in all contexts there are, without a constructed node.
* `construct_ends`: the loop ends. All nodes that are reached have been constructed, unless the run
  has come to a node that is not handled.
-/

namespace Hippocrates

open Relation

namespace ConstructState

variable {M : FlowModule} {G : GraphInput M} {s s' : ConstructState} {k k' : NodeId}
  {n : GraphNode} {frontier todo : List NodeId}

/-! ### The measure -/

/-- The instructions that are not on a stack. -/
def offStack (M : FlowModule) (stack : List Instr) : Finset Instr :=
  M.insts.toFinset.filter fun i => i ∉ stack

/-- The number of calls that can be followed from a context is no more than this. -/
def rank (M : FlowModule) (ctxs : List FnContext) (c : CtxId) : ℕ :=
  match (frames ctxs)[c]? with
  | none => 0
  | some fr => (offStack M fr.1).card

def nodeRank (M : FlowModule) (ctxs : List FnContext) : NodeId → ℕ
  | .root => M.insts.toFinset.card
  | .cached c _ => rank M ctxs c

/-- The places for the nodes of a context. -/
def slots (M : FlowModule) (c : CtxId) : Finset NodeId := M.insts.toFinset.image (.cached c)

/-- The places without a constructed node. -/
def opened (M : FlowModule) (s : ConstructState) : Finset NodeId :=
  (insert .root ((Finset.range s.ctxs.length).biUnion (slots M))).filter fun k =>
    s.isConstructed k = false

/-- What is left to do. -/
def workLeft (M : FlowModule) (s : ConstructState) : ℕ :=
  Potential.potential M.insts.toFinset.card (nodeRank M s.ctxs) (opened M s)

lemma mem_opened : k ∈ opened M s ↔ s.isConstructed k = false ∧
    (k = .root ∨ ∃ c i, k = .cached c i ∧ c < s.ctxs.length ∧ i ∈ M.insts) := by
  simp only [opened, slots, Finset.mem_filter, Finset.mem_insert, Finset.mem_biUnion,
    Finset.mem_range, Finset.mem_image, List.mem_toFinset]
  rw [and_comm]
  refine and_congr_right fun _ => or_congr_right ⟨?_, ?_⟩
  · rintro ⟨c, hc, i, hi, rfl⟩
    exact ⟨c, i, rfl, hc, hi⟩
  · rintro ⟨c, i, rfl, hc, hi⟩
    exact ⟨c, hc, i, hi, rfl⟩

/-- A call that is followed is not on the stack, and then it is. -/
lemma card_offStack_lt {stack : List Instr} {cb : Instr} (hcb : cb ∈ M.insts)
    (hstack : cb ∉ stack) : (offStack M (stack ++ [cb])).card < (offStack M stack).card := by
  refine Finset.card_lt_card (Finset.ssubset_iff_of_subset (fun i hi => ?_) |>.mpr ⟨cb, ?_, ?_⟩)
  · simp only [offStack, Finset.mem_filter, List.mem_append, not_or] at hi ⊢
    exact ⟨hi.1, hi.2.1⟩
  · simp [offStack, hcb, hstack]
  · simp [offStack]

/-- The contexts there are keep their ranks. -/
lemma Grows.nodeRank_eq (h : Grows s s') (hk : k ∈ opened M s) :
    nodeRank M s'.ctxs k = nodeRank M s.ctxs k := by
  obtain ⟨-, rfl | ⟨c, i, rfl, hc, -⟩⟩ := mem_opened.mp hk
  · rfl
  · rw [nodeRank, nodeRank, rank, rank, h.getElem?_frames hc]

/-- The calls that are not on the stack of a node count for its rank. -/
lemma card_offStack_le {ctx : FnContext} (hn : ValidNode M s.ctxs s.nodes k n)
    (hctx : s.ctxs[n.block.ctx]? = some ctx) :
    (offStack M ctx.callStack).card ≤ nodeRank M s.ctxs k := by
  cases k with
  | root => exact Finset.card_le_card (Finset.filter_subset _ _)
  | cached c i =>
      obtain ⟨rfl, -⟩ := hn.key c i rfl
      rw [nodeRank, rank, getElem?_frames hctx]

/-- What a round may add: the place of the node is taken, and there is one context more if a call is
followed. -/
structure Constructs (M : FlowModule) (s : ConstructState) (k : NodeId) (n : GraphNode)
    (extra : List (List Instr × Option CtxId)) (s' : ConstructState) : Prop where
  grows : Grows s s'
  contexts : frames s'.ctxs = frames s.ctxs ++ extra
  done : ∀ k', s'.isConstructed k' = (s.isConstructed k' || k' == k)
  extra : extra = [] ∨ ∃ ctx, s.ctxs[n.block.ctx]? = some ctx ∧ n.block.last ∉ ctx.callStack ∧
    extra = [(ctx.callStack ++ [n.block.last], some n.block.ctx)]

/-- The places of the new context, if there is one. -/
def newSlots (M : FlowModule) (s s' : ConstructState) : Finset NodeId :=
  if s'.ctxs.length = s.ctxs.length then ∅ else slots M s.ctxs.length

lemma card_newSlots_le : (newSlots M s s').card ≤ M.insts.toFinset.card := by
  rw [newSlots]
  split_ifs
  · exact Nat.zero_le _
  · exact Finset.card_image_le

variable {extra : List (List Instr × Option CtxId)}

lemma Constructs.length_eq (h : Constructs M s k n extra s') :
    s'.ctxs.length = s.ctxs.length + extra.length := by
  rw [← length_frames, h.contexts, List.length_append, length_frames]

lemma Constructs.opened_subset (h : Constructs M s k n extra s') :
    opened M s' ⊆ (opened M s).erase k ∪ newSlots M s s' := by
  intro k' hk'
  obtain ⟨hcon, hplace⟩ := mem_opened.mp hk'
  rw [h.done, Bool.or_eq_false_iff] at hcon
  have hne : k' ≠ k := by simpa using hcon.2
  rcases hplace with rfl | ⟨c, i, rfl, hc, hi⟩
  · exact Finset.mem_union_left _
      (Finset.mem_erase.mpr ⟨hne, mem_opened.mpr ⟨hcon.1, .inl rfl⟩⟩)
  · by_cases hold : c < s.ctxs.length
    · exact Finset.mem_union_left _
        (Finset.mem_erase.mpr ⟨hne, mem_opened.mpr ⟨hcon.1, .inr ⟨c, i, rfl, hold, hi⟩⟩⟩)
    · have hlen : s'.ctxs.length ≤ s.ctxs.length + 1 := by
        rw [h.length_eq]
        rcases h.extra with rfl | ⟨ctx, -, -, rfl⟩
        · exact Nat.le_succ _
        · exact le_rfl
      obtain rfl : c = s.ctxs.length :=
        Nat.le_antisymm (Nat.le_of_lt_succ (hc.trans_le hlen)) (Nat.not_lt.mp hold)
      refine Finset.mem_union_right _ ?_
      rw [newSlots, if_neg hc.ne']
      exact Finset.mem_image_of_mem _ (List.mem_toFinset.mpr hi)

/-- The nodes of the new context are of lower rank. -/
lemma Constructs.rank_lt (h : Constructs M s k n extra s') (hn : ValidNode M s.ctxs s.nodes k n)
    (hk' : k' ∈ newSlots M s s') : nodeRank M s'.ctxs k' < nodeRank M s.ctxs k := by
  rw [newSlots] at hk'
  split_ifs at hk' with hlen
  · exact absurd hk' (Finset.notMem_empty k')
  · obtain ⟨i, -, rfl⟩ := Finset.mem_image.mp hk'
    rcases h.extra with rfl | ⟨ctx, hctx, hstack, rfl⟩
    · exact absurd h.length_eq hlen
    · refine lt_of_lt_of_le ?_ (card_offStack_le hn hctx)
      rw [nodeRank, rank, h.contexts, List.getElem?_append_right (by rw [length_frames]),
        length_frames, Nat.sub_self]
      exact card_offStack_lt hn.block.last_mem hstack

/-- **A round that constructs a node** leaves less to do. -/
lemma Constructs.workLeft_lt (h : Constructs M s k n extra s') (hn : s.nodes k = some n)
    (hvalid : ValidNode M s.ctxs s.nodes k n) (hcon : n.constructed = false) :
    workLeft M s' < workLeft M s := by
  have hk : k ∈ opened M s := by
    refine mem_opened.mpr ⟨by rw [isConstructed, hn, Option.any_some, hcon], ?_⟩
    cases k with
    | root => exact .inl rfl
    | cached c i =>
        obtain ⟨rfl, rfl⟩ := hvalid.key c i rfl
        exact .inr ⟨_, _, rfl, hvalid.block.ctx, hvalid.block.first⟩
  exact Potential.potential_lt hk h.opened_subset (fun k' hk' => h.grows.nodeRank_eq hk')
    card_newSlots_le fun k' hk' => h.rank_lt hvalid hk'

/-! ### The rounds -/

lemma isConstructed_finish {stop : ContextBlock} (hn : s.nodes k = some n) (k' : NodeId) :
    (s.finish stop k n).isConstructed k' = (s.isConstructed k' || k' == k) := by
  by_cases hk : k' = k
  · subst hk
    rw [isConstructed, nodes_finish_self]
    simp
  · rw [isConstructed, nodes_finish_of_ne hk, isConstructed]
    simp [hk]

lemma isConstructed_expand {succs : List (CtxId × Instr)} {ctxs : List FnContext}
    (hn : s.nodes k = some n) (k' : NodeId) :
    (expand M s k succs ctxs).isConstructed k' = (s.isConstructed k' || k' == k) := by
  cases hold : s.nodes k' with
  | some n₀ =>
      obtain ⟨n', hn', -, hcon, -⟩ := @nodes_expand_of_some M s k k' n₀ succs ctxs hold
      rw [isConstructed, hn', isConstructed, hold]
      exact hcon
  | none =>
      have hne : k' ≠ k := fun heq => by
        rw [heq, hn] at hold
        cases hold
      rw [isConstructed, isConstructed, hold]
      cases hnew : (expand M s k succs ctxs).nodes k' with
      | none => simp [hne]
      | some n' =>
          obtain ⟨-, -, -, -, -, hcon, -⟩ := nodes_expand_of_none hn hold hnew
          simp [hcon, hne]

/-- **One round** leaves less to do, or only takes a node from the frontier. -/
lemma workLeft_visit (h : Inv G (k :: s.frontier) s) (hv : s.visit M G.stop k = some s') :
    s' = s ∨ workLeft M s' < workLeft M s := by
  cases visited_of_visit hv with
  | again => exact .inl rfl
  | @stop n hn hcon _ =>
      have hc : Constructs M s k n [] (s.finish G.stop k n) :=
        ⟨grows_finish hn, (List.append_nil _).symm, isConstructed_finish hn, .inl rfl⟩
      exact .inr (hc.workLeft_lt hn (h.node k n hn) hcon)
  | @expand n succs ctxs hn hcon _ hsuccs =>
      obtain ⟨ctx, extra, hctx, hframes, hsucc⟩ := succession_of_successors h.cache hsuccs
      have hc : Constructs M s k n extra (expand M s k succs ctxs) := by
        refine ⟨grows_expand hframes, hframes, isConstructed_expand hn, ?_⟩
        cases hsucc with
        | call _ _ hstack => exact .inr ⟨ctx, hctx, hstack, rfl⟩
        | leave => exact .inl rfl
        | ret => exact .inl rfl
        | skip => exact .inl rfl
        | branch => exact .inl rfl
      exact .inr (hc.workLeft_lt hn (h.node k n hn) hcon)

end ConstructState

namespace GraphInput

open ConstructState

variable {M : FlowModule} {G : GraphInput M} {s : ConstructState}

/-- How a run of the loop ends: the frontier is empty, or a round fails. -/
def Ends (G : GraphInput M) : Outcome → Prop
  | .done s => G.Run s ∧ s.frontier = []
  | .aborted s k => G.Run s ∧ ∃ frontier, s.frontier = k :: frontier ∧
      { s with frontier := frontier }.visit M G.stop k = none

/-- **The loop ends**, from each of its states. -/
lemma exists_outcome (h : G.Run s) : ∃ n r, constructLoop M G.stop n s = some r ∧ G.Ends r := by
  -- the rounds that construct a node are counted by `w`, and those in between by `l`
  have hends : ∀ w l s, G.Run s → workLeft M s = w → s.frontier.length = l →
      ∃ n r, constructLoop M G.stop n s = some r ∧ G.Ends r := by
    intro w
    induction w using Nat.strong_induction_on with
    | _ w ihw =>
        intro l
        induction l with
        | zero =>
            intro s h _ hl
            have hnil := List.length_eq_zero_iff.mp hl
            exact ⟨0, .done s, constructLoop_nil hnil, h, hnil⟩
        | succ l ihl =>
            intro s h hw hl
            obtain ⟨k, frontier, hk⟩ := List.exists_cons_of_length_eq_add_one hl
            cases hv : { s with frontier := frontier }.visit M G.stop k with
            | none => exact ⟨1, .aborted s k, constructLoop_none hk hv, h, frontier, hk, hv⟩
            | some s' =>
                have hpop : Inv G (k :: frontier) { s with frontier := frontier } :=
                  (hk ▸ Inv.run h).pop
                have hrest : ∃ n r, constructLoop M G.stop n s' = some r ∧ G.Ends r := by
                  rcases workLeft_visit hpop hv with rfl | hlt
                  · rw [hk, List.length_cons, Nat.succ_inj] at hl
                    exact ihl _ (h.visit hk hv) hw hl
                  · exact ihw _ (hw ▸ hlt) _ s' (h.visit hk hv) rfl rfl
                obtain ⟨n, r, hr, hends⟩ := hrest
                exact ⟨n + 1, r, (constructLoop_some hk hv).trans hr, hends⟩
  exact hends _ _ s h rfl rfl

/-- There are no invokes, and the alias analysis knows all values. -/
def Plain (M : FlowModule) : Prop :=
  (∀ i ∈ M.insts, M.isInvoke i.id = false) ∧ ∀ v, M.aliases.getPointsToSet v ≠ none

lemma not_unhandled (hplain : Plain M) {ctx : FnContext} {last : Instr} (hlast : last ∈ M.insts)
    (hcalls : ∀ cb ∈ ctx.callStack, cb ∈ M.insts) : ¬ ConstructState.Unhandled M ctx last := by
  intro h
  cases h with
  | invoke _ hinvoke => simp [hplain.1 _ hlast] at hinvoke
  | toInvoke _ _ hcb hinvoke => simp [hplain.1 _ (hcalls _ (List.mem_of_getLast? hcb))] at hinvoke
  | pointer _ _ _ _ hnone => exact hplain.2 _ hnone
  | result _ _ _ _ _ _ hnone => exact hplain.2 _ hnone

/-- A node is reached from another. -/
def Reaches (s : ConstructState) : NodeId → NodeId → Prop :=
  ReflTransGen fun k k' => ∃ n, s.nodes k = some n ∧ k' ∈ n.children

/-- What is reached from the root is a node. -/
lemma isSome_of_reaches {todo : List NodeId} {k : NodeId} (h : Inv G todo s)
    (hk : Reaches s .root k) : (s.nodes k).isSome = true := by
  induction hk with
  | refl => exact h.root
  | tail _ hstep _ =>
      obtain ⟨n, hn, hmem⟩ := hstep
      exact (h.node _ n hn).children _ hmem

/-- **The construction ends.** The nodes that are reached from the root have been constructed in the
end, unless the run has stopped at a node that is not handled. There are no such nodes if there are
no invokes, and the alias analysis knows all values. -/
theorem construct_ends (G : GraphInput M) : ∃ n r, G.construct n = some r ∧
    (match r with
      | .done s => ∀ k, Reaches s .root k → s.isConstructed k = true
      | .aborted s k => ∃ n ctx, s.nodes k = some n ∧ n.constructed = false ∧
          s.ctxs[n.block.ctx]? = some ctx ∧ ConstructState.Unhandled M ctx n.block.last) ∧
    (Plain M → ∃ s, r = .done s) := by
  obtain ⟨n, r, hr, hends⟩ := G.exists_outcome .init
  refine ⟨n, r, hr, ?_⟩
  cases r with
  | done s =>
      refine ⟨fun k hk => ?_, fun _ => ⟨s, rfl⟩⟩
      obtain ⟨hrun, hnil⟩ := hends
      have hinv := Inv.run hrun
      rw [hnil] at hinv
      obtain ⟨n, hn⟩ := Option.isSome_iff_exists.mp (isSome_of_reaches hinv hk)
      rw [isConstructed, hn]
      exact hinv.isConstructed hn
  | aborted s k =>
      obtain ⟨hrun, frontier, hk, hv⟩ := hends
      have hinv := Inv.run hrun
      have hpop : Inv G (k :: frontier) { s with frontier := frontier } := (hk ▸ hinv).pop
      -- the round failed at the node, so it is not handled
      obtain ⟨n, hn, hcon, -, hnone⟩ := visit_eq_none (hpop.queued k List.mem_cons_self) hv
      have hb := (hpop.node k n hn).block
      obtain ⟨ctx, hctx⟩ : ∃ ctx, s.ctxs[n.block.ctx]? = some ctx :=
        ⟨_, List.getElem?_eq_getElem hb.ctx⟩
      have hun := (successors_eq_none_iff hpop.valid hb hctx).mp hnone
      refine ⟨⟨n, ctx, hn, hcon, hctx, hun⟩, fun hplain => ?_⟩
      refine absurd hun (not_unhandled hplain hb.last_mem fun cb hcb => ?_)
      exact (hinv.valid.calls _ (List.mem_of_getElem? (getElem?_frames hctx)) cb hcb).1

/-! ### An invoke -/

/-- The invoke of a function pointer. -/
def invokeInst (n : ℕ) : Instr :=
  ⟨InstId.orig n, .call (.pointer (.arg (FnId.named "main") 0 .i8Ptr)) []⟩

/-- `main` stores, and invokes a pointer between the stores. -/
def invoking : FlowModule where
  module := ⟨[(FnId.named "main", ⟨[[storeInst 0, invokeInst 1], [storeInst 2, retInst 3],
    [⟨InstId.orig 4, .other "landingpad" []⟩, ⟨InstId.orig 5, .other "resume" []⟩]]⟩)], 0⟩
  isInvoke i := i == InstId.orig 1
  successors i := if i = InstId.orig 1 then [1, 2] else []
  type _ := .i8Ptr
  aliases := ⟨fun _ => some [], fun _ => false⟩
  wf := by
    refine ⟨by decide, by decide, ?_, ?_, by decide⟩
    · simp [FnId.Below, FnId.named]
    · simp [Module.insts, Function.insts, InstId.Below, InstId.orig, retInst, storeInst, invokeInst]
  terminated := by
    simp only [Module.blockList, List.flatMap_cons, List.map_cons, List.map_nil, List.flatMap_nil,
      List.append_nil, List.forall_mem_cons]
    refine ⟨⟨[_], _, rfl, rfl, by decide, by decide⟩, ⟨[_], _, rfl, rfl, by decide, by decide⟩,
      ⟨[_], _, rfl, rfl, by decide, by decide⟩, by simp⟩
  successors_lt := by decide

/-- From the first store to the second. -/
def invokingInput : GraphInput invoking :=
  .ofEvents [⟨[], none, PmSets.empty⟩] (0, storeInst 0) (0, storeInst 2)
    ⟨by simp [frames], by simp [frames]⟩ Nat.zero_lt_one Nat.zero_lt_one (by decide)

/-- The run stops at the assertion that the called function is known. -/
theorem invoking_not_done : ¬ ∃ n s, invokingInput.construct n = some (.done s) := by
  rintro ⟨n, s, h⟩
  cases n with
  | zero => cases h
  | succ n => cases h

end GraphInput

end Hippocrates
