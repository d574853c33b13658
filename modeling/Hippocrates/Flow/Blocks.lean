import Mathlib.Tactic
import Hippocrates.Flow.PmSets
import Hippocrates.IR.LocationLaws

/-!
`ContextBlock` of `FlowAnalyzer.cpp`: the pieces of basic blocks that the nodes of a context graph
stand for, and the control flow of a module.

* `FlowModule`: a module with its invokes, the successors of its blocks, and the alias analysis.
* `create`, `createAt`: the block that starts at an instruction, and the block around the
  instruction of a trace event. A block is meant to end with the first call of a defined function.
* `cut_iff`: it does, unless it starts with such a call.
-/

namespace Hippocrates

/-- The terminators other than `invoke`. -/
def terminators : List String :=
  ["ret", "br", "switch", "indirectbr", "resume", "unreachable", "cleanupret", "catchret",
    "catchswitch"]

namespace Instr

/-- `dyn_cast<ReturnInst>`. -/
def isReturn (i : Instr) : Bool :=
  match i.op with
  | .other name _ => name == "ret"
  | _ => false

/-- `getReturnValue`. -/
def getReturnValue (i : Instr) : Option Value :=
  match i.op with
  | .other _ (v :: _) => some v
  | _ => none

def isPHI (i : Instr) : Bool :=
  match i.op with
  | .other name _ => name == "phi"
  | _ => false

/-- `isLifetimeStartOrEnd`. -/
def isLifetime (i : Instr) : Bool :=
  match i.getCalledFunction with
  | some f =>
    f.getIntrinsicID == .other "lifetime.start" || f.getIntrinsicID == .other "lifetime.end"
  | none => false

/-- What `getFirstNonPHIOrDbgOrLifetime` skips. -/
def isPHIOrDbgOrLifetime (i : Instr) : Bool := i.isPHI || i.isDebug || i.isLifetime

end Instr

/-- A terminator: a call that is an `invoke`, or another instruction that ends a block. -/
def isTerminator (isInvoke : InstId → Bool) (i : Instr) : Bool :=
  match i.op with
  | .call _ _ => isInvoke i.id
  | .other name _ => terminators.contains name
  | _ => false

/-- A module, with the calls that are invokes, the places of the successors of the blocks that end
in an instruction, the types of the results, and the alias analysis. Each block has one terminator,
its last instruction. -/
structure FlowModule where
  module : Module
  isInvoke : InstId → Bool
  successors : InstId → List ℕ
  type : InstId → Ty
  aliases : AliasResult
  wf : module.WF
  terminated : ∀ q ∈ module.blockList, ∃ init last, q.2 = init ++ [last] ∧
    isTerminator isInvoke last = true ∧ last.isPHIOrDbgOrLifetime = false ∧
    ∀ i ∈ init, isTerminator isInvoke i = false
  successors_lt : ∀ p ∈ module.funs, ∀ i ∈ p.2.insts, ∀ k ∈ successors i.id, k < p.2.blocks.length

namespace FlowModule

variable (M : FlowModule)

/-- The instructions of the module. -/
def insts : List Instr := M.module.insts

/-- The value of the result of an instruction. -/
def result (i : Instr) : Value := .inst i.id (M.type i.id)

/-- The instructions that `getNextNonDebugInstruction` goes through, from `i` to the end of the
block. -/
def following (i : Instr) : List Instr :=
  match M.module.parent i.id with
  | none => []
  | some (_, b) => (afterInst b i.id).filter fun j => !j.isDebug

/-- `getNextNonDebugInstruction`. -/
def next (i : Instr) : Option Instr := (M.following i).head?

/-- The instructions that `getPrevNonDebugInstruction` goes through, from `i` to the start of the
block. -/
def preceding (i : Instr) : List Instr :=
  match M.module.parent i.id with
  | none => []
  | some (_, b) => ((b.takeWhile fun j => j.id ≠ i.id).filter fun j => !j.isDebug).reverse

/-- The function has a body, and is no intrinsic. -/
def isDefined (f : FnId) : Bool :=
  match M.module.lookup f with
  | none => false
  | some body => !body.isDeclaration && f.getIntrinsicID == .not_intrinsic

/-- A direct call of a defined function. -/
def isDefinedCall (i : Instr) : Bool :=
  match i.getCalledFunction with
  | none => false
  | some f => M.isDefined f

/-- `&f->getEntryBlock().front()`. -/
def entryFront (f : FnId) : Option Instr :=
  (M.module.lookup f).bind fun body => body.blocks.head?.bind List.head?

/-- The successors of the block of a terminator. -/
def succBlocks (i : Instr) : List Block :=
  match M.module.parent i.id with
  | none => []
  | some (f, _) =>
    match M.module.lookup f with
    | none => []
    | some body => (M.successors i.id).filterMap fun k => body.blocks[k]?

/-- Scrolls down to the last instruction of a block. -/
def scrollDown (last : Instr) : List Instr → Instr
  | [] => last
  | tmp :: rest => if M.isDefinedCall tmp then tmp else scrollDown tmp rest

/-- Scrolls back to the first instruction of a block. -/
def scrollBack (nodeFirst : Instr) : List Instr → Instr
  | [] => nodeFirst
  | tmp :: rest => if M.isDefinedCall tmp then nodeFirst else scrollBack tmp rest

end FlowModule

/-- `getFirstNonPHIOrDbgOrLifetime`. -/
def getFirstNonPHIOrDbgOrLifetime (b : Block) : Option Instr :=
  b.find? fun i => !i.isPHIOrDbgOrLifetime

/-- A pointer to a context: its place among the contexts there are. -/
abbrev CtxId := ℕ

/-- A block of a context graph. -/
structure ContextBlock where
  ctx : CtxId
  first : Instr
  last : Instr
  traceInst : Instr
deriving DecidableEq

namespace ContextBlock

/-- `ContextBlock::create`. -/
def create (M : FlowModule) (ctx : CtxId) (first trace : Instr) : ContextBlock :=
  ⟨ctx, first, M.scrollDown first (M.following first), trace⟩

/-- `ContextBlock::create` for a trace event, once the context of its stack and the instruction of
its location are known. -/
def createAt (M : FlowModule) (ctx : CtxId) (traceInst : Instr) : ContextBlock :=
  create M ctx (M.scrollBack traceInst (M.preceding traceInst)) traceInst

/-- The walk to the end of a block, which is inclusive. -/
def upTo (last : Instr) : List Instr → List Instr
  | [] => []
  | i :: l => if i = last then [i] else i :: upTo last l

/-- The instructions of a block, as `interpret` goes through them. -/
def insts (M : FlowModule) (b : ContextBlock) : List Instr :=
  upTo b.last (b.first :: M.following b.first)

end ContextBlock

namespace FlowModule

variable {M : FlowModule} {i j last : Instr} {l : List Instr} {f : FnId}

/-! ### Walks through a block -/

/-- From `i` on the walk goes to the terminator of the block. -/
structure WalksTo (M : FlowModule) (i : Instr) (init : List Instr) (last : Instr) : Prop where
  eq : i :: M.following i = init ++ [last]
  last : isTerminator M.isInvoke last = true
  init : ∀ j ∈ init, isTerminator M.isInvoke j = false
  nodup : (i :: M.following i).Nodup
  mem : ∀ j ∈ i :: M.following i, j ∈ M.insts

/-- What follows an instruction, read off its block. -/
lemma following_eq {q : FnId × Block} (hq : q ∈ M.module.blockList) {pre post : Block}
    (hsplit : q.2 = pre ++ i :: post) : M.following i = post.filter fun j => !j.isDebug := by
  obtain ⟨body, hp, hblock⟩ := Module.mem_blockList.mp hq
  have hi : i ∈ q.2 := by simp [hsplit]
  have hnodup := M.wf.nodup_block hq
  rw [following, M.wf.parent_eq hp hblock hi]
  dsimp only
  rw [afterInst, hsplit, dropWhile_ne_id (hsplit ▸ hnodup), List.tail_cons]

/-- The walk goes on from each of its instructions. -/
lemma following_of_split {pre rest : List Instr} (hi : i ∈ M.insts)
    (h : i :: M.following i = pre ++ j :: rest) : M.following j = rest := by
  cases pre with
  | nil =>
      obtain ⟨rfl, hrest⟩ := List.cons.inj h
      exact hrest
  | cons i' pre =>
      have hfollow : M.following i = pre ++ j :: rest := (List.cons.inj h).2
      rw [insts, Module.insts_eq_blockList] at hi
      obtain ⟨q, hq, hiq⟩ := List.mem_flatMap.mp hi
      obtain ⟨front, back, hsplit⟩ := List.append_of_mem hiq
      rw [following_eq hq hsplit, List.filter_eq_append_iff] at hfollow
      obtain ⟨l₁, l₂, hback, -, hl₂⟩ := hfollow
      obtain ⟨l₃, l₄, rfl, -, -, hrest⟩ := List.filter_eq_cons_iff.mp hl₂
      have hsplit' : q.2 = (front ++ i :: (l₁ ++ l₃)) ++ j :: l₄ := by simp [hsplit, hback]
      rw [← hrest]
      exact following_eq hq hsplit'

lemma exists_walksTo (hi : i ∈ M.insts) : ∃ init last, M.WalksTo i init last := by
  rw [insts, Module.insts_eq_blockList] at hi
  obtain ⟨q, hq, hiq⟩ := List.mem_flatMap.mp hi
  obtain ⟨init, last, hb, hlast, hskip, hinit⟩ := M.terminated q hq
  obtain ⟨body, hp, hblock⟩ := Module.mem_blockList.mp hq
  obtain ⟨pre, post, hsplit⟩ := List.append_of_mem hiq
  have hfollow := M.following_eq hq hsplit
  have hsubl : (i :: M.following i).Sublist q.2 := by
    rw [hfollow, hsplit]
    exact (List.filter_sublist.cons_cons i).trans (List.sublist_append_right pre _)
  have hnodup := (M.wf.nodup_block hq).of_map.sublist hsubl
  have hmem : ∀ j ∈ i :: M.following i, j ∈ M.insts := fun j hj =>
    Module.mem_insts_of_block hp hblock (hsubl.subset hj)
  rw [hsplit] at hb
  -- the last instruction of the block is no debug instruction, so the filter keeps it
  rcases List.eq_nil_or_concat post with rfl | ⟨post, t, rfl⟩
  · obtain ⟨-, rfl⟩ := List.append_singleton_inj.mp hb
    exact ⟨[], i, by rw [hfollow]; rfl, hlast, by simp, hnodup, hmem⟩
  · have heq : (pre ++ i :: post) ++ [t] = init ++ [last] := by simpa using hb
    obtain ⟨rfl, rfl⟩ := List.append_singleton_inj.mp heq
    have hdebug : t.isDebug = false := by
      simp only [Instr.isPHIOrDbgOrLifetime, Bool.or_eq_false_iff] at hskip
      exact hskip.1.2
    refine ⟨i :: post.filter fun j => !j.isDebug, t, ?_, hlast, fun j hj => ?_, hnodup, hmem⟩
    · rw [hfollow]
      simp [hdebug]
    · exact hinit j (List.mem_append_right _ ((List.filter_sublist.cons_cons i).subset hj))

/-- Nothing follows a terminator. -/
lemma following_eq_nil_iff (hi : i ∈ M.insts) :
    M.following i = [] ↔ isTerminator M.isInvoke i = true := by
  obtain ⟨init, last, hwalk⟩ := exists_walksTo hi
  cases init with
  | nil =>
      obtain ⟨rfl, hnil⟩ := List.cons.inj hwalk.eq
      exact iff_of_true hnil hwalk.last
  | cons j init =>
      obtain ⟨rfl, hfollow⟩ := List.cons.inj hwalk.eq
      refine iff_of_false (by simp [hfollow]) ?_
      simp [hwalk.init i List.mem_cons_self]

lemma next_eq_none_iff (hi : i ∈ M.insts) :
    M.next i = none ↔ isTerminator M.isInvoke i = true := by
  rw [next, List.head?_eq_none_iff, following_eq_nil_iff hi]

lemma mem_insts_of_next (hi : i ∈ M.insts) (h : M.next i = some j) : j ∈ M.insts := by
  obtain ⟨_, _, hwalk⟩ := exists_walksTo hi
  exact hwalk.mem j (List.mem_cons_of_mem i (List.mem_of_head? h))

/-! ### Calls and terminators -/

lemma isDefinedCall_iff : M.isDefinedCall i = true ↔
    ∃ f, i.getCalledFunction = some f ∧ M.isDefined f = true := by
  rw [isDefinedCall]
  cases i.getCalledFunction <;> simp

lemma isCallBase_of_isDefinedCall (h : M.isDefinedCall i = true) : i.isCallBase = true := by
  obtain ⟨f, hf, -⟩ := isDefinedCall_iff.mp h
  rw [Instr.getCalledFunction] at hf
  rw [Instr.isCallBase]
  split at hf
  · simp [*]
  · cases hf

lemma isReturn_of_isCallBase (h : i.isCallBase = true) : i.isReturn = false := by
  rw [Instr.isCallBase] at h
  rw [Instr.isReturn]
  split at h
  · simp [*]
  · cases h

lemma isInvoke_of_isCallBase (h : i.isCallBase = true) :
    isTerminator M.isInvoke i = M.isInvoke i.id := by
  rw [Instr.isCallBase] at h
  rw [isTerminator]
  split at h
  · simp [*]
  · cases h

/-- A block of the module is not empty. -/
lemma exists_head {q : FnId × Block} (hq : q ∈ M.module.blockList) :
    ∃ j, q.2.head? = some j ∧ j ∈ M.insts := by
  obtain ⟨init, last, hb, -⟩ := M.terminated q hq
  obtain ⟨body, hp, hblock⟩ := Module.mem_blockList.mp hq
  cases h : q.2 with
  | nil => simp [h] at hb
  | cons j b => exact ⟨j, rfl, Module.mem_insts_of_block hp hblock (h ▸ List.mem_cons_self)⟩

/-- A defined function has an entry. -/
lemma exists_entryFront (h : M.isDefined f = true) :
    ∃ j, M.entryFront f = some j ∧ j ∈ M.insts := by
  rw [isDefined] at h
  cases hlookup : M.module.lookup f with
  | none => simp [hlookup] at h
  | some body =>
      simp only [hlookup, Bool.and_eq_true, Bool.not_eq_true', Function.isDeclaration] at h
      cases hblocks : body.blocks with
      | nil => simp [hblocks] at h
      | cons b blocks =>
          have hq : (f, b) ∈ M.module.blockList := Module.mem_blockList.mpr
            ⟨body, Module.mem_of_lookup hlookup, hblocks ▸ List.mem_cons_self⟩
          obtain ⟨j, hj, hmem⟩ := exists_head hq
          refine ⟨j, ?_, hmem⟩
          rw [entryFront, hlookup, Option.bind_some, hblocks]
          exact hj

/-- No other function has an entry. -/
lemma entryFront_eq_none (h : M.isDefined f = false) : M.entryFront f = none := by
  rw [isDefined] at h
  rw [entryFront]
  cases hlookup : M.module.lookup f with
  | none => rfl
  | some body =>
      have hnil : body.blocks = [] := by
        by_cases hint : f.getIntrinsicID = .not_intrinsic
        · simpa [hlookup, hint, Function.isDeclaration] using h
        · exact M.wf.intrinsics _ (Module.mem_of_lookup hlookup) hint
      rw [Option.bind_some, hnil]
      rfl

lemma mem_insts_of_entryFront (h : M.entryFront f = some j) : j ∈ M.insts := by
  obtain ⟨body, hlookup, hbody⟩ := Option.bind_eq_some_iff.mp h
  obtain ⟨b, hb, hj⟩ := Option.bind_eq_some_iff.mp hbody
  refine Module.mem_insts_of_lookup hlookup (List.mem_flatten.mpr ⟨b, ?_, ?_⟩)
  · exact List.mem_of_head? hb
  · exact List.mem_of_head? hj

/-- A successor has an instruction to start with. -/
lemma exists_firstNonPHI {b : Block} (hb : b ∈ M.succBlocks i) :
    ∃ j, getFirstNonPHIOrDbgOrLifetime b = some j ∧ j ∈ M.insts := by
  rw [succBlocks] at hb
  cases hpar : M.module.parent i.id with
  | none => simp [hpar] at hb
  | some q =>
      cases hlookup : M.module.lookup q.1 with
      | none => simp [hpar, hlookup] at hb
      | some body =>
          simp only [hpar, hlookup, List.mem_filterMap] at hb
          obtain ⟨k, -, hk⟩ := hb
          have hblock := List.mem_of_getElem? hk
          have hp := Module.mem_of_lookup hlookup
          obtain ⟨init, last, hsplit, -, hskip, -⟩ :=
            M.terminated (q.1, b) (Module.mem_blockList.mpr ⟨body, hp, hblock⟩)
          have hlast : last ∈ b := by simp [show b = init ++ [last] from hsplit]
          cases hfind : getFirstNonPHIOrDbgOrLifetime b with
          | none =>
              have hall := List.find?_eq_none.mp hfind last hlast
              simp [hskip] at hall
          | some j =>
              exact ⟨j, rfl, Module.mem_insts_of_block hp hblock (List.mem_of_find?_eq_some hfind)⟩

/-! ### The scrolls -/

lemma scrollBack_mem : M.scrollBack i l ∈ i :: l := by
  induction l generalizing i with
  | nil => exact List.mem_cons_self
  | cons j l ih =>
      rw [scrollBack]
      split_ifs
      · exact List.mem_cons_self
      · exact List.mem_cons_of_mem i ih

lemma mem_insts_of_preceding (h : j ∈ M.preceding i) : j ∈ M.insts := by
  rw [preceding] at h
  cases hpar : M.module.parent i.id with
  | none => simp [hpar] at h
  | some q =>
      obtain ⟨body, hp, hblock, -⟩ := Module.parent_spec hpar
      simp only [hpar, List.mem_reverse] at h
      exact Module.mem_insts_of_block hp hblock
        ((List.takeWhile_sublist _).subset (List.mem_filter.mp h).1)

lemma scrollDown_mem : M.scrollDown i l ∈ i :: l := by
  induction l generalizing i with
  | nil => exact List.mem_cons_self
  | cons j l ih =>
      rw [scrollDown]
      split_ifs
      · exact List.mem_cons_of_mem i List.mem_cons_self
      · exact List.mem_cons_of_mem i ih

/-- The scroll goes on when something follows. -/
lemma scrollDown_mem_following (hl : l ≠ []) : M.scrollDown i l ∈ l := by
  cases l with
  | nil => exact absurd rfl hl
  | cons j l =>
      rw [scrollDown]
      split_ifs
      · exact List.mem_cons_self
      · exact scrollDown_mem

/-- The scroll stops at a call of a defined function, or at the end. -/
lemma scrollDown_cases : M.isDefinedCall (M.scrollDown i l) = true ∨
    M.scrollDown i l = l.getLastD i := by
  induction l generalizing i with
  | nil => exact .inr rfl
  | cons j l ih =>
      rw [scrollDown, List.getLastD_cons]
      split_ifs with hj
      · exact .inl hj
      · exact ih

/-- All the calls of defined functions it goes by are at the start and at the end. -/
lemma eq_of_mem_upTo (h : j ∈ ContextBlock.upTo (M.scrollDown i l) (i :: l))
    (hj : M.isDefinedCall j = true) : j = i ∨ j = M.scrollDown i l := by
  induction l generalizing i with
  | nil => exact .inl (by simpa [scrollDown, ContextBlock.upTo] using h)
  | cons t l ih =>
      rw [ContextBlock.upTo] at h
      rw [scrollDown] at h ⊢
      split_ifs at h ⊢ with ht heq heq
      · exact .inl (List.mem_singleton.mp h)
      · rcases List.mem_cons.mp h with h | h
        · exact .inl h
        · refine .inr ?_
          simpa [ContextBlock.upTo] using h
      · exact .inl (List.mem_singleton.mp h)
      · rcases List.mem_cons.mp h with h | h
        · exact .inl h
        · rcases ih h with rfl | hlast
          · exact absurd hj ht
          · exact .inr hlast

/-- Before its end the walk goes on. -/
lemma mem_upTo_next (hlast : last ∈ l) (hi : i ∈ ContextBlock.upTo last l) (hne : i ≠ last) :
    ∃ pre j rest, l = pre ++ i :: j :: rest ∧ j ∈ ContextBlock.upTo last l := by
  induction l with
  | nil => exact absurd hlast List.not_mem_nil
  | cons a l ih =>
      rw [ContextBlock.upTo] at hi ⊢
      split_ifs at hi ⊢ with ha
      · exact absurd ((List.mem_singleton.mp hi).trans ha) hne
      · have hlast' : last ∈ l := (List.mem_cons.mp hlast).resolve_left (Ne.symm ha)
        rcases List.mem_cons.mp hi with rfl | hi
        · obtain ⟨j, rest, rfl⟩ := List.exists_cons_of_ne_nil (List.ne_nil_of_mem hlast')
          refine ⟨[], j, rest, rfl, List.mem_cons_of_mem _ ?_⟩
          rw [ContextBlock.upTo]
          split_ifs <;> exact List.mem_cons_self
        · obtain ⟨pre, j, rest, rfl, hj⟩ := ih hlast' hi
          exact ⟨a :: pre, j, rest, rfl, List.mem_cons_of_mem a hj⟩

end FlowModule

/-! ### Where the blocks are cut -/

namespace ContextBlock

variable {M : FlowModule} {ctx : CtxId} {first trace : Instr}

lemma last_mem (h : first ∈ M.insts) : (create M ctx first trace).last ∈ M.insts := by
  obtain ⟨_, _, hwalk⟩ := FlowModule.exists_walksTo h
  exact hwalk.mem _ FlowModule.scrollDown_mem

lemma createAt_first_mem (h : trace ∈ M.insts) : (createAt M ctx trace).first ∈ M.insts := by
  rcases List.mem_cons.mp (@FlowModule.scrollBack_mem M trace (M.preceding trace)) with heq | hmem
  · rw [createAt, create, heq]
    exact h
  · exact FlowModule.mem_insts_of_preceding hmem

/-- A block ends with a call of a defined function, or with a terminator. -/
lemma last_cases (h : first ∈ M.insts) :
    M.isDefinedCall (create M ctx first trace).last = true ∨
      isTerminator M.isInvoke (create M ctx first trace).last = true := by
  refine FlowModule.scrollDown_cases.imp_right fun hlast => ?_
  obtain ⟨init, last, hwalk⟩ := FlowModule.exists_walksTo h
  have hgetLast : (M.following first).getLastD first = last := by
    have hlasts := congrArg (fun l => l.getLastD first) hwalk.eq
    rw [List.getLastD_concat] at hlasts
    rwa [List.getLastD_cons] at hlasts
  rw [create, hlast, hgetLast]
  exact hwalk.last

/-- **Where a block is cut**: it has no call of a defined function before its last instruction,
exactly when it does not start with one that another instruction follows. -/
lemma cut_iff (h : first ∈ M.insts) :
    (∀ i ∈ (create M ctx first trace).insts M, M.isDefinedCall i = true →
      i = (create M ctx first trace).last) ↔
    (M.isDefinedCall first = true → M.next first = none) := by
  constructor
  · intro hcut hfirst
    have hmem : first ∈ (create M ctx first trace).insts M := by
      rw [insts, create, upTo]
      split_ifs
      · exact List.mem_cons_self
      · exact List.mem_cons_self
    -- the last instruction is found among those that follow, if there are any
    by_contra hne
    rw [FlowModule.next, List.head?_eq_none_iff] at hne
    obtain ⟨_, _, hwalk⟩ := FlowModule.exists_walksTo h
    have hlast : (create M ctx first trace).last ∈ M.following first :=
      FlowModule.scrollDown_mem_following hne
    rw [← hcut first hmem hfirst] at hlast
    exact (List.nodup_cons.mp hwalk.nodup).1 hlast
  · intro hstart i hi hcall
    rcases FlowModule.eq_of_mem_upTo hi hcall with rfl | hlast
    · rw [FlowModule.next, List.head?_eq_none_iff] at hstart
      rw [create, hstart hcall]
      rfl
    · exact hlast

end ContextBlock

end Hippocrates
