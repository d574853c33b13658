import Mathlib.Data.List.ReduceOption
import Mathlib.Tactic
import Hippocrates.Fix.Repair
import Hippocrates.IR.Flushes
import Hippocrates.IR.LocationMapper
import Hippocrates.IR.Reach

/-!
The values that are known to be persistent from the trace, and what the persistent subprograms make
of them.

* `getGenericPmValue`: what an instruction stores to or flushes. A store of the number of a request
  to valgrind stands for a flush of the address that is stored next.
* `TraceEvent.pmValues`: the same for an event, from the instructions of its location.
* `MayAlias`: two pointers may point to one thing that can be persistent.
* `construct_registered`: the known values of a run are those of its trace, as the selected analysis
  knows them.

`clones_flush_traced`: in a clone the stores are flushed that may alias something the trace stores
to or flushes, and no others; the fence, if there is one, comes after a call of a clone.
-/

namespace Hippocrates

/-! ### The values of an event -/

/-- The number that asks valgrind for a flush. -/
def Value.isFlushRequest : Value → Bool
  | .constant name ty => ty.isIntegerTy && name == "1346568197"
  | _ => false

/-- The value operand of a `StoreInst`. -/
def Instr.storedValue (i : Instr) : Option Value :=
  match i.op with
  | .store value _ => some value
  | _ => none

/-- What the next store of the block stores. -/
def Module.nextStored (m : Module) (i : InstId) : Option Value :=
  (m.parent i).bind fun q => (afterInst q.2 i).findSome? Instr.storedValue

/-- The pointer operand, if the value is the result of a `PtrToIntInst`. -/
def Module.throughPtrToInt (m : Module) (v : Value) : Value :=
  match v with
  | .inst id _ =>
    match m.findInst id with
    | some ⟨_, .other name [ptr]⟩ => if name = "ptrtoint" then ptr else v
    | _ => v
  | _ => v

def Instr.isMemTransfer (i : Instr) : Bool :=
  match i.getCalledFunction with
  | none => false
  | some intr =>
    intr.getIntrinsicID == .memcpy || intr.getIntrinsicID == .memset ||
      intr.getIntrinsicID == .memmove

/-- The value that `getGenericPmValues` gets from one instruction, if any. -/
def getGenericPmValue (m : Module) (i : Instr) : Option (Option Value) :=
  match i.op with
  | .call _ args =>
    if i.isMemTransfer || (getFlush i).isSome ||
        checkInlineAsmEq i [".byte 0x66; xsaveopt $0"] then args.head?.map some
    else some none
  | .store value pointer =>
    if value.isFlushRequest then
      (m.nextStored i.id).map fun stored =>
        let pmAddr := if stored.isPointer then stored else m.throughPtrToInt stored
        if pmAddr.isPointer then some pmAddr else none
    else some (some pointer)
  | .cmpxchg pointer _ _ => some (some pointer)
  | _ => some none

def getGenericPmValues (m : Module) (fLoc : FixLoc) : Option (List Value) :=
  match fLoc.insts m with
  | none => none
  | some insts => (insts.mapM (getGenericPmValue m)).map List.reduceOption

/-- The values of one location for a fix. -/
def pmValuesAt (m : Module) (source : TraceEvent.Source) (fLoc : FixLoc) : Option (List Value) :=
  match source with
  | .GENERIC => getGenericPmValues m fLoc
  | .PMTEST =>
    match m.findInst fLoc.last with
    | some ⟨_, .call (.function f) (_ :: addrExpr :: _)⟩ =>
      if f.getName = "C_createMetadata_Flush" ∨ f.getName = "C_createMetadata_Assign" then
        some [addrExpr]
      else none -- "bad trace!"
    | _ => none -- "bad trace!"
  | .UNKNOWN => none

/-- `TraceEvent::pmValues`. -/
def TraceEvent.pmValues (m : Module) (mapper : LocationInfo → Option (List FixLoc))
    (source : TraceEvent.Source) (te : TraceEvent) : Option (List Value) :=
  match mapper te.location with
  | none => some []
  | some fixLocs =>
    if te.type = .STORE ∨ te.type = .FLUSH then
      match (fixLocs.mapM (pmValuesAt m source)).map List.flatten with
      | none => none
      | some [] => none -- "bad usage!"
      | some pmAddrs => some pmAddrs
    else some []

/-- An instruction at the location of the event stores to or flushes `q`. -/
def TraceEvent.Accesses (m : Module) (mapper : LocationInfo → Option (List FixLoc))
    (te : TraceEvent) (q : Value) : Prop :=
  (te.type = .STORE ∨ te.type = .FLUSH) ∧ ∃ fixLocs, mapper te.location = some fixLocs ∧
    ∃ fl ∈ fixLocs, ∃ insts, fl.insts m = some insts ∧
      ∃ i ∈ insts, getGenericPmValue m i = some (some q)

lemma exists_of_mapM {α β : Type*} {g : α → Option β} {l : List α} {l' : List β}
    (h : l.mapM g = some l') {a : α} (ha : a ∈ l) : ∃ b, g a = some b := by
  induction l generalizing l' with
  | nil => exact absurd ha List.not_mem_nil
  | cons c l ih =>
      rw [List.mapM_cons] at h
      obtain ⟨b, hb, h⟩ := Option.bind_eq_some_iff.mp h
      obtain ⟨l', hl', -⟩ := Option.bind_eq_some_iff.mp h
      rcases List.mem_cons.mp ha with rfl | ha
      · exact ⟨b, hb⟩
      · exact ih hl' ha

/-- **The values of an event** of a generic trace. -/
lemma TraceEvent.mem_pmValues {m : Module} {mapper : LocationInfo → Option (List FixLoc)}
    {te : TraceEvent} {vs : List Value} (h : te.pmValues m mapper .GENERIC = some vs) {q : Value} :
    q ∈ vs ↔ te.Accesses m mapper q := by
  rw [TraceEvent.pmValues] at h
  rw [TraceEvent.Accesses]
  split at h
  · rename_i hmap
    obtain rfl := Option.some.inj h
    simp [hmap]
  · rename_i fixLocs hmap
    split_ifs at h with htype
    -- the values are taken from each location in turn
    · have hvs : (fixLocs.mapM (pmValuesAt m .GENERIC)).map List.flatten = some vs := by
        split at h
        · cases h
        · cases h
        · rename_i hvs
          exact hvs.trans h
      obtain ⟨vss, hvss, rfl⟩ := Option.map_eq_some_iff.mp hvs
      simp only [htype, true_and, hmap, Option.some.injEq, exists_eq_left', List.mem_flatten,
        mem_of_mapM hvss]
      constructor
      · rintro ⟨l, ⟨fl, hfl, hl⟩, hq⟩
        rw [pmValuesAt, getGenericPmValues] at hl
        split at hl
        · cases hl
        · rename_i insts hinsts
          obtain ⟨os, hos, rfl⟩ := Option.map_eq_some_iff.mp hl
          exact ⟨fl, hfl, insts, hinsts, (mem_of_mapM hos).mp (List.reduceOption_mem_iff.mp hq)⟩
      · rintro ⟨fl, hfl, insts, hinsts, i, hi, hq⟩
        obtain ⟨l, hl⟩ := exists_of_mapM hvss hfl
        refine ⟨l, ⟨fl, hfl, hl⟩, ?_⟩
        rw [pmValuesAt, getGenericPmValues, hinsts] at hl
        obtain ⟨os, hos, rfl⟩ := Option.map_eq_some_iff.mp hl
        exact List.reduceOption_mem_iff.mpr ((mem_of_mapM hos).mpr ⟨i, hi, hq⟩)
    · obtain rfl := Option.some.inj h
      simp [htype]

/-! ### The known values -/

namespace RepairEnv

variable (R : RepairEnv) (F : Flags)

/-- The points-to sets of the selected analysis. -/
def pointsTo : Value → Option (List Value) :=
  if F.traceAA then R.traceAA.getPointsToSet
  else if F.reducedAA then R.reducedAA.getPointsToSet
  else R.getPointsToSet

/-- A value as the selected analysis knows it. -/
def analysed : Value → Option Value :=
  if F.traceAA then R.traceAA.vMap else if F.reducedAA then R.reducedAA.vMap else some

/-- The pointer may alias something that the trace stores to or flushes. -/
def AliasesTraced (p : Value) : Prop :=
  ∃ te ∈ R.trace, ∃ q, te.Accesses R.module R.mapper q ∧ ∃ q', R.analysed F q = some q' ∧
    PmDesc.MayAlias (R.pointsTo F) p q'

/-- The instruction is a store through a pointer that may alias something traced, and that is no
stack slot. -/
def StoresToTraced (i : Instr) : Prop :=
  ∃ p p', i.pointerOperand = some p ∧ R.analysed F p = some p' ∧ p'.isAllocaInst = false ∧
    R.AliasesTraced F p'

/-- The values of the events are those of the trace. -/
def Traced : Prop :=
  ∀ te ∈ R.trace, te.pmValues R.module R.mapper R.source = some (R.pmValues te)

variable {R F} {A : AliasInfo}

/-- The registration in a copy registers what the map into the copy gives. -/
lemma foldlM_vMap {vMap : Value → Option Value} {qs : List Value} {d d' : PmDesc}
    (h : qs.foldlM (fun (d : PmDesc) val =>
      match vMap val with
      | none => none
      | some v => d.addKnownPmValue v) d = some d') :
    ∃ vs, qs.mapM vMap = some vs ∧ vs.foldlM PmDesc.addKnownPmValue d = some d' := by
  induction qs generalizing d with
  | nil => exact ⟨[], rfl, h⟩
  | cons q qs ih =>
      rw [List.foldlM_cons, Option.bind_eq_bind, Option.bind_eq_some_iff] at h
      obtain ⟨d₁, hstep, hrest⟩ := h
      split at hstep
      · cases hstep
      · rename_i v hv
        obtain ⟨vs, hvs, hfold⟩ := ih hrest
        refine ⟨v :: vs, ?_, ?_⟩
        · rw [List.mapM_cons, hv, hvs]
          rfl
        · rw [List.foldlM_cons, hstep]
          exact hfold

lemma runCopyAA_registered {C : CopyAnalysis} (h : R.runCopyAA C = some A) :
    ∃ d vs, A = ⟨some d, C.vMap, C.instMap⟩ ∧
      vs.foldlM PmDesc.addKnownPmValue ⟨C.getPointsToSet, []⟩ = some d ∧
      (R.trace.flatMap R.pmValues).mapM C.vMap = some vs := by
  obtain ⟨d, hd, rfl⟩ := Option.map_eq_some_iff.mp h
  obtain ⟨vs, hvs, hfold⟩ := foldlM_vMap hd
  exact ⟨d, vs, rfl, hfold, hvs⟩

/-- **The known values of a run** are those of its trace. -/
lemma construct_registered (hF : F.heuristicRaising = true) (h : R.construct F = some A) :
    ∃ (d : PmDesc) (vs : List Value), A.pmDesc = some d ∧
      vs.foldlM PmDesc.addKnownPmValue ⟨R.pointsTo F, []⟩ = some d ∧
      (R.trace.flatMap R.pmValues).mapM (R.analysed F) = some vs ∧
      (R.fixer F A).genEnv.analysed = R.analysed F := by
  rw [construct, hF] at h
  simp only [Bool.not_true, Bool.false_eq_true, if_false] at h
  -- in each mode the values are registered after the map into the copy that is analysed
  split_ifs at h with hboth htrace hreduced
  · obtain ⟨d, vs, rfl, hfold, hvs⟩ := runCopyAA_registered h
    refine ⟨d, vs, rfl, ?_, ?_, ?_⟩
    · rwa [pointsTo, if_pos htrace]
    · rwa [analysed, if_pos htrace]
    · funext p
      simp [GenEnv.analysed, Fixer.genEnv, fixer, analysed, htrace]
  · obtain ⟨d, vs, rfl, hfold, hvs⟩ := runCopyAA_registered h
    refine ⟨d, vs, rfl, ?_, ?_, ?_⟩
    · rwa [pointsTo, if_neg htrace, if_pos hreduced]
    · rwa [analysed, if_neg htrace, if_pos hreduced]
    · funext p
      simp [GenEnv.analysed, Fixer.genEnv, fixer, analysed, htrace, hreduced]
  · obtain ⟨d, hfold, rfl⟩ := Option.map_eq_some_iff.mp h
    have hself : ∀ l : List Value, l.mapM some = some l := by
      intro l
      induction l with
      | nil => rfl
      | cons a l ih => rw [List.mapM_cons, ih]; rfl
    refine ⟨d, R.trace.flatMap R.pmValues, rfl, ?_, ?_, ?_⟩
    · rwa [pointsTo, if_neg htrace, if_neg hreduced]
    · rw [analysed, if_neg htrace, if_neg hreduced]
      exact hself _
    · funext p
      simp [GenEnv.analysed, Fixer.genEnv, fixer, analysed, htrace, hreduced]

/-- **A flush point** is a store to something traced. -/
lemma isFlushPoint_iff (hF : F.heuristicRaising = true) (hsource : R.source = .GENERIC)
    (htraced : R.Traced) (h : R.construct F = some A) {i : Instr} :
    isFlushPoint (R.fixer F A).genEnv i = true ↔ R.StoresToTraced F i := by
  obtain ⟨d, vs, hd, hfold, hvs, hanalysed⟩ := construct_registered hF h
  have hdesc : (R.fixer F A).genEnv.pmDesc = d := by
    rw [Fixer.genEnv, fixer]
    simp [hd]
  -- the known values are those that the events of the trace access
  have halias : ∀ p, (∃ q ∈ vs, PmDesc.MayAlias (R.pointsTo F) p q) ↔ R.AliasesTraced F p := by
    intro p
    simp only [mem_of_mapM hvs, List.mem_flatMap, AliasesTraced]
    constructor
    · rintro ⟨q', ⟨q, ⟨te, hte, hq⟩, hq'⟩, hp⟩
      have hvalues := htraced te hte
      rw [hsource] at hvalues
      exact ⟨te, hte, q, (TraceEvent.mem_pmValues hvalues).mp hq, q', hq', hp⟩
    · rintro ⟨te, hte, q, hq, q', hq', hp⟩
      have hvalues := htraced te hte
      rw [hsource] at hvalues
      exact ⟨q', ⟨q, ⟨te, hte, (TraceEvent.mem_pmValues hvalues).mpr hq⟩, hq'⟩, hp⟩
  rw [isFlushPoint, hanalysed, hdesc, StoresToTraced]
  cases hp : i.pointerOperand with
  | none => simp
  | some p =>
      rw [Option.bind_some]
      cases hp' : R.analysed F p with
      | none => simp [hp']
      | some p' =>
          simp only [Option.some.injEq, exists_and_left, exists_eq_left', hp']
          rw [← halias, ← PmDesc.pointsToPm_iff hfold]
          cases p'.isAllocaInst <;> simp

/-- **The clones flush what the trace calls for**: in the clone of each frame the copies of the
stores are flushed that may alias something the trace stores to or flushes, and no others. In the
given functions calls are redirected, and a fence is only after the last one, if one is asked
for. -/
theorem clones_flush_traced (hF : F.heuristicRaising = true) (hsource : R.source = .GENERIC)
    (htraced : R.Traced) (hA : R.construct F = some A) {G : GenEnv}
    (hG : G = (R.fixer F A).genEnv) {m m' : Module} {callstack : List LocationInfo}
    {f : ℕ → FnId} {idx : ℕ} {addFence : Bool} {ret : Option InstId}
    (hframes : FramesIn G m callstack f idx)
    (hrun : Hippocrates.insertPersistentSubProgram G m callstack idx true addFence =
      some (m', ret)) :
    (∀ j < idx, ∃ body B, m.lookup (f j) = some body ∧
      m'.lookup (frameClone G m callstack f j) = some ⟨B⟩ ∧
      List.Forall₂ (FlushedBlock (cloneNumber G m callstack j) fun x =>
          ∃ i ∈ body.insts, R.StoresToTraced F i ∧ i.id = x)
        (body.rewrite fun i => [redirect (redirects G m callstack f j) i]).blocks B) ∧
    (∃ n, ∀ g body, m.lookup g = some body →
      m'.lookup g = some (fencedBody addFence ret n
        (body.rewrite fun i => [redirect (redirects G m callstack f idx) i]))) ∧
    (addFence = true → ∃ j < idx, ∃ c ∈ callSites G m callstack f j, ret = some c.id ∧
      ForLoop.LastNew (siteIds G m callstack f idx) c.id ∧
        FollowedBy m' (f (j + 1)) c.id StartsFence) := by
  obtain ⟨s, extra, h, rfl, hfenced⟩ := insertPersistentSubProgram_spec hframes hrun
  refine ⟨fun j hj => ?_, ⟨s.1.next, fun g body hg => ?_⟩, fun hfence => ?_⟩
  · obtain ⟨-, body, B, hbody, hB, hflushed⟩ := h.clones j hj
    refine ⟨body, B, hbody, h.lookup_clone hframes hfenced hj hB, hflushed.imp fun b b' hb => ?_⟩
    refine hb.congr fun i _ => ?_
    simp only [FlushPoint, hG, isFlushPoint_iff hF hsource htraced hA]
  · exact hfenced.lookup_fencedBody (h.patched.lookup hg)
  · cases hfenced with
    | without => cases hfence
    | after hr =>
        -- the fence is after the call that is returned, which was redirected last
        obtain ⟨j, hj, c, hc, rfl⟩ := h.ret hr
        have hlast := h.returned c.id hr
        exact ⟨j, hj, c, hc, hr, hlast, (h.fenced_iff hframes hr hj hc).mpr (.inl hlast)⟩

end RepairEnv

/-! ### The store of two calls deep, and the value it is traced to store to -/

/-- The repair with the values that the trace gives. -/
def storeBelowTraced : RepairEnv :=
  { storeBelowRepair with
    pmValues := fun te => (te.pmValues storeBelow storeBelowMapper .GENERIC).getD [] }

/-- Heuristic raising with the analysis of the module. -/
def heuristicFlags : Flags := { noFlags with heuristicRaising := true }

/-- The pointer of the store is known. -/
def storeBelowKnown : PmDesc :=
  ⟨fun _ => some [], [.arg (FnId.named "update") 0 (.other "i64*")]⟩

def storeBelowKnownEnv : GenEnv :=
  { storeBelowEnv (.arg (FnId.named "update") 0 (.other "i64*")) with pmDesc := storeBelowKnown }

lemma storeBelowTraced_traced : storeBelowTraced.Traced := by
  intro te hte
  have hmem : te ∈ storeBelowTrace := hte
  rw [storeBelowTrace, List.mem_cons, List.mem_singleton] at hmem
  rcases hmem with rfl | rfl <;> rfl

theorem clones_flush_traced_storeBelow :
    ∃ m' ret, insertPersistentSubProgram storeBelowKnownEnv storeBelow storeBelowStack 1 true
        true = some (m', ret) ∧
      (∀ j < 1, ∃ body B, storeBelow.lookup (storeBelowFrame j) = some body ∧
        m'.lookup (frameClone storeBelowKnownEnv storeBelow storeBelowStack storeBelowFrame j) =
          some ⟨B⟩ ∧
        List.Forall₂ (FlushedBlock
            (cloneNumber storeBelowKnownEnv storeBelow storeBelowStack j) fun x =>
            ∃ i ∈ body.insts, storeBelowTraced.StoresToTraced heuristicFlags i ∧ i.id = x)
          (body.rewrite fun i => [redirect (redirects storeBelowKnownEnv storeBelow
            storeBelowStack storeBelowFrame j) i]).blocks B) ∧
      FollowedBy m' (FnId.named "relay") (InstId.orig 2) StartsFence := by
  have hA : storeBelowTraced.construct heuristicFlags =
      some ⟨some storeBelowKnown, fun _ => none, fun _ => none⟩ := rfl
  have hmapped := (storeBelow_framesIn (.arg (FnId.named "update") 0 (.other "i64*"))).mapped
  have hframes : FramesIn storeBelowKnownEnv storeBelow storeBelowStack storeBelowFrame 1 :=
    ⟨storeBelow_wf, fun j hj => hmapped j (hj.trans one_le_two)⟩
  have hrun : (insertPersistentSubProgram storeBelowKnownEnv storeBelow storeBelowStack 1 true
      true).isSome = true := by
    decide
  obtain ⟨⟨m', ret⟩, hm'⟩ := Option.isSome_iff_exists.mp hrun
  obtain ⟨hclones, -, hfence⟩ :=
    RepairEnv.clones_flush_traced rfl rfl storeBelowTraced_traced hA rfl hframes hm'
  refine ⟨m', ret, hm', hclones, ?_⟩
  -- the only call site is the call of `update` in `relay`
  have hsites : ∀ c ∈ callSites storeBelowKnownEnv storeBelow storeBelowStack storeBelowFrame 0,
      c.id = InstId.orig 2 := by
    decide
  obtain ⟨j, hj, c, hc, -, -, hfollowed⟩ := hfence rfl
  obtain rfl : j = 0 := by omega
  exact hsites c hc ▸ hfollowed

end Hippocrates
