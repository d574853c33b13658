import Mathlib.Tactic
import Hippocrates.Fix.AssertPersisted
import Hippocrates.Fix.Heuristic
import Hippocrates.Fix.Optimization
import Hippocrates.IR.Primitives

/-!
`BugFixer` as a whole: its construction and `doRepair`, for every setting of the flags.

* `RepairEnv.construct`: the alias information, which is made with heuristic raising only.
* `Fixer`: the fix generators with a `pmDesc_` that may be missing. Its use in
  `makeAllStoresPersistent` ends the run with a fault of its own (`Fault.nullPmDesc`).
* `RepairEnv.doRepair`: diagnosis, raising, the fixes, and the patch of the primitives.
* `Fixer.Visits`: the rounds of the persistent subprograms that a run begins.

`doRepair_null_iff_begins`: alias information is missed just when it is not made, no analysis is
selected that maps the module to a copy, and a round begins with a function that stores through a
pointer. Which rounds begin is for `Fix.Descriptor`.
-/

namespace Hippocrates

open FixType

/-- How a run ends before its time: with a failed assertion, an exit or some null pointer, or, told
apart from these, with a use of a missing `pmDesc_`. -/
inductive Fault where
  | failed
  | nullPmDesc
deriving DecidableEq

def orFail {α : Type} : Option α → Except Fault α
  | some a => .ok a
  | none => .error .failed

/-! ### Construction -/

/-- The flags of the command line. -/
structure Flags where
  heuristicRaising : Bool
  disableRaising : Bool
  traceAA : Bool
  reducedAA : Bool
  mmapAA : Bool
  extraDumb : Bool

/-- The tool a trace comes from. -/
inductive TraceEvent.Source where
  | UNKNOWN
  | PMTEST
  | GENERIC
deriving DecidableEq

/-- The points-to sets of a copy of the module, and the map into the copy. -/
structure CopyAnalysis where
  getPointsToSet : Value → Option (List Value)
  vMap : Value → Option Value
  instMap : Instr → Option Instr

/-- What a run depends on. -/
structure RepairEnv where
  module : Module
  mapper : LocationInfo → Option (List FixLoc)
  immutableFns : FnId → Bool
  demangle : String → String
  clSz : ℕ
  source : TraceEvent.Source
  trace : List TraceEvent
  bugs : List ℕ
  pmValues : TraceEvent → List Value
  getPointsToSet : Value → Option (List Value)
  traceAA : CopyAnalysis
  reducedAA : CopyAnalysis

/-- The members of a `BugFixer` that have to do with aliases. -/
structure AliasInfo where
  pmDesc : Option PmDesc
  vMap : Value → Option Value
  instMap : Instr → Option Instr

/-- No analysis has been run. -/
def AliasInfo.empty : AliasInfo := ⟨none, fun _ => none, fun _ => none⟩

namespace RepairEnv

variable (R : RepairEnv) (F : Flags)

/-- `runTraceAA` and `runReducedAllocAA`, which differ in the copy they analyse. -/
def runCopyAA (A : CopyAnalysis) : Option AliasInfo :=
  let addKnown := fun (d : PmDesc) val =>
    match A.vMap val with
    | none => none -- "can't be nullptr!"
    | some v => d.addKnownPmValue v
  ((R.trace.flatMap R.pmValues).foldlM addKnown ⟨A.getPointsToSet, []⟩).map fun d =>
    ⟨some d, A.vMap, A.instMap⟩

/-- The analysis of the module itself; `mmap-aa` makes no difference to it. -/
def runVanillaAA : Option AliasInfo :=
  ((R.trace.flatMap R.pmValues).foldlM PmDesc.addKnownPmValue ⟨R.getPointsToSet, []⟩).map fun d =>
    ⟨some d, fun _ => none, fun _ => none⟩

/-- The constructor. -/
def construct : Option AliasInfo :=
  if !F.heuristicRaising then some AliasInfo.empty
  else if (F.traceAA || F.reducedAA || F.mmapAA) && !((F.traceAA ^^ F.reducedAA) ^^ F.mmapAA) then
    none -- "can't have both!"
  else if F.traceAA then R.runCopyAA R.traceAA
  else if F.reducedAA then R.runCopyAA R.reducedAA
  else R.runVanillaAA

end RepairEnv

/-! ### The fix generators -/

namespace PMTestFixGenerator

/-- `insertFlush`: the last instruction has to be the call that traces the assignment. -/
def insertFlush (m : Module) (fl : FixLoc) : Option (Module × Option InstId) :=
  match m.findInst fl.last with
  | none => none
  | some i =>
    match i.op with
    | .call (.function f) (a₀ :: addrExpr :: lenExpr :: a₃ :: a₄ :: _) =>
      if f.getName ≠ "C_createMetadata_Assign" ∨ (m.nextOf i.id).isNone ∨
          (m.lookup (FnId.named "C_createMetadata_Flush")).isNone then none
      else
        let traceCall : Instr := ⟨InstId.ins (m.next + 1),
          .call (.function (FnId.named "C_createMetadata_Flush")) [a₀, addrExpr, lenExpr, a₃, a₄]⟩
        some (m.insertAfter i.id [clwbCall m.next addrExpr, traceCall], some traceCall.id)
    | .call _ _ => none
    | _ => some (m, none)

/-- `insertFence`: the last instruction has to be the call that traces the flush. -/
def insertFence (m : Module) (fl : FixLoc) : Option (Module × Option InstId) :=
  match m.findInst fl.last with
  | none => none
  | some i =>
    match i.op with
    | .call (.function f) (a₀ :: _ :: _ :: a₃ :: a₄ :: _) =>
      if f.getName ≠ "C_createMetadata_Flush" ∨ (m.nextOf i.id).isNone ∨
          (m.lookup (FnId.named "C_createMetadata_Fence")).isNone then none
      else
        let traceCall : Instr := ⟨InstId.ins (m.next + 1),
          .call (.function (FnId.named "C_createMetadata_Fence")) [a₀, a₃, a₄]⟩
        some (m.insertAfter i.id [sfenceCall m.next, traceCall], some traceCall.id)
    | .call _ _ => none
    | _ => some (m, none)

/-- `fixBug`, with this generator; it has no persistent subprograms. -/
def fixBug (m : Module) (fl : FixLoc) (desc : FixDesc) : Option (Module × Bool) :=
  let inserted : Option (Module × Option InstId) → Option (Module × InstId)
    | some (m', some n) => some (m', n)
    | _ => none
  match desc.type with
  | ADD_FLUSH_ONLY => (inserted (insertFlush m fl)).map fun r => (r.1, true)
  | ADD_FENCE_ONLY => (inserted (insertFence m fl)).map fun r => (r.1, true)
  | ADD_FLUSH_AND_FENCE =>
    match inserted (insertFlush m fl) with
    | none => none
    | some (m', n) => (inserted (insertFence m' (FixLoc.single n))).map fun r => (r.1, true)
  | REMOVE_FLUSH_ONLY | REMOVE_FLUSH_CONDITIONAL => some (m, false)
  | _ => none -- "IMPLEMENT ME"

end PMTestFixGenerator

/-- The function that the round for the frame `i` clones. -/
def clonedFn (mapper : LocationInfo → Option (List FixLoc)) (callstack : List LocationInfo) (i : ℕ)
    (m : Module) : Option FnId :=
  match callstack[i]?.bind mapper with
  | none => none
  | some fixLocList =>
    if fixLocList.any fun f => fixLocList.any fun g =>
        m.getFunction f.last != m.getFunction g.last then none
    else
      match fixLocList with
      | [] => none
      | fl :: _ => m.getFunction fl.last

/-- A fix generator, whose `pmDesc_` may be missing; `traceAAMap` is the map it consults for the
pointers if one of the analyses of a copy is selected. -/
structure Fixer where
  source : TraceEvent.Source
  mapper : LocationInfo → Option (List FixLoc)
  pmDesc : Option PmDesc
  traceAAMap : Option (Value → Option Value)
  demangle : String → String

namespace Fixer

variable (X : Fixer)

/-- The generator as long as it does not use what is missing. -/
def genEnv : GenEnv where
  mapper := X.mapper
  pmDesc := X.pmDesc.getD ⟨fun _ => none, []⟩
  traceAAMap := X.traceAAMap
  demangle := X.demangle

/-- `makeAllStoresPersistent` comes to a pointer that `pmDesc_` is asked for. -/
def consults (m : Module) (oldF : FnId) : Bool :=
  match m.lookup oldF with
  | none => false
  | some body => body.insts.any fun i =>
      match i.pointerOperand.bind X.genEnv.analysed with
      | none => false
      | some ptrOp => !ptrOp.isAllocaInst

/-- The round for the frame `i`. -/
def frameStep (callstack : List LocationInfo) (i : ℕ) (s : GenState) : Except Fault Round :=
  if X.pmDesc.isNone && (clonedFn X.mapper callstack i s.1).any (X.consults s.1) then
    .error .nullPmDesc
  else orFail (Hippocrates.frameStep X.genEnv callstack true i s)

/-- The loop, over the frames below an index. -/
def runFrames (callstack : List LocationInfo) (m : Module) : ℕ → Except Fault Round
  | 0 => .ok (.next (m, none))
  | i + 1 =>
    match runFrames callstack m i with
    | .error e => .error e
    | .ok (.abort m') => .ok (.abort m')
    | .ok (.next s) => X.frameStep callstack i s

/-- `insertPersistentSubProgram`, of either generator. -/
def insertPersistentSubProgram (m : Module) (callstack : List LocationInfo) (idx : ℕ)
    (addFence : Bool) : Except Fault GenState :=
  match X.source with
  | .GENERIC =>
    match X.runFrames callstack m idx with
    | .error e => .error e
    | .ok (.abort m') => .ok (m', none)
    | .ok (.next (m', retInst)) =>
      if addFence then
        match retInst with
        | none => .error .failed
        | some ret => orFail ((insertFence m' (FixLoc.single ret)).map fun r => (r.1, retInst))
      else .ok (m', retInst)
  | _ => .error .failed -- "IMPLEMENT ME"

/-- `fixBug`. -/
def fixBug (m : Module) (fl : FixLoc) (desc : FixDesc) : Except Fault (Module × Bool) :=
  if desc.type.isPST then
    (X.insertPersistentSubProgram m desc.dynStack desc.stackIdx
      (desc.type = ADD_PERSIST_CALLSTACK_OPT)).map fun r => (r.1, r.2.isSome)
  else
    match X.source with
    | .PMTEST => orFail (PMTestFixGenerator.fixBug m fl desc)
    | _ => orFail (Hippocrates.fixBug X.genEnv m fl desc)

/-- The fixes one after the other; the result says whether one of them changed the module. -/
def fixBugs : Module → List (FixLoc × FixDesc) → Except Fault (Module × Bool)
  | m, [] => .ok (m, false)
  | m, (fl, desc) :: fixes =>
    match X.fixBug m fl desc with
    | .error e => .error e
    | .ok (m', res) => (fixBugs m' fixes).map fun r => (r.1, res || r.2)

end Fixer

/-! ### The run -/

/-- `computeAndAddFix`. -/
def computeAndAddFix [LinearOrder FixLoc] (clSz : ℕ) (E : RaiseEnv) (t : List TraceEvent)
    (fixMap : FixMap) (bug_index : ℕ) : Option (FixMap × Bool) :=
  match t[bug_index]? with
  | none => none
  | some te =>
    if !te.isBug then none -- "Can't fix a not-a-bug!"
    else
      match te.type with
      | .ASSERT_PERSISTED =>
        if te.addresses.length ≠ 1 then none -- "A persist assertion should only have 1 address!"
        else handleAssertPersisted clSz E t fixMap te bug_index
      | _ => some (fixMap, false)

namespace RepairEnv

variable (R : RepairEnv) (F : Flags)

/-- The raising with the alias information `A`: by the heuristic, or from the first frame. -/
def raiseEnv (A : AliasInfo) : RaiseEnv where
  module := R.module
  mapper := R.mapper
  immutableFns := R.immutableFns
  heuristicIdx :=
    match A.pmDesc with
    | some d => HeuristicEnv.select
        ⟨R.module, R.mapper, d, if F.traceAA || F.reducedAA then some A.instMap else none⟩
    | none => fun _ => some 0

def fixer (A : AliasInfo) : Fixer where
  source := R.source
  mapper := R.mapper
  pmDesc := A.pmDesc
  traceAAMap := if F.traceAA || F.reducedAA then some A.vMap else none
  demangle := R.demangle

variable [LinearOrder FixLoc]

/-- The first two steps: the fixes of all bugs, raised if that is enabled. -/
def findFixes (A : AliasInfo) : Option FixMap :=
  let E := R.raiseEnv F A
  match R.bugs.foldlM (fun fixMap bug =>
    (computeAndAddFix R.clSz E R.trace fixMap bug).map Prod.fst) OrderedMap.empty with
  | none => none
  | some fixMap =>
    if F.disableRaising then some fixMap else (runFixMapOptimization E fixMap).map Prod.fst

/-- The construction and `doRepair`: the module, and whether a fix changed it. -/
def doRepair : Except Fault (Module × Bool) :=
  match R.construct F with
  | none => .error .failed
  | some A =>
    if R.source = .UNKNOWN then .error .failed -- "unsupported!"
    else
      match R.findFixes F A with
      | none => .error .failed
      | some fixMap =>
        match (R.fixer F A).fixBugs R.module fixMap.entries with
        | .error e => .error e
        | .ok (m, modified) =>
          if F.disableRaising then
            orFail ((patchMemoryPrimitives m F.extraDumb).map fun r => (r.1, modified))
          else .ok (m, modified)

end RepairEnv

/-! ### The rounds of a run -/

/-- The round for the frame `i` of a subprogram is begun, in the state `s`. -/
inductive Fixer.Visits (X : Fixer) :
    Module → List (FixLoc × FixDesc) → List LocationInfo → ℕ → GenState → Prop
  | here {m : Module} {fl : FixLoc} {desc : FixDesc} {fixes : List (FixLoc × FixDesc)} {i : ℕ}
      {s : GenState} (hsource : X.source = .GENERIC) (hpst : desc.type.isPST = true)
      (hi : i < desc.stackIdx) (hrun : X.runFrames desc.dynStack m i = .ok (.next s)) :
      Visits X m ((fl, desc) :: fixes) desc.dynStack i s
  | later {m m' : Module} {fl : FixLoc} {desc : FixDesc} {fixes : List (FixLoc × FixDesc)}
      {res : Bool} {callstack : List LocationInfo} {i : ℕ} {s : GenState}
      (hfix : X.fixBug m fl desc = .ok (m', res)) (h : Visits X m' fixes callstack i s) :
      Visits X m ((fl, desc) :: fixes) callstack i s

/-- Only the generator of generic traces has persistent subprograms. -/
lemma Fixer.Visits.source_eq {X : Fixer} {m : Module} {fixes : List (FixLoc × FixDesc)}
    {callstack : List LocationInfo} {i : ℕ} {s : GenState} (h : X.Visits m fixes callstack i s) :
    X.source = .GENERIC := by
  induction h with
  | here hsource _ _ _ => exact hsource
  | later _ _ ih => exact ih

section Faults

variable {X : Fixer} {m : Module} {callstack : List LocationInfo}

lemma orFail_ne_null {α : Type} (o : Option α) : orFail o ≠ .error .nullPmDesc := by
  cases o with
  | none => exact fun h => by cases h
  | some a => exact fun h => by cases h

lemma map_eq_error_iff {α β : Type} {f : α → β} {r : Except Fault α} {e : Fault} :
    r.map f = .error e ↔ r = .error e := by
  cases r with
  | error e' => simp [Except.map]
  | ok a => simp [Except.map]

/-- A round uses the missing descriptor when it clones a function with such a store. -/
lemma frameStep_null_iff {i : ℕ} {s : GenState} :
    X.frameStep callstack i s = .error .nullPmDesc ↔
      X.pmDesc = none ∧
        ∃ fn, clonedFn X.mapper callstack i s.1 = some fn ∧ X.consults s.1 fn = true := by
  rw [Fixer.frameStep]
  split_ifs with h
  · rw [Bool.and_eq_true, Option.isNone_iff_eq_none, Option.any_eq_true] at h
    exact iff_of_true rfl h
  · rw [Bool.and_eq_true, Option.isNone_iff_eq_none, Option.any_eq_true] at h
    exact iff_of_false (orFail_ne_null _) h

/-- The first round that ends with the fault ends the loop. -/
lemma runFrames_null_iff {n : ℕ} : X.runFrames callstack m n = .error .nullPmDesc ↔
    ∃ i < n, ∃ s, X.runFrames callstack m i = .ok (.next s) ∧
      X.frameStep callstack i s = .error .nullPmDesc := by
  induction n with
  | zero => simp [Fixer.runFrames]
  | succ n ih =>
      rw [Fixer.runFrames]
      constructor
      · intro h
        split at h
        · rename_i e hrun
          cases h
          obtain ⟨i, hi, hround⟩ := ih.mp hrun
          exact ⟨i, hi.trans (Nat.lt_succ_self n), hround⟩
        · cases h
        · exact ⟨n, Nat.lt_succ_self n, _, ‹_›, h⟩
      · rintro ⟨i, hi, s, hrun, hstep⟩
        rcases (Nat.lt_succ_iff_lt_or_eq.mp hi) with hlt | rfl
        · rw [ih.mpr ⟨i, hlt, s, hrun, hstep⟩]
        · rw [hrun]
          exact hstep

lemma insertPersistentSubProgram_null_iff {idx : ℕ} {addFence : Bool} :
    X.insertPersistentSubProgram m callstack idx addFence = .error .nullPmDesc ↔
      X.source = .GENERIC ∧ X.runFrames callstack m idx = .error .nullPmDesc := by
  rw [Fixer.insertPersistentSubProgram]
  split
  · rename_i hsource
    rw [and_iff_right hsource]
    constructor
    · intro h
      split at h
      · cases h
        assumption
      · cases h
      · split_ifs at h
        split at h
        · cases h
        · exact absurd h (orFail_ne_null _)
    · intro h
      rw [h]
  · rename_i hsource
    refine iff_of_false (fun h => by cases h) fun h => hsource h.1

lemma fixBug_null_iff {fl : FixLoc} {desc : FixDesc} :
    X.fixBug m fl desc = .error .nullPmDesc ↔ desc.type.isPST = true ∧ X.source = .GENERIC ∧
      X.runFrames desc.dynStack m desc.stackIdx = .error .nullPmDesc := by
  rw [Fixer.fixBug]
  split_ifs with hpst
  · rw [map_eq_error_iff, insertPersistentSubProgram_null_iff, and_iff_right hpst]
  · refine iff_of_false (fun h => ?_) fun h => hpst h.1
    split at h
    · exact orFail_ne_null _ h
    · exact orFail_ne_null _ h

/-- **The run of the fixes** ends with the fault exactly when it begins a round that does. -/
lemma fixBugs_null_iff {fixes : List (FixLoc × FixDesc)} :
    X.fixBugs m fixes = .error .nullPmDesc ↔
      ∃ callstack i s, X.Visits m fixes callstack i s ∧
        X.frameStep callstack i s = .error .nullPmDesc := by
  induction fixes generalizing m with
  | nil =>
      rw [Fixer.fixBugs]
      refine iff_of_false (fun h => by cases h) ?_
      rintro ⟨callstack, i, s, hvisits, -⟩
      cases hvisits
  | cons fix fixes ih =>
      obtain ⟨fl, desc⟩ := fix
      rw [Fixer.fixBugs]
      -- the fault is in the first fix, or it is in the rest
      constructor
      · intro h
        split at h
        · rename_i e hfix
          cases h
          obtain ⟨hpst, hsource, hrun⟩ := fixBug_null_iff.mp hfix
          obtain ⟨i, hi, s, hrun, hstep⟩ := runFrames_null_iff.mp hrun
          exact ⟨_, i, s, .here hsource hpst hi hrun, hstep⟩
        · rename_i hfix
          obtain ⟨callstack, i, s, hvisits, hstep⟩ := ih.mp (map_eq_error_iff.mp h)
          exact ⟨callstack, i, s, .later hfix hvisits, hstep⟩
      · rintro ⟨callstack, i, s, hvisits, hstep⟩
        cases hvisits with
        | here hsource hpst hi hrun =>
            rw [fixBug_null_iff.mpr ⟨hpst, hsource,
              runFrames_null_iff.mpr ⟨i, hi, s, hrun, hstep⟩⟩]
        | later hfix hvisits =>
            rw [hfix]
            exact map_eq_error_iff.mpr (ih.mpr ⟨callstack, i, s, hvisits, hstep⟩)

end Faults

/-! ### When the alias information is there -/

namespace RepairEnv

/-- The run begins the round for the frame `i` of a subprogram, in the state `s`. -/
def Begins [LinearOrder FixLoc] (R : RepairEnv) (F : Flags) (callstack : List LocationInfo) (i : ℕ)
    (s : GenState) : Prop :=
  ∃ A fixMap, R.construct F = some A ∧ R.findFixes F A = some fixMap ∧
    (R.fixer F A).Visits R.module fixMap.entries callstack i s

/-- The function that the round for the frame `i` clones has a store or a compare-exchange whose
pointer is no stack slot. -/
def StoresThroughPointer (R : RepairEnv) (callstack : List LocationInfo) (i : ℕ) (m : Module) :
    Prop :=
  ∃ fn body, clonedFn R.mapper callstack i m = some fn ∧ m.lookup fn = some body ∧
    ∃ j ∈ body.insts, ∃ ptrOp, j.pointerOperand = some ptrOp ∧ ptrOp.isAllocaInst = false

variable {R : RepairEnv} {F : Flags} {A : AliasInfo}

/-- The alias information is made with heuristic raising, and only then. -/
lemma construct_pmDesc (h : R.construct F = some A) :
    (F.heuristicRaising = true → A.pmDesc ≠ none) ∧
      (F.heuristicRaising = false → A = AliasInfo.empty) := by
  have hcopy : ∀ C, R.runCopyAA C = some A → A.pmDesc ≠ none := by
    intro C hC
    obtain ⟨d, -, rfl⟩ := Option.map_eq_some_iff.mp hC
    simp
  have hvanilla : R.runVanillaAA = some A → A.pmDesc ≠ none := by
    intro hV
    obtain ⟨d, -, rfl⟩ := Option.map_eq_some_iff.mp hV
    simp
  rw [construct] at h
  cases hF : F.heuristicRaising with
  | false =>
      rw [hF] at h
      exact ⟨fun hcon => absurd hcon Bool.false_ne_true, fun _ => (Option.some.inj h).symm⟩
  | true =>
      refine ⟨fun _ => ?_, fun hcon => absurd hcon.symm Bool.false_ne_true⟩
      simp only [hF, Bool.not_true, Bool.false_eq_true, if_false] at h
      split_ifs at h
      · exact hcopy _ h
      · exact hcopy _ h
      · exact hvanilla h

/-- Without an analysis the generator asks for the pointers of a function, unless the map into a
copy, which is empty, is consulted first. -/
lemma consults_empty {m : Module} {fn : FnId} :
    (R.fixer F AliasInfo.empty).consults m fn = true ↔
      F.traceAA = false ∧ F.reducedAA = false ∧ ∃ body, m.lookup fn = some body ∧
        ∃ j ∈ body.insts, ∃ ptrOp, j.pointerOperand = some ptrOp ∧ ptrOp.isAllocaInst = false := by
  -- what is consulted depends on whether a copy of the module is analysed
  have hanalysed : ∀ j : Instr, j.pointerOperand.bind (R.fixer F AliasInfo.empty).genEnv.analysed =
      if F.traceAA || F.reducedAA then none else j.pointerOperand := by
    intro j
    cases j.pointerOperand with
    | none => rw [Option.bind_none, ite_self]
    | some v =>
        rw [Option.bind_some, GenEnv.analysed, Fixer.genEnv, fixer]
        split_ifs <;> rfl
  rw [Fixer.consults]
  cases hcopy : F.traceAA || F.reducedAA with
  | true =>
      refine iff_of_false (fun h => ?_) fun h => by simp [h.1, h.2.1] at hcopy
      split at h
      · cases h
      · simp [hanalysed, hcopy] at h
  | false =>
      simp only [hcopy, Bool.false_eq_true, if_false] at hanalysed
      rw [Bool.or_eq_false_iff] at hcopy
      rw [and_iff_right hcopy.1, and_iff_right hcopy.2]
      cases m.lookup fn with
      | none => simp
      | some body =>
          simp only [hanalysed, List.any_eq_true, Option.some.injEq, exists_eq_left']
          refine exists_congr fun j => and_congr_right fun _ => ?_
          cases j.pointerOperand with
          | none => simp
          | some ptrOp => simp

variable [LinearOrder FixLoc]

/-- The run ends with the fault in a round that uses the missing descriptor. -/
lemma doRepair_null_iff : R.doRepair F = .error .nullPmDesc ↔
    ∃ A fixMap callstack i s, R.construct F = some A ∧ R.findFixes F A = some fixMap ∧
      (R.fixer F A).Visits R.module fixMap.entries callstack i s ∧
      (R.fixer F A).frameStep callstack i s = .error .nullPmDesc := by
  -- only the fixes can end with this fault
  have hnull : ∀ A fixMap, R.construct F = some A → R.findFixes F A = some fixMap →
      ((R.fixer F A).fixBugs R.module fixMap.entries = .error .nullPmDesc ↔
        R.doRepair F = .error .nullPmDesc) := by
    intro A fixMap hA hfixes
    rw [doRepair, hA]
    dsimp only
    by_cases hsource : R.source = .UNKNOWN
    · rw [if_pos hsource]
      refine iff_of_false (fun h => ?_) fun h => by cases h
      obtain ⟨callstack, i, s, hvisits, -⟩ := fixBugs_null_iff.mp h
      cases hvisits.source_eq.symm.trans hsource
    · rw [if_neg hsource, hfixes]
      dsimp only
      cases hfix : (R.fixer F A).fixBugs R.module fixMap.entries with
      | error e => exact Iff.rfl
      | ok r =>
          refine iff_of_false (fun h => by cases h) fun h => ?_
          dsimp only at h
          split_ifs at h
          exact orFail_ne_null _ h
  constructor
  · intro h
    have hrun := h
    rw [doRepair] at hrun
    cases hA : R.construct F with
    | none => simp [hA] at hrun
    | some A =>
        cases hfixes : R.findFixes F A with
        | none => simp [hA, hfixes] at hrun
        | some fixMap =>
            obtain ⟨callstack, i, s, hround⟩ :=
              fixBugs_null_iff.mp ((hnull A fixMap hA hfixes).mpr h)
            exact ⟨A, fixMap, callstack, i, s, rfl, hfixes, hround⟩
  · rintro ⟨A, fixMap, callstack, i, s, hA, hfixes, hround⟩
    exact (hnull A fixMap hA hfixes).mp (fixBugs_null_iff.mpr ⟨callstack, i, s, hround⟩)

/-- The fault, in terms of the rounds that the run begins. -/
lemma doRepair_null_iff_begins : R.doRepair F = .error .nullPmDesc ↔
    F.heuristicRaising = false ∧ F.traceAA = false ∧ F.reducedAA = false ∧
      ∃ callstack i s, R.Begins F callstack i s ∧ R.StoresThroughPointer callstack i s.1 := by
  -- the descriptor is missing exactly when the heuristic is off
  have hround : ∀ A callstack i s, R.construct F = some A →
      ((R.fixer F A).frameStep callstack i s = .error .nullPmDesc ↔
        F.heuristicRaising = false ∧ F.traceAA = false ∧ F.reducedAA = false ∧
          R.StoresThroughPointer callstack i s.1) := by
    intro A callstack i s hA
    rw [frameStep_null_iff]
    obtain ⟨hmade, hempty⟩ := construct_pmDesc hA
    cases hF : F.heuristicRaising with
    | true => exact iff_of_false (fun h => hmade hF h.1) fun h => by cases h.1
    | false =>
        obtain rfl := hempty hF
        have hnone : (R.fixer F AliasInfo.empty).pmDesc = none := rfl
        rw [and_iff_right hnone, and_iff_right rfl]
        simp only [consults_empty]
        constructor
        · rintro ⟨fn, hfn, htrace, hreduced, body, hbody, hstore⟩
          exact ⟨htrace, hreduced, fn, body, hfn, hbody, hstore⟩
        · rintro ⟨htrace, hreduced, fn, body, hfn, hbody, hstore⟩
          exact ⟨fn, hfn, htrace, hreduced, body, hbody, hstore⟩
  rw [doRepair_null_iff]
  constructor
  · rintro ⟨A, fixMap, callstack, i, s, hA, hfixes, hvisits, hstep⟩
    obtain ⟨hF, htrace, hreduced, hstore⟩ := (hround A callstack i s hA).mp hstep
    exact ⟨hF, htrace, hreduced, callstack, i, s, ⟨A, fixMap, hA, hfixes, hvisits⟩, hstore⟩
  · rintro ⟨hF, htrace, hreduced, callstack, i, s, ⟨A, fixMap, hA, hfixes, hvisits⟩, hstore⟩
    exact ⟨A, fixMap, callstack, i, s, hA, hfixes, hvisits,
      (hround A callstack i s hA).mpr ⟨hF, htrace, hreduced, hstore⟩⟩

end RepairEnv

/-! ### A store in a function that must not change

The store of `storeBelow` is not persisted, and `update` is immutable. -/

/-- The trace of the store, and of the bug. -/
def storeBelowTrace : List TraceEvent :=
  [⟨.STORE, 0, [⟨4096, 8⟩], ⟨"update", "update.c", 1⟩, false, storeBelowStack, none⟩,
    ⟨.ASSERT_PERSISTED, 1, [⟨4096, 8⟩], ⟨"main", "update.c", 9⟩, true, [], none⟩]

def storeBelowRepair : RepairEnv where
  module := storeBelow
  mapper := storeBelowMapper
  immutableFns f := f == FnId.named "update"
  demangle name := name
  clSz := 64
  source := .GENERIC
  trace := storeBelowTrace
  bugs := [1]
  pmValues _ := [.arg (FnId.named "update") 0 (.other "i64*")]
  getPointsToSet _ := some []
  traceAA := ⟨fun _ => some [], some, some⟩
  reducedAA := ⟨fun _ => some [], some, some⟩

/-- No flag is set. -/
def noFlags : Flags := ⟨false, false, false, false, false, false⟩

end Hippocrates
