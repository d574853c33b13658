import Mathlib.Tactic
import Hippocrates.Fix.FixDesc
import Hippocrates.IR.Transform

/-!
`GenericFixGenerator` of `FixGenerator.cpp` (with `UseNT` off) and `BugFixer::fixBug`: how the
fixes change the module. `none` is a failed assertion or a null pointer that is used.

* `PmDesc`: the points-to sets and the known persistent values, with `addKnownPmValue`.
* `insertFlush`, `insertFence`: the primitive fixes.
* `duplicateFunction`, `makeAllStoresPersistent`, `insertPersistentSubProgram`: the persistent
  subprograms. Its loop over the stack frames is `runFrames`, one round of it `frameStep`.
* `fixBug`, `fixBugs`: one fix, and fixes one after the other.
-/

namespace Hippocrates

open FixType

/-! ### Primitive fixes -/

/-- A bit cast of a constant is a constant. -/
def Value.constCast : Value → Option Value
  | .function _ => some (.constant "bitcast of a function" .i8Ptr)
  | .constant name _ => some (.constant ("bitcast of " ++ name) .i8Ptr)
  | _ => none

/-- A call of the `clwb` intrinsic. -/
def clwbCall (n : ℕ) (v : Value) : Instr :=
  ⟨InstId.ins n, .call (.function (FnId.intrinsic .x86_clwb)) [v]⟩

/-- A call of the `sfence` intrinsic. -/
def sfenceCall (n : ℕ) : Instr :=
  ⟨InstId.ins n, .call (.function (FnId.intrinsic .x86_sse_sfence)) []⟩

/-- The flush of an address: a cast, unless the pointer has the type already, and a `clwb`. -/
def flushInstrs (n : ℕ) (addrExpr : Value) : List Instr :=
  if addrExpr.getType = .i8Ptr then [clwbCall n addrExpr]
  else
    match addrExpr.constCast with
    | some c => [clwbCall n c]
    | none =>
      [⟨InstId.ins n, .bitCast addrExpr .i8Ptr⟩,
        clwbCall (n + 1) (.inst (InstId.ins n) .i8Ptr)]

/-- The round of `insertFlush` for one instruction; the second part is the last `clwb`. -/
def insertFlushAt (acc : Module × Option InstId) (i : Instr) : Option (Module × Option InstId) :=
  match i.pointerOperand with
  | none => some acc
  | some addrExpr =>
    match acc.1.nextOf i.id with
    | none => none
    | some _ =>
      let new := flushInstrs acc.1.next addrExpr
      some (acc.1.insertAfter i.id new, new.getLast?.map Instr.id)

/-- `insertFlush`. -/
def insertFlush (m : Module) (fl : FixLoc) : Option (Module × Option InstId) :=
  match fl.insts m with
  | none => none
  | some insts => insts.foldlM insertFlushAt (m, none)

/-- `insertFence`. -/
def insertFence (m : Module) (fl : FixLoc) : Option (Module × InstId) :=
  match m.nextOf fl.last with
  | none => none
  | some _ => some (m.insertAfter fl.last [sfenceCall m.next], InstId.ins m.next)

/-! ### The persistent values -/

/-- The result of the alias analysis and the values known to be persistent, locals and
globals together. -/
structure PmDesc where
  getPointsToSet : Value → Option (List Value)
  pmValues : List Value

namespace PmDesc

/-- What a value points to; a value that points to nothing is an allocation site. -/
def targets (v : Value) (ptsSet : List Value) : List Value := if ptsSet = [] then [v] else ptsSet

/-- The targets that can be persistent. -/
def isFiltered (v : Value) : Bool := !v.isAllocaInst && !v.isFunction && !v.isConstant

/-- `addKnownPmValue`. -/
def addKnownPmValue (d : PmDesc) (pmv : Value) : Option PmDesc :=
  match d.getPointsToSet pmv with
  | none => none
  | some ptsSet =>
    some { d with pmValues := d.pmValues ++ (targets pmv ptsSet).filter isFiltered }

def contains (d : PmDesc) (pmv : Value) : Bool := (d.getPointsToSet pmv).isSome

/-- The number of different targets that are persistent. -/
def getNumPmAliases (d : PmDesc) (ptsSet : List Value) : ℕ :=
  (ptsSet.dedup.filter fun v => decide (v ∈ d.pmValues)).length

def pointsToPm (d : PmDesc) (pmv : Value) : Bool :=
  match d.getPointsToSet pmv with
  | none => false
  | some ptsSet => decide (0 < d.getNumPmAliases (targets pmv ptsSet))

end PmDesc

/-- What the generator depends on: the mapper, the persistent values, the map into the module
of the alias analysis if it is not the module itself, and the demangling of names. -/
structure GenEnv where
  mapper : LocationInfo → Option (List FixLoc)
  pmDesc : PmDesc
  traceAAMap : Option (Value → Option Value)
  demangle : String → String

/-- The pointer as the alias analysis knows it. -/
def GenEnv.analysed (G : GenEnv) (ptrOp : Value) : Option Value :=
  match G.traceAAMap with
  | some vmap => vmap ptrOp
  | none => some ptrOp

/-! ### Persistent subprograms -/

/-- `duplicateFunction`. -/
def duplicateFunction (m : Module) (f : FnId) : Option (Module × FnId) :=
  (m.clone f).map fun m' => (m', f.clone m.next)

/-- The stores of the old function whose copies `makeAllStoresPersistent` flushes. -/
def isFlushPoint (G : GenEnv) (i : Instr) : Bool :=
  match i.pointerOperand.bind G.analysed with
  | none => false
  | some ptrOp =>
    if ptrOp.isAllocaInst then false
    else G.pmDesc.contains ptrOp && G.pmDesc.pointsToPm ptrOp

/-- The flush of one flush point, in the `k`-th clone. -/
def persistStore (k : ℕ) (m : Module) (i : Instr) : Option Module :=
  match insertFlush m (FixLoc.single (i.id.copy k)) with
  | some (m', some _) => some m'
  | _ => none

/-- `makeAllStoresPersistent`, for the `k`-th clone of `oldF`. -/
def makeAllStoresPersistent (G : GenEnv) (m : Module) (oldF : FnId) (k : ℕ) : Option Module :=
  match m.lookup oldF with
  | none => none
  | some body => (body.insts.filter (isFlushPoint G)).foldlM (persistStore k) m

/-- The name of a function; clones get a suffix. -/
def FnId.getName (f : FnId) : String :=
  match f.root with
  | .named name => name ++ String.join (f.copies.map fun _ => "_NT")
  | .intrinsic _ => "llvm"

/-- `getPersistentIntrinsic`. -/
def getPersistentIntrinsic (m : Module) (name : String) : Option FnId :=
  if (m.lookup (FnId.named name)).isSome then some (FnId.named name) else none

/-- `getPersistentVersion`. -/
def getPersistentVersion (m : Module) (name : String) : Option FnId :=
  getPersistentIntrinsic m ("PMFIXER_" ++ name)

/-- The function that replaces a memory primitive, if it is one: `some none` if the function
has a body and is left alone. -/
def persistentPrimitive (G : GenEnv) (m : Module) (f : FnId) : Option (Option FnId) :=
  if f.getIntrinsicID ≠ .not_intrinsic then
    match f.getIntrinsicID with
    | .memcpy => (getPersistentIntrinsic m "PMFIXER_memcpy").map some
    | .memset => (getPersistentIntrinsic m "PMFIXER_memset").map some
    | .memmove => (getPersistentIntrinsic m "PMFIXER_memmove").map some
    | _ => none -- "unhandled!"
  else
    match m.lookup f with
    | none => none
    | some body =>
      if body.isDeclaration then (getPersistentVersion m (G.demangle f.getName)).map some
      else some none

/-- The variables of the loop: the module and `retInst`. -/
abbrev GenState := Module × Option InstId

/-- An unmapped first frame: the only call of the next frame is replaced. -/
def replacePrimitive (G : GenEnv) (next : LocationInfo) (s : GenState) : Option GenState :=
  match G.mapper next with
  | some [nextFixLoc] =>
    match nextFixLoc.insts s.1 with
    | none => none
    | some insts =>
      match insts.filter Instr.isCallBase with
      | [cb] =>
        match cb.getCalledFunction with
        | none => none
        | some f =>
          match persistentPrimitive G s.1 f with
          | none => none
          | some none => some s
          | some (some newFn) => some (s.1.setCalledFunction cb.id newFn, some cb.id)
      | _ => none -- "has to be calling something!", "don't know how to handle multiple calls yet!"
  | _ => none

/-- A call of `fn` at the next frame is redirected. -/
def redirectCall (fn pmFn : FnId) (s : GenState) (ni : InstId) : Option GenState :=
  match s.1.findInst ni with
  | none => none
  | some cb =>
    if cb.isCallBase then
      match cb.getCalledFunction with
      | some cbFn => if cbFn = fn then some (s.1.setCalledFunction ni pmFn, some ni) else some s
      | none => none -- "function pointer unhandled!"
    else some s

def redirectLoc (fn pmFn : FnId) (s : GenState) (nFix : FixLoc) : Option GenState :=
  match nFix.insts s.1 with
  | none => none
  | some insts => (insts.map Instr.id).foldlM (redirectCall fn pmFn) s

/-- A mapped frame: its function is cloned, if flushes are added with the stores of the clone
flushed, and the calls at the next frame are redirected to the clone. -/
def cloneFrame (G : GenEnv) (addFlushes : Bool) (fixLocList : List FixLoc) (next : LocationInfo)
    (s : GenState) : Option GenState :=
  if fixLocList.any fun f => fixLocList.any fun g =>
      s.1.getFunction f.last != s.1.getFunction g.last then none
  else
    match fixLocList with
    | [] => none
    | fl :: _ =>
      match s.1.getFunction fl.last with
      | none => none
      | some fn =>
        let persistent : Option (Module × FnId) :=
          if addFlushes then
            match duplicateFunction s.1 fn with
            | none => none
            | some (m', pmFn) =>
              (makeAllStoresPersistent G m' fn s.1.next).map fun m'' => (m'', pmFn)
          else some (s.1, fn)
        match persistent with
        | none => none
        | some (m', pmFn) =>
          match G.mapper next with
          | none => none
          | some nextFixLoc =>
            if nextFixLoc = [] then none
            else nextFixLoc.foldlM (redirectLoc fn pmFn) (m', s.2)

/-- How a round of the loop ends: with the next one, or with `return nullptr`. -/
inductive Round where
  | next (s : GenState)
  | abort (m : Module)

/-- The round for the frame `i`. -/
def frameStep (G : GenEnv) (callstack : List LocationInfo) (addFlushes : Bool) (i : ℕ)
    (s : GenState) : Option Round :=
  match callstack[i]? with
  | none => none
  | some li =>
    match G.mapper li with
    | none =>
      if 0 < i then some (.abort s.1) -- "don't know how to handle nested unknowns, abort!"
      else
        match callstack[i + 1]? with
        | none => none
        | some next => (replacePrimitive G next s).map .next
    | some fixLocList =>
      match callstack[i + 1]? with
      | none => none
      | some next => (cloneFrame G addFlushes fixLocList next s).map .next

/-- The loop, over the frames below `idx`. -/
def runFrames (G : GenEnv) (callstack : List LocationInfo) (addFlushes : Bool) (m : Module) :
    ℕ → Option Round
  | 0 => some (.next (m, none))
  | i + 1 =>
    match runFrames G callstack addFlushes m i with
    | none => none
    | some (.abort m') => some (.abort m')
    | some (.next s) => frameStep G callstack addFlushes i s

/-- `insertPersistentSubProgram`. -/
def insertPersistentSubProgram (G : GenEnv) (m : Module) (callstack : List LocationInfo)
    (idx : ℕ) (addFlushes addFence : Bool) : Option GenState :=
  match runFrames G callstack addFlushes m idx with
  | none => none
  | some (.abort m') => some (m', none)
  | some (.next (m', retInst)) =>
    if addFence then
      match retInst with
      | none => none
      | some ret => (insertFence m' (FixLoc.single ret)).map fun r => (r.1, retInst)
    else some (m', retInst)

/-! ### All fixes -/

/-- `fixBug`. -/
def fixBug (G : GenEnv) (m : Module) (fl : FixLoc) (desc : FixDesc) : Option (Module × Bool) :=
  match desc.type with
  | ADD_FLUSH_ONLY =>
    match insertFlush m fl with
    | some (m', some _) => some (m', true)
    | _ => none
  | ADD_FENCE_ONLY => (insertFence m fl).map fun r => (r.1, true)
  | ADD_FLUSH_AND_FENCE =>
    match insertFlush m fl with
    | some (m', some n) => (insertFence m' (FixLoc.single n)).map fun r => (r.1, true)
    | _ => none
  | ADD_PERSIST_CALLSTACK_OPT | ADD_PERSIST_CALLSTACK_OPT_NOFENCE =>
    match insertPersistentSubProgram G m desc.dynStack desc.stackIdx true
        (desc.type = ADD_PERSIST_CALLSTACK_OPT) with
    | none => none
    | some (m', ret) => some (m', ret.isSome)
  | REMOVE_FLUSH_ONLY | REMOVE_FLUSH_CONDITIONAL => some (m, false)
  | NO_FIX => none

/-- The fixes are applied one after the other. -/
def fixBugs (G : GenEnv) : Module → List (FixLoc × FixDesc) → Option Module
  | m, [] => some m
  | m, (fl, desc) :: fixes =>
    match fixBug G m fl desc with
    | none => none
    | some (m', _) => fixBugs G m' fixes

/-! ### A store two calls deep -/

/-- `update` stores through its argument, `relay` calls `update`, and `main` calls `relay`. -/
def storeBelow : Module :=
  ⟨[(FnId.named "update", ⟨[[
        ⟨InstId.orig 0, .store (.constant "1" (.other "i64"))
          (.arg (FnId.named "update") 0 (.other "i64*"))⟩,
        ⟨InstId.orig 1, .other "ret" []⟩]]⟩),
    (FnId.named "relay", ⟨[[
        ⟨InstId.orig 2, .call (.function (FnId.named "update"))
          [.arg (FnId.named "relay") 0 (.other "i64*")]⟩,
        ⟨InstId.orig 3, .other "ret" []⟩]]⟩),
    (FnId.named "main", ⟨[[
        ⟨InstId.orig 4, .call (.function (FnId.named "map")) []⟩,
        ⟨InstId.orig 5, .call (.function (FnId.named "relay"))
          [.inst (InstId.orig 4) (.other "i64*")]⟩,
        ⟨InstId.orig 6, .other "ret" []⟩]]⟩),
    (FnId.named "map", ⟨[]⟩)], 0⟩

/-- The lines of the store and of the calls. -/
def storeBelowMapper (li : LocationInfo) : Option (List FixLoc) :=
  if li = ⟨"update", "update.c", 1⟩ then some [FixLoc.single (InstId.orig 0)]
  else if li = ⟨"relay", "update.c", 5⟩ then some [FixLoc.single (InstId.orig 2)]
  else if li = ⟨"main", "update.c", 9⟩ then some [FixLoc.single (InstId.orig 5)]
  else none

/-- The call stack of the store. -/
def storeBelowStack : List LocationInfo :=
  [⟨"update", "update.c", 1⟩, ⟨"relay", "update.c", 5⟩, ⟨"main", "update.c", 9⟩]

/-- Every pointer points to `target`, which the trace wrote to. -/
def storeBelowEnv (target : Value) : GenEnv where
  mapper := storeBelowMapper
  pmDesc := ⟨fun _ => some [target], [target].filter PmDesc.isFiltered⟩
  traceAAMap := none
  demangle name := name

lemma storeBelow_wf : storeBelow.WF := by
  refine ⟨by decide, by decide, ?_, ?_, by decide⟩
  · simp [storeBelow, FnId.Below, FnId.named]
  · simp [storeBelow, Module.insts, Function.insts, InstId.Below, InstId.orig]

end Hippocrates
