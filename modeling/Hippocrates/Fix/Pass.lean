import Mathlib.Tactic
import Hippocrates.Fix.Durable
import Hippocrates.Fix.Immutable
import Hippocrates.IR.LocationLaws
import Hippocrates.IR.Weight
import Hippocrates.Report.Written

/-!
The pass `pm-bug-fixer` as a whole: the location map, the trace, the immutable functions, and the
run of the fixer.

* `addImmutableFunction`, `addImmutableModule`: the functions that are named, and those without
  debug information.
* `PmBugFixerPass.runOnModule`: from the module and the document of the trace to the module of the
  end and the flag that is returned.
* `FixesLeave`, `runOnModule_modified`: the flag says whether a function of the given module has
  been changed by the fixes, the patch of the memory primitives left out.
* `runOnModule_noDebug`: what has no debug location is not modified.

`parsedLog_durable`: from the log of pmemcheck to the repaired program, through the scripts and the
pass, every bug is diagnosed and what it is about is made durable.
-/

namespace Hippocrates

open FixType Persistency

/-! ### Immutable functions -/

/-- `addImmutableFunction`; a name that is not found is skipped. -/
def addImmutableFunction (m : Module) (immutableFns : List FnId) (fnName : String) : List FnId :=
  match (m.funs.map Prod.fst).find? fun f => f.fullName == fnName with
  | some f => f :: immutableFns
  | none => immutableFns

/-- `addImmutableModule`, with the file of the subprogram of each function that has one. -/
def addImmutableModule (m : Module) (subprogramFile : FnId → Option String)
    (immutableFns : List FnId) (modName : String) : Option (List FnId) :=
  (m.funs.map Prod.fst).foldlM (fun immutableFns f =>
    match subprogramFile f with
    | none => some (f :: immutableFns)
    | some fileName =>
      if hasSubstring fileName modName then none -- "implement!"
      else some immutableFns) immutableFns

def immutableFnNames : List String := ["memset_mov_sse2_empty"]

def immutableLibNames : List String := ["libc.so"]

/-! ### The pass -/

/-- What the pass is given: the module with its debug information, the options that name things, and
what stands for the libraries it uses. -/
structure PmBugFixerPass where
  dbg : DebugModule
  subprogramFile : FnId → Option String
  trace_info_doc : Node
  Immutables : List String
  scalars : Scalars
  hash : StdHash
  buckets : Buckets
  demangle : String → String
  demangle_primitive : ∀ f : FnId, primitiveOf f ≠ none → demangle f.fullName = f.fullName
  clSz : ℕ
  getPointsToSet : Value → Option (List Value)
  traceAA : CopyAnalysis
  reducedAA : CopyAnalysis

namespace PmBugFixerPass

variable (P : PmBugFixerPass) (F : Flags)

/-- `mapper_[li]`. -/
def mapper (fixLocMap : HashTable LocationInfo (List FixLoc)) (li : LocationInfo) :
    Option (List FixLoc) :=
  fixLocMap.find (LocationInfo.same P.hash) li

def resolveEnv (fixLocMap : HashTable LocationInfo (List FixLoc)) : ResolveEnv where
  module := P.dbg.module
  mapper := P.mapper fixLocMap
  demangle := P.demangle
  demangle_primitive := P.demangle_primitive

/-- The functions that must not change: those of the constructor, then those of the option. -/
def immutableFns : Option (List FnId) :=
  (immutableLibNames.foldlM (addImmutableModule P.dbg.module P.subprogramFile)
    (immutableFnNames.foldl (addImmutableFunction P.dbg.module) [])).map fun fns =>
      P.Immutables.foldl (addImmutableFunction P.dbg.module) fns

/-- The values of an event, where they can be told. -/
def pmValues (fixLocMap : HashTable LocationInfo (List FixLoc)) (ti : TraceInfo) (te : TraceEvent) :
    Option (List Value) :=
  te.pmValues P.dbg.module (P.mapper fixLocMap) ti.source

/-- What the fixer is constructed with. -/
def repairEnv (fixLocMap : HashTable LocationInfo (List FixLoc)) (ti : TraceInfo)
    (immutableFns : List FnId) : RepairEnv where
  module := P.dbg.module
  mapper := P.mapper fixLocMap
  immutableFns := immutableFns.contains
  demangle := P.demangle
  clSz := P.clSz
  source := ti.source
  trace := ti.events
  bugs := ti.bugs
  pmValues te := (P.pmValues fixLocMap ti te).getD []
  getPointsToSet := P.getPointsToSet
  traceAA := P.traceAA
  reducedAA := P.reducedAA

/-- `runOnModule`: the module, and whether it has been modified. -/
def runOnModule [LinearOrder FixLoc] : Except Fault (Module × Bool) :=
  match createMappings P.hash P.buckets P.dbg with
  | none => .error .failed
  | some fixLocMap =>
    match build P.scalars (P.resolveEnv fixLocMap) P.trace_info_doc with
    | none => .error .failed
    | some ti =>
      if ti.events.isEmpty then .ok (P.dbg.module, false) -- "Err: trace is empty!!!"
      else
        match P.immutableFns with
        | none => .error .failed
        | some immutableFns =>
          if F.heuristicRaising && ti.events.any fun te => (P.pmValues fixLocMap ti te).isNone then
            .error .failed
          else (P.repairEnv fixLocMap ti immutableFns).doRepair F

section Run

variable [LinearOrder FixLoc] {P F} {m' : Module} {modified : Bool}

/-- The steps of a run that ends well: the trace is empty, or the fixer has run. -/
lemma runOnModule_cases (h : P.runOnModule F = .ok (m', modified)) :
    ∃ fixLocMap ti, createMappings P.hash P.buckets P.dbg = some fixLocMap ∧
      build P.scalars (P.resolveEnv fixLocMap) P.trace_info_doc = some ti ∧
      (ti.events = [] ∧ m' = P.dbg.module ∧ modified = false ∨
        ∃ immutableFns, P.immutableFns = some immutableFns ∧ ti.events ≠ [] ∧
          (P.repairEnv fixLocMap ti immutableFns).doRepair F = .ok (m', modified)) := by
  rw [runOnModule] at h
  split at h
  · cases h
  · rename_i fixLocMap hmap
    split at h
    · cases h
    · rename_i ti hti
      refine ⟨fixLocMap, ti, hmap, hti, ?_⟩
      split at h
      · rename_i hempty
        cases h
        exact .inl ⟨List.isEmpty_iff.mp hempty, rfl, rfl⟩
      · rename_i hevents
        split at h
        · cases h
        · rename_i immutableFns himm
          split_ifs at h
          exact .inr ⟨immutableFns, himm, fun hnil => hevents (List.isEmpty_iff.mpr hnil), h⟩

/-- With a trace that is not empty and without heuristic raising, the run is that of the fixer. -/
lemma runOnModule_eq {fixLocMap : HashTable LocationInfo (List FixLoc)} {ti : TraceInfo}
    {immutableFns : List FnId} (hmap : createMappings P.hash P.buckets P.dbg = some fixLocMap)
    (hti : build P.scalars (P.resolveEnv fixLocMap) P.trace_info_doc = some ti)
    (himm : P.immutableFns = some immutableFns) (hne : ti.events.isEmpty = false)
    (hF : F.heuristicRaising = false) :
    P.runOnModule F = (P.repairEnv fixLocMap ti immutableFns).doRepair F := by
  rw [runOnModule, hmap]
  dsimp only
  rw [hti]
  dsimp only
  rw [if_neg (by simp [hne]), himm]
  dsimp only
  rw [if_neg (by simp [hF])]

end Run

end PmBugFixerPass

/-! ### The locations of the mapper -/

section Located

variable {m : Module} {D : DebugModule}

lemma Module.WF.exists_has (hwf : m.WF) {i : Instr} (hi : i ∈ m.insts) : ∃ f, m.Has f i.id := by
  obtain ⟨f, pre, post, hb⟩ := Module.exists_block hi
  obtain ⟨body, hp, hblock⟩ := Module.mem_blockList.mp hb
  exact ⟨f, Module.has_of_mem (hwf.lookup_eq hp)
    (List.mem_flatten.mpr ⟨_, hblock, by simp⟩)⟩

/-- The ends of a range are in one function, and have debug locations. -/
lemma located_of_createMappings {H : StdHash} {B : Buckets} (hwf : D.module.WF)
    {t : HashTable LocationInfo (List FixLoc)} {l : LocationInfo} {locs : List FixLoc}
    {fl : FixLoc} (h : createMappings H B D = some t)
    (hfind : t.find (LocationInfo.same H) l = some locs) (hfl : fl ∈ locs) :
    ∃ f, D.module.Has f fl.first ∧ D.module.Has f fl.last ∧ (D.dbg fl.last).isSome = true := by
  obtain ⟨insts, ⟨f, b⟩, hlocated, hblock, hrange⟩ := range_of_createMappings hwf h hfind hfl
  obtain ⟨hfirst, hlast⟩ := ends_of_rangeIn hrange
  obtain ⟨i, hi, hifirst⟩ := Option.map_eq_some_iff.mp hfirst
  obtain ⟨j, hj, hjlast⟩ := Option.map_eq_some_iff.mp hlast
  obtain ⟨body, hp, hb⟩ := Module.mem_blockList.mp hblock
  have hhas : ∀ k ∈ b, D.module.Has f k.id := fun k hk =>
    Module.has_of_mem (hwf.lookup_eq hp) (List.mem_flatten.mpr ⟨b, hb, hk⟩)
  have hjmem := List.mem_filter.mp (List.mem_of_getLast? hj)
  refine ⟨f, hifirst ▸ hhas i (List.mem_filter.mp (List.mem_of_head? hi)).1,
    hjlast ▸ hhas j hjmem.1, ?_⟩
  -- the last of the instructions that are among those of the location is one of them
  have hjinsts : j ∈ insts := by
    have hamong := hjmem.2
    rw [among, Bool.and_eq_true, decide_eq_true_eq] at hamong
    exact hamong.1
  have hlocated := hlocated j hjinsts
  rw [← hjlast]
  rw [DebugModule.locationOf] at hlocated
  split at hlocated
  · rename_i hdi _
    rw [hdi]
    rfl
  · cases hlocated

end Located

/-! ### The flag -/

/-- **The fixes of a run** tell whether one has changed a function of the given module. -/
lemma Fixer.fixBugs_tells {X : Fixer} {m₀ m m' : Module} {fixes : List (FixLoc × FixDesc)}
    {res : Bool} (hsource : X.source = .GENERIC) (hgiven : Given X.genEnv m₀)
    (hm : m₀.Continues m)
    (hfixes : ∀ p ∈ fixes, p.2.type.isPrimative = true →
      ∃ i f, p.1 = FixLoc.single i ∧ m₀.Has f i)
    (h : X.fixBugs m fixes = .ok (m', res)) : Tells m₀ m m' res := by
  induction fixes generalizing m res with
  | nil =>
      rw [fixBugs] at h
      cases h
      exact .refl _
  | cons fix fixes ih =>
      obtain ⟨fl, desc⟩ := fix
      rw [List.forall_mem_cons] at hfixes
      rw [fixBugs] at h
      split at h
      · cases h
      · rename_i m₁ res₁ hfix
        obtain ⟨⟨m₂, res₂⟩, hrest, heq⟩ := map_eq_ok_iff.mp h
        obtain ⟨rfl, rfl⟩ := Prod.mk.inj heq
        have hfix' := fixBug_generic hsource hfix
        have hm₁ := Edits.continues (fixBug_edits hm.wf hfix') hm
        exact (fixBug_tells hgiven hm hfixes.1 hfix').trans (ih hm₁ hfixes.2 hrest)

section Modified

variable [LinearOrder FixLoc] {R : RepairEnv} {F : Flags} {m' : Module} {modified : Bool}

/-- The fixes of a run tell, whatever the source of the trace is. -/
lemma RepairEnv.fixBugs_tells {A : AliasInfo} {fixMap : FixMap}
    (hgiven : Given (R.fixer F A).genEnv R.module) (hknown : R.source ≠ .UNKNOWN)
    (hfixes : R.findFixes F A = some fixMap)
    (hrun : (R.fixer F A).fixBugs R.module fixMap.entries = .ok (m', modified)) :
    Tells R.module R.module m' modified := by
  have hwf := hgiven.wf
  cases hsource : R.source with
  | UNKNOWN => exact absurd hsource hknown
  | GENERIC =>
      refine Fixer.fixBugs_tells (X := R.fixer F A) hsource hgiven
        (hgiven.original.continues hwf) (fun p hp hprim => ?_) hrun
      have hplanned := findFixes_planned hfixes p.1 p.2 (OrderedMap.find_eq_some_iff.mpr hp)
      rcases hplanned.kind with ⟨hpst, -⟩ | ⟨-, i, hi, -, hfl, -⟩
      · exact absurd hpst (not_isPST_of_isPrimative hprim)
      · obtain ⟨f, hf⟩ := hwf.exists_has hi
        exact ⟨i.id, f, hfl, hf⟩
  | PMTEST =>
      -- no fix of the map can be applied, so there is none
      obtain ⟨-, heq⟩ := Fixer.fixBugs_pmtest (X := R.fixer F A) (E := R.raiseEnv F A) hsource hwf
        (fun p hp => findFixes_planned hfixes _ _ (OrderedMap.find_eq_some_iff.mpr hp)) hrun
      obtain ⟨rfl, rfl⟩ := Prod.mk.inj heq
      exact .refl _

variable {P : PmBugFixerPass}

/-- The fixes of the run leave the module and the flag; without a trace there are none. -/
def PmBugFixerPass.FixesLeave (P : PmBugFixerPass) (F : Flags) (m₁ : Module) (modified : Bool) :
    Prop :=
  ∃ fixLocMap ti, createMappings P.hash P.buckets P.dbg = some fixLocMap ∧
    build P.scalars (P.resolveEnv fixLocMap) P.trace_info_doc = some ti ∧
    if ti.events = [] then m₁ = P.dbg.module ∧ modified = false
    else ∃ immutableFns R A fixMap, P.immutableFns = some immutableFns ∧
      R = P.repairEnv fixLocMap ti immutableFns ∧ R.construct F = some A ∧
      R.findFixes F A = some fixMap ∧
      (R.fixer F A).fixBugs P.dbg.module fixMap.entries = .ok (m₁, modified)

/-- **The flag that is returned is true** exactly when a function of the given module has another
body in the module that the fixes leave: no change is undone by a later fix, and none is hidden by a
fix that reports none. With raising disabled the memory primitives of that module are patched. -/
theorem PmBugFixerPass.runOnModule_modified (hwf : P.dbg.module.WF)
    (horig : P.dbg.module.Original)
    (hlinked : ∀ name body, P.dbg.module.lookup (FnId.named ("PMFIXER_" ++ name)) = some body →
      body.isDeclaration = false)
    (h : P.runOnModule F = .ok (m', modified)) :
    ∃ m₁, P.FixesLeave F m₁ modified ∧
      (modified = true ↔ ∃ f, (P.dbg.module.lookup f).isSome = true ∧
        m₁.lookup f ≠ P.dbg.module.lookup f) ∧
      (m' = m₁ ∨ F.disableRaising = true ∧
        ∃ changed, patchMemoryPrimitives m₁ F.extraDumb = some (m', changed)) := by
  obtain ⟨fixLocMap, ti, hmap, hti, ⟨hnil, rfl, rfl⟩ | ⟨immutableFns, himm, hne, hrun⟩⟩ :=
    runOnModule_cases h
  -- a report without events leaves the module as it is
  · refine ⟨P.dbg.module, ⟨fixLocMap, ti, hmap, hti, ?_⟩, by simp, .inl rfl⟩
    rw [if_pos hnil]
    exact ⟨rfl, rfl⟩
  · obtain ⟨A, fixMap, m₁, hA, hknown, hfixes, hfixed, hpatch⟩ := doRepair_eq_ok_iff.mp hrun
    -- the locations of the mapper are in the module that is given
    have hgiven : Given ((P.repairEnv fixLocMap ti immutableFns).fixer F A).genEnv
        P.dbg.module := by
      refine ⟨hwf, horig, hlinked, fun li locs hfind fl hfl => ?_⟩
      obtain ⟨f, hfirst, -⟩ := located_of_createMappings hwf hmap hfind hfl
      exact ⟨f, hfirst⟩
    refine ⟨m₁, ⟨fixLocMap, ti, hmap, hti, ?_⟩,
      (RepairEnv.fixBugs_tells hgiven hknown hfixes hfixed).flag, ?_⟩
    · rw [if_neg hne]
      exact ⟨immutableFns, _, A, fixMap, himm, rfl, hA, hfixes, hfixed⟩
    · split_ifs at hpatch with hF
      · exact .inr ⟨hF, hpatch⟩
      · exact .inl hpatch

end Modified

/-! ### What is not modified -/

section NoDebug

variable [LinearOrder FixLoc] {F : Flags} {m' : Module} {modified : Bool} {f : FnId}
  {body : Function}

/-- The fixes of a run keep a function with no location of the mapper in it. -/
lemma RepairEnv.fixBugs_unmapped {R : RepairEnv} {A : AliasInfo} {fixMap : FixMap}
    (hwf : R.module.WF) (horig : R.module.Original) (hknown : R.source ≠ .UNKNOWN)
    (hfixes : R.findFixes F A = some fixMap) (hbody : R.module.lookup f = some body)
    (hoff : ∀ li locs, R.mapper li = some locs → ∀ loc ∈ locs, ¬ R.module.Has f loc.last)
    (h : (R.fixer F A).fixBugs R.module fixMap.entries = .ok (m', modified)) :
    m'.WF ∧ m'.lookup f = some body := by
  have hplanned : ∀ p ∈ fixMap.entries,
      Planned (R.raiseEnv F A) R.trace (!F.disableRaising) p.1 p.2 :=
    fun p hp => findFixes_planned hfixes _ _ (OrderedMap.find_eq_some_iff.mpr hp)
  cases hsource : R.source with
  | UNKNOWN => exact absurd hsource hknown
  -- no fix of a PMTest trace can be applied
  | PMTEST =>
      obtain ⟨-, heq⟩ := Fixer.fixBugs_pmtest (X := R.fixer F A) (E := R.raiseEnv F A) hsource hwf
        hplanned h
      obtain ⟨rfl, -⟩ := Prod.mk.inj heq
      exact ⟨hwf, hbody⟩
  | GENERIC =>
      have hedits := (Fixer.fixBugs_generic (X := R.fixer F A) hsource hwf horig.onlyFlushes h).1
      refine ⟨hedits.wf hwf, ?_⟩
      rw [← hbody]
      refine Fixer.fixBugs_frame (X := R.fixer F A) hsource hwf (hbody ▸ rfl)
        (fun p hp htouches => ?_) h
      -- neither a subprogram nor a primitive fix is at a place in the function
      rw [Touches] at htouches
      split_ifs at htouches with hpst
      · obtain ⟨j, -, -, li, locs, -, hli, loc, hloc, hhas⟩ := htouches
        exact hoff li locs hli loc hloc hhas
      · rcases (hplanned p hp).kind with ⟨hpst', -⟩ | ⟨-, i, -, -, hfl, te, -, -, locs, hli, loc,
          hloc, insts, hinsts, hi⟩
        · exact hpst hpst'
        · rw [hfl] at htouches
          exact hoff _ locs hli loc hloc (hwf.has_last hinsts hi htouches)

/-- **What has no debug location is not modified**: a function keeps its body if none of its
instructions has one and, with raising disabled, it has no call of a memory primitive. -/
theorem PmBugFixerPass.runOnModule_noDebug {P : PmBugFixerPass} (hwf : P.dbg.module.WF)
    (horig : P.dbg.module.Original) (h : P.runOnModule F = .ok (m', modified))
    (hbody : P.dbg.module.lookup f = some body)
    (hnone : ∀ i ∈ body.insts, P.dbg.dbg i.id = none)
    (hprim : F.disableRaising = true → ∀ i ∈ body.insts, selected i = none) :
    m'.lookup f = some body := by
  obtain ⟨fixLocMap, ti, hmap, -, ⟨-, rfl, -⟩ | ⟨immutableFns, -, -, hrun⟩⟩ := runOnModule_cases h
  · exact hbody
  have hoff : ∀ li locs, P.mapper fixLocMap li = some locs → ∀ loc ∈ locs,
      ¬ P.dbg.module.Has f loc.last := by
    rintro li locs hli loc hloc ⟨body', hbody', hmem⟩
    obtain rfl := Option.some.inj (hbody.symm.trans hbody')
    obtain ⟨j, hj, hid⟩ := List.mem_map.mp hmem
    obtain ⟨-, -, -, hdbg⟩ := located_of_createMappings hwf hmap hli hloc
    rw [← hid, hnone j hj] at hdbg
    cases hdbg
  obtain ⟨A, fixMap, m₁, -, hknown, hfixes, hfixed, hend⟩ := doRepair_eq_ok_iff.mp hrun
  obtain ⟨hwf₁, hkept⟩ := RepairEnv.fixBugs_unmapped hwf horig hknown hfixes hbody hoff hfixed
  split_ifs at hend with hF
  · obtain ⟨changed, hpatch⟩ := hend
    exact patchMemoryPrimitives_frame hwf₁ hpatch hkept (hprim hF)
  · rw [hend, hkept]

end NoDebug

/-! ### From the log to the repaired program -/

section Same

variable {t t' : List TraceEvent}

lemma SameEvent.ops_eq {te te' : TraceEvent} (h : SameEvent te te') : te'.ops = te.ops := by
  rw [TraceEvent.ops, TraceEvent.ops, h.type, h.addresses]

/-- What an event gives, if it gives the same for the same events. -/
lemma elim_congr (h : List.Forall₂ SameEvent t t') {β : Type*} {g : TraceEvent → List β}
    (hg : ∀ te te', SameEvent te te' → g te' = g te) (k : ℕ) :
    (t'[k]?).elim [] g = (t[k]?).elim [] g := by
  induction h generalizing k with
  | nil => rfl
  | cons hte _ ih =>
      cases k with
      | zero => exact hg _ _ hte
      | succ k => exact ih k

lemma repairedOps_congr (h : List.Forall₂ SameEvent t t') (d : Diagnosis) {b : ℕ}
    (hb : b ≤ t.length) : repairedOps d (t'.take b) = repairedOps d (t.take b) := by
  rw [repairedOps_eq_flatMap hb, repairedOps_eq_flatMap (h.length_eq ▸ hb)]
  refine List.flatMap_congr fun k _ => elim_congr h (fun te te' hte => ?_) k
  rw [hte.ops_eq, repairAfter, repairAfter, hte.addresses]

lemma executedOps_congr (h : List.Forall₂ SameEvent t t') (m : Module) (steps : List Step) :
    executedOps m t' steps = executedOps m t steps := by
  refine List.flatMap_congr fun s _ => ?_
  have hops : s.ops t' = s.ops t := by
    rw [Step.ops, Step.ops]
    cases s.event with
    | none => rfl
    | some k => exact elim_congr h (fun te te' hte => hte.ops_eq) k
  have hranges : s.ranges t' = s.ranges t := by
    rw [Step.ranges, Step.ranges]
    cases s.event with
    | none => rfl
    | some k => exact elim_congr h (fun te te' hte => hte.addresses) k
  rw [hops, hranges]

end Same

section Log

open ParseTrace

variable [LinearOrder FixLoc] {P : PmBugFixerPass} {F : Flags} {m' : Module} {modified : Bool}

/-- A run that ends well has diagnosed every bug. -/
lemma RepairEnv.exists_diagnose {R : RepairEnv} {A : AliasInfo} {fixMap : FixMap}
    (hfixes : R.findFixes F A = some fixMap) {b : ℕ} {te : TraceEvent} (hbug : b ∈ R.bugs)
    (hte : R.trace[b]? = some te) (htype : te.type = .ASSERT_PERSISTED) :
    ∃ d, diagnose R.clSz R.trace te b = some d := by
  obtain ⟨filled, hbugs, -⟩ := findFixes_cases hfixes
  obtain ⟨fm, fm', hround⟩ := ForLoop.exists_round hbug hbugs
  obtain ⟨r, hr, -⟩ := Option.map_eq_some_iff.mp hround
  rw [computeAndAddFix, hte] at hr
  dsimp only at hr
  split at hr
  · cases hr
  · rw [htype] at hr
    dsimp only at hr
    split at hr
    · cases hr
    · rw [handleAssertPersisted] at hr
      split at hr
      · cases hr
      · rename_i d hd
        exact ⟨d, hd⟩

/-- The run comes to the fixer `R`, which finds the fixes `fixMap`. -/
def PmBugFixerPass.Fixes (P : PmBugFixerPass) (F : Flags) (R : RepairEnv) (fixMap : FixMap) :
    Prop :=
  ∃ fixLocMap ti immutableFns A, createMappings P.hash P.buckets P.dbg = some fixLocMap ∧
    build P.scalars (P.resolveEnv fixLocMap) P.trace_info_doc = some ti ∧
    P.immutableFns = some immutableFns ∧ R = P.repairEnv fixLocMap ti immutableFns ∧
    R.construct F = some A ∧ R.findFixes F A = some fixMap

/-- **From the log to durable data**: of a log in the address space, the scripts write a trace. In a
run of the pass on the report of it, every persistence bug of the trace is diagnosed, as in the
trace that was written; where all bytes of the range are flushed before the bug, or stored to after
the last fence and flush, or fenced off, an execution of the repaired program that gives the events
of the trace up to the bug, and in which the fixes of the diagnosis have not been raised, makes
every byte of the range durable that it stores to. -/
theorem parsedLog_durable {U : Unicode} {lines : List Text} {tes : List Event}
    {arb : IntervalTree TraceEvent → IntervalTree TraceEvent} (harb : ∀ l, (arb l).Perm l)
    (hlog : parsePmemcheck U lines = some tes) (hspace : ∀ te ∈ tes, te.InSpace)
    (hlen : tes.length < 2 ^ 64) {t : List TraceEvent}
    (hopt : BugReport.optimize arb (tes.map Event.record) = some t)
    (hdoc : P.trace_info_doc = report .GENERIC t) (hwf : P.dbg.module.WF)
    (horig : P.dbg.module.Original) (h : P.runOnModule F = .ok (m', modified)) {b : ℕ}
    {te : TraceEvent} (hte : t[b]? = some te) (htype : te.type = .ASSERT_PERSISTED) :
    ∃ R fixMap d, P.Fixes F R fixMap ∧ diagnose P.clSz t te b = some d ∧
      ∀ steps, FollowsTrace R m' b steps →
        (∀ s ∈ steps, ∀ k ∈ d.opIndices, s.event = some k → StoresUnraised R fixMap s) →
        ∀ range ∈ te.addresses, AllFlushed range (t.take b) ∨ CoveredAfresh range (t.take b) ∨
          FencedOff range (t.take b) →
            ∀ x ∈ range, Written x (TraceEvent.opsOf (t.take b)) →
              Durable x (executedOps m' t steps) := by
  obtain ⟨t₀, hopt₀, -, hevents⟩ := optimize_record harb hlog hspace hlen
  obtain rfl := Option.some.inj (hopt.symm.trans hopt₀)
  obtain ⟨fixLocMap, ti, hmap, hbuild, hcases⟩ := PmBugFixerPass.runOnModule_cases h
  have hread := hbuild
  rw [hdoc] at hread
  obtain ⟨hsource, hsame⟩ :=
    same_of_build (fun e he => (hevents e he).1) (fun e he => (hevents e he).2.1) hread
  have hb : b < t.length := (List.getElem?_eq_some_iff.mp hte).1
  -- the event that is read has the type, the timestamp and the ranges of the one written
  obtain ⟨te', hte', hsame'⟩ : ∃ te', ti.events[b]? = some te' ∧ SameEvent te te' := by
    have hb' : b < ti.events.length := hsame.length_eq ▸ hb
    obtain ⟨te₀, hte₀, heq⟩ := exists_same hsame (List.getElem?_eq_getElem hb')
    obtain rfl := Option.some.inj (hte.symm.trans hte₀)
    exact ⟨_, List.getElem?_eq_getElem hb', heq⟩
  have hbug : b ∈ ti.bugs := by
    rw [ti.bugs_eq, mem_bugIndices_iff]
    refine ⟨te', hte', ?_⟩
    rw [hsame'.isBug, (hevents te (List.mem_of_getElem? hte)).2.2, BugReport.isBug, htype]
    rfl
  have htype' : te'.type = .ASSERT_PERSISTED := hsame'.type.trans htype
  obtain ⟨hnil, -⟩ | ⟨immutableFns, himm, -, hrun⟩ := hcases
  · rw [hnil] at hte'
    cases hte'
  obtain ⟨A, fixMap, m₁, hA, -, hfixes, -, -⟩ := doRepair_eq_ok_iff.mp hrun
  obtain ⟨d, hd⟩ := RepairEnv.exists_diagnose hfixes hbug hte' htype'
  have hdiag := (diagnose_congr hsame hsame').symm.trans hd
  refine ⟨_, fixMap, d, ⟨fixLocMap, ti, immutableFns, A, hmap, hbuild, himm, rfl, hA, hfixes⟩,
    hdiag, ?_⟩
  intro steps hsteps hstores range hrange hsound x hx hwritten
  have hwell : ∀ e ∈ t, e.WellFormed := fun e he => (hevents e he).2.1
  have hdurable := repairDurable_of_take hwell hte htype hrange hdiag hsound x hx hwritten
  rw [← repairedOps_congr hsame d hb.le] at hdurable
  rw [← executedOps_congr hsame]
  exact hdurable.weave
    (weave_repairedOps hwf horig hsource hrun hA hfixes hbug hte' htype' hd hsteps hstores x)

end Log

/-! ### A store that is not flushed -/

/-- The log of a store in `append`, which is called from `main`. -/
def unflushedLog : List ParseTrace.Text :=
  ["START|STORE;0x1000;0x0;0x8;0x4005BD: append (log.c:12)\n".toList, "|STOP\n".toList] ++
    ParseTrace.sectionLines false 7 [ParseTrace.bugIn "append"]

/-- The trace that is written of it. -/
def unflushedTrace : List TraceEvent :=
  [⟨.STORE, 0, [⟨4096, 8⟩], ⟨"append", "log.c", 12⟩, false, [⟨"append", "log.c", 12⟩], none⟩,
    ⟨.ASSERT_PERSISTED, 1, [⟨4096, 8⟩], ⟨"append", "log.c", 12⟩, true,
      [⟨"append", "log.c", 12⟩, ⟨"main", "log.c", 30⟩], some "DIRTY"⟩]

/-- The program; `_start` has no debug information. -/
def appendProgram : DebugModule where
  module :=
    ⟨[(FnId.named "append", ⟨[[
          ⟨InstId.orig 0, .store (.constant "1" (.other "i64"))
            (.arg (FnId.named "append") 0 (.other "i64*"))⟩,
          ⟨InstId.orig 1, .other "ret" []⟩]]⟩),
      (FnId.named "main", ⟨[[
          ⟨InstId.orig 2, .call (.function (FnId.named "append"))
            [.arg (FnId.named "main") 0 (.other "i64*")]⟩,
          ⟨InstId.orig 3, .other "ret" []⟩]]⟩),
      (FnId.named "_start", ⟨[[
          ⟨InstId.orig 4, .call (.function (FnId.named "main"))
            [.constant "null" (.other "i64*")]⟩,
          ⟨InstId.orig 5, .other "unreachable" []⟩]]⟩)], 0⟩
  dbg i :=
    if i = InstId.orig 0 then some ⟨12, "log.c"⟩
    else if i = InstId.orig 2 then some ⟨30, "log.c"⟩
    else none

def appendPass : PmBugFixerPass where
  dbg := appendProgram
  subprogramFile f := if f = FnId.named "_start" then none else some "log.c"
  trace_info_doc := report .GENERIC unflushedTrace
  Immutables := []
  scalars := .decimal
  hash := sumHash
  buckets := frontBuckets
  demangle name := name
  demangle_primitive _ _ := rfl
  clSz := 64
  getPointsToSet _ := some []
  traceAA := ⟨fun _ => some [], some, some⟩
  reducedAA := ⟨fun _ => some [], some, some⟩

def appendLocs : HashTable LocationInfo (List FixLoc) :=
  [(⟨"append", "log.c", 12⟩, [FixLoc.single (InstId.orig 0)]),
    (⟨"main", "log.c", 30⟩, [FixLoc.single (InstId.orig 2)])]

lemma appendProgram_wf : appendProgram.module.WF := by
  refine ⟨by decide, by decide, ?_, ?_, by decide⟩
  · simp [appendProgram, FnId.Below, FnId.named]
  · simp [appendProgram, Module.insts, Function.insts, InstId.Below, InstId.orig]

lemma appendProgram_original : appendProgram.module.Original := ⟨by decide, by decide, by decide⟩

/-- The log is in the address space, and nothing is left out of its trace. -/
lemma unflushedLog_trace : ∃ tes, ParseTrace.parsePmemcheck ParseTrace.asciiOnly unflushedLog =
      some tes ∧ (∀ te ∈ tes, te.InSpace) ∧ tes.length < 2 ^ 64 ∧
      BugReport.optimize id (tes.map ParseTrace.Event.record) = some unflushedTrace := by
  have h : (ParseTrace.parsePmemcheck ParseTrace.asciiOnly unflushedLog).map (fun tes =>
      decide ((∀ te ∈ tes, te.InSpace) ∧ tes.length = 2 ∧
        tes.map ParseTrace.Event.record = unflushedTrace)) = some true := by decide
  obtain ⟨tes, htes, hfacts⟩ := Option.map_eq_some_iff.mp h
  obtain ⟨hspace, hlen, htrace⟩ := of_decide_eq_true hfacts
  refine ⟨tes, htes, hspace, by rw [hlen]; decide, ?_⟩
  rw [htrace]
  decide

/-- What is read of it; the events have no state. -/
def unflushedInfo : TraceInfo where
  source := .GENERIC
  events := unflushedTrace.map TraceEvent.read
  bugs := [1]
  bugs_eq := by decide

lemma build_unflushed : build .decimal (appendPass.resolveEnv appendLocs)
    (report .GENERIC unflushedTrace) = some unflushedInfo := by
  obtain ⟨tes, htes, hspace, hlen, hopt⟩ := unflushedLog_trace
  obtain ⟨t, hopt', -, hevents⟩ :=
    optimize_record (fun l => List.Perm.refl l) htes hspace hlen
  obtain rfl := Option.some.inj (hopt.symm.trans hopt')
  rw [build_report_of_fits fun te hte => (hevents te hte).1, resolve_eq_some_iff]
  exact ⟨rfl, rfl⟩

lemma createMappings_append :
    createMappings sumHash frontBuckets appendProgram = some appendLocs := rfl

/-- Only `_start` is immutable. -/
lemma immutableFns_append : appendPass.immutableFns = some [FnId.named "_start"] := by decide

/-- What the fixer is constructed with. -/
def appendRepair : RepairEnv :=
  appendPass.repairEnv appendLocs unflushedInfo [FnId.named "_start"]

lemma runOnModule_append [LinearOrder FixLoc] :
    appendPass.runOnModule noFlags = appendRepair.doRepair noFlags :=
  PmBugFixerPass.runOnModule_eq createMappings_append build_unflushed immutableFns_append rfl rfl

/-- The store is executed, and nothing else that gives an event. -/
def appendSteps : List Step :=
  [⟨⟨InstId.orig 0, .store (.constant "1" (.other "i64"))
    (.arg (FnId.named "append") 0 (.other "i64*"))⟩, some 0⟩]

/-- The run changes `append`, and says so. -/
theorem runOnModule_modified_append :
    letI := FixLoc.compare InstId.address InstId.address_injective
    ∃ m', appendPass.runOnModule noFlags = .ok (m', true) ∧
      ∃ f, (appendProgram.module.lookup f).isSome = true ∧
        m'.lookup f ≠ appendProgram.module.lookup f := by
  let := FixLoc.compare InstId.address InstId.address_injective
  have hrun : ∃ m', appendRepair.doRepair noFlags = .ok (m', true) := ⟨_, rfl⟩
  obtain ⟨m', hrun⟩ := hrun
  rw [← runOnModule_append] at hrun
  have hbodies : ∀ p ∈ appendProgram.module.funs, p.2.isDeclaration = false := by decide
  obtain ⟨m₁, -, hflag, heq | ⟨hraise, -⟩⟩ := PmBugFixerPass.runOnModule_modified appendProgram_wf
    appendProgram_original (fun _ _ hbody => hbodies _ (Module.mem_of_lookup hbody)) hrun
  · exact ⟨m', hrun, heq ▸ hflag.mp rfl⟩
  · cases hraise

theorem runOnModule_noDebug_append :
    letI := FixLoc.compare InstId.address InstId.address_injective
    ∃ m', appendPass.runOnModule noFlags = .ok (m', true) ∧
      m'.lookup (FnId.named "_start") = appendProgram.module.lookup (FnId.named "_start") := by
  let := FixLoc.compare InstId.address InstId.address_injective
  have hrun : ∃ m', appendRepair.doRepair noFlags = .ok (m', true) := ⟨_, rfl⟩
  obtain ⟨m', hrun⟩ := hrun
  rw [← runOnModule_append] at hrun
  exact ⟨m', hrun, PmBugFixerPass.runOnModule_noDebug appendProgram_wf appendProgram_original hrun
    rfl (by decide) fun hraise => by cases hraise⟩

/-- The byte range of the bug is durable when the store has been executed. -/
theorem parsedLog_durable_unflushed :
    letI := FixLoc.compare InstId.address InstId.address_injective
    ∃ m', appendPass.runOnModule noFlags = .ok (m', true) ∧
      ∀ x ∈ (⟨4096, 8⟩ : AddressInfo), Durable x (executedOps m' unflushedTrace appendSteps) := by
  let := FixLoc.compare InstId.address InstId.address_injective
  have hrun : ∃ m', appendRepair.doRepair noFlags = .ok (m', true) ∧
      ∀ s ∈ appendSteps, s.inst ∈ appendRepair.module.insts ∧ s.inst ∈ m'.insts :=
    ⟨_, rfl, by decide⟩
  obtain ⟨m', hrun, hinsts⟩ := hrun
  rw [← runOnModule_append] at hrun
  obtain ⟨tes, htes, hspace, hlen, hopt⟩ := unflushedLog_trace
  obtain ⟨R, fixMap, d, ⟨fixLocMap, ti, fns, A, hmap, hti, himm, rfl, hA, hfixes⟩, hd, hdurable⟩ :=
    parsedLog_durable (b := 1) (fun l => List.Perm.refl l) htes hspace hlen hopt rfl
      appendProgram_wf appendProgram_original hrun rfl rfl
  obtain rfl := Option.some.inj (createMappings_append.symm.trans hmap)
  obtain rfl := Option.some.inj (build_unflushed.symm.trans hti)
  obtain rfl := Option.some.inj (immutableFns_append.symm.trans himm)
  obtain rfl : AliasInfo.empty = A := Option.some.inj hA
  -- the diagnosis is evaluated, the rest is what the run is known to do
  have hdiag : diagnose 64 unflushedTrace
      ⟨.ASSERT_PERSISTED, 1, [⟨4096, 8⟩], ⟨"append", "log.c", 12⟩, true,
        [⟨"append", "log.c", 12⟩, ⟨"main", "log.c", 30⟩], some "DIRTY"⟩ 1 =
          some ⟨true, true, [0]⟩ := rfl
  obtain rfl := Option.some.inj (hdiag.symm.trans hd)
  have hfix : ∃ fm desc, appendRepair.findFixes noFlags AliasInfo.empty = some fm ∧
      fm.find (FixLoc.single (InstId.orig 0)) = some desc ∧ desc.type.isPST = false :=
    ⟨_, _, rfl, rfl, rfl⟩
  obtain ⟨fm, desc, hfm, hfind, hprim⟩ := hfix
  obtain rfl := Option.some.inj (hfm.symm.trans hfixes)
  refine ⟨m', hrun, fun x hx => hdurable appendSteps ⟨hinsts, rfl⟩ (fun s hs k _ _ => ?_)
    ⟨4096, 8⟩ (List.mem_singleton_self _) (.inr (.inl ⟨[], _, rfl, ?_, fun y hy => ?_⟩)) x hx
    ⟨.store ⟨4096, 8⟩, List.mem_singleton_self _, hx⟩⟩
  · obtain rfl := List.mem_singleton.mp hs
    exact ⟨0, _, _, _, desc, rfl, rfl, rfl,
      ⟨_, List.mem_singleton_self _, _, rfl, List.mem_singleton_self _⟩, rfl, hfind, hprim⟩
  · exact List.forall_mem_singleton.mpr ⟨by decide, rfl⟩
  · exact ⟨_, List.mem_cons_self, rfl, _, List.mem_cons_self, hy⟩

end Hippocrates
