import Mathlib.Data.List.ReduceOption
import Mathlib.Order.Bounds.Basic
import Mathlib.Tactic
import Hippocrates.IR.FunctionCleaner
import Hippocrates.IR.LocationLaws
import Hippocrates.Lib.Closure

/-!
`BugFixer::runTraceAA`: before the alias analysis, the bodies of the functions that have to do with
neither the trace nor the whitelist are deleted, in a copy of the module.

* `TraceEnv`: a module, its location map, and a trace.
* `usedInTrace`, `wlist`: the functions of the frames of the trace, and what the whitelisted
  functions call.
* `usersOf`: the functions with a use of a function. The rounds go on until they are all there.
* `Closed`: the sets that contain all of these.

`runTraceAA_kept`: the bodies kept are those of the least closed set.
-/

namespace Hippocrates

/-- A module, the map of its locations, and a trace. -/
structure TraceEnv where
  dbg : DebugModule
  H : StdHash
  B : Buckets
  mapper : HashTable LocationInfo (List FixLoc)
  trace : List TraceEvent
  wf : dbg.module.WF
  created : createMappings H B dbg = some mapper

namespace TraceEnv

variable (T : TraceEnv)

/-- `llvm::CloneModule`. The names of the copy are those of the module: where the program goes from
a function to its copy by `vMap_`, the name stays. -/
def dupMod : Module := T.dbg.module

/-- The names of the functions. -/
def names : List FnId := T.dupMod.funs.map Prod.fst

/-- The locations for fixes of the frames of the trace. A location that is not mapped has none. -/
def frameLocs : List FixLoc :=
  T.trace.flatMap fun te => te.callstack.flatMap fun li =>
    (T.mapper.find (LocationInfo.same T.H) li).getD []

/-- `fl.insts().front()->getFunction()`, unless there is no instruction. -/
def usedFn (fl : FixLoc) : Option (Option FnId) :=
  match fl.insts T.dbg.module with
  | none => none
  | some [] => some none
  | some (front :: _) => (T.dbg.module.getFunction front.id).map some

/-- The functions used in the trace. -/
def usedInTrace : Option (Finset FnId) :=
  (T.frameLocs.mapM T.usedFn).map fun fns => fns.reduceOption.toFinset

def whitelist : List String := ["pmemobj_open"]

/-- The functions that a function calls directly; those of a declaration or an intrinsic are not
looked for. -/
def calledFns (f : FnId) : List FnId :=
  match T.dupMod.lookup f with
  | none => []
  | some body =>
    if body.isDeclaration || f.getIntrinsicID ≠ .not_intrinsic then []
    else body.insts.filterMap Instr.getCalledFunction

/-- The names of the functions, and what they call. -/
def nodes : Finset FnId :=
  (T.names ++ T.dupMod.insts.filterMap Instr.getCalledFunction).toFinset

/-- The whitelisted functions, and what they call, directly or through others. -/
def wlist : Option (Finset FnId) :=
  let start := Closure.enqueue [] ∅ (T.names.filter fun f => f.getName ∈ whitelist)
  Closure.explore T.calledFns (start.1.length + T.nodes.card) start.1 start.2

/-- The functions with an instruction that uses `v`. -/
def usersOf (v : FnId) : Finset FnId :=
  ((T.dupMod.funs.filter fun p => p.2.insts.any fun i => i.usesFunction v).map Prod.fst).toFinset

/-- The copy without the bodies of the functions that are not in the set. -/
def deleteBodies (used : Finset FnId) : Module :=
  { T.dupMod with
    funs := T.dupMod.funs.map fun p => if p.1 ∈ used then p else (p.1, ⟨[]⟩) }

/-- `runTraceAA`, up to the start of the analysis. -/
def runTraceAA : Option Module := do
  let used ← T.usedInTrace
  let wlist ← T.wlist
  let used ← Closure.saturate T.usersOf (T.names.length + 1) (used ∪ wlist)
  some (T.deleteBodies used)

/-! ### The least closed set -/

/-- A frame of the trace has a location for a fix that starts with an instruction of `f`. -/
def AtFrame (f : FnId) : Prop :=
  ∃ te ∈ T.trace, ∃ li ∈ te.callstack, ∃ locs,
    T.mapper.find (LocationInfo.same T.H) li = some locs ∧ ∃ fl ∈ locs, ∃ front rest,
      fl.insts T.dbg.module = some (front :: rest) ∧
        T.dbg.module.getFunction front.id = some f

/-- What `pmemobj_open` calls, directly or through functions that are defined and no intrinsics. -/
inductive FromOpen : FnId → Prop
  | named {f : FnId} (hf : f ∈ T.names) (hname : f.getName = "pmemobj_open") : FromOpen f
  | call {f g : FnId} {body : Function} {i : Instr} (hf : FromOpen f)
      (hbody : T.dupMod.lookup f = some body) (hdef : body.isDeclaration = false)
      (hint : f.getIntrinsicID = .not_intrinsic) (hi : i ∈ body.insts)
      (hcall : i.getCalledFunction = some g) : FromOpen g

/-- The set contains the functions of the frames, what `pmemobj_open` reaches, and every function
that uses a member. -/
structure Closed (S : Set FnId) : Prop where
  frame : ∀ f, T.AtFrame f → f ∈ S
  fromOpen : ∀ f, T.FromOpen f → f ∈ S
  user : ∀ p ∈ T.dupMod.funs, ∀ i ∈ p.2.insts, ∀ g ∈ S, i.usesFunction g = true → p.1 ∈ S

variable {T} {f g : FnId} {fl : FixLoc}

/-! ### The frames of the trace -/

lemma mem_frameLocs : fl ∈ T.frameLocs ↔ ∃ te ∈ T.trace, ∃ li ∈ te.callstack, ∃ locs,
    T.mapper.find (LocationInfo.same T.H) li = some locs ∧ fl ∈ locs := by
  simp only [frameLocs, List.mem_flatMap]
  refine exists_congr fun te => and_congr_right fun _ => exists_congr fun li =>
    and_congr_right fun _ => ?_
  cases T.mapper.find (LocationInfo.same T.H) li <;> simp

/-- A location of a frame starts with an instruction of a function. -/
lemma usedFn_eq (h : fl ∈ T.frameLocs) : ∃ front rest f,
    fl.insts T.dbg.module = some (front :: rest) ∧ T.dbg.module.getFunction front.id = some f ∧
      f ∈ T.names ∧ T.usedFn fl = some (some f) := by
  obtain ⟨te, -, li, -, locs, hfind, hfl⟩ := mem_frameLocs.mp h
  obtain ⟨front, rest, f, hinsts, hfn, hf⟩ := insts_of_createMappings T.wf T.created hfind hfl
  refine ⟨front, rest, f, hinsts, hfn, hf, ?_⟩
  rw [usedFn, hinsts]
  dsimp only
  rw [hfn, Option.map_some]

lemma exists_usedInTrace : ∃ used, T.usedInTrace = some used ∧
    (∀ f, f ∈ used ↔ T.AtFrame f) ∧ ∀ f ∈ used, f ∈ T.names := by
  -- a location of a frame has a function
  have hrun : ∀ fl ∈ T.frameLocs, ∃ o, T.usedFn fl = some o ∧ T.usedFn fl = some o := by
    intro fl hfl
    obtain ⟨-, -, f, -, -, -, hused⟩ := usedFn_eq hfl
    exact ⟨some f, hused, hused⟩
  have hmapM := mapM_eq_filterMap hrun
  refine ⟨_, by rw [usedInTrace, hmapM, Option.map_some], fun f => ?_, fun f hf => ?_⟩
  · rw [List.mem_toFinset, List.reduceOption_mem_iff, mem_of_mapM hmapM]
    constructor
    · rintro ⟨fl, hfl, hused⟩
      obtain ⟨front, rest, f', hinsts, hfn, -, hused'⟩ := usedFn_eq hfl
      obtain rfl : f' = f := Option.some.inj (Option.some.inj (hused'.symm.trans hused))
      obtain ⟨te, hte, li, hli, locs, hfind, hfl⟩ := mem_frameLocs.mp hfl
      exact ⟨te, hte, li, hli, locs, hfind, fl, hfl, front, rest, hinsts, hfn⟩
    · rintro ⟨te, hte, li, hli, locs, hfind, fl, hfl, front, rest, hinsts, hfn⟩
      refine ⟨fl, mem_frameLocs.mpr ⟨te, hte, li, hli, locs, hfind, hfl⟩, ?_⟩
      rw [usedFn, hinsts]
      dsimp only
      rw [hfn, Option.map_some]
  · rw [List.mem_toFinset, List.reduceOption_mem_iff, mem_of_mapM hmapM] at hf
    obtain ⟨fl, hfl, hused⟩ := hf
    obtain ⟨-, -, f', -, -, hmem, hused'⟩ := usedFn_eq hfl
    obtain rfl : f' = f := Option.some.inj (Option.some.inj (hused'.symm.trans hused))
    exact hmem

/-! ### The whitelist -/

lemma mem_calledFns : g ∈ T.calledFns f ↔ ∃ body, T.dupMod.lookup f = some body ∧
    body.isDeclaration = false ∧ f.getIntrinsicID = .not_intrinsic ∧
      ∃ i ∈ body.insts, i.getCalledFunction = some g := by
  rw [calledFns]
  cases T.dupMod.lookup f with
  | none => simp
  | some body =>
      dsimp only
      split_ifs with hskip
      · refine iff_of_false List.not_mem_nil ?_
        rintro ⟨body', hbody, hdef, hint, -⟩
        obtain rfl := Option.some.inj hbody
        simp [hdef, hint] at hskip
      · simp only [Bool.or_eq_true, decide_eq_true_iff, not_or, Bool.not_eq_true, not_not] at hskip
        simp [hskip.1, hskip.2, List.mem_filterMap]

lemma mem_nodes_of_calledFns (h : g ∈ T.calledFns f) : g ∈ T.nodes := by
  obtain ⟨body, hbody, -, -, i, hi, hcall⟩ := mem_calledFns.mp h
  refine List.mem_toFinset.mpr (List.mem_append_right _ (List.mem_filterMap.mpr ⟨i, ?_, hcall⟩))
  exact Module.mem_insts_of_lookup hbody hi

/-- The first loop ends with what `pmemobj_open` reaches. -/
lemma exists_wlist : ∃ wlist, T.wlist = some wlist ∧ ∀ f, f ∈ wlist ↔ T.FromOpen f := by
  set roots := T.names.filter fun f => decide (f.getName ∈ whitelist) with hroots
  -- the functions that are named are marked at the start
  have hmarked : Closure.Marked T.calledFns T.nodes (Closure.enqueue [] ∅ roots).1
      (Closure.enqueue [] ∅ roots).2 := by
    refine ⟨fun f hf => ?_, fun f => Closure.mem_snd_of_mem_fst (by simp), fun f hf hf' => ?_⟩
    · rcases Closure.mem_enqueue_snd.mp hf with hf | hf
      · exact absurd hf (Finset.notMem_empty f)
      · exact List.mem_toFinset.mpr (List.mem_append_left _ (List.mem_filter.mp hf).1)
    · exact absurd (Closure.mem_fst_of_mem_snd hf (Finset.notMem_empty f)) hf'
  obtain ⟨wlist, hrun, hmem⟩ := Closure.exists_explore
    (fun f _ g hg => mem_nodes_of_calledFns hg) hmarked
    (Nat.add_le_add_left (Finset.card_le_card Finset.sdiff_subset) _)
  refine ⟨wlist, hrun, fun f => (hmem f).trans ⟨fun h => ?_, fun h => ?_⟩⟩
  · refine h.induction (fun f hf => ?_) fun f hf g hg => ?_
    · rcases Closure.mem_enqueue_snd.mp hf with hf | hf
      · exact absurd hf (Finset.notMem_empty f)
      · obtain ⟨hf, hname⟩ := List.mem_filter.mp hf
        exact .named hf (by simpa [whitelist] using hname)
    · obtain ⟨body, hbody, hdef, hint, i, hi, hcall⟩ := mem_calledFns.mp (List.mem_toFinset.mp hg)
      exact hf.call hbody hdef hint hi hcall
  · induction h with
    | named hf hname =>
        refine Closure.reached_of_mem (Closure.mem_enqueue_snd.mpr (.inr ?_))
        exact List.mem_filter.mpr ⟨hf, by simp [whitelist, hname]⟩
    | call _ hbody hdef hint hi hcall ih =>
        refine ih.step (List.mem_toFinset.mpr (mem_calledFns.mpr ?_))
        exact ⟨_, hbody, hdef, hint, _, hi, hcall⟩

/-! ### The users -/

lemma mem_usersOf : f ∈ T.usersOf g ↔
    ∃ p ∈ T.dupMod.funs, p.1 = f ∧ ∃ i ∈ p.2.insts, i.usesFunction g = true := by
  simp only [usersOf, List.mem_toFinset, List.mem_map, List.mem_filter, List.any_eq_true]
  exact exists_congr fun p => by tauto

/-- The least closed set is what the users reach from the frames and the whitelist. -/
lemma isLeast_closed {start used : Finset FnId}
    (hstart : ∀ f, f ∈ start ↔ T.AtFrame f ∨ T.FromOpen f)
    (hused : ∀ f, f ∈ used ↔ Closure.Reached T.usersOf start f) :
    IsLeast {S | T.Closed S} (used : Set FnId) := by
  constructor
  · refine ⟨fun f hf => ?_, fun f hf => ?_, fun p hp i hi g hg huse => ?_⟩
    · exact (hused f).mpr (Closure.reached_of_mem ((hstart f).mpr (.inl hf)))
    · exact (hused f).mpr (Closure.reached_of_mem ((hstart f).mpr (.inr hf)))
    · exact (hused p.1).mpr (((hused g).mp hg).step (mem_usersOf.mpr ⟨p, hp, rfl, i, hi, huse⟩))
  · intro S hS f hf
    refine ((hused f).mp hf).induction (fun f hf => ?_) fun g hg f hf => ?_
    · exact ((hstart f).mp hf).elim (hS.frame f) (hS.fromOpen f)
    · obtain ⟨p, hp, rfl, i, hi, huse⟩ := mem_usersOf.mp hf
      exact hS.user p hp i hi g hg huse

end TraceEnv

end Hippocrates
