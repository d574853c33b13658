import Mathlib.Tactic
import Hippocrates.Fix.Planned
import Hippocrates.Fix.PmValues
import Hippocrates.IR.LocationLaws
import Hippocrates.Lib.Memo

/-!
A run of `BugFixer` with `heuristicCache_`, the hash table of the aliases of frames. Its keys are
compared with `operator==`, which lets the file name of one location be a part of the other's.

* `cachedScores`, `cachedIdx`: the heuristic, with the table that the frames before have left.
* `RaisePolicy`, and the functions of its namespace: the raises of a run, with the choice of the
  frame as a program over a state. `Chooses`: the choice is that of the raise without a state.
* `doRepairCached`: the run, from an empty table.

`doRepair_cached`: where the file names fit, it is the run that computes all aliases anew.
-/

namespace Hippocrates

open FixType

/-- `heuristicCache_`. -/
abbrev HeuristicTable := HashTable LocationInfo AliasSets

/-! ### The heuristic -/

section Heuristic

variable (hash : StdHash) (arb : HeuristicTable → HeuristicTable) (H : HeuristicEnv)

/-- The scores of the frames. -/
def cachedScores : List LocationInfo → StateT HeuristicTable Option (List ℤ)
  | [] => pure []
  | loc :: stack =>
    if !(H.mapper loc).isSome then do
      let scores ← cachedScores stack
      pure (INT64_MIN :: scores)
    else do
      let a ← Memo.memo (LocationInfo.same hash) arb (collectAliases H) loc
      let scores ← cachedScores stack
      pure (a.score :: scores)

/-- The frame the heuristic selects. -/
def cachedIdx (stack : List LocationInfo) : StateT HeuristicTable Option ℕ := do
  let scores ← cachedScores hash arb H stack
  let maxIdx := selectIdx scores 0 (-1) INT64_MIN
  if maxIdx < 0 then failure -- "didn't do anything!"
  else pure maxIdx.toNat

variable {hash arb H}

/-- The scores are those of an empty cache. -/
lemma computes_cachedScores {S : Set LocationInfo} (harb : ∀ t, (arb t).Perm t)
    (hsame : ∀ a ∈ S, ∀ b ∈ S, LocationInfo.same hash a b = true → H.mapper a = H.mapper b)
    {stack : List LocationInfo} (hstack : ∀ li ∈ stack, li ∈ S) {cache : HeuristicCache}
    (hcache : Consistent (collectAliases H) cache) :
    Memo.Computes (Memo.Consistent (collectAliases H) S) (cachedScores hash arb H stack)
      ((scoreFrames (fun loc => (H.mapper loc).isSome) (collectAliases H) stack cache).map
        Prod.fst) := by
  -- the aliases of equal frames are equal, so that a cached entry may stand for another frame
  have hcollect : ∀ a ∈ S, ∀ b ∈ S, LocationInfo.same hash a b = true →
      collectAliases H a = collectAliases H b := by
    intro a ha b hb hab
    rw [collectAliases, collectAliases, hsame a ha b hb hab]
  induction stack generalizing cache with
  | nil => exact Memo.computes_pure []
  | cons loc stack ih =>
      obtain ⟨hloc, hstack⟩ := List.forall_mem_cons.mp hstack
      rw [cachedScores, scoreFrames]
      split_ifs
      · have hrest := (ih hstack hcache).map (List.cons INT64_MIN)
        rw [Option.map_map] at hrest
        rwa [Option.map_map]
      -- what the cache has of the frame is what would be collected
      · rw [hcache.or_eq]
        have hfirst := Memo.computes_memo harb hcollect hloc
        refine (hfirst.bind (g := fun a => ((scoreFrames (fun loc => (H.mapper loc).isSome)
          (collectAliases H) stack (Function.update cache loc (some a))).map Prod.fst).map
            (List.cons a.score)) fun a ha => ?_).congr ?_
        · exact (ih hstack (hcache.update ha)).map (List.cons a.score)
        · cases collectAliases H loc with
          | none => rfl
          | some a =>
              rw [Option.bind_some, Option.map_map, Option.map_map]
              rfl

/-- **The heuristic with the table** selects the frame that it selects without. -/
lemma computes_cachedIdx {S : Set LocationInfo} (harb : ∀ t, (arb t).Perm t)
    (hsame : ∀ a ∈ S, ∀ b ∈ S, LocationInfo.same hash a b = true → H.mapper a = H.mapper b)
    {stack : List LocationInfo} (hstack : ∀ li ∈ stack, li ∈ S) :
    Memo.Computes (Memo.Consistent (collectAliases H) S) (cachedIdx hash arb H stack)
      (H.select stack) := by
  have hnone : Consistent (collectAliases H) fun _ => none := fun loc a ha => by cases ha
  have hscores := computes_cachedScores harb hsame hstack hnone
  refine (hscores.bind (g := fun scores => if selectIdx scores 0 (-1) INT64_MIN < 0 then none
    else some (selectIdx scores 0 (-1) INT64_MIN).toNat) fun scores _ => ?_).congr ?_
  · dsimp only
    split_ifs
    · exact Memo.computes_failure
    · exact Memo.computes_pure _
  · rw [HeuristicEnv.select, heuristicIdx]
    cases scoreFrames (fun loc => (H.mapper loc).isSome) (collectAliases H) stack
        (fun _ => none) with
    | none => rfl
    | some r =>
        rw [Option.map_some, Option.bind_some]
        dsimp only
        split_ifs <;> rfl

end Heuristic

/-! ### The raises -/

/-- What the raising of fixes depends on, with a choice of the first frame that may use a state. -/
structure RaisePolicy (σ : Type) where
  env : RaiseEnv
  choose : List LocationInfo → StateT σ Option ℕ

namespace RaisePolicy

variable [LinearOrder FixLoc] {σ : Type} (P : RaisePolicy σ)

/-- `raiseFixLocation`. -/
def raiseFixLocation (fixMap : FixMap) (fl : Option FixLoc) (desc : FixDesc) :
    StateT σ Option (FixMap × Bool) :=
  if desc.dynStack = [] then failure
  else do
    let heuristicIdx ← P.choose desc.dynStack
    StateT.lift (Hippocrates.raiseFixLocation
      { P.env with heuristicIdx := fun _ => some heuristicIdx } fixMap fl desc)

/-- The fixes of one operation. -/
def fixOp (clSz : ℕ) (d : Diagnosis) (t : List TraceEvent) (acc : FixMap × Bool)
    (lastOpIndex : ℕ) : StateT σ Option (FixMap × Bool) :=
  match t[lastOpIndex]? with
  | none => failure
  | some last =>
    match P.env.mapper last.location with
    | some fixLocs =>
      if fixLocs = [] then failure
      else StateT.lift (fixLocs.foldlM (addAtLoc clSz P.env d last) acc)
    | none => do
      let r ← P.raiseFixLocation acc.1 none (indirectDesc d last)
      pure (r.1, r.2 || acc.2)

/-- `handleAssertPersisted`. -/
def handleAssertPersisted (clSz : ℕ) (t : List TraceEvent) (fixMap : FixMap) (te : TraceEvent)
    (bug_index : ℕ) : StateT σ Option (FixMap × Bool) :=
  match diagnose clSz t te bug_index with
  | none => failure
  | some d => d.opIndices.foldlM (P.fixOp clSz d t) (fixMap, false)

/-- `computeAndAddFix`. -/
def computeAndAddFix (clSz : ℕ) (t : List TraceEvent) (fixMap : FixMap) (bug_index : ℕ) :
    StateT σ Option (FixMap × Bool) :=
  match t[bug_index]? with
  | none => failure
  | some te =>
    if !te.isBug then failure -- "Can't fix a not-a-bug!"
    else
      match te.type with
      | .ASSERT_PERSISTED =>
        if te.addresses.length ≠ 1 then failure
        else P.handleAssertPersisted clSz t fixMap te bug_index
      | _ => pure (fixMap, false)

/-- The loop of the optimization. -/
def optimizeLoop : ℕ → Option FixLoc → OptState → StateT σ Option OptState
  | 0, _, _ => failure
  | n + 1, cursor, s =>
    match s.fixMap.after cursor with
    | none => pure s
    | some (fl, desc) =>
      if !desc.type.isPrimative then optimizeLoop n (some fl) s
      else do
        let r ← P.raiseFixLocation s.fixMap (some fl) desc
        optimizeLoop n (some fl) ⟨r.1, if r.2 then s.moved ++ [fl] else s.moved, s.res || r.2⟩

/-- `runFixMapOptimization`. -/
def runFixMapOptimization (fixMap : FixMap) : StateT σ Option (FixMap × Bool) := do
  let s ← P.optimizeLoop (2 * fixMap.entries.length + 1) none ⟨fixMap, [], false⟩
  StateT.lift ((eraseMoved s.fixMap s.moved).map fun fm => (fm, s.res))

/-- The fixes of all bugs, raised if that is enabled. -/
def findFixes (clSz : ℕ) (t : List TraceEvent) (bugs : List ℕ) (disableRaising : Bool) :
    StateT σ Option FixMap := do
  let fixMap ← bugs.foldlM (fun fixMap bug =>
    Prod.fst <$> P.computeAndAddFix clSz t fixMap bug) OrderedMap.empty
  if disableRaising then pure fixMap else Prod.fst <$> P.runFixMapOptimization fixMap

/-- The choice is that of the raise without a state, for the stacks of the operations. -/
def Chooses (I : σ → Prop) (t : List TraceEvent) : Prop :=
  ∀ te ∈ t, Memo.Computes I (P.choose te.callstack) (P.env.heuristicIdx te.callstack)

section Rules

variable {P} {I : σ → Prop} {t : List TraceEvent} {clSz : ℕ}

/-- A raise depends on the choice for its own stack only. -/
lemma raiseFixLocation_bind (E : RaiseEnv) (fixMap : FixMap) (fl : Option FixLoc)
    {desc : FixDesc} (hne : desc.dynStack ≠ []) :
    Hippocrates.raiseFixLocation E fixMap fl desc = (E.heuristicIdx desc.dynStack).bind fun h =>
      Hippocrates.raiseFixLocation { E with heuristicIdx := fun _ => some h } fixMap fl desc := by
  have hwalk : ∀ (h : ℕ) (b : Bool) (frames : List LocationInfo) (w : WalkState),
      raiseWalk { E with heuristicIdx := fun _ => some h } b frames w = raiseWalk E b frames w := by
    intro h b frames
    induction frames with
    | nil => exact fun w => rfl
    | cons li frames ih =>
        intro w
        rw [raiseWalk, raiseWalk]
        simp only [ih]
  rw [Hippocrates.raiseFixLocation, raiseTarget, if_neg hne]
  cases E.heuristicIdx desc.dynStack with
  | none => rfl
  | some h =>
      rw [Option.bind_some, Hippocrates.raiseFixLocation, raiseTarget, if_neg hne]
      simp only [hwalk]

lemma computes_raiseFixLocation (h : P.Chooses I t) (fixMap : FixMap) (fl : Option FixLoc)
    {desc : FixDesc} (hstack : ∃ te ∈ t, te.callstack = desc.dynStack) :
    Memo.Computes I (P.raiseFixLocation fixMap fl desc)
      (Hippocrates.raiseFixLocation P.env fixMap fl desc) := by
  rw [raiseFixLocation]
  split_ifs with hne
  · rw [Hippocrates.raiseFixLocation, raiseTarget, if_pos hne]
    exact Memo.computes_failure
  · rw [raiseFixLocation_bind P.env fixMap fl hne]
    obtain ⟨te, hte, heq⟩ := hstack
    rw [← heq]
    exact (h te hte).bind fun k _ => Memo.computes_lift _

lemma computes_fixOp (h : P.Chooses I t) {d : Diagnosis} (hd : d.fixType ≠ NO_FIX)
    (acc : FixMap × Bool) (k : ℕ) :
    Memo.Computes I (P.fixOp clSz d t acc k) (Hippocrates.fixOp clSz P.env d t acc k) := by
  rw [fixOp, Hippocrates.fixOp]
  cases hlast : t[k]? with
  | none => exact Memo.computes_failure
  | some last =>
      dsimp only
      cases P.env.mapper last.location with
      | some fixLocs =>
          dsimp only
          split_ifs
          · exact Memo.computes_failure
          · exact Memo.computes_lift _
      | none =>
          have hstack : ∃ te ∈ t, te.callstack = (indirectDesc d last).dynStack :=
            ⟨last, List.mem_of_getElem? hlast, by rw [indirectDesc, if_neg hd]; rfl⟩
          exact (computes_raiseFixLocation h acc.1 none hstack).map fun r => (r.1, r.2 || acc.2)

lemma computes_computeAndAddFix (h : P.Chooses I t) (fixMap : FixMap) (bug_index : ℕ) :
    Memo.Computes I (P.computeAndAddFix clSz t fixMap bug_index)
      (Hippocrates.computeAndAddFix clSz P.env t fixMap bug_index) := by
  rw [computeAndAddFix, Hippocrates.computeAndAddFix]
  cases t[bug_index]? with
  | none => exact Memo.computes_failure
  | some te =>
      dsimp only
      by_cases hbug : (!te.isBug) = true
      · rw [if_pos hbug, if_pos hbug]
        exact Memo.computes_failure
      · rw [if_neg hbug, if_neg hbug]
        cases te.type with
        | ASSERT_PERSISTED =>
            dsimp only
            split_ifs
            · exact Memo.computes_failure
            · rw [handleAssertPersisted, Hippocrates.handleAssertPersisted]
              cases hd : diagnose clSz t te bug_index with
              | none => exact Memo.computes_failure
              | some d =>
                  exact Memo.Computes.foldlM (J := fun _ => True) trivial fun k _ acc _ =>
                    ⟨computes_fixOp h (diagnose_fixType_ne hd) acc k, fun _ _ => trivial⟩
        | _ => exact Memo.computes_pure _

/-- The loop raises fixes with the stacks of operations. -/
lemma computes_optimizeLoop (h : P.Chooses I t) {n : ℕ} {cursor : Option FixLoc} {s : OptState}
    (hmap : AllPlanned P.env t true s.fixMap) : Memo.Computes I (P.optimizeLoop n cursor s)
      (Hippocrates.optimizeLoop P.env n cursor s) := by
  induction n generalizing cursor s with
  | zero => exact Memo.computes_failure
  | succ n ih =>
      rw [optimizeLoop, Hippocrates.optimizeLoop]
      cases hafter : s.fixMap.after cursor with
      | none => exact Memo.computes_pure s
      | some e =>
        obtain ⟨fl, desc⟩ := e
        have hplanned := hmap fl desc (OrderedMap.find_of_after hafter).1
        dsimp only
        split_ifs with happlies
        · exact ih hmap
        · have hprim : desc.type.isPrimative = true := by simpa using happlies
          refine ((computes_raiseFixLocation h s.fixMap (some fl) hplanned.stack).bind
            (g := fun r => Hippocrates.optimizeLoop P.env n (some fl)
              ⟨r.1, if r.2 then s.moved ++ [fl] else s.moved, s.res || r.2⟩)
            fun r hr => ih ?_).congr ?_
          · exact (hplanned.raiseFixLocation_filled hprim hr).planned hmap
          · cases Hippocrates.raiseFixLocation P.env s.fixMap (some fl) desc <;> rfl

lemma computes_runFixMapOptimization (h : P.Chooses I t) {fixMap : FixMap}
    (hmap : AllPlanned P.env t true fixMap) : Memo.Computes I (P.runFixMapOptimization fixMap)
      (Hippocrates.runFixMapOptimization P.env fixMap) := by
  have hloop : Memo.Computes I
      (P.optimizeLoop (2 * fixMap.entries.length + 1) none ⟨fixMap, [], false⟩) _ :=
    computes_optimizeLoop h hmap
  refine (hloop.bind (g := fun s => (eraseMoved s.fixMap s.moved).map fun fm => (fm, s.res))
    fun s _ => Memo.computes_lift _).congr ?_
  rw [Hippocrates.runFixMapOptimization]
  cases Hippocrates.optimizeLoop P.env (2 * fixMap.entries.length + 1) none
    ⟨fixMap, [], false⟩ <;> rfl

/-- **The fixes of a run**: with the choice through a state they are those without. -/
lemma computes_findFixes {R : RepairEnv} {F : Flags} {A : AliasInfo} {P : RaisePolicy σ}
    (henv : P.env = R.raiseEnv F A) (h : P.Chooses I R.trace) :
    Memo.Computes I (P.findFixes R.clSz R.trace R.bugs F.disableRaising) (R.findFixes F A) := by
  have hbugs : Memo.Computes I
      (R.bugs.foldlM (fun fixMap bug => Prod.fst <$> P.computeAndAddFix R.clSz R.trace fixMap bug)
        OrderedMap.empty) (R.bugFixes F A) := by
    refine Memo.Computes.foldlM (J := fun _ => True) trivial fun bug _ fixMap _ =>
      ⟨?_, fun _ _ => trivial⟩
    rw [← henv]
    exact (computes_computeAndAddFix h fixMap bug).map Prod.fst
  refine (hbugs.bind (g := fun fixMap => if F.disableRaising then some fixMap else
    (Hippocrates.runFixMapOptimization (R.raiseEnv F A) fixMap).map Prod.fst)
    fun fixMap hfixMap => ?_).congr ?_
  · split_ifs
    · exact Memo.computes_pure fixMap
    · rw [← henv]
      refine (computes_runFixMapOptimization h ?_).map Prod.fst
      rw [henv]
      exact bugFixes_planned (fun bug _ => collectsFrom_self _ _ bug) hfixMap
  · show _ = RepairEnv.findFixes R F A
    rw [RepairEnv.findFixes, ← RepairEnv.bugFixes]
    cases R.bugFixes F A <;> rfl

end Rules

end RaisePolicy

/-! ### The run -/

namespace RepairEnv

variable (R : RepairEnv) (F : Flags)

/-- What the heuristic depends on. -/
def heuristicEnv (A : AliasInfo) (d : PmDesc) : HeuristicEnv :=
  ⟨R.module, R.mapper, d, if F.traceAA || F.reducedAA then some A.instMap else none⟩

/-- The raising with the table. -/
def cachedPolicy (hash : StdHash) (arb : HeuristicTable → HeuristicTable) (A : AliasInfo) :
    RaisePolicy HeuristicTable where
  env := R.raiseEnv F A
  choose :=
    match A.pmDesc with
    | some d => cachedIdx hash arb (R.heuristicEnv F A d)
    | none => fun _ => pure 0

variable [LinearOrder FixLoc]

/-- The construction and `doRepair`, with `heuristicCache_`. -/
def doRepairCached (hash : StdHash) (arb : HeuristicTable → HeuristicTable) :
    Except Fault (Module × Bool) :=
  match R.construct F with
  | none => .error .failed
  | some A =>
    if R.source = .UNKNOWN then .error .failed -- "unsupported!"
    else
      match (R.cachedPolicy F hash arb A).findFixes R.clSz R.trace R.bugs F.disableRaising [] with
      | none => .error .failed
      | some (fixMap, _) =>
        match (R.fixer F A).fixBugs R.module fixMap.entries with
        | .error e => .error e
        | .ok (m, modified) =>
          if F.disableRaising then
            orFail ((patchMemoryPrimitives m F.extraDumb).map fun r => (r.1, modified))
          else .ok (m, modified)

variable {R F}

omit [LinearOrder FixLoc] in
/-- The table makes the choices of the heuristic. -/
lemma cachedPolicy_chooses {hash : StdHash} {arb : HeuristicTable → HeuristicTable}
    (harb : ∀ t, (arb t).Perm t) {S : Set LocationInfo}
    (hsame : ∀ a ∈ S, ∀ b ∈ S, LocationInfo.same hash a b = true → R.mapper a = R.mapper b)
    (hframes : ∀ te ∈ R.trace, ∀ li ∈ te.callstack, li ∈ S) (A : AliasInfo) :
    ∃ I : HeuristicTable → Prop, I [] ∧ (R.cachedPolicy F hash arb A).Chooses I R.trace := by
  cases hd : A.pmDesc with
  | none =>
      refine ⟨fun _ => True, trivial, fun te _ => ?_⟩
      simp only [cachedPolicy, raiseEnv, hd]
      exact Memo.computes_pure 0
  | some d =>
      refine ⟨Memo.Consistent (collectAliases (R.heuristicEnv F A d)) S, Memo.Consistent.nil,
        fun te hte => ?_⟩
      simp only [cachedPolicy, raiseEnv, hd]
      exact computes_cachedIdx harb hsame (hframes te hte)

/-- **The run with the cache** of the aliases of frames is the run without, where the file names of
the locations fit. -/
theorem doRepair_cached {hash : StdHash} {arb : HeuristicTable → HeuristicTable}
    (harb : ∀ t, (arb t).Perm t) {S : Set LocationInfo} (hfit : LocationInfo.FilesFit hash S)
    {T : HashTable LocationInfo (List FixLoc)} (hT : ∀ e ∈ T, e.1 ∈ S)
    (hmapper : R.mapper = T.find (LocationInfo.same hash))
    (hframes : ∀ te ∈ R.trace, ∀ li ∈ te.callstack, li ∈ S) :
    R.doRepairCached F hash arb = R.doRepair F := by
  have hsame : ∀ a ∈ S, ∀ b ∈ S, LocationInfo.same hash a b = true → R.mapper a = R.mapper b := by
    intro a ha b hb hab
    rw [hmapper]
    exact hfit.equivOn.find_eq hT ha hb hab
  rw [doRepairCached, doRepair]
  cases R.construct F with
  | none => rfl
  | some A =>
      obtain ⟨I, hnil, hchooses⟩ := cachedPolicy_chooses (F := F) harb hsame hframes A
      have hfixes := (RaisePolicy.computes_findFixes rfl hchooses).run hnil
      dsimp only
      split_ifs
      · rfl
      · rw [← hfixes]
        cases (R.cachedPolicy F hash arb A).findFixes R.clSz R.trace R.bugs F.disableRaising [] with
        | none => rfl
        | some r => rfl
      · rw [← hfixes]
        cases (R.cachedPolicy F hash arb A).findFixes R.clSz R.trace R.bugs F.disableRaising [] with
        | none => rfl
        | some r => rfl

end RepairEnv

/-! ### The store of two calls deep, with a mapper that is a table -/

def storeBelowTable : HashTable LocationInfo (List FixLoc) :=
  [(⟨"update", "update.c", 1⟩, [FixLoc.single (InstId.orig 0)]),
    (⟨"relay", "update.c", 5⟩, [FixLoc.single (InstId.orig 2)]),
    (⟨"main", "update.c", 9⟩, [FixLoc.single (InstId.orig 5)])]

def storeBelowCached : RepairEnv :=
  { storeBelowRepair with mapper := storeBelowTable.find (LocationInfo.same sumHash) }

/-- Locations of one file fit. -/
lemma filesFit_of_file (hash : StdHash) (file : String) :
    LocationInfo.FilesFit hash {li | li.file = file} := by
  refine ⟨fun a ha b hb _ _ _ => ?_, fun a ha b _ c hc _ _ _ _ _ => .inl ?_⟩
  · rw [Set.mem_ofPred_eq] at ha hb
    rw [LocationInfo.getFilename, LocationInfo.getFilename, ha, hb]
  · rw [Set.mem_ofPred_eq] at ha hc
    rw [ha, hc]

theorem doRepair_cached_storeBelow :
    letI := FixLoc.compare InstId.address InstId.address_injective
    storeBelowCached.doRepairCached heuristicFlags sumHash id =
      storeBelowCached.doRepair heuristicFlags :=
  letI := FixLoc.compare InstId.address InstId.address_injective
  RepairEnv.doRepair_cached (fun _ => List.Perm.refl _) (filesFit_of_file sumHash "update.c")
    (by simp [storeBelowTable]) rfl
    (by simp [storeBelowCached, storeBelowRepair, storeBelowTrace, storeBelowStack])

end Hippocrates
