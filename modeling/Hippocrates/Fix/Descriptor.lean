import Mathlib.Tactic
import Hippocrates.Diagnosis.Collected
import Hippocrates.Fix.Applied
import Hippocrates.Fix.RaiseWalk
import Hippocrates.IR.Footprint

/-!
When a run asks for alias information that was not made.

Without heuristic raising there is no `pmDesc_`. Persistent subprograms are made all the same: a
fix is raised over immutable functions, and over frames that are not mapped.

* `EndsPast`: the frames that such a raise passes, one function of each is cloned.
* `Module.KeepsStores`: a function of the given module gets no store until its round begins.
* `ClonesStore`: an operation of a bug, the raise of its fix, and a store below where that ends.

`pmDesc_present`: in a run of no such operation the information is there whenever it is used.
-/

namespace Hippocrates

open FixType

/-- The raise of a fix with the call stack passes the frames of `pre`, and ends at the first that
can hold the fix, or above the last. -/
def EndsPast (E : RaiseEnv) (hasStart : Bool) (stack pre : List LocationInfo) : Prop :=
  ∃ rest, stack = pre ++ rest ∧ (∀ li ∈ pre, Passed E hasStart li) ∧ ∀ li ∈ rest.head?, Hosts E li

/-- Without the heuristic a raise passes the frames below the one it ends at. -/
lemma raiseTarget_endsPast {E : RaiseEnv} {hasStart : Bool} {desc d : FixDesc} {curr : FixLoc}
    (hoff : E.heuristicIdx = fun _ => some 0)
    (h : raiseTarget E hasStart desc = some (some (curr, d))) :
    ∃ pre, EndsPast E hasStart d.dynStack pre ∧ d.stackIdx = pre.length := by
  rw [(raiseTarget_desc h).1]
  rcases @exists_first_not_passed E hasStart desc.dynStack with
    hall | ⟨pre, li, post, hstack, hpre, hli⟩
  · refine ⟨desc.dynStack, ⟨[], by simp, hall, by simp⟩, ?_⟩
    rcases raiseTarget_all_passed hoff hall with hnone | ⟨c, d', htarget, hidx⟩
    · rw [hnone] at h
      cases h
    · rw [htarget] at h
      cases h
      exact hidx
  -- the first frame that is not passed hosts the subprogram, or the raise fails there
  · by_cases hhost : Hosts E li
    · refine ⟨pre, ⟨li :: post, hstack, hpre, by simpa using hhost⟩, ?_⟩
      obtain ⟨c, f, hin, hmut⟩ := hhost
      have htarget := raiseTarget_host hoff hstack hpre hin hmut
      rw [h] at htarget
      split_ifs at htarget
      · cases htarget
      · cases htarget
        rfl
    · rw [raiseTarget_fail hoff hstack hpre hli hhost] at h
      cases h

/-! ### The stores of a function -/

/-- The functions of the first module keep their instructions, and get no store. -/
def Module.KeepsStores (m m' : Module) : Prop :=
  ∀ f body, m.lookup f = some body → ∃ body', m'.lookup f = some body' ∧
    (∀ i ∈ body.insts, i.id ∈ body'.insts.map Instr.id) ∧
      ∀ j ∈ body'.insts, j.pointerOperand.isSome = true → j ∈ body.insts

section KeepsStores

variable {m m' m'' : Module}

lemma Module.KeepsStores.refl (m : Module) : m.KeepsStores m := fun _ body hbody =>
  ⟨body, hbody, fun _ hi => List.mem_map_of_mem hi, fun _ hj _ => hj⟩

lemma Module.KeepsStores.trans (h : m.KeepsStores m') (h' : m'.KeepsStores m'') :
    m.KeepsStores m'' := by
  intro f body hbody
  obtain ⟨body', hbody', hids, hstores⟩ := h f body hbody
  obtain ⟨body'', hbody'', hids', hstores'⟩ := h' f body' hbody'
  refine ⟨body'', hbody'', fun i hi => ?_, fun j hj hptr => ?_⟩
  · obtain ⟨k, hk, hki⟩ := List.mem_map.mp (hids i hi)
    exact hki ▸ hids' k hk
  · exact hstores j (hstores' j hj hptr) hptr

/-- A rewriting that keeps the names, and adds no store. -/
lemma Module.KeepsStores.rewrite {Q : Instr → List Instr}
    (hid : ∀ i, i.id ∈ (Q i).map Instr.id)
    (hstore : ∀ i, ∀ j ∈ Q i, j.pointerOperand.isSome = true → j = i) :
    m.KeepsStores (m.rewrite Q) := by
  intro f body hbody
  refine ⟨body.rewrite Q, by rw [Module.lookup_rewrite, hbody]; rfl, fun i hi => ?_,
    fun j hj hptr => ?_⟩
  · obtain ⟨k, hk, hki⟩ := List.mem_map.mp (hid i)
    rw [Function.insts_rewrite, ← hki]
    exact List.mem_map_of_mem (List.mem_flatMap.mpr ⟨i, hi, hk⟩)
  · rw [Function.insts_rewrite] at hj
    obtain ⟨i, hi, hji⟩ := List.mem_flatMap.mp hj
    exact hstore i j hji hptr ▸ hi

lemma IsInserted.pointerOperand_eq {i : Instr} (h : IsInserted i) : i.pointerOperand = none := by
  rcases h.op with ⟨v, ty, hop⟩ | ⟨f, args, hop, -⟩
  all_goals rw [Instr.pointerOperand, hop]

/-- **An edit** puts no store into a function that is there. -/
lemma Edit.keepsStores {G : GenEnv} (h : Edit G m m') : m.KeepsStores m' := by
  cases h with
  -- what is inserted flushes or fences, and has no pointer operand
  | insert i _ hnew =>
      refine .rewrite (fun j => ?_) fun j k hk hptr => ?_
      · rw [insertedAfter]
        split_ifs <;> simp
      · rw [insertedAfter] at hk
        split_ifs at hk
        · rcases List.mem_cons.mp hk with rfl | hk
          · rfl
          · rw [(hnew k hk).pointerOperand_eq] at hptr
            cases hptr
        · exact List.mem_singleton.mp hk
  | retarget =>
      refine .rewrite (fun j => by simp [redirect_id]) fun j k hk hptr => ?_
      obtain rfl := List.mem_singleton.mp hk
      rw [redirect_pointerOperand] at hptr
      obtain ⟨id, op⟩ := j
      rw [redirect]
      split
      · cases op with
        | call callee args => cases hptr
        | _ => rfl
      · rfl
  | clone hclone =>
      intro f body hbody
      have hsame : m'.lookup f = m.lookup f := Module.lookup_clone hclone (by rw [hbody]; rfl)
      exact ⟨body, hsame.trans hbody, fun i hi => List.mem_map_of_mem hi, fun j hj _ => hj⟩

/-- **A sequence of edits** puts none into it. -/
lemma Edits.keepsStores {G : GenEnv} (h : Edits G m m') : m.KeepsStores m' := by
  induction h with
  | refl => exact .refl m
  | tail _ hedit ih => exact ih.trans hedit.keepsStores

/-- A function found in the later module has the stores of the given one. -/
lemma Module.KeepsStores.store {i : InstId} {f g : FnId} {body' : Function} (hwf : m.WF)
    (hwf' : m'.WF) (h : m.KeepsStores m') (hf : m.getFunction i = some f)
    (hg : m'.getFunction i = some g) (hbody' : m'.lookup g = some body') :
    g = f ∧ ∃ body, m.lookup f = some body ∧
      ∀ j ∈ body'.insts, j.pointerOperand.isSome = true → j ∈ body.insts := by
  obtain ⟨body, hbody, hmem⟩ := hwf.has_iff.mpr hf
  obtain ⟨later, hlater, hids, hstores⟩ := h f body hbody
  obtain ⟨k, hk, rfl⟩ := List.mem_map.mp hmem
  obtain rfl : f = g := Option.some.inj ((hwf'.has_iff.mp ⟨later, hlater, hids k hk⟩).symm.trans hg)
  obtain rfl := Option.some.inj (hlater.symm.trans hbody')
  exact ⟨rfl, body, hbody, hstores⟩

end KeepsStores

/-! ### The rounds that begin -/

section Rounds

variable {X : Fixer} {m : Module} {callstack : List LocationInfo} {i : ℕ} {s : GenState}

/-- Only the first frame may be without a mapping: any other one ends the loop. -/
lemma Fixer.runFrames_mapped (h : X.runFrames callstack m i = .ok (.next s)) {j : ℕ} (hj : 1 ≤ j)
    (hji : j < i) : ∃ li, callstack[j]? = some li ∧ X.mapper li ≠ none := by
  induction i generalizing s with
  | zero => exact absurd hji (Nat.not_lt_zero j)
  | succ n ih =>
      rw [runFrames] at h
      split at h
      · cases h
      · cases h
      · rename_i s₀ hrun
        rcases Nat.lt_succ_iff_lt_or_eq.mp hji with hlt | rfl
        · exact ih hrun hlt
        · rw [frameStep] at h
          split_ifs at h
          have hround := orFail_eq_ok_iff.mp h
          rw [Hippocrates.frameStep] at hround
          split at hround
          · cases hround
          · rename_i li hli
            refine ⟨li, hli, fun hnone => ?_⟩
            have hmap : X.genEnv.mapper li = none := hnone
            rw [hmap] at hround
            simp [Nat.pos_of_ne_zero (Nat.one_le_iff_ne_zero.mp hj)] at hround

/-- A round that begins is one of a subprogram of the list, after some edits. -/
lemma Fixer.Visits.spec {fixes : List (FixLoc × FixDesc)} (hwf : m.WF)
    (h : X.Visits m fixes callstack i s) :
    Edits X.genEnv m s.1 ∧
      (∀ j, 1 ≤ j → j < i → ∃ li, callstack[j]? = some li ∧ X.mapper li ≠ none) ∧ ∃ fl desc,
        (fl, desc) ∈ fixes ∧ desc.type.isPST = true ∧ desc.dynStack = callstack ∧
          i < desc.stackIdx := by
  induction h with
  | here hsource hpst hi hrun =>
      exact ⟨runFrames_edits hwf (runFrames_generic hrun),
        fun j hj hji => runFrames_mapped hrun hj hji,
        _, _, List.mem_cons_self, hpst, rfl, hi⟩
  | later hfix hlater ih =>
      have hedits : Edits X.genEnv _ _ := fixBug_edits hwf (fixBug_generic hlater.source_eq hfix)
      obtain ⟨hrest, hframes, fl, desc, hmem, hdesc⟩ := ih (hedits.wf hwf)
      exact ⟨hedits.trans hrest, hframes, fl, desc, List.mem_cons_of_mem _ hmem, hdesc⟩

end Rounds

namespace RepairEnv

/-- One of the bugs is an assertion that failed, and the operation is on its range, in the window
that is read back from it. -/
def Collected (R : RepairEnv) (op : TraceEvent) : Prop :=
  ∃ b ∈ R.bugs, ∃ te, R.trace[b]? = some te ∧ Failing te ∧
    ∃ range win, ReadsBack R.clSz R.trace b te range win ∧ op ∈ win ∧ isRelevant range op = true

/-- It is one of the trace. -/
lemma Collected.mem {R : RepairEnv} {op : TraceEvent} (h : R.Collected op) : op ∈ R.trace := by
  obtain ⟨b, -, te, -, -, range, win, ⟨-, older, -, -, hpast, -⟩, hop, -⟩ := h
  have hmem : op ∈ past R.trace b := by
    rw [hpast]
    exact List.mem_append_left older hop
  exact List.mem_of_mem_take (List.mem_reverse.mp hmem)

/-- A fix of a bug may be raised past a function that stores through a pointer: a frame of some
operation of the bug lies in the function, the raise passes the frame, and all between it and the
first are mapped. -/
def ClonesStore (R : RepairEnv) (F : Flags) : Prop :=
  let E := R.raiseEnv F AliasInfo.empty
  ∃ op pre, R.Collected op ∧ MayRaise E (!F.disableRaising) op ∧
    EndsPast E (R.mapper op.location).isSome op.callstack pre ∧
      ∃ i li curr f body, pre[i]? = some li ∧ LiesIn E li curr f ∧
        (∀ j, 1 ≤ j → j < i → ∀ lj ∈ pre[j]?, R.mapper lj ≠ none) ∧
          R.module.lookup f = some body ∧
            ∃ k ∈ body.insts, ∃ v, k.pointerOperand = some v ∧ v.isAllocaInst = false

/-- The function that a round clones is that of the frame. -/
lemma clonedFn_eq_some {mapper : LocationInfo → Option (List FixLoc)}
    {callstack : List LocationInfo} {i : ℕ} {m : Module} {fn : FnId}
    (h : clonedFn mapper callstack i m = some fn) : ∃ li fl rest, callstack[i]? = some li ∧
      mapper li = some (fl :: rest) ∧ m.getFunction fl.last = some fn := by
  rw [clonedFn] at h
  split at h
  · cases h
  · rename_i fixLocList hlocs
    obtain ⟨li, hli, hmap⟩ := Option.bind_eq_some_iff.mp hlocs
    split_ifs at h
    cases fixLocList with
    | nil => cases h
    | cons fl rest => exact ⟨li, fl, rest, hli, hmap, h⟩

section Present

variable [LinearOrder FixLoc] {R : RepairEnv} {F : Flags}

/-- A round that begins without alias information, with a function that stores through a pointer. -/
lemma clonesStore_of_begins (hwf : R.module.WF) (hheur : F.heuristicRaising = false)
    {callstack : List LocationInfo} {i : ℕ} {s : GenState} (h : R.Begins F callstack i s)
    (hstore : R.StoresThroughPointer callstack i s.1) : R.source = .GENERIC ∧ R.ClonesStore F := by
  obtain ⟨A, fixMap, hA, hfixes, hvisits⟩ := h
  obtain rfl := (construct_pmDesc hA).2 hheur
  refine ⟨hvisits.source_eq, ?_⟩
  -- the fix of the round is raised for an operation that some bug collects
  obtain ⟨ops, hops⟩ : ∃ ops : List TraceEvent, ∀ op, op ∈ ops ↔ R.Collected op := by
    classical exact ⟨R.trace.filter fun op => R.Collected op, by simpa using fun _ => Collected.mem⟩
  have hplanned : AllPlanned (R.raiseEnv F AliasInfo.empty) ops (!F.disableRaising) fixMap := by
    refine findFixes_planned_of (fun b hb te d k last hte htype hbug hd hk hlast => ?_) hfixes
    obtain ⟨range, win, hreads, hmem, hrel, -⟩ :=
      meets_iff.mp (exists_collected_iff.mp ⟨d, k, hd, hk, hlast, rfl, rfl⟩)
    exact (hops last).mpr ⟨b, hb, te, hte, ⟨htype, hbug⟩, range, win, hreads, hmem, hrel⟩
  obtain ⟨hedits, hframes, fl, desc, hmem, hpst, rfl, hi⟩ := hvisits.spec hwf
  rcases (hplanned fl desc (OrderedMap.find_eq_some_iff.mpr hmem)).kind with
    ⟨-, op, hop, hstack, hmay, desc₀, curr, d, htarget, hdstack, hdidx⟩ | ⟨hprim, -⟩
  swap
  · exact absurd hpst (not_isPST_of_isPrimative hprim)
  obtain ⟨pre, hends, hidx⟩ := raiseTarget_endsPast rfl htarget
  rw [hdstack] at hends
  rw [← hdidx, hidx] at hi
  -- the raise has passed the frame of the round, so it lies in one function of the given module
  obtain ⟨fn, body', hfn, hbody', k, hk, v, hv, halloca⟩ := hstore
  obtain ⟨li, loc, locs, hli, hmap, hlater⟩ := clonedFn_eq_some hfn
  obtain ⟨rest, hsplit, hpassed, -⟩ := id hends
  have hpre : ∀ j, j < pre.length → pre[j]? = desc.dynStack[j]? := by
    intro j hj
    rw [hsplit, List.getElem?_append_left hj]
  rw [← hpre i hi] at hli
  obtain ⟨c, f, hin⟩ : ∃ c f, LiesIn (R.raiseEnv F AliasInfo.empty) li c f := by
    rcases hpassed li (List.mem_of_getElem? hli) with ⟨-, hnone⟩ | ⟨c, f, hin, -⟩
    · cases hnone.symm.trans hmap
    · exact ⟨c, f, hin⟩
  obtain ⟨locs', hmap', -⟩ := id hin
  obtain ⟨rfl, -⟩ := List.cons.inj (Option.some.inj (hmap.symm.trans hmap'))
  obtain ⟨rfl, body, hbody, hstores⟩ := (hedits.keepsStores).store hwf (hedits.wf hwf)
    hin.getFunction hlater hbody'
  refine ⟨op, pre, (hops op).mp hop, hmay, hstack ▸ hends, i, li, loc, fn, body, hli, hin,
    fun j hj hji lj hlj hnone => ?_, hbody, k, hstores k hk (by rw [hv]; rfl), v, hv, halloca⟩
  obtain ⟨lj', hlj', hsome⟩ := hframes j hj hji
  rw [hpre j (hji.trans hi), hlj'] at hlj
  obtain rfl := Option.some.inj hlj
  exact hsome hnone

/-- **The alias information is there whenever it is used** if heuristic raising makes it, or an
analysis of a copy is selected, or the trace is one of PMTest, or no fix of the report is raised
past a function that stores through a pointer. -/
theorem pmDesc_present (hwf : R.module.WF) (h : F.heuristicRaising = true ∨ F.traceAA = true ∨
    F.reducedAA = true ∨ R.source ≠ .GENERIC ∨ ¬ R.ClonesStore F) :
    R.doRepair F ≠ .error .nullPmDesc := by
  intro hnull
  obtain ⟨hheur, htrace, hreduced, callstack, i, s, hbegins, hstore⟩ :=
    doRepair_null_iff_begins.mp hnull
  obtain ⟨hsource, hclones⟩ := clonesStore_of_begins hwf hheur hbegins hstore
  rcases h with h | h | h | h | h
  · cases hheur.symm.trans h
  · cases htrace.symm.trans h
  · cases hreduced.symm.trans h
  · exact h hsource
  · exact h hclones

end Present

end RepairEnv

/-! ### The store of two calls deep

Its fix is raised if `update` is immutable, and only then. -/

/-- `relay` is immutable, and has no store. -/
def relayRepair : RepairEnv :=
  { storeBelowRepair with immutableFns := fun f => f == FnId.named "relay" }

/-- The fix stays in `update`. -/
theorem pmDesc_present_relayRepair :
    letI := FixLoc.compare InstId.address InstId.address_injective
    relayRepair.doRepair noFlags ≠ .error .nullPmDesc := by
  let := FixLoc.compare InstId.address InstId.address_injective
  refine RepairEnv.pmDesc_present storeBelow_wf (.inr (.inr (.inr (.inr ?_))))
  rintro ⟨op, pre, hop, -, ⟨rest, hsplit, hpassed, -⟩, i, li, -, -, -, hli, -⟩
  have hmem : li ∈ pre := List.mem_of_getElem? hli
  have hops : ∀ te ∈ relayRepair.trace, te.callstack = storeBelowStack ∨ te.callstack = [] := by
    decide
  cases pre with
  | nil => cases hmem
  | cons front pre =>
      rcases hops op hop.mem with hstack | hstack
      · -- the first frame is in `update`, which can hold the fix
        rw [hstack] at hsplit
        obtain ⟨rfl, -⟩ := List.cons.inj hsplit
        rcases hpassed _ List.mem_cons_self with ⟨-, hnone⟩ | ⟨c, f, ⟨locs, hmap, hall⟩, himm⟩
        · cases hnone
        · obtain ⟨rfl, -⟩ := List.cons.inj (Option.some.inj hmap)
          obtain rfl := Option.some.inj (hall _ List.mem_cons_self)
          cases himm
      · rw [hstack] at hsplit
        cases hsplit

/-- The fix is raised to `relay`, and the subprogram for it asks for the pointer of the store. -/
theorem storeBelowRepair_null :
    letI := FixLoc.compare InstId.address InstId.address_injective
    storeBelow.WF ∧ storeBelowRepair.doRepair noFlags = .error .nullPmDesc :=
  letI := FixLoc.compare InstId.address InstId.address_injective
  ⟨storeBelow_wf, rfl⟩

end Hippocrates
