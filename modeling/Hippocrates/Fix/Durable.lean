import Mathlib.Tactic
import Hippocrates.Diagnosis.Soundness
import Hippocrates.Fix.Applied

/-!
What a repaired program does in the execution that was traced.

* `insertedOps`: the operations of the instructions inserted after an access. A `clwb` flushes the
  ranges of the access if its operand is the pointer of the access, or a cast of it.
* `Step`, `FollowsTrace`: an execution of the instructions that the repair has left as they were,
  and the events of the trace they gave.
* `executedOps`: the operations of the repaired program in it.

`doRepair_durable`: where the trace is as in one of the situations in which the repair of a
diagnosis is sound, the repaired program makes the range of the bug durable.
-/

namespace Hippocrates

open Persistency

/-! ### The inserted instructions -/

/-- The values known to be pointers to the ranges, once the instruction is executed. -/
def pointersAfter (ptrs : List Value) (i : Instr) : List Value :=
  match i.op with
  | .bitCast v ty => if v ∈ ptrs then .inst i.id ty :: ptrs else ptrs
  | _ => ptrs

/-- What an inserted instruction does. -/
def insertedOp (ranges : List AddressInfo) (ptrs : List Value) (i : Instr) :
    List (Op AddressInfo) :=
  match i.op with
  | .call (.function f) [v] =>
    if f.getIntrinsicID = .x86_clwb ∧ v ∈ ptrs then ranges.map Op.flush else []
  | .call (.function f) [] => if f.getIntrinsicID = .x86_sse_sfence then [Op.fence] else []
  | _ => []

/-- What the instructions inserted after an access to the ranges do. -/
def insertedOps (ranges : List AddressInfo) : List Value → List Instr → List (Op AddressInfo)
  | _, [] => []
  | ptrs, i :: is => insertedOp ranges ptrs i ++ insertedOps ranges (pointersAfter ptrs i) is

/-- The values that are the pointer of the access when the inserted instructions begin. -/
def pointersOf (i : Instr) : List Value :=
  match i.pointerOperand with
  | none => []
  | some v => v :: v.constCast.toList

section Inserted

variable {ranges : List AddressInfo} {ptrs ptrs' : List Value} {l l' : List Instr} {i : Instr}

lemma subset_pointersAfter : ptrs ⊆ pointersAfter ptrs i := by
  rw [pointersAfter]
  split
  · split_ifs
    · exact List.subset_cons_self _ _
    · exact List.Subset.refl _
  · exact List.Subset.refl _

lemma pointersAfter_mono (h : ptrs ⊆ ptrs') : pointersAfter ptrs i ⊆ pointersAfter ptrs' i := by
  rw [pointersAfter, pointersAfter]
  split
  · split_ifs with hv hv'
    · exact List.cons_subset_cons _ h
    · exact absurd (h hv) hv'
    · exact List.subset_cons_of_subset _ h
    · exact h
  · exact h

lemma insertedOp_mono (h : ptrs ⊆ ptrs') :
    (insertedOp ranges ptrs i).Sublist (insertedOp ranges ptrs' i) := by
  rw [insertedOp, insertedOp]
  split
  · split_ifs with hv hv'
    · exact List.Sublist.refl _
    · exact absurd ⟨hv.1, h hv.2⟩ hv'
    · exact List.nil_sublist _
    · exact List.Sublist.refl _
  · exact List.Sublist.refl _
  · exact List.Sublist.refl _

/-- More inserted instructions do more. -/
lemma insertedOps_sublist (h : l.Sublist l') (hptrs : ptrs ⊆ ptrs') :
    (insertedOps ranges ptrs l).Sublist (insertedOps ranges ptrs' l') := by
  induction h generalizing ptrs ptrs' with
  | slnil => exact List.Sublist.refl _
  | cons j _ ih =>
      rw [insertedOps]
      exact (ih (List.Subset.trans hptrs subset_pointersAfter)).trans
        (List.sublist_append_right _ _)
  | cons_cons j _ ih =>
      rw [insertedOps, insertedOps]
      exact (insertedOp_mono hptrs).append (ih (pointersAfter_mono hptrs))

/-- Inserted instructions do not store. -/
lemma not_stores_insertedOps {x : ℕ} : ∀ o ∈ insertedOps ranges ptrs l, ¬ o.Stores x := by
  induction l generalizing ptrs with
  | nil => exact fun o ho => absurd ho List.not_mem_nil
  | cons i l ih =>
      intro o ho
      rw [insertedOps, List.mem_append] at ho
      rcases ho with ho | ho
      · rw [insertedOp] at ho
        split at ho
        · split_ifs at ho
          · obtain ⟨r, -, rfl⟩ := List.mem_map.mp ho
            exact not_false
          · exact absurd ho List.not_mem_nil
        · split_ifs at ho
          · rw [List.mem_singleton.mp ho]
            exact not_false
          · exact absurd ho List.not_mem_nil
        · exact absurd ho List.not_mem_nil
      · exact ih o ho

lemma insertedOps_append (ranges : List AddressInfo) (ptrs : List Value) (l is : List Instr) :
    insertedOps ranges ptrs (l ++ is) =
      insertedOps ranges ptrs l ++ insertedOps ranges (l.foldl pointersAfter ptrs) is := by
  induction l generalizing ptrs with
  | nil => rfl
  | cons i l ih =>
      rw [List.cons_append, insertedOps, insertedOps, ih, List.append_assoc, List.foldl_cons]

/-- The flush of the pointer of an access. -/
lemma insertedOps_flushInstrs {v : Value} (hv : i.pointerOperand = some v) (n : ℕ) :
    insertedOps ranges (pointersOf i) (flushInstrs n v) = ranges.map Op.flush := by
  rw [pointersOf, hv, flushInstrs]
  split_ifs
  · simp [insertedOps, insertedOp, clwbCall, FnId.intrinsic, FnId.getIntrinsicID]
  · cases hc : v.constCast with
    | some c =>
        simp [insertedOps, insertedOp, clwbCall, FnId.intrinsic, FnId.getIntrinsicID, hc]
    | none =>
        simp [insertedOps, insertedOp, pointersAfter, clwbCall, FnId.intrinsic,
          FnId.getIntrinsicID]

/-- **The code of a primitive fix** does what the fix adds. -/
lemma insertedOps_code {v : Value} (hv : i.pointerOperand = some v) (n : ℕ) {t : FixType}
    (ht : t.isPrimative = true) : insertedOps ranges (pointersOf i) (t.code n v) =
      (if t.adds.1 then ranges.map Op.flush else []) ++ (if t.adds.2 then [Op.fence] else []) := by
  have hfence : ∀ n ptrs, insertedOps ranges ptrs [sfenceCall n] = [Op.fence] := by
    intro n ptrs
    simp [insertedOps, insertedOp, sfenceCall, FnId.intrinsic, FnId.getIntrinsicID]
  cases t with
  | ADD_FLUSH_ONLY =>
      rw [FixType.code, insertedOps_flushInstrs hv]
      exact (List.append_nil _).symm
  | ADD_FENCE_ONLY =>
      rw [FixType.code, hfence]
      rfl
  | ADD_FLUSH_AND_FENCE =>
      rw [FixType.code, insertedOps_append, insertedOps_flushInstrs hv, hfence]
      rfl
  | _ => cases ht

end Inserted

/-! ### The execution -/

/-- An instruction that is executed, and the event it gives. -/
structure Step where
  inst : Instr
  event : Option ℕ

namespace Step

variable (t : List TraceEvent) (s : Step)

def ranges : List AddressInfo := (s.event.bind fun k => t[k]?).elim [] TraceEvent.addresses

/-- The operations of the instruction itself. -/
def ops : List (Op AddressInfo) := (s.event.bind fun k => t[k]?).elim [] TraceEvent.ops

end Step

/-- The operations of the repaired program: those of the instructions of the execution, and of the
inserted instructions that follow them. -/
def executedOps (m : Module) (t : List TraceEvent) (steps : List Step) : List (Op AddressInfo) :=
  steps.flatMap fun s => s.ops t ++ insertedOps (s.ranges t) (pointersOf s.inst) (m.run s.inst.id)

/-- An execution of instructions that the repair has left as they were, up to the event `b`. -/
structure FollowsTrace (R : RepairEnv) (m' : Module) (b : ℕ) (steps : List Step) : Prop where
  insts : ∀ s ∈ steps, s.inst ∈ R.module.insts ∧ s.inst ∈ m'.insts
  events : steps.filterMap Step.event = List.range b

/-- The step is a store at the location of its event, and there is a fix for it in the map, which
has not been raised. -/
def StoresUnraised [LinearOrder FixLoc] (R : RepairEnv) (fixMap : FixMap) (s : Step) : Prop :=
  ∃ k last fixLocs v desc, s.event = some k ∧ R.trace[k]? = some last ∧
    R.mapper last.location = some fixLocs ∧ InstOf R.module fixLocs s.inst ∧
    s.inst.pointerOperand = some v ∧ fixMap.find (FixLoc.single s.inst.id) = some desc ∧
    desc.type.isPST = false

section Execution

variable {d : Diagnosis} {t : List TraceEvent} {steps : List Step} {b : ℕ}

/-- The operations of the repaired trace, event by event. -/
lemma repairedOps_eq_flatMap (hb : b ≤ t.length) :
    repairedOps d (t.take b) = (List.range b).flatMap fun k => (t[k]?).elim [] fun e =>
      e.ops ++ if k ∈ d.opIndices then repairAfter d.missingFlush d.missingFence e else [] := by
  induction b with
  | zero => rfl
  | succ b ih =>
      rw [List.range_succ, List.flatMap_append, ← ih (by omega), List.take_add_one,
        List.getElem?_eq_getElem (by omega), repairedOps, List.zipIdx_append, List.flatMap_append]
      simp [repairedOps, List.getElem?_eq_getElem (show b < t.length by omega),
        min_eq_left (show b ≤ t.length by omega)]

/-- What the events give is woven into what the steps give. -/
lemma weave_filterMap {N : Op AddressInfo → Prop} {g : ℕ → List (Op AddressInfo)}
    {h : Step → List (Op AddressInfo)}
    (hevent : ∀ s ∈ steps, ∀ k, s.event = some k → Weave Eq N (g k) (h s))
    (hnone : ∀ s ∈ steps, s.event = none → ∀ o ∈ h s, N o) :
    Weave Eq N ((steps.filterMap Step.event).flatMap g) (steps.flatMap h) := by
  induction steps with
  | nil => exact .nil
  | cons s steps ih =>
      rw [List.forall_mem_cons] at hevent hnone
      rw [List.flatMap_cons]
      cases hs : s.event with
      | none =>
          rw [List.filterMap_cons_none hs]
          exact .of_new (hnone.1 hs) (ih hevent.2 hnone.2)
      | some k =>
          rw [List.filterMap_cons_some hs, List.flatMap_cons]
          exact .append (hevent.1 k hs) (ih hevent.2 hnone.2)

end Execution

section Run

variable [LinearOrder FixLoc] {R : RepairEnv} {F : Flags} {m' : Module} {modified : Bool}

/-- The repair of the diagnosis is woven into the operations of the repaired program. -/
lemma weave_repairedOps (hwf : R.module.WF) (horig : R.module.Original)
    (hsource : R.source = .GENERIC) (h : R.doRepair F = .ok (m', modified)) {A : AliasInfo}
    {fixMap : FixMap} (hA : R.construct F = some A) (hfixes : R.findFixes F A = some fixMap)
    {b : ℕ} {te : TraceEvent} {d : Diagnosis} (hbug : b ∈ R.bugs) (hte : R.trace[b]? = some te)
    (htype : te.type = .ASSERT_PERSISTED) (hd : diagnose R.clSz R.trace te b = some d)
    {steps : List Step} (hsteps : FollowsTrace R m' b steps)
    (hstores : ∀ s ∈ steps, ∀ k ∈ d.opIndices, s.event = some k → StoresUnraised R fixMap s)
    (x : ℕ) : Weave Eq (fun o => ¬ o.Stores x) (repairedOps d (R.trace.take b))
      (executedOps m' R.trace steps) := by
  have hb : b < R.trace.length := (List.getElem?_eq_some_iff.mp hte).1
  rw [repairedOps_eq_flatMap hb.le, ← hsteps.events]
  -- an event of the trace that is a store has its code after it, another one adds no store
  refine weave_filterMap (fun s hs k hk => ?_) fun s hs hnone o ho => ?_
  · have hevent : s.event.bind (fun k => R.trace[k]?) = R.trace[k]? := by rw [hk]; rfl
    rw [Step.ops, Step.ranges, hevent]
    cases hlast : R.trace[k]? with
    | none => exact Weave.of_sublist (by simp) not_stores_insertedOps (List.nil_sublist _)
    | some last =>
        refine .append (.refl fun _ _ => rfl) ?_
        refine .of_sublist (fun _ _ => rfl) not_stores_insertedOps ?_
        split_ifs with hop
        · obtain ⟨k', last', fixLocs, v, desc, hk', hlast', hmap, hi, hv, hdesc, hnot⟩ :=
            hstores s hs k hop hk
          obtain rfl := Option.some.inj (hk.symm.trans hk')
          obtain rfl := Option.some.inj (hlast.symm.trans hlast')
          obtain ⟨n, hn⟩ := code_sublist_run hwf horig hsource h hA hfixes hbug hte htype hd hop
            hlast hmap hi hv hdesc (by simp [hnot])
          have hprim := Diagnosis.fixType_isPrimative (diagnose_fixType_ne hd)
          have hcode : (insertedOps last.addresses (pointersOf s.inst)
              (d.fixType.code n v)).Sublist _ := insertedOps_sublist hn (List.Subset.refl _)
          rwa [insertedOps_code hv n hprim, d.fixType_adds] at hcode
        · exact List.nil_sublist _
  · rw [Step.ops, Step.ranges, hnone] at ho
    exact not_stores_insertedOps o ho

/-- **The repaired program persists what the bug is about**: where all bytes of the range are
flushed before the bug, or stored to after the last fence and flush, or fenced off, an execution
that gives the events of the trace up to the bug, and in which the fixes of the diagnosis have not
been raised, makes every byte of the range durable that it stores to. -/
theorem RepairEnv.doRepair_durable (hwf : R.module.WF) (horig : R.module.Original)
    (hsource : R.source = .GENERIC) (htrace : ∀ e ∈ R.trace, e.WellFormed)
    (h : R.doRepair F = .ok (m', modified)) {A : AliasInfo}
    {fixMap : FixMap} (hA : R.construct F = some A) (hfixes : R.findFixes F A = some fixMap)
    {b : ℕ} {te : TraceEvent} {d : Diagnosis} (hbug : b ∈ R.bugs) (hte : R.trace[b]? = some te)
    (htype : te.type = .ASSERT_PERSISTED) (hd : diagnose R.clSz R.trace te b = some d)
    {steps : List Step} (hsteps : FollowsTrace R m' b steps)
    (hstores : ∀ s ∈ steps, ∀ k ∈ d.opIndices, s.event = some k → StoresUnraised R fixMap s) :
    ∀ range ∈ te.addresses, AllFlushed range (R.trace.take b) ∨
      CoveredAfresh range (R.trace.take b) ∨ FencedOff range (R.trace.take b) →
        ∀ x ∈ range, Written x (TraceEvent.opsOf (R.trace.take b)) →
          Durable x (executedOps m' R.trace steps) := by
  intro range hrange hsound x hx hwritten
  have hdurable := repairDurable_of_take htrace hte htype hrange hd hsound x hx hwritten
  exact hdurable.weave
    (weave_repairedOps hwf horig hsource h hA hfixes hbug hte htype hd hsteps hstores x)

end Run

/-! ### The store of two calls deep -/

/-- The store is executed, and nothing else that gives an event. -/
def storeSteps : List Step :=
  [⟨⟨InstId.orig 0, .store (.constant "1" (.other "i64"))
    (.arg (FnId.named "update") 0 (.other "i64*"))⟩, some 0⟩]

lemma storeBelowTrace_wellFormed : ∀ e ∈ storeBelowTrace, e.WellFormed := by
  rw [storeBelowTrace, List.forall_mem_cons, List.forall_mem_singleton]
  refine ⟨⟨rfl, ?_⟩, ⟨rfl, ?_⟩⟩ <;> simp
  · exact ⟨by decide, by decide⟩
  · exact ⟨by decide, by decide⟩

/-- The store covers the range, and neither a flush nor a fence follows. -/
lemma storeBelow_coveredAfresh : CoveredAfresh ⟨4096, 8⟩ (storeBelowTrace.take 1) := by
  refine ⟨[], storeBelowTrace.take 1, rfl, ?_, fun x hx => ?_⟩
  · rw [storeBelowTrace, List.take_succ_cons, List.take_zero, List.forall_mem_singleton]
    exact ⟨by decide, rfl⟩
  · exact ⟨_, List.mem_cons_self, rfl, _, List.mem_cons_self, hx⟩

theorem doRepair_durable_storeRepair :
    letI := FixLoc.compare InstId.address InstId.address_injective
    ∃ m' modified, storeRepair.doRepair noFlags = .ok (m', modified) ∧
      FollowsTrace storeRepair m' 1 storeSteps ∧
      ∀ x ∈ (⟨4096, 8⟩ : AddressInfo), Durable x (executedOps m' storeBelowTrace storeSteps) := by
  let := FixLoc.compare InstId.address InstId.address_injective
  have hrun : ∃ r, storeRepair.doRepair noFlags = .ok r ∧
      ∀ s ∈ storeSteps, s.inst ∈ storeRepair.module.insts ∧ s.inst ∈ r.1.insts :=
    ⟨_, rfl, by decide⟩
  obtain ⟨⟨m', modified⟩, hrun, hinsts⟩ := hrun
  have hsteps : FollowsTrace storeRepair m' 1 storeSteps := ⟨hinsts, rfl⟩
  -- the fix of the store stays primitive
  have hmap : ∃ fm desc, storeRepair.findFixes noFlags AliasInfo.empty = some fm ∧
      fm.find (FixLoc.single (InstId.orig 0)) = some desc ∧ desc.type.isPST = false :=
    ⟨_, _, rfl, rfl, rfl⟩
  obtain ⟨fm, desc, hfm, hfind, hprim⟩ := hmap
  have hd : diagnose 64 storeBelowTrace
      ⟨.ASSERT_PERSISTED, 1, [⟨4096, 8⟩], ⟨"main", "update.c", 9⟩, true, [], none⟩ 1 =
        some ⟨true, true, [0]⟩ := rfl
  have hstores : ∀ s ∈ storeSteps, ∀ k ∈ [0], s.event = some k →
      StoresUnraised storeRepair fm s := by
    intro s hs k _ _
    obtain rfl := List.mem_singleton.mp hs
    exact ⟨0, _, _, _, desc, rfl, rfl, rfl,
      ⟨_, List.mem_singleton_self _, _, rfl, List.mem_singleton_self _⟩, rfl, hfind, hprim⟩
  exact ⟨m', modified, hrun, hsteps, fun x hx => RepairEnv.doRepair_durable storeBelow_wf
    storeBelow_original rfl storeBelowTrace_wellFormed hrun rfl hfm (List.mem_singleton_self 1) rfl
    rfl hd hsteps hstores ⟨4096, 8⟩ (List.mem_singleton_self _)
    (.inr (.inl storeBelow_coveredAfresh)) x hx
    ⟨.store ⟨4096, 8⟩, List.mem_singleton_self _, hx⟩⟩

end Hippocrates
