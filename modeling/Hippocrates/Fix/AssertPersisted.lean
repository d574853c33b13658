import Mathlib.Tactic
import Hippocrates.Diagnosis.Scan
import Hippocrates.Fix.Raise
import Hippocrates.IR.Transform

/-!
`BugFixer::handleAssertPersisted` as a whole: the diagnosis of `Hippocrates.Diagnosis.Scan`,
and the insertion of the fixes of its operations into the fix map.

* `addAtInst`, `fixOp`, `handleAssertPersisted`: the insertion for one instruction, for one
  operation, and for the bug.
* `Repaired`: the map has, at some instruction of each operation with a mapped location, an
  entry that adds what the diagnosis found missing.

Only stores and compare-exchanges receive an entry. `handleAssertPersisted_repaired_iff`: every
operation is repaired exactly when each mapped location has an instruction that receives one,
from this bug, or had one that is enough before.
-/

namespace Hippocrates

open FixType TraceEvent.EventType

/-- The type of the fixes of a diagnosis. -/
def Diagnosis.fixType (d : Diagnosis) : FixType :=
  if d.missingFlush && d.missingFence then ADD_FLUSH_AND_FENCE
  else if d.missingFlush then ADD_FLUSH_ONLY
  else if d.missingFence then ADD_FENCE_ONLY
  else NO_FIX

/-- What the diagnosis found missing: a flush, a fence. -/
def Diagnosis.missing (d : Diagnosis) : Bool × Bool := (d.missingFlush, d.missingFence)

/-- Whether a fix adds a flush, and a fence. -/
def FixType.adds (t : FixType) : Bool × Bool := (t.does.1, t.does.2.1)

lemma Diagnosis.fixType_isCorrectness {d : Diagnosis} (h : d.fixType ≠ NO_FIX) :
    d.fixType.isCorrectness = true := by
  rw [Diagnosis.fixType] at h ⊢
  split_ifs at h ⊢ <;> first | rfl | exact absurd rfl h

/-- The fix of a diagnosis adds what it found missing. -/
lemma Diagnosis.missing_le_adds (d : Diagnosis) : d.missing ≤ d.fixType.adds := by
  obtain ⟨mf, mfe, ops⟩ := d
  cases mf <;> cases mfe <;> exact le_rfl

/-- Something is missing in every diagnosis. -/
lemma diagnose_fixType_ne {clSz : ℕ} {trace : List TraceEvent} {te : TraceEvent} {b : ℕ}
    {d : Diagnosis} (h : diagnose clSz trace te b = some d) : d.fixType ≠ NO_FIX := by
  obtain ⟨R, win, older, -, -, hwin, -, -⟩ := diagnose_eq_some_iff.mp h
  have hone : d.missingFlush = true ∨ d.missingFence = true := by
    generalize d.missingFlush = mf at hwin ⊢
    generalize d.missingFence = mfe at hwin ⊢
    cases hwin with
    | store => exact .inl rfl
    | flush => exact .inr rfl
    | @start win =>
        cases win.any isFence
        · exact .inr rfl
        · exact .inl rfl
  rw [Diagnosis.fixType]
  rcases hone with hf | hf <;> simp only [hf] <;> split_ifs <;> simp_all

/-- The fix a raise adds does what the fix it was made from does. -/
lemma raiseTarget_adds {E : RaiseEnv} {hasStart : Bool} {desc desc' : FixDesc} {curr : FixLoc}
    (h : raiseTarget E hasStart desc = some (some (curr, desc'))) :
    desc.type.adds ≤ desc'.type.adds := by
  obtain ⟨-, -, -, ht⟩ := raiseTarget_desc h
  have htop : ∀ a : Bool × Bool, a ≤ (true, true) := fun a => le_top
  rw [ht]
  split_ifs with hflush
  · rw [hflush]
    decide
  · exact htop _

section FixMap

variable [LinearOrder FixLoc]

/-- The fix of the operation `last` at one instruction of its location. -/
def addAtInst (clSz : ℕ) (E : RaiseEnv) (d : Diagnosis) (last : TraceEvent)
    (acc : FixMap × Bool) (i : Instr) : Option (FixMap × Bool) :=
  if i.pointerOperand.isNone then some acc -- neither a store nor a compare-exchange
  else if !(FixLoc.single i.id).isValid E.module then none
  else
    match last.addresses with
    | [] => none
    | addr :: _ =>
      if !addr.isSingleCacheLine clSz then none
      else if d.fixType = NO_FIX then some acc
      else
        (addFixToMapping E.module acc.1 (FixLoc.single i.id)
          (FixDesc.mk' d.fixType last.callstack 0)).map fun r => (r.1, r.2 || acc.2)

/-- The fixes of the operation `last` in one range of its location. -/
def addAtLoc (clSz : ℕ) (E : RaiseEnv) (d : Diagnosis) (last : TraceEvent)
    (acc : FixMap × Bool) (fLoc : FixLoc) : Option (FixMap × Bool) :=
  match fLoc.insts E.module with
  | none => none
  | some insts => insts.foldlM (addAtInst clSz E d last) acc

/-- The fix of an operation whose location is not mapped. -/
def indirectDesc (d : Diagnosis) (last : TraceEvent) : FixDesc :=
  if d.fixType = NO_FIX then FixDesc.mk' NO_FIX [] 0
  else FixDesc.mk' d.fixType last.callstack 0

/-- The fixes of one operation. -/
def fixOp (clSz : ℕ) (E : RaiseEnv) (d : Diagnosis) (t : List TraceEvent)
    (acc : FixMap × Bool) (lastOpIndex : ℕ) : Option (FixMap × Bool) :=
  match t[lastOpIndex]? with
  | none => none
  | some last =>
    match E.mapper last.location with
    | some fixLocs =>
      if fixLocs = [] then none else fixLocs.foldlM (addAtLoc clSz E d last) acc
    | none =>
      (raiseFixLocation E acc.1 none (indirectDesc d last)).map fun r => (r.1, r.2 || acc.2)

/-- `handleAssertPersisted`. -/
def handleAssertPersisted (clSz : ℕ) (E : RaiseEnv) (trace : List TraceEvent)
    (fixMap : FixMap) (te : TraceEvent) (bug_index : ℕ) : Option (FixMap × Bool) :=
  match diagnose clSz trace te bug_index with
  | none => none
  | some d => d.opIndices.foldlM (fixOp clSz E d trace) (fixMap, false)

/-! ### What the fixes of the map add -/

/-- Whether the map has a fix at `l` that adds what is needed: a flush, a fence. -/
def Adds (fixMap : FixMap) (need : Bool × Bool) (l : FixLoc) : Prop :=
  ∃ desc, fixMap.find l = some desc ∧ need ≤ desc.type.adds

/-- From `fixMap` to `fixMap'`, exactly the locations of `S` come to have such a fix. -/
def AddsAt (need : Bool × Bool) (fixMap fixMap' : FixMap) (S : Set FixLoc) : Prop :=
  ∀ l, Adds fixMap' need l ↔ Adds fixMap need l ∨ l ∈ S

variable {need : Bool × Bool} {fixMap fixMap' : FixMap}

lemma addsAt_refl : AddsAt need fixMap fixMap ∅ := fun _ => by simp

lemma AddsAt.trans {fixMap'' : FixMap} {S T : Set FixLoc} (h : AddsAt need fixMap fixMap' S)
    (h' : AddsAt need fixMap' fixMap'' T) : AddsAt need fixMap fixMap'' (S ∪ T) := by
  intro l
  rw [h' l, h l, Set.mem_union, or_assoc]

/-- A merge keeps what the new fix adds. -/
lemma adds_le_coalesce {old desc : FixDesc} {r : Option FixDesc}
    (hdesc : desc.type.isCorrectness = true) (h : coalesce old desc = some r) :
    desc.type.adds ≤ (r.getD old).type.adds := by
  have htop : ∀ a : Bool × Bool, a ≤ (true, true) := fun a => le_top
  cases coalesce_cases h with
  | equal heq =>
      have ht : old.type = desc.type := by
        simp only [FixDesc.eq, Bool.and_eq_true, beq_iff_eq] at heq
        exact heq.1.1
      exact ht ▸ le_rfl
  | both => exact htop _
  | stays hold =>
      rw [Option.getD_none, hold]
      exact htop _
  | removal _ hdesc' =>
      rw [hdesc'] at hdesc
      cases hdesc
  | subprogram hold =>
      rw [Option.getD_none, hold]
      exact htop _
  | replaced => exact le_rfl
  | fenced => exact htop _

/-- **One call**: afterwards the map has a fix that adds what is needed at `fl`, and elsewhere
where it had one. -/
lemma addFixToMapping_addsAt {m : Module} {fl : FixLoc} {desc : FixDesc} {res : Bool}
    (hdesc : desc.type.isCorrectness = true) (hneed : need ≤ desc.type.adds)
    (h : addFixToMapping m fixMap fl desc = some (fixMap', res)) :
    AddsAt need fixMap fixMap' {fl} := by
  have hinsert : ∀ new : FixDesc, need ≤ new.type.adds →
      AddsAt need fixMap (fixMap.insert fl new) {fl} := by
    intro new hnew l
    rw [Set.mem_singleton_iff, Adds, OrderedMap.find_insert]
    split_ifs with hl
    · exact iff_of_true ⟨new, rfl, hnew⟩ (.inr hl)
    · rw [or_iff_left hl, Adds]
  rw [addFixToMapping] at h
  split_ifs at h
  cases hfind : fixMap.find fl with
  | none =>
      simp only [hfind, Option.some.injEq, Prod.mk.injEq] at h
      exact h.1 ▸ hinsert desc hneed
  | some old =>
      cases hco : coalesce old desc with
      | none => simp [hfind, hco] at h
      | some r =>
          -- coalescing never loses what either fix adds
          have hle := hneed.trans (adds_le_coalesce hdesc hco)
          cases r with
          | none =>
              simp only [hfind, hco, Option.some.injEq, Prod.mk.injEq] at h
              obtain ⟨rfl, -⟩ := h
              intro l
              refine ⟨.inl, ?_⟩
              rintro (hl | rfl)
              · exact hl
              · exact ⟨old, hfind, hle⟩
          | some new =>
              simp only [hfind, hco, Option.some.injEq, Prod.mk.injEq] at h
              exact h.1 ▸ hinsert new hle

/-- What the steps of a loop over the map add, the loop adds. -/
lemma foldlM_addsAt {α : Type*} {step : FixMap × Bool → α → Option (FixMap × Bool)}
    {S : α → Set FixLoc} {xs : List α}
    (hstep : ∀ x ∈ xs, ∀ acc acc', step acc x = some acc' → AddsAt need acc.1 acc'.1 (S x))
    {acc acc' : FixMap × Bool} (h : xs.foldlM step acc = some acc') :
    AddsAt need acc.1 acc'.1 {l | ∃ x ∈ xs, l ∈ S x} := by
  induction xs generalizing acc with
  | nil =>
      obtain rfl := Option.some.inj h
      simpa using addsAt_refl
  | cons x xs ih =>
      rw [List.foldlM_cons, Option.bind_eq_bind, Option.bind_eq_some_iff] at h
      obtain ⟨mid, hx, hxs⟩ := h
      have hrest := ih (fun y hy => hstep y (List.mem_cons_of_mem x hy)) hxs
      have hboth := (hstep x List.mem_cons_self acc mid hx).trans hrest
      intro l
      rw [hboth l]
      simp

/-! ### The locations that receive a fix -/

/-- The locations an operation gives a fix to: the stores and compare-exchanges of its
location, or the call site the fix is raised to. -/
def receivers (E : RaiseEnv) (d : Diagnosis) (last : TraceEvent) : Set FixLoc :=
  match E.mapper last.location with
  | some fixLocs =>
    {l | ∃ i, InstOf E.module fixLocs i ∧ i.pointerOperand.isSome ∧ l = FixLoc.single i.id}
  | none => {l | ∃ desc, raiseTarget E false (indirectDesc d last) = some (some (l, desc))}

section Loops

variable {clSz : ℕ} {E : RaiseEnv} {d : Diagnosis} {last : TraceEvent}
  {acc acc' : FixMap × Bool}

lemma addAtInst_addsAt {i : Instr} (hd : d.fixType ≠ NO_FIX)
    (h : addAtInst clSz E d last acc i = some acc') :
    AddsAt d.missing acc.1 acc'.1 {l | i.pointerOperand.isSome ∧ l = FixLoc.single i.id} := by
  rw [addAtInst] at h
  split_ifs at h with hnone hvalid
  · obtain rfl := Option.some.inj h
    have hsome : i.pointerOperand.isSome = false := by
      simpa [Option.isNone_iff_eq_none] using hnone
    simpa [hsome] using addsAt_refl
  · have hsome : i.pointerOperand.isSome = true := by
      simpa [Option.isSome_iff_ne_none, Option.isNone_iff_eq_none] using hnone
    cases haddr : last.addresses with
    | nil => simp [haddr] at h
    | cons addr rest =>
        simp only [haddr] at h
        split_ifs at h
        obtain ⟨⟨fixMap', res⟩, hadd, rfl⟩ := Option.map_eq_some_iff.mp h
        have hone := addFixToMapping_addsAt (Diagnosis.fixType_isCorrectness hd)
          (Diagnosis.missing_le_adds d) hadd
        intro l
        simpa [hsome] using hone l

lemma addAtLoc_addsAt {fLoc : FixLoc} (hd : d.fixType ≠ NO_FIX)
    (h : addAtLoc clSz E d last acc fLoc = some acc') :
    AddsAt d.missing acc.1 acc'.1 {l | ∃ i, InstOf E.module [fLoc] i ∧
      i.pointerOperand.isSome ∧ l = FixLoc.single i.id} := by
  rw [addAtLoc] at h
  cases hinsts : fLoc.insts E.module with
  | none => simp [hinsts] at h
  | some insts =>
      rw [hinsts] at h
      have hloop := foldlM_addsAt
        (fun i _ acc acc' => @addAtInst_addsAt _ clSz E d last acc acc' i hd) h
      intro l
      simpa [InstOf, hinsts] using hloop l

/-- A raise gives a fix to its target. -/
lemma raiseFixLocation_addsAt {fixMap fixMap' : FixMap} {desc : FixDesc} {res : Bool}
    (hneed : need ≤ desc.type.adds)
    (h : raiseFixLocation E fixMap none desc = some (fixMap', res)) :
    AddsAt need fixMap fixMap' {l | ∃ d', raiseTarget E false desc = some (some (l, d'))} := by
  rw [raiseFixLocation, Option.isSome_none] at h
  cases htarget : raiseTarget E false desc with
  | none => simp [htarget] at h
  | some target =>
      cases target with
      | none =>
          simp only [htarget, Option.some.injEq, Prod.mk.injEq] at h
          obtain ⟨rfl, -⟩ := h
          simpa [htarget] using addsAt_refl
      | some p =>
          obtain ⟨curr, desc'⟩ := p
          simp only [htarget] at h
          have hcorr : desc'.type.isCorrectness = true := by
            rw [isCorrectness, raiseTarget_isPST htarget, Bool.or_true]
          have hone := addFixToMapping_addsAt hcorr (hneed.trans (raiseTarget_adds htarget)) h
          intro l
          rw [hone l]
          simp [eq_comm]

/-- **One operation** gives its fix to its receivers. -/
lemma fixOp_addsAt {t : List TraceEvent} {k : ℕ} (hd : d.fixType ≠ NO_FIX)
    (hlast : t[k]? = some last) (h : fixOp clSz E d t acc k = some acc') :
    AddsAt d.missing acc.1 acc'.1 (receivers E d last) := by
  rw [fixOp, hlast] at h
  dsimp only at h
  rw [receivers]
  cases hmap : E.mapper last.location with
  | some fixLocs =>
      simp only [hmap] at h
      split_ifs at h
      have hloop := foldlM_addsAt
        (fun fLoc _ acc acc' => @addAtLoc_addsAt _ clSz E d last acc acc' fLoc hd) h
      intro l
      rw [hloop l]
      refine or_congr_right ⟨?_, ?_⟩
      · rintro ⟨fLoc, hmem, i, ⟨g, hg, hi⟩, hrest⟩
        obtain rfl := List.mem_singleton.mp hg
        exact ⟨i, ⟨g, hmem, hi⟩, hrest⟩
      · rintro ⟨i, ⟨g, hg, hi⟩, hrest⟩
        exact ⟨g, hg, i, ⟨g, List.mem_singleton_self g, hi⟩, hrest⟩
  | none =>
      simp only [hmap] at h
      obtain ⟨⟨fixMap', res⟩, hraise, rfl⟩ := Option.map_eq_some_iff.mp h
      -- an operation that is not mapped gets its fix on the stack
      have hdesc : (indirectDesc d last).type = d.fixType := by
        rw [indirectDesc, if_neg hd]
        rfl
      have hneed : d.missing ≤ (indirectDesc d last).type.adds := by
        rw [hdesc]
        exact d.missing_le_adds
      exact raiseFixLocation_addsAt hneed hraise

end Loops

/-- The map has, at some instruction of each operation with a mapped location, a fix that adds
what is missing. -/
def Repaired (E : RaiseEnv) (t : List TraceEvent) (d : Diagnosis) (fixMap : FixMap) : Prop :=
  ∀ k ∈ d.opIndices, ∀ last, t[k]? = some last →
    ∀ fixLocs, E.mapper last.location = some fixLocs →
      ∃ i, InstOf E.module fixLocs i ∧ Adds fixMap d.missing (FixLoc.single i.id)

/-- Each mapped location has an instruction that is a receiver of this bug, or had a fix that
is enough before. -/
def Receives (E : RaiseEnv) (t : List TraceEvent) (d : Diagnosis) (fixMap : FixMap) : Prop :=
  ∀ k ∈ d.opIndices, ∀ last, t[k]? = some last →
    ∀ fixLocs, E.mapper last.location = some fixLocs →
      ∃ i, InstOf E.module fixLocs i ∧ (Adds fixMap d.missing (FixLoc.single i.id) ∨
        ∃ j ∈ d.opIndices, ∃ op, t[j]? = some op ∧ FixLoc.single i.id ∈ receivers E d op)

/-- **Every operation is repaired** exactly when every mapped location has a receiver or a
fix. -/
theorem handleAssertPersisted_repaired_iff {clSz : ℕ} {E : RaiseEnv} {t : List TraceEvent}
    {te : TraceEvent} {b : ℕ} {d : Diagnosis} {fixMap fixMap' : FixMap} {added : Bool}
    (hd : diagnose clSz t te b = some d)
    (h : handleAssertPersisted clSz E t fixMap te b = some (fixMap', added)) :
    Repaired E t d fixMap' ↔ Receives E t d fixMap := by
  rw [handleAssertPersisted, hd] at h
  have hop : ∀ k ∈ d.opIndices, ∀ acc acc', fixOp clSz E d t acc k = some acc' →
      AddsAt d.missing acc.1 acc'.1 {l | ∃ op, t[k]? = some op ∧ l ∈ receivers E d op} := by
    intro k _ acc acc' hk
    cases hlast : t[k]? with
    | none => simp [fixOp, hlast] at hk
    | some last =>
        intro l
        simpa using fixOp_addsAt (diagnose_fixType_ne hd) hlast hk l
  have hrun := foldlM_addsAt hop h
  have hiff : ∀ i : Instr, Adds fixMap' d.missing (FixLoc.single i.id) ↔
      Adds fixMap d.missing (FixLoc.single i.id) ∨
        ∃ j ∈ d.opIndices, ∃ op, t[j]? = some op ∧ FixLoc.single i.id ∈ receivers E d op :=
    fun i => hrun (FixLoc.single i.id)
  simp only [Repaired, Receives, hiff]

end FixMap

/-! ### A missing fence after a flush -/

/-- A function that stores and flushes, and the check of it. -/
def storeAndFlush : Module :=
  ⟨[(FnId.named "incorrect", ⟨[[
      ⟨InstId.orig 0,
        .store (.constant "i" (.other "i8")) (.arg (FnId.named "incorrect") 0 .i8Ptr)⟩,
      ⟨InstId.orig 1, .call (.function (FnId.intrinsic .x86_clwb))
        [.arg (FnId.named "incorrect") 0 .i8Ptr]⟩,
      ⟨InstId.orig 2, .other "ret" []⟩]]⟩)], 0⟩

/-- Each line is one instruction. -/
def storeAndFlushEnv : RaiseEnv where
  module := storeAndFlush
  mapper li :=
    if li.line = 24 then some [FixLoc.single (InstId.orig 0)]
    else if li.line = 25 then some [FixLoc.single (InstId.orig 1)]
    else none
  immutableFns _ := false
  heuristicIdx _ := some 0

def incorrectLine (line : ℤ) : LocationInfo := ⟨"incorrect", "001.c", line⟩

/-- The store is flushed and not fenced. -/
def missingFenceTrace : List TraceEvent :=
  [⟨.STORE, 1, [⟨4096, 1⟩], incorrectLine 24, false, [incorrectLine 24], none⟩,
    ⟨.FLUSH, 2, [⟨4096, 64⟩], incorrectLine 25, false, [incorrectLine 25], none⟩,
    ⟨.ASSERT_PERSISTED, 3, [⟨4096, 1⟩], incorrectLine 24, true, [incorrectLine 24], none⟩]

/-- Without the flush. -/
def missingFlushTrace : List TraceEvent :=
  [⟨.STORE, 1, [⟨4096, 1⟩], incorrectLine 24, false, [incorrectLine 24], none⟩,
    ⟨.ASSERT_PERSISTED, 2, [⟨4096, 1⟩], incorrectLine 24, true, [incorrectLine 24], none⟩]

/-- The diagnosis names the flush, whose line holds no store: nothing is added. -/
theorem missingFence_dropped :
    letI := FixLoc.compare InstId.address InstId.address_injective
    ∃ te d, missingFenceTrace[2]? = some te ∧ te.type = .ASSERT_PERSISTED ∧ te.isBug = true ∧
      diagnose 64 missingFenceTrace te 2 = some d ∧ d = ⟨false, true, [1]⟩ ∧
      handleAssertPersisted 64 storeAndFlushEnv missingFenceTrace OrderedMap.empty te 2 =
        some (OrderedMap.empty, false) ∧
      ¬ Repaired storeAndFlushEnv missingFenceTrace d OrderedMap.empty := by
  let := FixLoc.compare InstId.address InstId.address_injective
  refine ⟨_, _, rfl, rfl, rfl, by decide, rfl, rfl, fun hrep => ?_⟩
  obtain ⟨i, -, desc, hfind, -⟩ := hrep 1 (by simp) _ rfl _ rfl
  rw [OrderedMap.find_empty] at hfind
  cases hfind

theorem handleAssertPersisted_repaired_iff_missingFlush :
    letI := FixLoc.compare InstId.address InstId.address_injective
    ∃ te d fixMap, missingFlushTrace[1]? = some te ∧
      handleAssertPersisted 64 storeAndFlushEnv missingFlushTrace OrderedMap.empty te 1 =
        some (fixMap, true) ∧
      (Repaired storeAndFlushEnv missingFlushTrace d fixMap ↔
        Receives storeAndFlushEnv missingFlushTrace d OrderedMap.empty) := by
  let := FixLoc.compare InstId.address InstId.address_injective
  have hd : diagnose 64 missingFlushTrace ⟨.ASSERT_PERSISTED, 2, [⟨4096, 1⟩], incorrectLine 24,
      true, [incorrectLine 24], none⟩ 1 = some ⟨true, true, [0]⟩ := by decide
  refine ⟨_, _, _, rfl, rfl, handleAssertPersisted_repaired_iff hd rfl⟩

end Hippocrates
