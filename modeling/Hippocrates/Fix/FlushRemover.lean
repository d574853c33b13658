import Mathlib.Tactic
import Hippocrates.Fix.Applied
import Hippocrates.IR.Flushes

/-!
The pass of `FlushRemover.cpp`, which takes the flushes out of a program, and what it does to a
program that has been repaired.

* `FlushRemover.runOnModule`: the flushes are collected and erased one after the other;
  `runOnModule_eq` says that all flushes go and all else stays.

`runOnModule_repaired`: without the flushes the repaired program is the given one without flushes,
but for the fences and casts of the repair. No flush of the repair is overlooked, and none of the
program is hidden by it.
-/

namespace Hippocrates

/-! ### The pass -/

/-- `eraseFromParent`. -/
def Module.eraseFromParent (m : Module) (i : InstId) : Module :=
  m.rewrite fun j => if j.id = i then [] else [j]

namespace FlushRemover

def addIfIsFlush (l : List Instr) (i : Instr) : List Instr := if isFlush i then l ++ [i] else l

/-- The module without flushes, and whether there were any. -/
def runOnModule (m : Module) : Module × Bool :=
  let flushes := m.insts.foldl addIfIsFlush []
  (flushes.foldl (fun m i => m.eraseFromParent i.id) m, !flushes.isEmpty)

/-- Nothing is left of a flush. -/
def withoutFlush (i : Instr) : List Instr := if isFlush i then [] else [i]

section Spec

variable {m : Module}

lemma foldl_addIfIsFlush (l acc : List Instr) :
    l.foldl addIfIsFlush acc = acc ++ l.filter isFlush := by
  induction l generalizing acc with
  | nil => simp
  | cons i l ih =>
      rw [List.foldl_cons, ih, addIfIsFlush, List.filter_cons]
      split_ifs <;> simp

/-- Erasing some instructions one after the other. -/
lemma foldl_eraseFromParent (m : Module) (l : List Instr) :
    l.foldl (fun m i => m.eraseFromParent i.id) m =
      m.rewrite fun j => if j.id ∈ l.map Instr.id then [] else [j] := by
  induction l generalizing m with
  | nil => exact (Module.rewrite_eq_self fun _ _ => rfl).symm
  | cons i l ih =>
      rw [List.foldl_cons, ih, Module.eraseFromParent, Module.rewrite_rewrite]
      congr 1
      funext j
      by_cases hj : j.id = i.id <;> simp [hj]

/-- **The pass** erases the flushes, and nothing else. -/
lemma runOnModule_eq (hwf : m.WF) :
    runOnModule m = (m.rewrite withoutFlush, m.insts.any isFlush) := by
  have hflushes : m.insts.foldl addIfIsFlush [] = m.insts.filter isFlush := by
    rw [foldl_addIfIsFlush, List.nil_append]
  have hsame : ∀ j ∈ m.insts,
      (if j.id ∈ (m.insts.filter isFlush).map Instr.id then [] else [j]) = withoutFlush j := by
    intro j hj
    have hmem : j.id ∈ (m.insts.filter isFlush).map Instr.id ↔ isFlush j = true := by
      rw [List.mem_map]
      constructor
      · rintro ⟨k, hk, hid⟩
        rw [List.mem_filter] at hk
        exact hwf.eq_of_id hk.1 hj hid ▸ hk.2
      · exact fun hflush => ⟨j, List.mem_filter.mpr ⟨hj, hflush⟩, rfl⟩
    rw [withoutFlush]
    simp only [hmem]
  rw [runOnModule, hflushes, foldl_eraseFromParent, Module.rewrite_congr hsame]
  congr 1
  rw [Bool.eq_iff_iff, Bool.not_eq_true', List.isEmpty_eq_false_iff, List.any_eq_true]
  simp [List.filter_eq_nil_iff]

/-- No flush is left. -/
lemma isFlush_of_mem {j : Instr} (hj : j ∈ (m.rewrite withoutFlush).insts) : isFlush j = false := by
  rw [Module.insts_rewrite] at hj
  obtain ⟨k, -, hk⟩ := List.mem_flatMap.mp hj
  rw [withoutFlush] at hk
  split_ifs at hk with hflush
  · cases hk
  · rw [List.mem_singleton.mp hk]
    exact Bool.eq_false_iff.mpr hflush

end Spec

/-! ### Flushes of a repaired program -/

section Repaired

variable {G : GenEnv} {m m' : Module}

lemma erasesBlock_withoutFlush {b' b : Block} (h : ErasesBlock G b' b) :
    ErasesBlock G (b'.flatMap withoutFlush) (b.flatMap withoutFlush) := by
  induction h with
  | nil => exact .nil
  | @drop j b' b hj _ ih =>
      rw [List.flatMap_cons, withoutFlush]
      split_ifs
      · exact ih
      · exact .drop hj ih
  | @keep j i b' b hj _ ih =>
      rw [List.flatMap_cons, List.flatMap_cons, withoutFlush, withoutFlush, isFlush_erases hj]
      split_ifs
      · exact ih
      · exact .keep hj ih

lemma erasesFun_withoutFlush {f' f : Function} (h : ErasesFun G f' f) :
    ErasesFun G (f'.rewrite withoutFlush) (f.rewrite withoutFlush) := by
  rw [ErasesFun, Function.rewrite, Function.rewrite]
  dsimp only
  rw [List.forall₂_map_left_iff, List.forall₂_map_right_iff]
  exact h.imp fun b' b hb => erasesBlock_withoutFlush hb

/-- The erasure is kept where the flushes of both programs go. -/
lemma erasesTo_withoutFlush (h : ErasesTo G m' m) :
    ErasesTo G (m'.rewrite withoutFlush) (m.rewrite withoutFlush) := by
  obtain ⟨originals, clones, hfuns, horig, hclones⟩ := h
  refine ⟨originals.map fun p => (p.1, p.2.rewrite withoutFlush),
    clones.map fun p => (p.1, p.2.rewrite withoutFlush), by simp [Module.rewrite, hfuns], ?_,
    fun p' hp' => ?_⟩
  · rw [Module.rewrite]
    dsimp only
    rw [List.forall₂_map_left_iff, List.forall₂_map_right_iff]
    exact horig.imp fun p' p hp => ⟨hp.1, erasesFun_withoutFlush hp.2⟩
  · obtain ⟨q, hq, rfl⟩ := List.mem_map.mp hp'
    obtain ⟨hcopies, body, hbody, herases⟩ := hclones q hq
    exact ⟨hcopies, body.rewrite withoutFlush,
      List.mem_map.mpr ⟨(q.1.stripped, body), hbody, rfl⟩, erasesFun_withoutFlush herases⟩

end Repaired

section Run

variable [LinearOrder FixLoc] {R : RepairEnv} {F : Flags} {m' : Module} {modified : Bool}

/-- **The flushes of a repaired program**: the pass takes away all flushes of the repair and of the
program, so that it makes of the repaired program what it makes of the given one, up to the fences
and casts of the repair. -/
theorem runOnModule_repaired (hwf : R.module.WF) (horig : R.module.Original)
    (hF : F.disableRaising = false) (h : R.doRepair F = .ok (m', modified)) :
    ∃ A, R.construct F = some A ∧
      ErasesTo (R.fixer F A).genEnv (runOnModule m').1 (runOnModule R.module).1 ∧
      ∀ j ∈ (runOnModule m').1.insts, isFlush j = false := by
  obtain ⟨A, fixMap, m₁, hA, hknown, hfixes, hrun, hpatch⟩ := doRepair_eq_ok_iff.mp h
  rw [if_neg (by simp [hF])] at hpatch
  subst hpatch
  have hedits := findFixes_edits hwf horig hknown hfixes hrun
  have herases := erasesTo_withoutFlush (hedits.erasesTo horig hwf horig.erasesTo)
  rw [runOnModule_eq (hedits.wf hwf), runOnModule_eq hwf]
  exact ⟨A, hA, herases, fun j => isFlush_of_mem⟩

end Run

theorem runOnModule_repaired_storeRepair :
    letI := FixLoc.compare InstId.address InstId.address_injective
    ∃ m' modified, storeRepair.doRepair noFlags = .ok (m', modified) ∧
      (runOnModule m').2 = true ∧
      ∃ A, storeRepair.construct noFlags = some A ∧
        ErasesTo (storeRepair.fixer noFlags A).genEnv (runOnModule m').1
          (runOnModule storeRepair.module).1 ∧
        ∀ j ∈ (runOnModule m').1.insts, isFlush j = false := by
  let := FixLoc.compare InstId.address InstId.address_injective
  have hrun : ∃ r, storeRepair.doRepair noFlags = .ok r ∧ (runOnModule r.1).2 = true :=
    ⟨_, rfl, rfl⟩
  obtain ⟨⟨m', modified⟩, hrun, hflush⟩ := hrun
  exact ⟨m', modified, hrun, hflush,
    runOnModule_repaired storeBelow_wf storeBelow_original rfl hrun⟩

end FlushRemover

end Hippocrates
