import Mathlib.Tactic
import Hippocrates.Fix.Planned
import Hippocrates.IR.Grow

/-!
What a whole run of `BugFixer::doRepair` does to the module.

* `Fixer.fixBugs_generic`: the fixes of a generic trace, one after the other. They are edits, and
  the code of each primitive fix is after its store in the end.
* `doRepair_erasesTo`: the module of the end erases to the given one. `doRepair_repairs`: it has the
  flushes and fences that the bugs of the report miss. `doRepair_primitive`: without subprograms it
  has nothing else.
* `doRepair_pmtest_iff`: a run for a trace of PMTest ends well only if there is nothing to fix. Its
  generator asks for calls that trace an assignment, and no fix is made for a call.
-/

namespace Hippocrates

open FixType

/-! ### The fixes of a generic trace -/

namespace Fixer

variable {X : Fixer} {m m' : Module}

lemma orFail_eq_ok_iff {α : Type} {o : Option α} {a : α} : orFail o = .ok a ↔ o = some a := by
  cases o with
  | none => exact iff_of_false (fun h => by cases h) fun h => by cases h
  | some b => simp [orFail]

lemma map_eq_ok_iff {α β : Type} {f : α → β} {r : Except Fault α} {b : β} :
    r.map f = .ok b ↔ ∃ a, r = .ok a ∧ f a = b := by
  cases r with
  | error e => simp [Except.map]
  | ok a => simp [Except.map]

/-- As long as the descriptor is not missed, the loop is that of the generator. -/
lemma runFrames_generic {callstack : List LocationInfo} {n : ℕ} {r : Round}
    (h : X.runFrames callstack m n = .ok r) :
    Hippocrates.runFrames X.genEnv callstack true m n = some r := by
  induction n generalizing r with
  | zero =>
      rw [runFrames] at h
      cases h
      rfl
  | succ n ih =>
      rw [runFrames] at h
      rw [Hippocrates.runFrames]
      split at h
      · cases h
      · rename_i hrun
        cases h
        rw [ih hrun]
      · rename_i s hrun
        rw [ih hrun]
        rw [frameStep] at h
        split_ifs at h
        exact orFail_eq_ok_iff.mp h

/-- A fix of a generic trace is one of the generator. -/
lemma fixBug_generic (hsource : X.source = .GENERIC) {fl : FixLoc} {desc : FixDesc} {res : Bool}
    (h : X.fixBug m fl desc = .ok (m', res)) :
    Hippocrates.fixBug X.genEnv m fl desc = some (m', res) := by
  rw [fixBug, hsource] at h
  split at h
  · rename_i hpst
    obtain ⟨⟨m₁, ret⟩, hins, heq⟩ := map_eq_ok_iff.mp h
    simp only [Prod.mk.injEq] at heq
    obtain ⟨rfl, rfl⟩ := heq
    -- a generic run is at each frame what the generator of a generic trace does
    have hsub : Hippocrates.insertPersistentSubProgram X.genEnv m desc.dynStack desc.stackIdx true
        (desc.type = ADD_PERSIST_CALLSTACK_OPT) = some (m₁, ret) := by
      rw [insertPersistentSubProgram, hsource] at hins
      dsimp only at hins
      rw [Hippocrates.insertPersistentSubProgram]
      split at hins
      · cases hins
      · rename_i hrun
        cases hins
        rw [runFrames_generic hrun]
      · rename_i m₂ retInst hrun
        rw [runFrames_generic hrun]
        dsimp only
        split_ifs at hins ⊢
        · split at hins
          · cases hins
          · exact orFail_eq_ok_iff.mp hins
        · cases hins
          rfl
    rw [Hippocrates.fixBug]
    split
    case h_4 => rw [hsub]
    case h_5 => rw [hsub]
    all_goals
      rename_i htype
      rw [htype] at hpst
      cases hpst
  · exact orFail_eq_ok_iff.mp h

/-- **The fixes of a generic trace** are edits, and each primitive one has its code after its store
in the end. -/
lemma fixBugs_generic (hsource : X.source = .GENERIC) {fixes : List (FixLoc × FixDesc)}
    {res : Bool} (hwf : m.WF) (honly : m.OnlyFlushes)
    (h : X.fixBugs m fixes = .ok (m', res)) :
    Edits X.genEnv m m' ∧ ∀ fl desc, (fl, desc) ∈ fixes → desc.type.isPrimative = true →
      ∀ i ∈ m.insts, fl = FixLoc.single i.id → ∀ v, i.pointerOperand = some v →
        ∃ n, (desc.type.code n v).Sublist (m'.run i.id) := by
  induction fixes generalizing m res with
  | nil =>
      rw [fixBugs] at h
      cases h
      exact ⟨.refl, fun fl desc hmem => absurd hmem List.not_mem_nil⟩
  | cons fix fixes ih =>
      obtain ⟨fl₀, desc₀⟩ := fix
      rw [fixBugs] at h
      split at h
      · cases h
      · rename_i m₁ res₁ hfix
        obtain ⟨⟨m₂, res₂⟩, hrest, heq⟩ := map_eq_ok_iff.mp h
        simp only [Prod.mk.injEq] at heq
        obtain ⟨rfl, -⟩ := heq
        have hfix' := fixBug_generic hsource hfix
        have hedits : Edits X.genEnv m m₁ := fixBug_edits hwf hfix'
        have hwf₁ := hedits.wf hwf
        obtain ⟨hgrow, honly₁⟩ := hedits.growsTo honly
        obtain ⟨hedits', hcode⟩ := ih hwf₁ honly₁ hrest
        refine ⟨hedits.trans hedits', fun fl desc hmem hprim i hi hfl v hv => ?_⟩
        -- the store may have been moved by the first fix, but keeps its id and its pointer
        obtain ⟨i₁, hi₁, hkeep, -⟩ := hgrow.run hwf hwf₁ hi
        rcases List.mem_cons.mp hmem with heq | hmem
        · obtain ⟨rfl, rfl⟩ := Prod.mk.inj heq
          subst hfl
          have hrun := fixBug_run hwf hi hv hprim hfix'
          obtain ⟨-, -, -, hsub⟩ :=
            (hedits'.growsTo honly₁).1.run hwf₁ (hedits'.wf hwf₁) hi₁
          rw [hkeep.id, hrun] at hsub
          exact ⟨m.next, (List.sublist_append_left _ _).trans hsub⟩
        · rw [← hkeep.id] at hfl ⊢
          exact hcode fl desc hmem hprim i₁ hi₁ hfl v (hkeep.pointer.trans hv)

/-- **Primitive fixes alone**, in any order: nothing fails, and what they insert is their code,
after their stores. -/
lemma fixBugs_primitive (hsource : X.source = .GENERIC) {fixes : List (FixLoc × FixDesc)}
    (hwf : m.WF) (hnodup : (fixes.map Prod.fst).Nodup)
    (hfixes : ∀ p ∈ fixes, p.2.type.isPrimative = true ∧ ∃ i ∈ m.insts,
      i.pointerOperand.isSome = true ∧ (m.nextOf i.id).isSome = true ∧ p.1 = FixLoc.single i.id) :
    ∃ m' Q, X.fixBugs m fixes = .ok (m', !fixes.isEmpty) ∧ m'.funs = (m.rewrite Q).funs ∧
      ∀ i ∈ m.insts, (∀ desc v, (FixLoc.single i.id, desc) ∈ fixes → i.pointerOperand = some v →
          ∃ n, Q i = i :: desc.type.code n v) ∧
        ((∀ desc, (FixLoc.single i.id, desc) ∉ fixes) → Q i = [i]) := by
  induction fixes generalizing m with
  | nil =>
      refine ⟨m, fun j => [j], rfl, ?_, fun i _ => ⟨fun _ _ hmem => ?_, fun _ => rfl⟩⟩
      · rw [Module.rewrite_eq_self fun _ _ => rfl]
      · exact absurd hmem List.not_mem_nil
  | cons fix fixes ih =>
      obtain ⟨fl, desc⟩ := fix
      rw [List.map_cons, List.nodup_cons] at hnodup
      rw [List.forall_mem_cons] at hfixes
      obtain ⟨⟨hprim, i, hi, hptr, hnext, rfl⟩, hrest⟩ := hfixes
      obtain ⟨v, hv⟩ := Option.isSome_iff_exists.mp hptr
      obtain ⟨hnames, hnew⟩ := code_spec m desc.type v
      have hwf₁ := hwf.insertAfter (i := i.id) hnames
      have hmem₁ : ∀ j ∈ m.insts, j ∈ (m.insertAfter i.id (desc.type.code m.next v)).insts := by
        intro j hj
        rw [Module.insts_insertAfter]
        exact List.mem_flatMap.mpr ⟨j, hj, mem_insertedAfter_self _ _ j⟩
      have hfirst : X.fixBug m (FixLoc.single i.id) desc =
          .ok (m.insertAfter i.id (desc.type.code m.next v), true) := by
        have hpst : desc.type.isPST = false := by
          revert hprim
          cases desc.type <;> decide
        obtain ⟨next, hnext⟩ := Option.isSome_iff_exists.mp hnext
        rw [fixBug, if_neg (by simp [hpst]), hsource]
        dsimp only
        rw [fixBug_single hwf hi hv hprim, hnext]
        rfl
      obtain ⟨m', Q, hrun, hfuns, hQ⟩ := ih hwf₁ hnodup.2 fun p hp => by
        obtain ⟨hp', j, hj, hjptr, hjnext, hpj⟩ := hrest p hp
        exact ⟨hp', j, hmem₁ j hj, hjptr, hwf.nextOf_insertAfter hj hnames hjnext, hpj⟩
      -- the later fixes are at other instructions of the given module
      have hother : ∀ k, (∀ p ∈ fixes, p.1 ≠ FixLoc.single k) →
          ∀ j ∈ (m.insertAfter i.id (desc.type.code m.next v)).insts, j.id = k → Q j = [j] := by
        rintro k hk j hj rfl
        exact (hQ j hj).2 fun desc' hmem => hk _ hmem rfl
      have hnot : ∀ p ∈ fixes, p.1 ≠ FixLoc.single i.id := fun p hp heq =>
        hnodup.1 (List.mem_map.mpr ⟨p, hp, heq⟩)
      have hself : Q i = [i] := hother i.id hnot i (hmem₁ i hi) rfl
      have hcode : (desc.type.code m.next v).flatMap Q = desc.type.code m.next v := by
        have hk : ∀ k ∈ desc.type.code m.next v, Q k = [k] := by
          intro k hk
          refine hother k.id (fun p hp heq => ?_) k ?_ rfl
          · obtain ⟨-, j, hj, -, -, hpj⟩ := hrest p hp
            rw [hpj] at heq
            exact hnames.ne hwf hk hj (congrArg FixLoc.first heq).symm
          · rw [Module.insts_insertAfter]
            refine List.mem_flatMap.mpr ⟨i, hi, ?_⟩
            rw [insertedAfter, if_pos rfl]
            exact List.mem_cons_of_mem i hk
        exact (List.flatMap_congr hk).trans (List.flatMap_singleton' _)
      refine ⟨m', fun j => (insertedAfter i.id (desc.type.code m.next v) j).flatMap Q, ?_, ?_, ?_⟩
      · rw [fixBugs, hfirst]
        dsimp only
        rw [hrun]
        rfl
      · rw [hfuns]
        show ((m.rewrite _).rewrite Q).funs = _
        rw [Module.rewrite_rewrite]
      · intro j hj
        dsimp only
        by_cases hji : j.id = i.id
        · obtain rfl := hwf.eq_of_id hj hi hji
          have hcode' : (insertedAfter j.id (desc.type.code m.next v) j).flatMap Q =
              j :: desc.type.code m.next v := by
            rw [insertedAfter, if_pos rfl, List.flatMap_cons, hself, hcode]
            rfl
          rw [hcode']
          refine ⟨fun desc' v' hmem hv' => ?_, fun hnone => absurd List.mem_cons_self (hnone desc)⟩
          obtain rfl := Option.some.inj (hv.symm.trans hv')
          rcases List.mem_cons.mp hmem with heq | hmem
          · exact (Prod.mk.inj heq).2 ▸ ⟨m.next, rfl⟩
          · exact absurd rfl (hnot _ hmem)
        · rw [insertedAfter, if_neg hji, List.flatMap_singleton]
          refine ⟨fun desc' v' hmem hv' => ?_, fun hnone => ?_⟩
          · rcases List.mem_cons.mp hmem with heq | hmem
            · exact absurd (congrArg FixLoc.first (Prod.mk.inj heq).1) hji
            · exact (hQ j (hmem₁ j hj)).1 desc' v' hmem hv'
          · exact (hQ j (hmem₁ j hj)).2 fun desc' hmem =>
              hnone desc' (List.mem_cons_of_mem _ hmem)

end Fixer

/-! ### The fixes of a PMTest trace -/

/-- The generator for PMTest puts nothing after a store. -/
lemma PMTestFixGenerator.fixBug_eq_none {m : Module} {i : Instr} {desc : FixDesc} (hwf : m.WF)
    (hi : i ∈ m.insts) (hptr : i.pointerOperand.isSome = true)
    (hprim : desc.type.isPrimative = true) :
    PMTestFixGenerator.fixBug m (FixLoc.single i.id) desc = none := by
  -- only at a call does this generator find something to flush or to fence
  have hcall : ∀ callee args, i.op ≠ .call callee args := by
    intro callee args hop
    rw [Instr.pointerOperand, hop] at hptr
    cases hptr
  have hfind : m.findInst (FixLoc.single i.id).last = some i := hwf.findInst_eq hi
  have hflush : PMTestFixGenerator.insertFlush m (FixLoc.single i.id) = some (m, none) := by
    rw [PMTestFixGenerator.insertFlush, hfind]
    dsimp only
    cases hop : i.op with
    | call callee args => exact absurd hop (hcall callee args)
    | _ => rfl
  have hfence : PMTestFixGenerator.insertFence m (FixLoc.single i.id) = some (m, none) := by
    rw [PMTestFixGenerator.insertFence, hfind]
    dsimp only
    cases hop : i.op with
    | call callee args => exact absurd hop (hcall callee args)
    | _ => rfl
  rw [PMTestFixGenerator.fixBug]
  split
  · rw [hflush]
    rfl
  · rw [hfence]
    rfl
  · rw [hflush]
  all_goals simp_all [isPrimative]

/-- No fix of the map can be applied for a trace of PMTest. -/
lemma Fixer.fixBug_pmtest {X : Fixer} {E : RaiseEnv} {t : List TraceEvent} {raising : Bool}
    {fl : FixLoc} {desc : FixDesc} (hsource : X.source = .PMTEST) (hwf : E.module.WF)
    (hplanned : Planned E t raising fl desc) (r : Module × Bool) :
    X.fixBug E.module fl desc ≠ .ok r := by
  intro h
  rw [Fixer.fixBug] at h
  split_ifs at h with hpst
  · obtain ⟨s, hs, -⟩ := Fixer.map_eq_ok_iff.mp h
    rw [Fixer.insertPersistentSubProgram, hsource] at hs
    cases hs
  · rw [hsource] at h
    rcases hplanned.kind with ⟨hpst', -⟩ | ⟨hprim, i, hi, hptr, rfl, -⟩
    · exact hpst hpst'
    · rw [PMTestFixGenerator.fixBug_eq_none hwf hi hptr hprim] at h
      cases h

/-- So there is none if they have all been applied. -/
lemma Fixer.fixBugs_pmtest {X : Fixer} {E : RaiseEnv} {t : List TraceEvent} {raising : Bool}
    {fixes : List (FixLoc × FixDesc)} {r : Module × Bool} (hsource : X.source = .PMTEST)
    (hwf : E.module.WF) (hplanned : ∀ p ∈ fixes, Planned E t raising p.1 p.2)
    (h : X.fixBugs E.module fixes = .ok r) : fixes = [] ∧ r = (E.module, false) := by
  cases fixes with
  | nil =>
      rw [fixBugs] at h
      cases h
      exact ⟨rfl, rfl⟩
  | cons fix fixes =>
      obtain ⟨fl, desc⟩ := fix
      rw [fixBugs] at h
      split at h
      · cases h
      · rename_i hfix
        exact absurd hfix (fixBug_pmtest hsource hwf (hplanned _ List.mem_cons_self) _)

/-! ### The patch of the memory primitives -/

section Patch

variable {m m' : Module} {dumb changed : Bool}

/-- What the tool has inserted is not taken for a memory primitive. -/
lemma IsInserted.selected_eq {i : Instr} (h : IsInserted i) : selected i = none := by
  rw [selected]
  rcases h.op with ⟨v, ty, hop⟩ | ⟨f, args, hop, hf⟩
  · rw [hop]
  · have hname : f.getIntrinsicID = .x86_clwb ∨ f.getIntrinsicID = .x86_sse_sfence := by
      simpa [FnId.isFlushOrFence] using hf
    have hfull : f.fullName = f.getIntrinsicID.name := by
      rw [FnId.fullName, FnId.getIntrinsicID]
      cases hroot : f.root with
      | named name => simp [FnId.getIntrinsicID, hroot] at hname
      | intrinsic id => rfl
    rw [hop]
    dsimp only
    rcases hname with hname | hname
    · rw [hfull, hname, if_pos (by decide)]
      rfl
    · have hnone : namedPrimitives IntrinsicID.x86_sse_sfence.name = [] := by decide
      rw [hfull, hname, hnone]
      dsimp only [MemPrimitive.ofIntrinsic]
      split_ifs <;> rfl

lemma selected_of_pointerOperand {i : Instr} (h : i.pointerOperand.isSome = true) :
    selected i = none := by
  rw [Instr.pointerOperand] at h
  rw [selected]
  cases hop : i.op with
  | call callee args => simp [hop] at h
  | _ => rfl

/-- The patch leaves the run of a store. -/
lemma patchMemoryPrimitives_run (hwf : m.WF) (honly : m.OnlyFlushes)
    (h : patchMemoryPrimitives m dumb = some (m', changed)) {i : Instr} (hi : i ∈ m.insts)
    (hptr : i.pointerOperand.isSome = true) : (m.run i.id).Sublist (m'.run i.id) := by
  obtain ⟨Q, hfuns, hrewrites⟩ := patchMemoryPrimitives_spec hwf h
  obtain ⟨f, pre, post, hb⟩ := Module.exists_block hi
  have hkept : Q i = [i] := (hrewrites i hi).self (selected_of_pointerOperand hptr)
  have hother : ∀ j ∈ m.insts, j.id ≠ i.id → ∀ k ∈ Q j, k.id ≠ i.id := by
    intro j hj hji k hk
    rcases (hrewrites j hj).kept_or_fresh hwf with hself | hfresh
    · rw [hself, List.mem_singleton] at hk
      exact hk ▸ hji
    · exact fun heq => hfresh k hk (heq ▸ List.mem_map_of_mem hi)
  have hrun : m'.run i.id = (m.rewrite Q).run i.id := by
    rw [Module.run, Module.parent, hfuns]
    rfl
  rw [hrun, hwf.run_rewrite hb hkept hother, hwf.run_eq hb, List.nil_append]
  -- what was inserted are flushes and fences, which the patch does not touch
  have hpost : ∀ j ∈ post, j.id.inserted = true → Q j = [j] := by
    intro j hj hins
    have hmem : j ∈ m.insts := Module.mem_insts_of_blockList hb (by simp [hj])
    exact (hrewrites j hmem).self (honly j hmem hins).selected_eq
  clear hb hkept
  induction post with
  | nil => exact List.nil_sublist _
  | cons j post ih =>
      rw [List.forall_mem_cons] at hpost
      rw [List.takeWhile_cons]
      split_ifs with hins
      · rw [List.flatMap_cons, hpost.1 hins, List.singleton_append, List.takeWhile_cons,
          if_pos hins]
        exact (ih hpost.2).cons_cons j
      · exact List.nil_sublist _

end Patch

/-! ### Whole runs -/

lemma Module.Original.onlyFlushes {m : Module} (h : m.Original) : m.OnlyFlushes := by
  intro j hj hins
  rw [(h.ids j hj).1] at hins
  cases hins

section Run

variable [LinearOrder FixLoc] {R : RepairEnv} {F : Flags} {m' : Module} {modified : Bool}

/-- The steps of a run that ends well. -/
lemma doRepair_eq_ok_iff : R.doRepair F = .ok (m', modified) ↔
    ∃ A fixMap m₁, R.construct F = some A ∧ R.source ≠ .UNKNOWN ∧
      R.findFixes F A = some fixMap ∧
      (R.fixer F A).fixBugs R.module fixMap.entries = .ok (m₁, modified) ∧
      if F.disableRaising = true then
        ∃ changed, patchMemoryPrimitives m₁ F.extraDumb = some (m', changed)
      else m' = m₁ := by
  constructor
  · intro h
    rw [RepairEnv.doRepair] at h
    split at h
    · cases h
    · rename_i A hA
      split at h
      · cases h
      · rename_i hsource
        split at h
        · cases h
        · rename_i fixMap hfixes
          split at h
          · cases h
          · rename_i m₁ b hrun
            split_ifs at h with hF
            · obtain ⟨⟨m₂, changed⟩, hpatch, heq⟩ :=
                Option.map_eq_some_iff.mp (Fixer.orFail_eq_ok_iff.mp h)
              simp only [Prod.mk.injEq] at heq
              obtain ⟨rfl, rfl⟩ := heq
              refine ⟨A, fixMap, m₁, hA, hsource, hfixes, hrun, ?_⟩
              rw [if_pos hF]
              exact ⟨changed, hpatch⟩
            · cases h
              exact ⟨A, fixMap, m', hA, hsource, hfixes, hrun, by rw [if_neg hF]⟩
  · rintro ⟨A, fixMap, m₁, hA, hsource, hfixes, hrun, hpatch⟩
    rw [RepairEnv.doRepair, hA]
    dsimp only
    rw [if_neg hsource, hfixes]
    dsimp only
    rw [hrun]
    dsimp only
    split_ifs at hpatch ⊢
    · obtain ⟨changed, hpatch⟩ := hpatch
      rw [hpatch]
      rfl
    · rw [hpatch]

/-- The fixes of a run are edits, whatever the source of the trace is: for PMTest there are none. -/
lemma findFixes_edits (hwf : R.module.WF) (horig : R.module.Original)
    (hknown : R.source ≠ .UNKNOWN) {A : AliasInfo} {fixMap : FixMap}
    (hfixes : R.findFixes F A = some fixMap)
    (hrun : (R.fixer F A).fixBugs R.module fixMap.entries = .ok (m', modified)) :
    Edits (R.fixer F A).genEnv R.module m' := by
  cases hsource : R.source with
  | UNKNOWN => exact absurd hsource hknown
  | PMTEST =>
      obtain ⟨-, heq⟩ := Fixer.fixBugs_pmtest (X := R.fixer F A) (E := R.raiseEnv F A) hsource hwf
        (fun p hp => findFixes_planned hfixes _ _ (OrderedMap.find_eq_some_iff.mpr hp)) hrun
      obtain ⟨rfl, -⟩ := Prod.mk.inj heq
      exact .refl
  | GENERIC => exact (Fixer.fixBugs_generic hsource hwf horig.onlyFlushes hrun).1

/-- **The repair does no harm**, whatever the flags are: what a run makes of the module erases to
the given one. With raising disabled its memory primitives have been replaced. -/
theorem RepairEnv.doRepair_erasesTo (hwf : R.module.WF) (horig : R.module.Original)
    (h : R.doRepair F = .ok (m', modified)) :
    ∃ A m₁, R.construct F = some A ∧ ErasesTo (R.fixer F A).genEnv m₁ R.module ∧
      (F.disableRaising = false → m' = m₁) ∧
      (F.disableRaising = true → ∃ Q, m'.funs = (m₁.rewrite Q).funs ∧
        ∀ i ∈ m₁.insts, RewritesAs m₁ F.extraDumb i (Q i)) := by
  obtain ⟨A, fixMap, m₁, hA, hknown, hfixes, hrun, hpatch⟩ := doRepair_eq_ok_iff.mp h
  have hedits := findFixes_edits hwf horig hknown hfixes hrun
  refine ⟨A, m₁, hA, hedits.erasesTo horig hwf horig.erasesTo, fun hF => ?_, fun hF => ?_⟩
  · rwa [if_neg (by simp [hF])] at hpatch
  · rw [if_pos hF] at hpatch
    obtain ⟨changed, hpatch⟩ := hpatch
    exact patchMemoryPrimitives_spec (hedits.wf hwf) hpatch

omit [LinearOrder FixLoc] in
/-- A fix that adds more has more code. -/
lemma code_sublist {t t' : FixType} (ht : t.isPrimative = true) (ht' : t'.isPrimative = true)
    (hle : t.adds ≤ t'.adds) (n : ℕ) (v : Value) : ∃ k, (t.code k v).Sublist (t'.code n v) := by
  cases t' with
  | ADD_FLUSH_AND_FENCE =>
      cases t with
      | ADD_FLUSH_AND_FENCE => exact ⟨n, .refl _⟩
      | ADD_FLUSH_ONLY => exact ⟨n, List.sublist_append_left _ _⟩
      | ADD_FENCE_ONLY => exact ⟨_, List.sublist_append_right _ _⟩
      | _ => cases ht
  | ADD_FLUSH_ONLY =>
      cases t with
      | ADD_FLUSH_ONLY => exact ⟨n, .refl _⟩
      | ADD_FENCE_ONLY => exact absurd hle (by decide)
      | ADD_FLUSH_AND_FENCE => exact absurd hle (by decide)
      | _ => cases ht
  | ADD_FENCE_ONLY =>
      cases t with
      | ADD_FENCE_ONLY => exact ⟨n, .refl _⟩
      | ADD_FLUSH_ONLY => exact absurd hle (by decide)
      | ADD_FLUSH_AND_FENCE => exact absurd hle (by decide)
      | _ => cases ht
  | _ => cases ht'

/-- A store of an operation of the bug has a fix that adds what is missing. -/
lemma computeAndAddFix_adds {E : RaiseEnv} {clSz : ℕ} {t : List TraceEvent} {fixMap : FixMap}
    {bug : ℕ} {r : FixMap × Bool} {te last : TraceEvent} {d : Diagnosis} {k : ℕ}
    {fixLocs : List FixLoc} {i : Instr} (hte : t[bug]? = some te)
    (htype : te.type = .ASSERT_PERSISTED) (hd : diagnose clSz t te bug = some d)
    (hk : k ∈ d.opIndices) (hlast : t[k]? = some last)
    (hmap : E.mapper last.location = some fixLocs) (hi : InstOf E.module fixLocs i)
    (hptr : i.pointerOperand.isSome = true) (h : computeAndAddFix clSz E t fixMap bug = some r) :
    Adds r.1 d.missing (FixLoc.single i.id) := by
  rw [computeAndAddFix, hte] at h
  dsimp only at h
  split at h
  · cases h
  · rw [htype] at h
    dsimp only at h
    split at h
    · cases h
    · rw [handleAssertPersisted, hd] at h
      have hloop : AddsAt d.missing fixMap r.1
          {l | ∃ k ∈ d.opIndices, l ∈ {l | ∃ op, t[k]? = some op ∧ l ∈ receivers E d op}} := by
        refine foldlM_addsAt (fun j _ acc acc' hop => ?_) h
        cases hop' : t[j]? with
        | none => simp [fixOp, hop'] at hop
        | some op =>
            intro l
            simpa using fixOp_addsAt (diagnose_fixType_ne hd) hop' hop l
      refine (hloop _).mpr (.inr ⟨k, hk, last, hlast, ?_⟩)
      rw [receivers, hmap]
      exact ⟨i, hi, hptr, rfl⟩

/-- What one bug puts into the map stays to the last. -/
lemma foldlM_adds {E : RaiseEnv} {clSz : ℕ} {t : List TraceEvent} {bugs : List ℕ} {bug : ℕ}
    {need : Bool × Bool} {l : FixLoc} {fixMap filled : FixMap} (hbug : bug ∈ bugs)
    (hadds : ∀ fm r, computeAndAddFix clSz E t fm bug = some r → Adds r.1 need l)
    (h : (bugs.foldlM (fun fm bug => (computeAndAddFix clSz E t fm bug).map Prod.fst) fixMap) =
      some filled) : Adds filled need l := by
  induction bugs generalizing fixMap with
  | nil => exact absurd hbug List.not_mem_nil
  | cons b bugs ih =>
      rw [List.foldlM_cons, Option.bind_eq_bind, Option.bind_eq_some_iff] at h
      obtain ⟨mid, hmid, hrest⟩ := h
      rcases List.mem_cons.mp hbug with rfl | hbug
      · obtain ⟨r, hr, rfl⟩ := Option.map_eq_some_iff.mp hmid
        have hfilled : FilledTo E t true r.1 filled := by
          refine foldlM_filled (p := id) (fun x _ fm fm' hx => ?_) hrest
          obtain ⟨r', hr', rfl⟩ := Option.map_eq_some_iff.mp hx
          exact computeAndAddFix_filled (collectsFrom_self clSz t x) hr'
        exact hfilled.adds (hadds fixMap r hr)
      · exact ih hbug hrest

/-- The map that the bugs fill has, at each store of an operation of a bug, a fix that adds what is
missing. -/
lemma bugFixes_adds {A : AliasInfo} {filled : FixMap} {bug k : ℕ} {te last : TraceEvent}
    {d : Diagnosis} {fixLocs : List FixLoc} {i : Instr} (hfilled : R.bugFixes F A = some filled)
    (hbug : bug ∈ R.bugs) (hte : R.trace[bug]? = some te) (htype : te.type = .ASSERT_PERSISTED)
    (hd : diagnose R.clSz R.trace te bug = some d) (hk : k ∈ d.opIndices)
    (hlast : R.trace[k]? = some last) (hmap : R.mapper last.location = some fixLocs)
    (hi : InstOf R.module fixLocs i) (hptr : i.pointerOperand.isSome = true) :
    Adds filled d.missing (FixLoc.single i.id) :=
  foldlM_adds hbug
    (fun _ _ hr => computeAndAddFix_adds hte htype hd hk hlast hmap hi hptr hr) hfilled

/-- The code of a fix that has not been raised. -/
lemma code_sublist_run (hwf : R.module.WF) (horig : R.module.Original)
    (hsource : R.source = .GENERIC) (h : R.doRepair F = .ok (m', modified)) {A : AliasInfo}
    {fixMap : FixMap} (hA : R.construct F = some A) (hfixes : R.findFixes F A = some fixMap)
    {bug k : ℕ} {te last : TraceEvent} {d : Diagnosis} {fixLocs : List FixLoc} {i : Instr}
    {v : Value} {desc : FixDesc} (hbug : bug ∈ R.bugs) (hte : R.trace[bug]? = some te)
    (htype : te.type = .ASSERT_PERSISTED) (hd : diagnose R.clSz R.trace te bug = some d)
    (hk : k ∈ d.opIndices) (hlast : R.trace[k]? = some last)
    (hmap : R.mapper last.location = some fixLocs) (hi : InstOf R.module fixLocs i)
    (hv : i.pointerOperand = some v) (hdesc : fixMap.find (FixLoc.single i.id) = some desc)
    (hnot : ¬ desc.type.isPST = true) : ∃ n, (d.fixType.code n v).Sublist (m'.run i.id) := by
  obtain ⟨A', fixMap', m₁, hA', -, hfixes', hrun, hpatch⟩ := doRepair_eq_ok_iff.mp h
  obtain rfl := Option.some.inj (hA.symm.trans hA')
  obtain rfl := Option.some.inj (hfixes.symm.trans hfixes')
  have hprim : desc.type.isPrimative = true := by
    rcases (findFixes_planned hfixes _ _ hdesc).kind with ⟨hpst, -⟩ | ⟨hprim, -⟩
    · exact absurd hpst hnot
    · exact hprim
  obtain ⟨filled, hbugs, hoff, hon⟩ := findFixes_cases hfixes
  -- a primitive fix is what the bugs made it
  have hfilled : filled.find (FixLoc.single i.id) = some desc := by
    cases hF : F.disableRaising with
    | true => exact hoff hF ▸ hdesc
    | false =>
        obtain ⟨res, hopt⟩ := hon hF
        exact (((runFixMapOptimization_spec hopt _ _).mp hdesc).1.of_isPrimative hprim).1
  have hptr : i.pointerOperand.isSome = true := by
    rw [hv]
    rfl
  have hle : d.fixType.adds ≤ desc.type.adds := by
    obtain ⟨desc', hdesc', hneed⟩ := bugFixes_adds hbugs hbug hte htype hd hk hlast hmap hi hptr
    obtain rfl := Option.some.inj (hfilled.symm.trans hdesc')
    exact d.fixType_adds ▸ hneed
  obtain ⟨hedits, hcode⟩ := Fixer.fixBugs_generic hsource hwf horig.onlyFlushes hrun
  have himem : i ∈ R.module.insts := by
    obtain ⟨fLoc, -, insts, hinsts, hmem⟩ := hi
    exact FixLoc.mem_insts hinsts hmem
  obtain ⟨n, hn⟩ := hcode _ desc (OrderedMap.find_eq_some_iff.mp hdesc) hprim i himem rfl v hv
  obtain ⟨n', hn'⟩ := code_sublist
    (Diagnosis.fixType_isPrimative (diagnose_fixType_ne hd)) hprim hle n v
  obtain ⟨hgrow, honly⟩ := hedits.growsTo horig.onlyFlushes
  refine ⟨n', (hn'.trans hn).trans ?_⟩
  cases hF : F.disableRaising with
  | false =>
      rw [if_neg (by simp [hF])] at hpatch
      rw [hpatch]
  | true =>
      rw [if_pos hF] at hpatch
      obtain ⟨changed, hpatch⟩ := hpatch
      obtain ⟨i₁, hi₁, hkeep, -⟩ := hgrow.run hwf (hedits.wf hwf) himem
      rw [← hkeep.id]
      exact patchMemoryPrimitives_run (hedits.wf hwf) honly hpatch hi₁
        (hkeep.pointer.symm ▸ hptr)

/-- A primitive fix of the map that the bugs fill is in the map of the end, unless the optimization
has raised it or has raised another fix to its location. -/
lemma findFixes_kept {A : AliasInfo} {filled fixMap : FixMap} {fl : FixLoc} {desc : FixDesc}
    (hfilled : R.bugFixes F A = some filled) (hfixes : R.findFixes F A = some fixMap)
    (hfind : filled.find fl = some desc) :
    fixMap.find fl = some desc ∨ F.disableRaising = false ∧
      ((∃ curr d, Moves (R.raiseEnv F A) filled fl desc curr d) ∨
        ∃ z dz d, Moves (R.raiseEnv F A) filled z dz fl d) := by
  obtain ⟨filled', hfilled', hoff, hon⟩ := findFixes_cases hfixes
  obtain rfl := Option.some.inj (hfilled.symm.trans hfilled')
  cases hF : F.disableRaising with
  | true => exact .inl (hoff hF ▸ hfind)
  | false =>
      obtain ⟨res, hopt⟩ := hon hF
      by_cases hfrom : ∃ curr d, Moves (R.raiseEnv F A) filled fl desc curr d
      · exact .inr ⟨rfl, .inl hfrom⟩
      by_cases hto : ∃ z dz d, Moves (R.raiseEnv F A) filled z dz fl d
      · exact .inr ⟨rfl, .inr hto⟩
      -- no raise touches the location, so that its entry remains
      refine .inl ((runFixMapOptimization_spec hopt fl desc).mpr ⟨.kept hfind ?_, ?_⟩)
      · exact fun z dz d hm _ => hto ⟨z, dz, d, hm⟩
      · intro desc' curr d hm
        obtain rfl := Option.some.inj (hfind.symm.trans hm.raises.find)
        exact hfrom ⟨curr, d, hm⟩

/-- **From the bugs to the module**: each store of the location of an operation that a bug is put
down to gets a fix that adds what is missing, and the module of the end has the flush and the fence
after the store, unless the fix is a subprogram, has been raised to one, or has had one raised to
its location. -/
theorem RepairEnv.doRepair_repairs (hwf : R.module.WF) (horig : R.module.Original)
    (hsource : R.source = .GENERIC) (h : R.doRepair F = .ok (m', modified)) {bug k : ℕ}
    {te last : TraceEvent} {d : Diagnosis} {fixLocs : List FixLoc} {i : Instr} {v : Value}
    (hbug : bug ∈ R.bugs) (hte : R.trace[bug]? = some te) (htype : te.type = .ASSERT_PERSISTED)
    (hd : diagnose R.clSz R.trace te bug = some d) (hk : k ∈ d.opIndices)
    (hlast : R.trace[k]? = some last) (hmap : R.mapper last.location = some fixLocs)
    (hi : InstOf R.module fixLocs i) (hv : i.pointerOperand = some v) :
    ∃ A filled desc, R.construct F = some A ∧ R.bugFixes F A = some filled ∧
      filled.find (FixLoc.single i.id) = some desc ∧ d.missing ≤ desc.type.adds ∧
      ((∃ n, (d.fixType.code n v).Sublist (m'.run i.id)) ∨ desc.type.isPST = true ∨
        F.disableRaising = false ∧
          ((∃ curr d', Moves (R.raiseEnv F A) filled (FixLoc.single i.id) desc curr d') ∨
            ∃ z dz d', Moves (R.raiseEnv F A) filled z dz (FixLoc.single i.id) d')) := by
  obtain ⟨A, fixMap, -, hA, -, hfixes, -, -⟩ := doRepair_eq_ok_iff.mp h
  obtain ⟨filled, hfilled, -, -⟩ := findFixes_cases hfixes
  obtain ⟨desc, hfind, hneed⟩ :=
    bugFixes_adds hfilled hbug hte htype hd hk hlast hmap hi (by rw [hv]; rfl)
  refine ⟨A, filled, desc, hA, hfilled, hfind, hneed, ?_⟩
  by_cases hpst : desc.type.isPST = true
  · exact .inr (.inl hpst)
  rcases findFixes_kept hfilled hfixes hfind with hkept | hraised
  · exact .inl (code_sublist_run hwf horig hsource h hA hfixes hbug hte htype hd hk hlast hmap hi
      hv hkept hpst)
  · exact .inr (.inr hraised)

/-- The instruction `i` has become `new`: it is kept, with the code of its fix after it. -/
def WithCode (fixMap : FixMap) (i : Instr) (new : List Instr) : Prop :=
  (∀ desc v, fixMap.find (FixLoc.single i.id) = some desc → i.pointerOperand = some v →
    ∃ n, new = i :: desc.type.code n v) ∧
  (fixMap.find (FixLoc.single i.id) = none → new = [i])

/-- **A run whose fixes are primitive** ends well, and puts the code of the fix map into the module
and nothing else. The order of the fixes makes no difference but for the names given out. -/
theorem RepairEnv.doRepair_primitive (hwf : R.module.WF) (hsource : R.source = .GENERIC)
    (hraise : F.disableRaising = false)
    (hnext : ∀ i ∈ R.module.insts, i.pointerOperand.isSome = true →
      (R.module.nextOf i.id).isSome = true)
    {A : AliasInfo} {fixMap : FixMap} (hA : R.construct F = some A)
    (hfixes : R.findFixes F A = some fixMap)
    (hprim : ∀ fl desc, fixMap.find fl = some desc → desc.type.isPrimative = true) :
    ∃ m' Q, R.doRepair F = .ok (m', !fixMap.entries.isEmpty) ∧
      m'.funs = (R.module.rewrite Q).funs ∧
      ∀ i ∈ R.module.insts, WithCode fixMap i (Q i) := by
  have hnodup : (fixMap.entries.map Prod.fst).Nodup :=
    List.pairwise_map.mpr (fixMap.sorted.imp fun hlt => hlt.ne)
  -- each entry of the map is at the location of a store
  have hentries : ∀ p ∈ fixMap.entries, p.2.type.isPrimative = true ∧ ∃ i ∈ R.module.insts,
      i.pointerOperand.isSome = true ∧ (R.module.nextOf i.id).isSome = true ∧
        p.1 = FixLoc.single i.id := by
    rintro ⟨fl, desc⟩ hp
    have hfind := OrderedMap.find_eq_some_iff.mpr hp
    rcases (findFixes_planned hfixes fl desc hfind).kind with ⟨hpst, -⟩ | ⟨-, i, hi, hptr, hfl, -⟩
    · exact absurd hpst (not_isPST_of_isPrimative (hprim fl desc hfind))
    · exact ⟨hprim fl desc hfind, i, hi, hptr, hnext i hi hptr, hfl⟩
  obtain ⟨m', Q, hrun, hfuns, hQ⟩ :=
    Fixer.fixBugs_primitive (X := R.fixer F A) hsource hwf hnodup hentries
  refine ⟨m', Q, ?_, hfuns, fun i hi => ⟨fun desc v hfind hv => ?_, fun hnone => ?_⟩⟩
  · refine doRepair_eq_ok_iff.mpr ⟨A, fixMap, m', hA, by simp [hsource], hfixes, hrun, ?_⟩
    rw [if_neg (by simp [hraise])]
  · exact (hQ i hi).1 desc v (OrderedMap.find_eq_some_iff.mp hfind) hv
  · refine (hQ i hi).2 fun desc hmem => ?_
    rw [OrderedMap.find_eq_some_iff.mpr hmem] at hnone
    cases hnone

/-- **A run for a trace of PMTest** ends well exactly when no fix is left to be applied, and then
only the memory primitives are replaced, if at all. -/
theorem RepairEnv.doRepair_pmtest_iff (hwf : R.module.WF) (hsource : R.source = .PMTEST) :
    R.doRepair F = .ok (m', modified) ↔
      modified = false ∧ ∃ A, R.construct F = some A ∧
        R.findFixes F A = some OrderedMap.empty ∧
        if F.disableRaising = true then
          ∃ changed, patchMemoryPrimitives R.module F.extraDumb = some (m', changed)
        else m' = R.module := by
  rw [doRepair_eq_ok_iff]
  constructor
  · rintro ⟨A, fixMap, m₁, hA, -, hfixes, hrun, hpatch⟩
    obtain ⟨hentries, heq⟩ := Fixer.fixBugs_pmtest (X := R.fixer F A) (E := R.raiseEnv F A) hsource
      hwf (fun p hp => findFixes_planned hfixes _ _ (OrderedMap.find_eq_some_iff.mpr hp)) hrun
    obtain ⟨rfl, rfl⟩ := Prod.mk.inj heq
    have hempty : fixMap = OrderedMap.empty := by
      cases fixMap
      simpa [OrderedMap.empty] using hentries
    exact ⟨rfl, A, hA, hempty ▸ hfixes, hpatch⟩
  · rintro ⟨rfl, A, hA, hfixes, hpatch⟩
    exact ⟨A, OrderedMap.empty, R.module, hA, by simp [hsource], hfixes, rfl, hpatch⟩

end Run

/-! ### The store of two calls deep, in functions that may change -/

/-- No function is immutable. -/
def storeRepair : RepairEnv := { storeBelowRepair with immutableFns := fun _ => false }

/-- The same for a trace of PMTest. -/
def pmtestRepair : RepairEnv := { storeRepair with source := .PMTEST }

/-- And without a bug. -/
def noBugRepair : RepairEnv := { pmtestRepair with bugs := [] }

theorem doRepair_erasesTo_storeRepair :
    letI := FixLoc.compare InstId.address InstId.address_injective
    ∃ m' modified, storeRepair.doRepair noFlags = .ok (m', modified) ∧
      ∃ A m₁, storeRepair.construct noFlags = some A ∧
        ErasesTo (storeRepair.fixer noFlags A).genEnv m₁ storeRepair.module ∧
        (noFlags.disableRaising = false → m' = m₁) ∧
        (noFlags.disableRaising = true → ∃ Q, m'.funs = (m₁.rewrite Q).funs ∧
          ∀ i ∈ m₁.insts, RewritesAs m₁ noFlags.extraDumb i (Q i)) := by
  let := FixLoc.compare InstId.address InstId.address_injective
  have hrun : ∃ r, storeRepair.doRepair noFlags = .ok r := ⟨_, rfl⟩
  obtain ⟨⟨m', modified⟩, hrun⟩ := hrun
  exact ⟨m', modified, hrun,
    RepairEnv.doRepair_erasesTo storeBelow_wf storeBelow_original hrun⟩

/-- The fix is not raised: the store is followed by a flush and a fence. -/
theorem doRepair_repairs_storeRepair :
    letI := FixLoc.compare InstId.address InstId.address_injective
    ∃ m' modified, storeRepair.doRepair noFlags = .ok (m', modified) ∧
      ∃ n, (FixType.code ADD_FLUSH_AND_FENCE n
        (.arg (FnId.named "update") 0 (.other "i64*"))).Sublist (m'.run (InstId.orig 0)) := by
  let := FixLoc.compare InstId.address InstId.address_injective
  have hrun : ∃ r, storeRepair.doRepair noFlags = .ok r := ⟨_, rfl⟩
  obtain ⟨⟨m', modified⟩, hrun⟩ := hrun
  have hd : diagnose 64 storeBelowTrace
      ⟨.ASSERT_PERSISTED, 1, [⟨4096, 8⟩], ⟨"main", "update.c", 9⟩, true, [], none⟩ 1 =
        some ⟨true, true, [0]⟩ := rfl
  obtain ⟨A, filled, desc, hA, hfilled, hfind, -, hcode⟩ := RepairEnv.doRepair_repairs
    (i := ⟨InstId.orig 0, .store (.constant "1" (.other "i64"))
      (.arg (FnId.named "update") 0 (.other "i64*"))⟩)
    storeBelow_wf storeBelow_original rfl hrun (List.mem_singleton_self 1) rfl rfl hd
    (List.mem_singleton_self 0) rfl rfl
    ⟨_, List.mem_singleton_self _, _, rfl, List.mem_singleton_self _⟩ rfl
  obtain rfl := Option.some.inj hA
  have hmap : ∃ fm, storeRepair.bugFixes noFlags AliasInfo.empty = some fm ∧
      ∀ p ∈ fm.entries, p.2.type.isPST = false ∧
        (raiseTarget (storeRepair.raiseEnv noFlags AliasInfo.empty) true p.2).join.isNone = true :=
    ⟨_, rfl, by decide⟩
  obtain ⟨fm, hfm, hentries⟩ := hmap
  obtain rfl := Option.some.inj (hfilled.symm.trans hfm)
  -- no fix of the map has a target to be raised to
  have hmoves : ∀ z dz curr d,
      ¬ Moves (storeRepair.raiseEnv noFlags AliasInfo.empty) filled z dz curr d := by
    intro z dz curr d hm
    have hnone := (hentries _ (OrderedMap.find_eq_some_iff.mp hm.raises.find)).2
    rw [hm.raises.target] at hnone
    cases hnone
  rcases hcode with hcode | hpst | ⟨-, ⟨curr, d, hm⟩ | ⟨z, dz, d, hm⟩⟩
  · exact ⟨m', modified, hrun, hcode⟩
  · rw [(hentries _ (OrderedMap.find_eq_some_iff.mp hfind)).1] at hpst
    cases hpst
  · exact absurd hm (hmoves _ _ _ _)
  · exact absurd hm (hmoves _ _ _ _)

theorem doRepair_primitive_storeRepair :
    letI := FixLoc.compare InstId.address InstId.address_injective
    ∃ fixMap m' Q, storeRepair.findFixes noFlags AliasInfo.empty = some fixMap ∧
      storeRepair.doRepair noFlags = .ok (m', !fixMap.entries.isEmpty) ∧
      m'.funs = (storeRepair.module.rewrite Q).funs ∧
      ∀ i ∈ storeRepair.module.insts, WithCode fixMap i (Q i) := by
  let := FixLoc.compare InstId.address InstId.address_injective
  have hmap : ∃ fm, storeRepair.findFixes noFlags AliasInfo.empty = some fm ∧
      ∀ p ∈ fm.entries, p.2.type.isPrimative = true := ⟨_, rfl, by decide⟩
  obtain ⟨fm, hfm, hprim⟩ := hmap
  obtain ⟨m', Q, hrun⟩ := RepairEnv.doRepair_primitive (R := storeRepair) (F := noFlags)
    storeBelow_wf rfl rfl (by decide) rfl hfm
    fun fl desc hfind => hprim _ (OrderedMap.find_eq_some_iff.mp hfind)
  exact ⟨fm, m', Q, hfm, hrun⟩

/-- The fix of the bug fails, and without the bug the run ends well. -/
theorem doRepair_pmtest_iff_noBugRepair :
    letI := FixLoc.compare InstId.address InstId.address_injective
    (∀ m' modified, pmtestRepair.doRepair noFlags ≠ .ok (m', modified)) ∧
      noBugRepair.doRepair noFlags = .ok (storeBelow, false) := by
  let := FixLoc.compare InstId.address InstId.address_injective
  refine ⟨fun m' modified h => ?_,
    (RepairEnv.doRepair_pmtest_iff storeBelow_wf rfl).mpr ⟨rfl, _, rfl, rfl, rfl⟩⟩
  obtain ⟨-, A, hA, hfixes, -⟩ := (RepairEnv.doRepair_pmtest_iff storeBelow_wf rfl).mp h
  obtain rfl := Option.some.inj hA
  have hmap : ∃ fm, pmtestRepair.findFixes noFlags AliasInfo.empty = some fm ∧
      fm.entries.isEmpty = false := ⟨_, rfl, rfl⟩
  obtain ⟨fm, hfm, hentries⟩ := hmap
  obtain rfl := Option.some.inj (hfm.symm.trans hfixes)
  cases hentries

end Hippocrates
