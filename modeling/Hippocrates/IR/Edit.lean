import Mathlib.Logic.Relation
import Mathlib.Tactic
import Hippocrates.IR.FixGenerator

/-!
What the fix generator does to a module, as a relation: a fix is a sequence of edits, and an
edit inserts flush or fence instructions with new names, redirects a call to a clone of its
callee or to the persistent version of a memory primitive, or clones a function.

`fixBug_edits`: every fix is a sequence of edits. `Edits.wf`: the names stay apart.
-/

namespace Hippocrates

open FixType

/-- The first function is a clone of the second, or the persistent version of it. -/
inductive Renames (G : GenEnv) : FnId → FnId → Prop
  | clone (f : FnId) (k : ℕ) : Renames G (f.clone k) f
  | memcpy {f : FnId} (h : f.getIntrinsicID = .memcpy) : Renames G (FnId.named "PMFIXER_memcpy") f
  | memset {f : FnId} (h : f.getIntrinsicID = .memset) : Renames G (FnId.named "PMFIXER_memset") f
  | memmove {f : FnId} (h : f.getIntrinsicID = .memmove) :
      Renames G (FnId.named "PMFIXER_memmove") f
  | declaration {f : FnId} (h : f.getIntrinsicID = .not_intrinsic) :
      Renames G (FnId.named ("PMFIXER_" ++ G.demangle f.getName)) f

/-- The functions the generator's own calls call. -/
def FnId.isFlushOrFence (f : FnId) : Bool :=
  f.getIntrinsicID == .x86_clwb || f.getIntrinsicID == .x86_sse_sfence

/-- The instructions the generator inserts: pointer casts, and calls of `clwb` and `sfence`. -/
structure IsInserted (i : Instr) : Prop where
  inserted : i.id.inserted = true
  op : (∃ v ty, i.op = .bitCast v ty) ∨
    ∃ f args, i.op = .call (.function f) args ∧ f.isFlushOrFence = true

/-- One edit. -/
inductive Edit (G : GenEnv) (m : Module) : Module → Prop
  | insert (i : InstId) {new : List Instr} (hnames : FreshNames m new)
      (hnew : ∀ j ∈ new, IsInserted j) : Edit G m (m.insertAfter i new)
  | retarget {i : InstId} {f g : FnId} {cb : Instr} (hcb : m.findInst i = some cb)
      (hcall : cb.getCalledFunction = some g) (hg : g.isFlushOrFence = false)
      (hf : Relation.ReflTransGen (Renames G) f g) : Edit G m (m.setCalledFunction i f)
  | clone {f : FnId} {m' : Module} (hm : m.clone f = some m') : Edit G m m'

/-- A sequence of edits. -/
abbrev Edits (G : GenEnv) : Module → Module → Prop := Relation.ReflTransGen (Edit G)

lemma Edit.wf {G : GenEnv} {m m' : Module} (h : Edit G m m') (hm : m.WF) : m'.WF := by
  cases h with
  | insert i hnames _ => exact hm.insertAfter hnames
  | retarget => exact hm.setCalledFunction _ _
  | clone hclone => exact hm.clone hclone

/-- The edits keep the names apart. -/
lemma Edits.wf {G : GenEnv} {m m' : Module} (h : Edits G m m') (hm : m.WF) : m'.WF := by
  induction h with
  | refl => exact hm
  | tail _ hstep ih => exact hstep.wf ih

section Primitive

variable {G : GenEnv} {m m' : Module}

lemma flushInstrs_spec (m : Module) (v : Value) :
    FreshNames m (flushInstrs m.next v) ∧ ∀ j ∈ flushInstrs m.next v, IsInserted j := by
  have hclwb : ∀ n w, IsInserted (clwbCall n w) := fun n w => ⟨rfl, .inr ⟨_, _, rfl, rfl⟩⟩
  have hcast : ∀ n w, IsInserted ⟨InstId.ins n, .bitCast w .i8Ptr⟩ :=
    fun n w => ⟨rfl, .inl ⟨_, _, rfl⟩⟩
  rw [flushInstrs]
  split
  · exact ⟨rfl, by simpa using hclwb _ _⟩
  · split
    · exact ⟨rfl, by simpa using hclwb _ _⟩
    · exact ⟨rfl, by simpa using ⟨hcast _ _, hclwb _ _⟩⟩

lemma insertFlushAt_edits {acc acc' : Module × Option InstId} {i : Instr}
    (h : insertFlushAt acc i = some acc') : Edits G acc.1 acc'.1 := by
  rw [insertFlushAt] at h
  split at h
  · obtain rfl := Option.some.inj h
    exact .refl
  · split at h
    · cases h
    · obtain rfl := Option.some.inj h
      obtain ⟨hnames, hnew⟩ := flushInstrs_spec acc.1 ‹Value›
      exact .single (.insert i.id hnames hnew)

/-- A loop of edits is a sequence of edits. -/
lemma foldlM_edits {σ α : Type*} {p : σ → Module} {step : σ → α → Option σ} {xs : List α}
    (hstep : ∀ x ∈ xs, ∀ s s', step s x = some s' → Edits G (p s) (p s')) {s s' : σ}
    (h : xs.foldlM step s = some s') : Edits G (p s) (p s') := by
  induction xs generalizing s with
  | nil =>
      obtain rfl := Option.some.inj h
      exact .refl
  | cons x xs ih =>
      rw [List.foldlM_cons, Option.bind_eq_bind, Option.bind_eq_some_iff] at h
      obtain ⟨mid, hx, hxs⟩ := h
      exact (hstep x List.mem_cons_self s mid hx).trans
        (ih (fun y hy => hstep y (List.mem_cons_of_mem x hy)) hxs)

lemma insertFlush_edits {fl : FixLoc} {n : Option InstId} (h : insertFlush m fl = some (m', n)) :
    Edits G m m' := by
  rw [insertFlush] at h
  split at h
  · cases h
  · exact foldlM_edits (p := Prod.fst) (fun i _ acc acc' => insertFlushAt_edits) h

lemma insertFence_edits {fl : FixLoc} {n : InstId} (h : insertFence m fl = some (m', n)) :
    Edits G m m' := by
  rw [insertFence] at h
  split at h
  · cases h
  · simp only [Option.some.injEq, Prod.mk.injEq] at h
    obtain ⟨rfl, -⟩ := h
    refine .single (.insert _ rfl fun j hj => ?_)
    obtain rfl := List.mem_singleton.mp hj
    exact ⟨rfl, .inr ⟨_, _, rfl, rfl⟩⟩

end Primitive

/-! ### Persistent subprograms -/

section Subprogram

variable {G : GenEnv} {m m' : Module}

lemma duplicateFunction_edits {f pmFn : FnId} (h : duplicateFunction m f = some (m', pmFn)) :
    Edits G m m' ∧ pmFn = f.clone m.next := by
  obtain ⟨m₁, hm₁, heq⟩ := Option.map_eq_some_iff.mp h
  simp only [Prod.mk.injEq] at heq
  obtain ⟨rfl, rfl⟩ := heq
  exact ⟨.single (.clone hm₁), rfl⟩

lemma makeAllStoresPersistent_edits {f : FnId} {k : ℕ}
    (h : makeAllStoresPersistent G m f k = some m') : Edits G m m' := by
  rw [makeAllStoresPersistent] at h
  split at h
  · cases h
  · refine foldlM_edits (p := id) (fun i _ m₁ m₂ hi => ?_) h
    rw [persistStore] at hi
    split at hi
    · rename_i hflush
      obtain rfl := Option.some.inj hi
      exact insertFlush_edits hflush
    · cases hi

/-- The replacement of a primitive is its persistent version. -/
lemma persistentPrimitive_renames {f newFn : FnId}
    (h : persistentPrimitive G m f = some (some newFn)) :
    Renames G newFn f ∧ f.isFlushOrFence = false := by
  have hname : ∀ name, (getPersistentIntrinsic m name).map some = some (some newFn) →
      newFn = FnId.named name := by
    intro name hsome
    rw [getPersistentIntrinsic] at hsome
    split at hsome
    · exact (Option.some.inj (Option.some.inj hsome)).symm
    · cases hsome
  rw [persistentPrimitive] at h
  split at h
  · split at h
    · exact ⟨hname _ h ▸ .memcpy ‹_›, by simp [FnId.isFlushOrFence, *]⟩
    · exact ⟨hname _ h ▸ .memset ‹_›, by simp [FnId.isFlushOrFence, *]⟩
    · exact ⟨hname _ h ▸ .memmove ‹_›, by simp [FnId.isFlushOrFence, *]⟩
    · cases h
  · rename_i hid
    rw [not_not] at hid
    split at h
    · cases h
    · split at h
      · exact ⟨hname _ h ▸ .declaration hid, by simp [FnId.isFlushOrFence, hid]⟩
      · cases h

lemma replacePrimitive_edits {next : LocationInfo} {s s' : GenState} (hwf : s.1.WF)
    (h : replacePrimitive G next s = some s') : Edits G s.1 s'.1 := by
  rw [replacePrimitive] at h
  split at h
  · split at h
    · cases h
    · rename_i nextFixLoc _ insts hinsts
      split at h
      · rename_i cb hcands
        have hcb : cb ∈ insts := by
          have hmem : cb ∈ insts.filter Instr.isCallBase := hcands ▸ List.mem_cons_self
          exact (List.mem_filter.mp hmem).1
        have hfind := hwf.findInst_eq (FixLoc.mem_insts hinsts hcb)
        split at h
        · cases h
        · rename_i f hcall
          split at h
          · cases h
          · obtain rfl := Option.some.inj h
            -- what is already called is left as it is
            exact .refl
          · rename_i newFn hprim
            obtain rfl := Option.some.inj h
            obtain ⟨hren, hflush⟩ := persistentPrimitive_renames hprim
            exact .single (.retarget hfind hcall hflush (.single hren))
      · cases h
  · cases h

lemma redirectCall_edits {fn pmFn : FnId} {s s' : GenState} {ni : InstId}
    (hfn : fn.isFlushOrFence = false) (hpm : Relation.ReflTransGen (Renames G) pmFn fn)
    (h : redirectCall fn pmFn s ni = some s') : Edits G s.1 s'.1 := by
  rw [redirectCall] at h
  split at h
  · cases h
  · rename_i cb hfind
    split at h
    · split at h
      · rename_i cbFn hcall
        split_ifs at h with heq
        · obtain rfl := Option.some.inj h
          exact .single (.retarget hfind (heq ▸ hcall) hfn hpm)
        · obtain rfl := Option.some.inj h
          exact .refl
      · cases h
    · obtain rfl := Option.some.inj h
      exact .refl

lemma redirectLoc_edits {fn pmFn : FnId} {s s' : GenState} {nFix : FixLoc}
    (hfn : fn.isFlushOrFence = false) (hpm : Relation.ReflTransGen (Renames G) pmFn fn)
    (h : redirectLoc fn pmFn s nFix = some s') : Edits G s.1 s'.1 := by
  rw [redirectLoc] at h
  split at h
  · cases h
  · exact foldlM_edits (p := Prod.fst) (fun i _ s s' => redirectCall_edits hfn hpm) h

/-- A function with an instruction is no intrinsic. -/
lemma Module.WF.isFlushOrFence_eq (hwf : m.WF) {i : InstId} {f : FnId}
    (h : m.getFunction i = some f) : f.isFlushOrFence = false := by
  obtain ⟨⟨g, b⟩, hpar, rfl⟩ := Option.map_eq_some_iff.mp h
  obtain ⟨body, hp, hb, -⟩ := Module.parent_spec hpar
  by_cases hid : g.getIntrinsicID = .not_intrinsic
  · simp [FnId.isFlushOrFence, hid]
  · have hnil : body.blocks = [] := hwf.intrinsics _ hp hid
    rw [hnil] at hb
    exact absurd hb List.not_mem_nil

lemma cloneFrame_edits {addFlushes : Bool} {fixLocList : List FixLoc} {next : LocationInfo}
    {s s' : GenState} (hwf : s.1.WF)
    (h : cloneFrame G addFlushes fixLocList next s = some s') : Edits G s.1 s'.1 := by
  unfold cloneFrame at h
  split at h
  · cases h
  · split at h
    · cases h
    · split at h
      · cases h
      · rename_i fl _ _ _ fn hfn
        have hflush := hwf.isFlushOrFence_eq hfn
        dsimp only at h
        split at h
        · cases h
        · rename_i m₁ pmFn hpersist
          -- the calls are redirected to the function itself, or to its clone
          have hclone : Edits G s.1 m₁ ∧ Relation.ReflTransGen (Renames G) pmFn fn := by
            cases addFlushes with
            | false =>
                simp only [Bool.false_eq_true, if_false, Option.some.injEq, Prod.mk.injEq]
                  at hpersist
                obtain ⟨rfl, rfl⟩ := hpersist
                exact ⟨.refl, .refl⟩
            | true =>
                simp only [if_true] at hpersist
                split at hpersist
                · cases hpersist
                · rename_i m₂ pmFn' hdup
                  obtain ⟨hedit, rfl⟩ := duplicateFunction_edits (G := G) hdup
                  obtain ⟨m₃, hmake, heq⟩ := Option.map_eq_some_iff.mp hpersist
                  simp only [Prod.mk.injEq] at heq
                  obtain ⟨rfl, rfl⟩ := heq
                  exact ⟨hedit.trans (makeAllStoresPersistent_edits hmake),
                    .single (.clone fn _)⟩
          split at h
          · cases h
          · split_ifs at h
            exact hclone.1.trans (foldlM_edits (p := Prod.fst)
              (fun nFix _ s s' => redirectLoc_edits hflush hclone.2) h)

/-- The module in which a round ends. -/
def Round.module : Round → Module
  | .next s => s.1
  | .abort m => m

lemma frameStep_edits {callstack : List LocationInfo} {addFlushes : Bool} {i : ℕ} {s : GenState}
    {r : Round} (hwf : s.1.WF) (h : frameStep G callstack addFlushes i s = some r) :
    Edits G s.1 r.module := by
  rw [frameStep] at h
  split at h
  · cases h
  · split at h
    · split_ifs at h
      · obtain rfl := Option.some.inj h
        exact .refl
      · split at h
        · cases h
        · obtain ⟨s', hs', rfl⟩ := Option.map_eq_some_iff.mp h
          exact replacePrimitive_edits hwf hs'
    · split at h
      · cases h
      · obtain ⟨s', hs', rfl⟩ := Option.map_eq_some_iff.mp h
        exact cloneFrame_edits hwf hs'

/-- The loop over the frames is a sequence of edits. -/
lemma runFrames_edits {callstack : List LocationInfo} {addFlushes : Bool} {n : ℕ} {r : Round}
    (hwf : m.WF) (h : runFrames G callstack addFlushes m n = some r) : Edits G m r.module := by
  induction n generalizing r with
  | zero =>
      obtain rfl := Option.some.inj h
      exact .refl
  | succ n ih =>
      rw [runFrames] at h
      split at h
      · cases h
      · rename_i m₁ hrun
        obtain rfl := Option.some.inj h
        exact ih hrun
      · rename_i s hrun
        have hedits : Edits G m s.1 := ih hrun
        exact hedits.trans (frameStep_edits (hedits.wf hwf) h)

lemma insertPersistentSubProgram_edits {callstack : List LocationInfo} {idx : ℕ}
    {addFlushes addFence : Bool} {ret : Option InstId} (hwf : m.WF)
    (h : insertPersistentSubProgram G m callstack idx addFlushes addFence = some (m', ret)) :
    Edits G m m' := by
  rw [insertPersistentSubProgram] at h
  split at h
  · cases h
  · rename_i m₁ hrun
    simp only [Option.some.injEq, Prod.mk.injEq] at h
    obtain ⟨rfl, -⟩ := h
    exact runFrames_edits hwf hrun
  · rename_i m₁ retInst hrun
    have hedits : Edits G m m₁ := runFrames_edits hwf hrun
    split_ifs at h
    · split at h
      · cases h
      · obtain ⟨⟨m₂, n⟩, hfence, heq⟩ := Option.map_eq_some_iff.mp h
        simp only [Prod.mk.injEq] at heq
        obtain ⟨rfl, -⟩ := heq
        exact hedits.trans (insertFence_edits hfence)
    · simp only [Option.some.injEq, Prod.mk.injEq] at h
      obtain ⟨rfl, -⟩ := h
      exact hedits

end Subprogram

/-- **Every fix is a sequence of edits.** -/
theorem fixBug_edits {G : GenEnv} {m m' : Module} {fl : FixLoc} {desc : FixDesc} {res : Bool}
    (hwf : m.WF) (h : fixBug G m fl desc = some (m', res)) : Edits G m m' := by
  -- both kinds of subprogram are inserted by the same rounds
  have hsub : ∀ {addFence m₁ ret b}, insertPersistentSubProgram G m desc.dynStack desc.stackIdx
      true addFence = some (m₁, ret) → some (m₁, b) = some (m', res) → Edits G m m' := by
    intro addFence m₁ ret b hins heq
    obtain ⟨rfl, -⟩ := Prod.mk.inj (Option.some.inj heq)
    exact insertPersistentSubProgram_edits hwf hins
  rw [fixBug] at h
  split at h
  · split at h
    · rename_i hflush
      simp only [Option.some.injEq, Prod.mk.injEq] at h
      obtain ⟨rfl, -⟩ := h
      exact insertFlush_edits hflush
    · cases h
  · obtain ⟨⟨m₁, n⟩, hfence, heq⟩ := Option.map_eq_some_iff.mp h
    simp only [Prod.mk.injEq] at heq
    obtain ⟨rfl, -⟩ := heq
    exact insertFence_edits hfence
  · split at h
    · rename_i hflush
      obtain ⟨⟨m₂, n⟩, hfence, heq⟩ := Option.map_eq_some_iff.mp h
      simp only [Prod.mk.injEq] at heq
      obtain ⟨rfl, -⟩ := heq
      exact (insertFlush_edits hflush).trans (insertFence_edits hfence)
    · cases h
  · split at h
    · cases h
    · rename_i hins
      exact hsub hins h
  · split at h
    · cases h
    · rename_i hins
      exact hsub hins h
  · simp only [Option.some.injEq, Prod.mk.injEq] at h
    exact h.1 ▸ .refl
  · simp only [Option.some.injEq, Prod.mk.injEq] at h
    exact h.1 ▸ .refl
  · cases h

end Hippocrates
