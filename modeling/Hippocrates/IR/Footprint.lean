import Mathlib.Tactic
import Hippocrates.IR.Grow
import Hippocrates.Lib.ForLoop

/-!
The functions that a fix may change.

* `Module.Has`: the instruction is in the function. `Touches`: a primitive fix is in the function,
  or the function has a location of a frame above the first in a persistent subprogram.
* `Spares`: what the rounds of a persistent subprogram keep of a function they do not touch.

`fixBug_frame`: a function that a fix does not touch keeps its body.
-/

namespace Hippocrates

open FixType

/-- The instruction is in the function. -/
def Module.Has (m : Module) (f : FnId) (i : InstId) : Prop :=
  ∃ body, m.lookup f = some body ∧ i ∈ body.insts.map Instr.id

/-- The function has a location of the frame `j`. -/
def FrameIn (mapper : LocationInfo → Option (List FixLoc)) (m : Module)
    (callstack : List LocationInfo) (j : ℕ) (f : FnId) : Prop :=
  ∃ li locs, callstack[j]? = some li ∧ mapper li = some locs ∧ ∃ loc ∈ locs, m.Has f loc.last

/-- The fix is in the function, or calls from the function are redirected for it. -/
def Touches (mapper : LocationInfo → Option (List FixLoc)) (m : Module) (fl : FixLoc)
    (desc : FixDesc) (f : FnId) : Prop :=
  if desc.type.isPST then
    ∃ j, 1 ≤ j ∧ j ≤ desc.stackIdx ∧ FrameIn mapper m desc.dynStack j f
  else m.Has f fl.last

/-! ### One operation -/

section Operation

variable {m m' : Module} {f : FnId} {i : InstId}

lemma Module.has_congr (h : m'.lookup f = m.lookup f) : m'.Has f i ↔ m.Has f i := by
  rw [Has, Has, h]

lemma Module.has_of_mem {body : Function} (h : m.lookup f = some body) {j : Instr}
    (hj : j ∈ body.insts) : m.Has f j.id := ⟨body, h, List.mem_map_of_mem hj⟩

lemma Module.not_has (hi : i ∉ m.insts.map Instr.id) : ¬ m.Has f i := by
  rintro ⟨body, hbody, hmem⟩
  obtain ⟨j, hj, rfl⟩ := List.mem_map.mp hmem
  exact hi (List.mem_map_of_mem (Module.mem_insts_of_lookup hbody hj))

lemma Module.WF.has_iff (hwf : m.WF) : m.Has f i ↔ m.getFunction i = some f := by
  constructor
  · rintro ⟨body, hbody, hmem⟩
    obtain ⟨j, hj, rfl⟩ := List.mem_map.mp hmem
    obtain ⟨b, hb, hjb⟩ := List.mem_flatten.mp hj
    rw [Module.getFunction, hwf.parent_eq (Module.mem_of_lookup hbody) hb hjb]
    rfl
  · intro h
    obtain ⟨⟨g, b⟩, hpar, rfl⟩ := Option.map_eq_some_iff.mp h
    obtain ⟨body, hp, hb, j, hj, rfl⟩ := Module.parent_spec hpar
    exact Module.has_of_mem (hwf.lookup_eq hp) (List.mem_flatten.mpr ⟨b, hb, hj⟩)

/-- A location is in one function. -/
lemma Module.WF.has_last (hwf : m.WF) {fl : FixLoc} {insts : List Instr}
    (hinsts : fl.insts m = some insts) {j : Instr} (hj : j ∈ insts) (hf : m.Has f j.id) :
    m.Has f fl.last := by
  obtain ⟨g, b, hpar, hjb⟩ := FixLoc.mem_of_insts hinsts hj
  obtain ⟨body, hp, hb, -⟩ := Module.parent_spec hpar
  have hvalid : fl.isValid m = true := by
    by_contra hnot
    rw [FixLoc.insts, if_pos (by simpa using hnot)] at hinsts
    obtain rfl := Option.some.inj hinsts
    exact absurd hj List.not_mem_nil
  rw [hwf.has_iff, Module.getFunction, hwf.parent_eq hp hb hjb] at hf
  obtain rfl : g = f := Option.some.inj hf
  rw [FixLoc.isValid, hpar] at hvalid
  obtain ⟨k, hk, hid⟩ := List.any_eq_true.mp hvalid
  rw [← beq_iff_eq.mp hid]
  exact Module.has_of_mem (hwf.lookup_eq hp) (List.mem_flatten.mpr ⟨b, hb, hk⟩)

lemma Module.lookup_insertAfter_of_not (hi : ¬ m.Has f i) (new : List Instr) :
    (m.insertAfter i new).lookup f = m.lookup f := by
  rw [Module.lookup_insertAfter]
  cases hbody : m.lookup f with
  | none => rfl
  | some body =>
      rw [Option.map_some, Function.rewrite_eq_self]
      intro j hj
      rw [insertedAfter, if_neg]
      rintro rfl
      exact hi (Module.has_of_mem hbody hj)

lemma Module.lookup_setCalledFunction_of_not (hi : ¬ m.Has f i) (g : FnId) :
    (m.setCalledFunction i g).lookup f = m.lookup f := by
  rw [Module.setCalledFunction, Module.lookup_rewrite]
  cases hbody : m.lookup f with
  | none => rfl
  | some body =>
      rw [Option.map_some, Function.rewrite_eq_self]
      intro j hj
      rw [redirect, if_neg]
      rintro rfl
      exact hi (Module.has_of_mem hbody hj)

lemma Module.lookup_clone {g : FnId} (h : m.clone g = some m') (hf : (m.lookup f).isSome = true) :
    m'.lookup f = m.lookup f := by
  obtain ⟨body, -, rfl⟩ := Option.map_eq_some_iff.mp h
  obtain ⟨body', hbody'⟩ := Option.isSome_iff_exists.mp hf
  rw [Module.lookup, Option.map_eq_some_iff] at hbody'
  obtain ⟨p, hp, -⟩ := hbody'
  rw [Module.lookup, Module.lookup, List.find?_append, hp]
  rfl

end Operation

/-! ### Primitive fixes -/

section Primitive

variable {m m' : Module} {f : FnId} {fl : FixLoc}

/-- Neither the function nor what is inserted last is touched by the flushes of other functions. -/
lemma insertFlush_frame (hwf : m.WF) (hoff : ¬ m.Has f fl.last) {n : Option InstId}
    (h : insertFlush m fl = some (m', n)) :
    m'.WF ∧ m'.lookup f = m.lookup f ∧ ∀ k ∈ n, ¬ m.Has f k := by
  rw [insertFlush] at h
  split at h
  · cases h
  · rename_i insts hinsts
    -- the invariant of the loop: the function is kept, and what was inserted lies elsewhere
    refine ForLoop.foldlM_inv (b := (m, (none : Option InstId)))
      (I := fun acc => acc.1.WF ∧ acc.1.lookup f = m.lookup f ∧ ∀ k ∈ acc.2, ¬ m.Has f k)
      ⟨hwf, rfl, by simp⟩ (fun i hi acc acc' hstep hacc => ?_) h
    rw [insertFlushAt] at hstep
    split at hstep
    · exact Option.some.inj hstep ▸ hacc
    · split at hstep
      · cases hstep
      · rename_i v _ _ _ _
        obtain rfl := Option.some.inj hstep
        obtain ⟨hnames, -⟩ := flushInstrs_spec acc.1 v
        have hi' : ¬ acc.1.Has f i.id := fun hhas =>
          hoff (hwf.has_last hinsts hi ((Module.has_congr hacc.2.1).mp hhas))
        refine ⟨hacc.1.insertAfter hnames, ?_, fun k hk hhas => ?_⟩
        · rw [Module.lookup_insertAfter_of_not hi', hacc.2.1]
        · obtain ⟨c, hc, rfl⟩ := Option.map_eq_some_iff.mp hk
          refine Module.not_has (fun hmem => ?_) ((Module.has_congr hacc.2.1).mpr hhas)
          obtain ⟨j, hj, hjc⟩ := List.mem_map.mp hmem
          exact hnames.ne hacc.1 (List.mem_of_getLast? hc) hj hjc.symm

lemma insertFence_frame (hoff : ¬ m.Has f fl.last) {n : InstId}
    (h : insertFence m fl = some (m', n)) : m'.lookup f = m.lookup f := by
  rw [insertFence] at h
  split at h
  · cases h
  · simp only [Option.some.injEq, Prod.mk.injEq] at h
    rw [← h.1, Module.lookup_insertAfter_of_not hoff]

end Primitive

/-! ### Persistent subprograms -/

/-- What the rounds of a persistent subprogram keep of a function. -/
structure Spares (m : Module) (f : FnId) (s : GenState) : Prop where
  wf : s.1.WF
  lookup : s.1.lookup f = m.lookup f
  ret : ∀ r ∈ s.2, ¬ m.Has f r

section Subprogram

variable {G : GenEnv} {m m' : Module} {f : FnId} {s s' : GenState} {next : LocationInfo}

/-- The flushes of a clone are in the clone. -/
lemma makeAllStoresPersistent_frame {oldF : FnId} {k : ℕ} (hwf : m.WF)
    (hoff : ∀ i : InstId, ¬ m.Has f (i.copy k))
    (h : makeAllStoresPersistent G m oldF k = some m') : m'.lookup f = m.lookup f := by
  rw [makeAllStoresPersistent] at h
  split at h
  · cases h
  · refine (ForLoop.foldlM_inv (I := fun m₁ => m₁.WF ∧ m₁.lookup f = m.lookup f) ⟨hwf, rfl⟩
      (fun i _ m₁ m₂ hstep hm₁ => ?_) h).2
    rw [persistStore] at hstep
    split at hstep
    · rename_i m₃ n hflush
      obtain rfl := Option.some.inj hstep
      have hi : ¬ m₁.Has f (FixLoc.single (i.id.copy k)).last := fun hhas =>
        hoff i.id ((Module.has_congr hm₁.2).mp hhas)
      obtain ⟨hwf', hlookup, -⟩ := insertFlush_frame hm₁.1 hi hflush
      exact ⟨hwf', hlookup.trans hm₁.2⟩
    · cases hstep

/-- A redirection of a call of another function. -/
lemma Spares.setCalledFunction (h : Spares m f s) {i : InstId} (hi : ¬ m.Has f i) (g : FnId) :
    Spares m f (s.1.setCalledFunction i g, some i) where
  wf := h.wf.setCalledFunction i g
  lookup := by
    rw [Module.lookup_setCalledFunction_of_not (mt (Module.has_congr h.lookup).mp hi), h.lookup]
  ret r hr := by
    obtain rfl := Option.some.inj hr
    exact hi

/-- An instruction of a location of another function. -/
lemma Spares.not_has (h : Spares m f s) {fl : FixLoc} {insts : List Instr}
    (hinsts : fl.insts s.1 = some insts) {j : Instr} (hj : j ∈ insts) (hoff : ¬ m.Has f fl.last) :
    ¬ m.Has f j.id := fun hhas => hoff <| (Module.has_congr h.lookup).mp <|
  h.wf.has_last hinsts hj ((Module.has_congr h.lookup).mpr hhas)

lemma replacePrimitive_frame (h : Spares m f s)
    (hoff : ∀ locs, G.mapper next = some locs → ∀ loc ∈ locs, ¬ m.Has f loc.last)
    (hs : replacePrimitive G next s = some s') : Spares m f s' := by
  rw [replacePrimitive] at hs
  split at hs
  · rename_i nextFixLoc hmap
    split at hs
    · cases hs
    · rename_i insts hinsts
      split at hs
      · rename_i cb hcands
        have hcb : cb ∈ insts := by
          have hmem : cb ∈ insts.filter Instr.isCallBase := hcands ▸ List.mem_cons_self
          exact (List.mem_filter.mp hmem).1
        split at hs
        · cases hs
        · split at hs
          · cases hs
          · exact Option.some.inj hs ▸ h
          · obtain rfl := Option.some.inj hs
            exact h.setCalledFunction
              (h.not_has hinsts hcb (hoff _ hmap nextFixLoc (List.mem_singleton_self _))) _
      · cases hs
  · cases hs

lemma redirectCall_frame {fn pmFn : FnId} (h : Spares m f s) {ni : InstId} (hni : ¬ m.Has f ni)
    (hs : redirectCall fn pmFn s ni = some s') : Spares m f s' := by
  rw [redirectCall] at hs
  split at hs
  · cases hs
  · split at hs
    · split at hs
      · split_ifs at hs
        · exact Option.some.inj hs ▸ h.setCalledFunction hni pmFn
        · exact Option.some.inj hs ▸ h
      · cases hs
    · exact Option.some.inj hs ▸ h

lemma redirectLoc_frame {fn pmFn : FnId} (h : Spares m f s) {nFix : FixLoc}
    (hoff : ¬ m.Has f nFix.last) (hs : redirectLoc fn pmFn s nFix = some s') : Spares m f s' := by
  rw [redirectLoc] at hs
  split at hs
  · cases hs
  · rename_i insts hinsts
    refine ForLoop.foldlM_inv (I := Spares m f) h (fun ni hni s₁ s₂ hstep hs₁ => ?_) hs
    obtain ⟨j, hj, rfl⟩ := List.mem_map.mp hni
    exact redirectCall_frame hs₁ (h.not_has hinsts hj hoff) hstep

/-- A clone with its flushes is a new function. -/
lemma persistentClone_frame {oldF pmFn : FnId} {m₁ m₂ : Module} (hwf : m.WF)
    (hf : (m.lookup f).isSome = true) (hdup : duplicateFunction m oldF = some (m₁, pmFn))
    (hmake : makeAllStoresPersistent G m₁ oldF m.next = some m₂) :
    m₂.WF ∧ m₂.lookup f = m.lookup f := by
  obtain ⟨m₃, hclone, heq⟩ := Option.map_eq_some_iff.mp hdup
  obtain ⟨rfl, -⟩ := Prod.mk.inj heq
  have hwf₃ : m₃.WF := hwf.clone hclone
  have hlookup : m₃.lookup f = m.lookup f := Module.lookup_clone hclone hf
  -- the function has the names from before the clone
  have hcopy : ∀ i : InstId, ¬ m₃.Has f (i.copy m.next) := by
    intro i hhas
    obtain ⟨body, hbody, hmem⟩ := (Module.has_congr hlookup).mp hhas
    obtain ⟨j, hj, hid⟩ := List.mem_map.mp hmem
    have hbelow := hwf.idsBelow j (Module.mem_insts_of_lookup hbody hj)
    rw [hid] at hbelow
    exact InstId.not_below_copy le_rfl i hbelow
  exact ⟨(makeAllStoresPersistent_edits hmake).wf hwf₃,
    (makeAllStoresPersistent_frame hwf₃ hcopy hmake).trans hlookup⟩

lemma cloneFrame_frame {fixLocList : List FixLoc} (h : Spares m f s)
    (hf : (m.lookup f).isSome = true)
    (hoff : ∀ locs, G.mapper next = some locs → ∀ loc ∈ locs, ¬ m.Has f loc.last)
    (hs : cloneFrame G true fixLocList next s = some s') : Spares m f s' := by
  unfold cloneFrame at hs
  split at hs
  · cases hs
  · split at hs
    · cases hs
    · split at hs
      · cases hs
      · rename_i fn _
        dsimp only at hs
        split at hs
        · cases hs
        · rename_i m₁ pmFn hpersist
          -- the clone and the flushes in it leave the functions that are there
          have hm₁ : m₁.WF ∧ m₁.lookup f = s.1.lookup f := by
            simp only [if_true] at hpersist
            split at hpersist
            · cases hpersist
            · rename_i hdup
              obtain ⟨m₃, hmake, heq⟩ := Option.map_eq_some_iff.mp hpersist
              obtain ⟨rfl, -⟩ := Prod.mk.inj heq
              exact persistentClone_frame h.wf (h.lookup ▸ hf) hdup hmake
          split at hs
          · cases hs
          · rename_i nextFixLoc hmap
            split_ifs at hs
            have hstart : Spares m f (m₁, s.2) := ⟨hm₁.1, hm₁.2.trans h.lookup, h.ret⟩
            exact ForLoop.foldlM_inv (I := Spares m f) hstart (fun nFix hnFix s₁ s₂ hstep hs₁ =>
              redirectLoc_frame hs₁ (hoff _ hmap nFix hnFix) hstep) hs

/-- **The rounds** keep a function that has no location of the frames they redirect. -/
lemma runFrames_frame {callstack : List LocationInfo} {n : ℕ} {r : Round} (hwf : m.WF)
    (hf : (m.lookup f).isSome = true)
    (hoff : ∀ j, 1 ≤ j → j ≤ n → ¬ FrameIn G.mapper m callstack j f)
    (h : runFrames G callstack true m n = some r) :
    r.module.lookup f = m.lookup f ∧ ∀ s, r = .next s → Spares m f s := by
  induction n generalizing r with
  | zero =>
      obtain rfl := Option.some.inj h
      refine ⟨rfl, fun s hs => ?_⟩
      obtain rfl := Round.next.inj hs
      exact ⟨hwf, rfl, by simp⟩
  | succ n ih =>
      have hbelow : ∀ j, 1 ≤ j → j ≤ n → ¬ FrameIn G.mapper m callstack j f :=
        fun j hj hjn => hoff j hj (hjn.trans n.le_succ)
      rw [runFrames] at h
      split at h
      · cases h
      · rename_i m₁ hrun
        obtain rfl := Option.some.inj h
        exact ⟨(ih hbelow hrun).1, fun s hs => by cases hs⟩
      · rename_i s hrun
        have hs : Spares m f s := (ih hbelow hrun).2 s rfl
        have hnext : ∀ next, callstack[n + 1]? = some next → ∀ locs, G.mapper next = some locs →
            ∀ loc ∈ locs, ¬ m.Has f loc.last := fun next hli locs hmap loc hloc hhas =>
          hoff (n + 1) n.succ_pos le_rfl ⟨next, locs, hli, hmap, loc, hloc, hhas⟩
        -- every other round goes on with a state that spares the function
        have hround : ∀ s', Spares m f s' → (Round.next s').module.lookup f = m.lookup f ∧
            ∀ s₁, Round.next s' = .next s₁ → Spares m f s₁ := by
          intro s' hs'
          refine ⟨hs'.lookup, fun s₁ heq => ?_⟩
          obtain rfl := Round.next.inj heq
          exact hs'
        rw [frameStep] at h
        split at h
        · cases h
        · split at h
          · split_ifs at h
            · obtain rfl := Option.some.inj h
              exact ⟨hs.lookup, fun s₁ heq => by cases heq⟩
            · split at h
              · cases h
              · rename_i next hli
                obtain ⟨s', hs', rfl⟩ := Option.map_eq_some_iff.mp h
                exact hround s' (replacePrimitive_frame hs (hnext next hli) hs')
          · split at h
            · cases h
            · rename_i next hli
              obtain ⟨s', hs', rfl⟩ := Option.map_eq_some_iff.mp h
              exact hround s' (cloneFrame_frame hs hf (hnext next hli) hs')

lemma insertPersistentSubProgram_frame {callstack : List LocationInfo} {idx : ℕ} {addFence : Bool}
    {ret : Option InstId} (hwf : m.WF) (hf : (m.lookup f).isSome = true)
    (hoff : ∀ j, 1 ≤ j → j ≤ idx → ¬ FrameIn G.mapper m callstack j f)
    (h : insertPersistentSubProgram G m callstack idx true addFence = some (m', ret)) :
    m'.lookup f = m.lookup f := by
  rw [insertPersistentSubProgram] at h
  split at h
  · cases h
  · rename_i m₁ hrun
    obtain ⟨rfl, -⟩ := Prod.mk.inj (Option.some.inj h)
    exact (runFrames_frame hwf hf hoff hrun).1
  · rename_i m₁ retInst hrun
    have hs : Spares m f (m₁, retInst) := (runFrames_frame hwf hf hoff hrun).2 _ rfl
    split_ifs at h
    · split at h
      · cases h
      · rename_i r
        obtain ⟨⟨m₂, n⟩, hfence, heq⟩ := Option.map_eq_some_iff.mp h
        obtain ⟨rfl, -⟩ := Prod.mk.inj heq
        have hr : ¬ m₁.Has f (FixLoc.single r).last :=
          mt (Module.has_congr hs.lookup).mp (hs.ret r rfl)
        exact (insertFence_frame hr hfence).trans hs.lookup
    · obtain ⟨rfl, -⟩ := Prod.mk.inj (Option.some.inj h)
      exact hs.lookup

end Subprogram

/-- **A fix** keeps the functions that it does not touch. -/
theorem fixBug_frame {G : GenEnv} {m m' : Module} {f : FnId} {fl : FixLoc} {desc : FixDesc}
    {res : Bool} (hwf : m.WF) (hf : (m.lookup f).isSome = true)
    (hoff : ¬ Touches G.mapper m fl desc f) (h : fixBug G m fl desc = some (m', res)) :
    m'.lookup f = m.lookup f := by
  rw [Touches] at hoff
  have hsub : ∀ {addFence m₁ ret b}, desc.type.isPST = true →
      insertPersistentSubProgram G m desc.dynStack desc.stackIdx true addFence = some (m₁, ret) →
      some (m₁, b) = some (m', res) → m'.lookup f = m.lookup f := by
    intro addFence m₁ ret b hpst hins heq
    obtain ⟨rfl, -⟩ := Prod.mk.inj (Option.some.inj heq)
    rw [if_pos hpst] at hoff
    exact insertPersistentSubProgram_frame hwf hf
      (fun j hj hle hframe => hoff ⟨j, hj, hle, hframe⟩) hins
  rw [fixBug] at h
  split at h
  · rename_i htype
    rw [if_neg (by rw [htype]; decide)] at hoff
    split at h
    · rename_i hflush
      obtain ⟨rfl, -⟩ := Prod.mk.inj (Option.some.inj h)
      exact (insertFlush_frame hwf hoff hflush).2.1
    · cases h
  · rename_i htype
    rw [if_neg (by rw [htype]; decide)] at hoff
    obtain ⟨⟨m₁, n⟩, hfence, heq⟩ := Option.map_eq_some_iff.mp h
    obtain ⟨rfl, -⟩ := Prod.mk.inj heq
    exact insertFence_frame hoff hfence
  · rename_i htype
    rw [if_neg (by rw [htype]; decide)] at hoff
    split at h
    · rename_i m₁ n hflush
      obtain ⟨⟨m₂, n'⟩, hfence, heq⟩ := Option.map_eq_some_iff.mp h
      obtain ⟨rfl, -⟩ := Prod.mk.inj heq
      obtain ⟨-, hlookup, hn⟩ := insertFlush_frame hwf hoff hflush
      -- the fence comes after the last flush, which does not lie in the function
      have hn' : ¬ m₁.Has f (FixLoc.single n).last := mt (Module.has_congr hlookup).mp (hn n rfl)
      exact (insertFence_frame hn' hfence).trans hlookup
    · cases h
  · rename_i htype
    split at h
    · cases h
    · rename_i hins
      exact hsub (by rw [htype]; rfl) hins h
  · rename_i htype
    split at h
    · cases h
    · rename_i hins
      exact hsub (by rw [htype]; rfl) hins h
  · rw [(Prod.mk.inj (Option.some.inj h)).1]
  · rw [(Prod.mk.inj (Option.some.inj h)).1]
  · cases h

end Hippocrates
