import Mathlib.Tactic
import Hippocrates.IR.Frames

/-!
`insertPersistentSubProgram` and the functions it was not meant to change. Only the function at
the top of the call stack should change: the calls at `callstack[idx]` are redirected and a
fence is inserted. But a round redirects the calls in the original of the next frame's function,
and only then that function is cloned. So an original keeps its body only if it does not call
the frame below it (`insertPersistentSubProgram_onlyTop_iff`).

A call stack with an unmapped frame above the first is to be given up, with the module as it was.
But the round below that frame looks it up, and the test for it is never reached
(`not_givesUp`).
-/

namespace Hippocrates

/-- What becomes of the loop's result: a fence follows the returned call, if one is asked for. -/
inductive Fenced (s : GenState) : Bool → Module → Prop
  | without : Fenced s false s.1
  | after {r : InstId} (hr : s.2 = some r) :
      Fenced s true (s.1.insertAfter r [sfenceCall s.1.next])

/-- **The subprogram**: the rounds of the loop, and the fence. -/
theorem insertPersistentSubProgram_spec {G : GenEnv} {m m' : Module}
    {callstack : List LocationInfo} {f : ℕ → FnId} {idx : ℕ} {addFence : Bool}
    {ret : Option InstId} (hframes : FramesIn G m callstack f idx)
    (hrun : insertPersistentSubProgram G m callstack idx true addFence = some (m', ret)) :
    ∃ s extra, Rounds G m callstack f idx s extra ∧ ret = s.2 ∧ Fenced s addFence m' := by
  rw [insertPersistentSubProgram] at hrun
  split at hrun
  · cases hrun
  · rename_i m₁ hloop
    -- the loop does not end early, as its frames are mapped
    obtain ⟨s, heq, -⟩ := runFrames_spec hframes hloop
    cases heq
  · rename_i m₁ retInst hloop
    obtain ⟨s, heq, extra, h⟩ := runFrames_spec hframes hloop
    obtain rfl := Round.next.inj heq
    refine ⟨_, extra, h, ?_⟩
    split_ifs at hrun with hfence
    · split at hrun
      · cases hrun
      · rename_i r
        obtain ⟨⟨m₂, n⟩, hins, heq⟩ := Option.map_eq_some_iff.mp hrun
        simp only [Prod.mk.injEq] at heq
        obtain ⟨rfl, rfl⟩ := heq
        rw [insertFence] at hins
        split at hins
        · cases hins
        · simp only [Option.some.injEq, Prod.mk.injEq] at hins
          obtain ⟨rfl, -⟩ := hins
          rw [hfence]
          exact ⟨rfl, .after rfl⟩
    · simp only [Option.some.injEq, Prod.mk.injEq] at hrun
      obtain ⟨rfl, rfl⟩ := hrun
      rw [Bool.not_eq_true] at hfence
      rw [hfence]
      exact ⟨rfl, .without⟩

section Fenced

variable {s : GenState} {addFence : Bool} {m' : Module}

lemma Fenced.wf (h : Fenced s addFence m') (hwf : s.1.WF) : m'.WF := by
  cases h with
  | without => exact hwf
  | after hr => exact hwf.insertAfter rfl

/-- The fence leaves the instructions in place. -/
lemma Fenced.mem_insts (h : Fenced s addFence m') {i : Instr} (hi : i ∈ s.1.insts) :
    i ∈ m'.insts := by
  cases h with
  | without => exact hi
  | after hr =>
      rw [Module.insts_insertAfter]
      exact List.mem_flatMap.mpr ⟨i, hi, mem_insertedAfter_self _ _ i⟩

/-- The fence leaves the other functions alone. -/
lemma Fenced.lookup (h : Fenced s addFence m') {f : FnId} {body : Function}
    (hf : s.1.lookup f = some body) (hr : ∀ r, s.2 = some r → ∀ i ∈ body.insts, i.id ≠ r) :
    m'.lookup f = some body := by
  cases h with
  | without => exact hf
  | after hs =>
      rw [Module.lookup_insertAfter, hf]
      exact congrArg some (Function.rewrite_eq_self fun i hi => if_neg (hr _ hs i hi))

end Fenced

/-! ### The originals -/

section Sites

variable {G : GenEnv} {m : Module} {callstack : List LocationInfo} {f : ℕ → FnId} {idx : ℕ}

/-- A call site of frame `j` is a call of `f j` in the function of the next frame. -/
lemma FramesIn.mem_callSites (h : FramesIn G m callstack f idx) {j : ℕ} (hj : j < idx)
    {c : Instr} (hc : c ∈ callSites G m callstack f j) :
    c.getCalledFunction = some (f j) ∧
      ∃ body, m.lookup (f (j + 1)) = some body ∧ c ∈ body.insts := by
  obtain ⟨li, hli, fls, hfls, -, hvalid⟩ := h.mapped (j + 1) hj
  rw [callSites, hli] at hc
  obtain ⟨hmem, hcall⟩ := List.mem_filter.mp hc
  rw [GenEnv.instsAt, hfls] at hmem
  obtain ⟨fl, hfl, hcfl⟩ := List.mem_flatMap.mp hmem
  refine ⟨of_decide_eq_true hcall, ?_⟩
  cases hinsts : fl.insts m with
  | none =>
      rw [hinsts] at hcfl
      exact absurd hcfl List.not_mem_nil
  | some insts =>
      rw [hinsts] at hcfl
      obtain ⟨g, b, hpar, hcb⟩ := FixLoc.mem_of_insts hinsts hcfl
      obtain ⟨body, hp, hb, -⟩ := Module.parent_spec hpar
      have hg := (hvalid fl hfl).2
      rw [Module.getFunction, hpar] at hg
      obtain rfl : g = f (j + 1) := Option.some.inj hg
      exact ⟨body, h.wf.lookup_eq hp, List.mem_flatten.mpr ⟨b, hb, hcb⟩⟩

/-- An instruction is in one function. -/
lemma Module.WF.fn_unique (hwf : m.WF) {g g' : FnId} {body body' : Function}
    (hg : m.lookup g = some body) (hg' : m.lookup g' = some body') {i j : Instr}
    (hi : i ∈ body.insts) (hj : j ∈ body'.insts) (hid : i.id = j.id) : g = g' := by
  have hids : m.funs.flatMap (fun p => p.2.insts.map Instr.id) = m.insts.map Instr.id := by
    rw [Module.insts, List.map_flatMap]
  have hnodup := hwf.ids
  rw [← hids] at hnodup
  have heq := eq_of_nodup_flatMap hnodup (Module.mem_of_lookup hg) (Module.mem_of_lookup hg')
    (List.mem_map_of_mem hi) (hid ▸ List.mem_map_of_mem hj)
  exact congrArg Prod.fst heq

/-- The redirected body of the function at the top. -/
def topBody (G : GenEnv) (m : Module) (callstack : List LocationInfo) (f : ℕ → FnId) (k : ℕ) :
    ℕ → Function → Function
  | 0, body => body
  | j + 1, body => body.rewrite fun i => [redirect (redirectTo (fun _ => none)
      (callSites G m callstack f j) ((f j).clone k)) i]

/-- The function with a fence after the returned call, if one is asked for. -/
def fencedBody (addFence : Bool) (ret : Option InstId) (n : ℕ) (body : Function) : Function :=
  match addFence, ret with
  | true, some r => body.rewrite (insertedAfter r [sfenceCall n])
  | _, _ => body

/-- Of the functions of `m` only the one at the top changes: its calls at `callstack[idx]` are
redirected to a clone, and the fence is inserted. -/
structure OnlyTopChanged (G : GenEnv) (m : Module) (callstack : List LocationInfo)
    (f : ℕ → FnId) (idx : ℕ) (addFence : Bool) (m' : Module) (ret : Option InstId) : Prop where
  others : ∀ g body, g ≠ f idx → m.lookup g = some body → m'.lookup g = some body
  top : ∀ body, m.lookup (f idx) = some body → ∃ k n,
    m'.lookup (f idx) = some (fencedBody addFence ret n (topBody G m callstack f k idx body))

lemma Fenced.lookup_fencedBody {s : GenState} {addFence : Bool} {m' : Module}
    (h : Fenced s addFence m') {g : FnId} {body : Function} (hg : s.1.lookup g = some body) :
    m'.lookup g = some (fencedBody addFence s.2 s.1.next body) := by
  cases h with
  | without => exact hg
  | after hr =>
      rw [Module.lookup_insertAfter, hg, hr]
      rfl

/-- Without call sites nothing is redirected. -/
lemma redirects_eq_none {n : ℕ} (h : ∀ j < n, callSites G m callstack f j = []) :
    redirects G m callstack f n = fun _ => none := by
  funext i
  cases hi : redirects G m callstack f n i with
  | none => rfl
  | some g =>
      obtain ⟨j, hj, -, -, c, hc, -⟩ := redirects_eq_some hi
      rw [h j hj] at hc
      exact absurd hc List.not_mem_nil

lemma Function.rewrite_redirect_none (body : Function) :
    (body.rewrite fun i => [redirect (fun _ => none) i]) = body :=
  Function.rewrite_eq_self fun _ _ => rfl

/-- A call site of a frame below the top is redirected inside an original. -/
lemma Rounds.changed {s : GenState} {extra : List (FnId × Function)} {addFence : Bool}
    {m' : Module} (h : Rounds G m callstack f idx s extra) (hfenced : Fenced s addFence m')
    (hframes : FramesIn G m callstack f idx) {j : ℕ} (hj : j < idx) {c : Instr}
    (hc : c ∈ callSites G m callstack f j) {body : Function}
    (hbody : m.lookup (f (j + 1)) = some body) : m'.lookup (f (j + 1)) ≠ some body := by
  intro hsame
  obtain ⟨hcall, body', hbody', hcb⟩ := hframes.mem_callSites hj hc
  obtain rfl := Option.some.inj (hbody.symm.trans hbody')
  have hold := Module.mem_insts_of_lookup hsame hcb
  have hcm := Module.mem_insts_of_lookup hbody hcb
  have hnew := hfenced.mem_insts (h.patched.mem_insts hcm)
  have heq := (hfenced.wf h.patched.wf).eq_of_id hold hnew (redirect_id _ c).symm
  -- the copy in the new module calls a clone, whose name is new
  obtain ⟨g, hg⟩ := Option.ne_none_iff_exists'.mp (redirects_ne_none hj hc)
  have hcallee : c.getCalledFunction = some g := by
    calc c.getCalledFunction = (redirect (redirects G m callstack f idx) c).getCalledFunction :=
          congrArg Instr.getCalledFunction heq
      _ = (redirects G m callstack f idx c.id).or c.getCalledFunction :=
          getCalledFunction_redirect (h.patched.callee c hcm)
      _ = some g := by rw [hg]; rfl
  obtain ⟨i, hi, rfl, -⟩ := redirects_eq_some hg
  exact hframes.clone_ne hj.le (h.clones i hi).1 (f i) (Option.some.inj (hcallee.symm.trans hcall))

/-- **Only the function at the top changes** exactly when no frame strictly between calls the
function of the frame below it: the round of the frame below redirects that call in the
original. -/
theorem insertPersistentSubProgram_onlyTop_iff (hframes : FramesIn G m callstack f idx)
    (hdistinct : Set.InjOn f (Set.Iic idx)) {addFence : Bool} {m' : Module}
    {ret : Option InstId}
    (hrun : insertPersistentSubProgram G m callstack idx true addFence = some (m', ret)) :
    OnlyTopChanged G m callstack f idx addFence m' ret ↔
      ∀ j, j + 1 < idx → callSites G m callstack f j = [] := by
  obtain ⟨s, extra, h, rfl, hfenced⟩ := insertPersistentSubProgram_spec hframes hrun
  constructor
  · intro honly j hj
    refine List.eq_nil_iff_forall_not_mem.mpr fun c hc => ?_
    obtain ⟨-, body, hbody, -⟩ := hframes.mem_callSites ((Nat.lt_succ_self j).trans hj) hc
    have hne : f (j + 1) ≠ f idx := fun heq =>
      hj.ne (hdistinct (Set.mem_Iic.mpr hj.le) (Set.mem_Iic.mpr le_rfl) heq)
    exact h.changed hfenced hframes ((Nat.lt_succ_self j).trans hj) hc hbody
      (honly.others _ body hne hbody)
  · intro hnil
    -- a call site is at the top
    have htop : ∀ j < idx, ∀ c ∈ callSites G m callstack f j, j + 1 = idx := by
      intro j hj c hc
      refine (Nat.succ_le_of_lt hj).eq_or_lt.resolve_right fun hlt => ?_
      rw [hnil j hlt] at hc
      exact absurd hc List.not_mem_nil
    have hsite : ∀ j < idx, ∀ c ∈ callSites G m callstack f j, ∀ g body, g ≠ f idx →
        m.lookup g = some body → ∀ i ∈ body.insts, i.id ≠ c.id := by
      intro j hj c hc g body hne hg i hi hid
      obtain ⟨-, body', hbody', hcb⟩ := hframes.mem_callSites hj hc
      refine hne ((hframes.wf.fn_unique hg hbody' hi hcb hid).trans ?_)
      rw [htop j hj c hc]
    refine ⟨fun g body hne hg => ?_, fun body hbody => ?_⟩
    · have hbody : (body.rewrite fun i => [redirect (redirects G m callstack f idx) i]) = body := by
        refine Function.rewrite_eq_self fun i hi => ?_
        rw [redirect]
        cases hi' : redirects G m callstack f idx i.id with
        | none => rfl
        | some g' =>
            obtain ⟨j, hj, -, -, c, hc, hid⟩ := redirects_eq_some hi'
            exact absurd hid.symm (hsite j hj c hc g body hne hg i hi)
      have hlookup := h.patched.lookup hg
      rw [hbody] at hlookup
      refine hfenced.lookup hlookup fun r hr i hi => ?_
      obtain ⟨j, hj, c, hc, rfl⟩ := h.ret hr
      exact hsite j hj c hc g body hne hg i hi
    · refine ⟨cloneNumber G m callstack (idx - 1), s.1.next, ?_⟩
      rw [hfenced.lookup_fencedBody (h.patched.lookup hbody)]
      cases idx with
      | zero => rw [redirects, Function.rewrite_redirect_none, topBody]
      | succ j =>
          have hbelow : redirects G m callstack f j = fun _ => none :=
            redirects_eq_none fun i hi => hnil i (Nat.succ_lt_succ hi)
          rw [redirects, hbelow, topBody]
          rfl

end Sites

/-! ### Unmapped frames above the first -/

/-- No call is returned, and the module is as before. -/
def GivesUp (G : GenEnv) (m : Module) (callstack : List LocationInfo) (idx : ℕ)
    (addFlushes addFence : Bool) : Prop :=
  insertPersistentSubProgram G m callstack idx addFlushes addFence = some (m, none)

/-- The frame `i` is on the stack and not mapped. -/
def UnmappedAt (G : GenEnv) (callstack : List LocationInfo) (i : ℕ) : Prop :=
  ∃ li, callstack[i]? = some li ∧ G.mapper li = none

section Unmapped

variable {G : GenEnv} {m : Module} {callstack : List LocationInfo} {addFlushes : Bool}

/-- A round gives up only at an unmapped frame above the first. -/
lemma unmappedAt_of_abort {i : ℕ} {s : GenState} {m' : Module}
    (h : frameStep G callstack addFlushes i s = some (.abort m')) :
    0 < i ∧ UnmappedAt G callstack i := by
  rw [frameStep] at h
  cases hli : callstack[i]? with
  | none => simp [hli] at h
  | some li =>
      simp only [hli] at h
      cases hmap : G.mapper li with
      | none =>
          simp only [hmap] at h
          split_ifs at h with hi
          · exact ⟨hi, li, hli, hmap⟩
          · cases hnext : callstack[i + 1]? <;> simp [hnext] at h
      | some fixLocList =>
          simp only [hmap] at h
          cases hnext : callstack[i + 1]? <;> simp [hnext] at h

/-- The calls of an unmapped frame cannot be redirected: when the clone has been made, the lookup
throws. -/
lemma cloneFrame_unmapped {fixLocList : List FixLoc} {next : LocationInfo} {s : GenState}
    (hnext : G.mapper next = none) : cloneFrame G addFlushes fixLocList next s = none := by
  unfold cloneFrame
  split
  · rfl
  · cases fixLocList with
    | nil => rfl
    | cons fl rest =>
        dsimp only
        cases s.1.getFunction fl.last with
        | none => rfl
        | some fn =>
            dsimp only
            rw [hnext]
            split <;> rfl

/-- The round below an unmapped frame looks that frame up. -/
lemma frameStep_below_unmapped {i : ℕ} {s : GenState} (hnext : UnmappedAt G callstack (i + 1))
    (hi : 0 < i → ¬ UnmappedAt G callstack i) :
    frameStep G callstack addFlushes i s = none := by
  obtain ⟨next, hnext, hmapNext⟩ := hnext
  rw [frameStep]
  cases hli : callstack[i]? with
  | none => rfl
  | some li =>
      dsimp only
      cases hmap : G.mapper li with
      | none =>
          dsimp only
          rw [if_neg fun hpos => hi hpos ⟨li, hli, hmap⟩, hnext]
          simp [replacePrimitive, hmapNext]
      | some fixLocList =>
          dsimp only
          rw [hnext]
          simp [cloneFrame_unmapped hmapNext]

/-- Below the first unmapped frame above frame 0 no round gives up. -/
lemma runFrames_ne_abort {n : ℕ} (h : ∀ i < n, 0 < i → ¬ UnmappedAt G callstack i) (m' : Module) :
    runFrames G callstack addFlushes m n ≠ some (.abort m') := by
  induction n generalizing m' with
  | zero => simp [runFrames]
  | succ n ih =>
      have ih := ih fun i hi => h i (hi.trans (Nat.lt_succ_self n))
      rw [runFrames]
      split
      · simp
      · rename_i m'' hrun
        exact absurd hrun (ih m'')
      · intro habort
        obtain ⟨hpos, hn⟩ := unmappedAt_of_abort habort
        exact h n (Nat.lt_succ_self n) hpos hn

/-- A loop that has failed stays so. -/
lemma runFrames_eq_none_of_le {n n' : ℕ} (h : runFrames G callstack addFlushes m n = none)
    (hn : n ≤ n') : runFrames G callstack addFlushes m n' = none := by
  induction n', hn using Nat.le_induction with
  | base => exact h
  | succ n' hn ih => rw [runFrames, ih]

/-- The loop fails in the round below the first unmapped frame above frame 0. -/
lemma runFrames_unmapped {k idx : ℕ} (hpos : 0 < k) (hk : k < idx)
    (hunmapped : UnmappedAt G callstack k) :
    runFrames G callstack addFlushes m idx = none := by
  classical
  have hex : ∃ k, 0 < k ∧ UnmappedAt G callstack k := ⟨k, hpos, hunmapped⟩
  obtain ⟨hfirst, hat⟩ := Nat.find_spec hex
  have hle : Nat.find hex ≤ k := Nat.find_min' hex ⟨hpos, hunmapped⟩
  have hbelow : ∀ i < Nat.find hex, 0 < i → ¬ UnmappedAt G callstack i :=
    fun i hi hi' hun => Nat.find_min hex hi ⟨hi', hun⟩
  obtain ⟨i, hi⟩ := Nat.exists_eq_succ_of_ne_zero hfirst.ne'
  rw [hi] at hat hle hbelow
  refine runFrames_eq_none_of_le (n := i + 1) ?_ (hle.trans hk.le)
  rw [runFrames]
  split
  · rfl
  · rename_i m' hrun
    exact absurd hrun (runFrames_ne_abort (fun j hj => hbelow j (hj.trans (Nat.lt_succ_self i))) m')
  · exact frameStep_below_unmapped hat (hbelow i (Nat.lt_succ_self i))

/-- **A stack with an unmapped frame above the first is never given up**: neither the subprogram
nor the fix comes to an end. -/
theorem not_givesUp {k idx : ℕ} {addFence : Bool} (hpos : 1 ≤ k) (hk : k < idx)
    (hunmapped : UnmappedAt G callstack k) :
    ¬ GivesUp G m callstack idx addFlushes addFence ∧
      ∀ fl desc, desc.type.isPST = true → desc.dynStack = callstack → desc.stackIdx = idx →
        fixBug G m fl desc = none := by
  have hnone : ∀ flushes fence,
      insertPersistentSubProgram G m callstack idx flushes fence = none := fun flushes fence => by
    rw [insertPersistentSubProgram, runFrames_unmapped hpos hk hunmapped]
  refine ⟨fun hgives => ?_, fun fl desc hpst hstack hidx => ?_⟩
  · rw [GivesUp, hnone] at hgives
    cases hgives
  · subst hstack hidx
    rw [fixBug]
    rcases FixType.isPST_iff.mp hpst with ht | ht
    · simp [ht, hnone]
    · simp [ht, hnone]

end Unmapped

/-! ### The store two calls deep -/

/-- The functions of `storeBelowStack`. -/
def storeBelowFrame : ℕ → FnId
  | 0 => FnId.named "update"
  | 1 => FnId.named "relay"
  | _ => FnId.named "main"

lemma storeBelow_framesIn (target : Value) :
    FramesIn (storeBelowEnv target) storeBelow storeBelowStack storeBelowFrame 2 := by
  refine ⟨storeBelow_wf, fun j hj => ?_⟩
  interval_cases j
  · exact ⟨_, rfl, [FixLoc.single (InstId.orig 0)], rfl, by simp, by simp; decide⟩
  · exact ⟨_, rfl, [FixLoc.single (InstId.orig 2)], rfl, by simp, by simp; decide⟩
  · exact ⟨_, rfl, [FixLoc.single (InstId.orig 5)], rfl, by simp, by simp; decide⟩

lemma storeBelow_injOn : Set.InjOn storeBelowFrame (Set.Iic 2) := by
  intro i hi j hj h
  rw [Set.mem_Iic] at hi hj
  interval_cases i <;> interval_cases j <;> first | rfl | exact absurd h (by decide)

theorem insertPersistentSubProgram_onlyTop_iff_relay :
    ∃ m' ret, insertPersistentSubProgram
        (storeBelowEnv (.inst (InstId.orig 4) (.other "i64*"))) storeBelow storeBelowStack 1 true
        true = some (m', ret) ∧
      OnlyTopChanged (storeBelowEnv (.inst (InstId.orig 4) (.other "i64*"))) storeBelow
        storeBelowStack storeBelowFrame 1 true m' ret := by
  have hframes := storeBelow_framesIn (.inst (InstId.orig 4) (.other "i64*"))
  have hrun : (insertPersistentSubProgram (storeBelowEnv (.inst (InstId.orig 4) (.other "i64*")))
      storeBelow storeBelowStack 1 true true).isSome = true := by
    decide
  obtain ⟨⟨m', ret⟩, hm'⟩ := Option.isSome_iff_exists.mp hrun
  refine ⟨m', ret, hm', (insertPersistentSubProgram_onlyTop_iff ?_ ?_ hm').mpr ?_⟩
  · exact ⟨hframes.wf, fun j hj => hframes.mapped j (hj.trans one_le_two)⟩
  · exact storeBelow_injOn.mono (Set.Iic_subset_Iic.mpr one_le_two)
  · intro j hj
    omega

/-- The call stack of the store, called from a library function that no line belongs to. -/
def callbackStack : List LocationInfo :=
  [⟨"update", "update.c", 1⟩, ⟨"qsort", "qsort.c", 7⟩, ⟨"main", "update.c", 9⟩]

lemma callbackStack_unmapped (target : Value) :
    UnmappedAt (storeBelowEnv target) callbackStack 1 := ⟨_, rfl, rfl⟩

theorem not_givesUp_callback :
    ¬ GivesUp (storeBelowEnv (.constant "pool" (.other "i64*"))) storeBelow callbackStack 2 true
        true ∧
      ∀ fl desc, desc.type.isPST = true → desc.dynStack = callbackStack → desc.stackIdx = 2 →
        fixBug (storeBelowEnv (.constant "pool" (.other "i64*"))) storeBelow fl desc = none :=
  not_givesUp le_rfl (Nat.lt_succ_self 1) (callbackStack_unmapped _)

/-- The subprogram for the stack fails with the clone of `update` made. -/
theorem callback_not_givesUp :
    UnmappedAt (storeBelowEnv (.constant "pool" (.other "i64*"))) callbackStack 1 ∧
      ¬ GivesUp (storeBelowEnv (.constant "pool" (.other "i64*"))) storeBelow callbackStack 2 true
        true := by
  refine ⟨callbackStack_unmapped _, fun hgives => ?_⟩
  have hnone : insertPersistentSubProgram (storeBelowEnv (.constant "pool" (.other "i64*")))
      storeBelow callbackStack 2 true true = none := rfl
  rw [GivesUp, hnone] at hgives
  cases hgives

/-- `relay` calls the clone of `update` afterwards, whoever calls `relay`. -/
theorem relay_changed :
    ∃ m' ret, insertPersistentSubProgram
        (storeBelowEnv (.inst (InstId.orig 4) (.other "i64*"))) storeBelow storeBelowStack 2 true
        true = some (m', ret) ∧
      FramesIn (storeBelowEnv (.inst (InstId.orig 4) (.other "i64*"))) storeBelow storeBelowStack
        storeBelowFrame 2 ∧
      Set.InjOn storeBelowFrame (Set.Iic 2) ∧
      ¬ OnlyTopChanged (storeBelowEnv (.inst (InstId.orig 4) (.other "i64*"))) storeBelow
        storeBelowStack storeBelowFrame 2 true m' ret := by
  have hrun : (insertPersistentSubProgram (storeBelowEnv (.inst (InstId.orig 4) (.other "i64*")))
      storeBelow storeBelowStack 2 true true).isSome = true := by
    decide
  refine ⟨_, _, (Option.some_get hrun).symm, storeBelow_framesIn _, storeBelow_injOn, ?_⟩
  intro honly
  have hsame := honly.others (FnId.named "relay") _ (by decide) rfl
  exact absurd hsame (by decide)

end Hippocrates
