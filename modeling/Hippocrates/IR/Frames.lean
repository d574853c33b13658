import Mathlib.Tactic
import Hippocrates.IR.Persist
import Hippocrates.Lib.ForLoop

/-!
The loop of `insertPersistentSubProgram` over mapped frames: the function of each frame is
cloned, the stores of the clone are made persistent, and the calls at the next frame are
redirected to the clone.

* `Redirects`: what the redirections of a round do; `cloneFrame_spec`: what a round does.
* `callSites`, `redirects`: the calls of a frame's function at the next frame, and where the
  calls lead after some rounds. A call site that serves two frames is redirected for the first.
* `Rounds`: the state after some rounds; `runFrames_spec`.
-/

namespace Hippocrates

/-! ### Redirected calls -/

/-- The instructions at a source location. -/
def GenEnv.instsAt (G : GenEnv) (m : Module) (li : LocationInfo) : List Instr :=
  ((G.mapper li).getD []).flatMap fun fl => (fl.insts m).getD []

/-- The calls of `fn` among the instructions. -/
def callsOf (fn : FnId) (js : List Instr) : List Instr :=
  js.filter fun j => j.getCalledFunction = some fn

/-- The calls `js` that are not redirected yet are redirected to `pmFn`. -/
def redirectTo (ρ : InstId → Option FnId) (js : List Instr) (pmFn : FnId) :
    InstId → Option FnId :=
  fun i => (ρ i).or (if i ∈ js.map Instr.id then some pmFn else none)

/-- The calls of `fn` among `js` are redirected to `pmFn`, and the last one redirected is
returned, or what was to be returned before. -/
structure Redirects (m : Module) (ρ : InstId → Option FnId) (extra : List (FnId × Function))
    (fn pmFn : FnId) (js : List Instr) (ret : Option InstId) (s' : GenState) : Prop where
  patched : Patched m (redirectTo ρ (callsOf fn js) pmFn) extra s'.1
  ret : (s'.2 = ret ∧ ∀ j ∈ callsOf fn js, ρ j.id ≠ none) ∨
    ∃ pre j post, callsOf fn js = pre ++ j :: post ∧ redirectTo ρ pre pmFn j.id = none ∧
      (∀ k ∈ post, redirectTo ρ (pre ++ [j]) pmFn k.id ≠ none) ∧ s'.2 = some j.id

section Redirect

variable {m : Module} {ρ : InstId → Option FnId} {extra : List (FnId × Function)}
  {fn pmFn : FnId} {js : List Instr} {s s' : GenState}

lemma redirectTo_nil : redirectTo ρ [] pmFn = ρ := by
  funext i
  simp [redirectTo]

lemma redirectTo_append (js js' : List Instr) :
    redirectTo (redirectTo ρ js pmFn) js' pmFn = redirectTo ρ (js ++ js') pmFn := by
  funext i
  simp only [redirectTo, Option.or_assoc, List.map_append, List.mem_append]
  congr 1
  by_cases h : i ∈ js.map Instr.id <;> simp [h]

/-- A call is redirected if it was before, or is one of `js`. -/
lemma redirectTo_eq_none_iff {i : InstId} :
    redirectTo ρ js pmFn i = none ↔ ρ i = none ∧ i ∉ js.map Instr.id := by
  rw [redirectTo, Option.or_eq_none_iff]
  refine and_congr_right fun _ => ?_
  split_ifs with hi
  · exact iff_of_false (by simp) (not_not.mpr hi)
  · exact iff_of_true rfl hi

lemma redirectTo_ne (hρ : ∀ i, ρ i ≠ some fn) (hpm : pmFn ≠ fn) (js : List Instr) (i : InstId) :
    redirectTo ρ js pmFn i ≠ some fn := by
  intro h
  rcases Option.or_eq_some_iff.mp h with h | ⟨-, h⟩
  · exact hρ i h
  · split_ifs at h
    exact hpm (Option.some.inj h)

lemma Redirects.append {js' : List Instr} {s₁ : GenState} {ret : Option InstId}
    (h : Redirects m ρ extra fn pmFn js ret s₁)
    (h' : Redirects m (redirectTo ρ (callsOf fn js) pmFn) extra fn pmFn js' s₁.2 s') :
    Redirects m ρ extra fn pmFn (js ++ js') ret s' := by
  have hcalls : callsOf fn (js ++ js') = callsOf fn js ++ callsOf fn js' := List.filter_append ..
  refine ⟨?_, ?_⟩
  · rw [hcalls, ← redirectTo_append]
    exact h'.patched
  · rw [hcalls]
    rcases h'.ret with ⟨heq', hall'⟩ | ⟨pre, j, post, hsplit, hopen, hpost, hsome⟩
    · rcases h.ret with ⟨heq, hall⟩ | ⟨pre, j, post, hsplit, hopen, hpost, hsome⟩
      · refine .inl ⟨heq'.trans heq, fun j hj hnil => ?_⟩
        rcases List.mem_append.mp hj with hj | hj
        · exact hall j hj hnil
        · -- no call of the first part is open, so `j` is redirected by neither part
          refine hall' j hj (redirectTo_eq_none_iff.mpr ⟨hnil, fun hmem => ?_⟩)
          obtain ⟨k, hk, hkj⟩ := List.mem_map.mp hmem
          exact hall k hk (hkj ▸ hnil)
      · refine .inr ⟨pre, j, post ++ callsOf fn js', by simp [hsplit], hopen, fun k hk hnil => ?_,
          heq'.trans hsome⟩
        rcases List.mem_append.mp hk with hk | hk
        · exact hpost k hk hnil
        · -- `k` is closed by the first part, up to `j` or after it
          refine hall' k hk (redirectTo_eq_none_iff.mpr ⟨(redirectTo_eq_none_iff.mp hnil).1, ?_⟩)
          intro hmem
          obtain ⟨l, hl, hlk⟩ := List.mem_map.mp hmem
          rw [hsplit, List.append_cons, List.mem_append] at hl
          rcases hl with hl | hl
          · exact (redirectTo_eq_none_iff.mp hnil).2 (hlk ▸ List.mem_map_of_mem hl)
          · exact hpost l hl (hlk ▸ hnil)
    · refine .inr ⟨callsOf fn js ++ pre, j, post, by simp [hsplit], ?_, fun k hk => ?_, hsome⟩
      · rw [← redirectTo_append]
        exact hopen
      · rw [List.append_assoc, ← redirectTo_append]
        exact hpost k hk

/-- A loop of redirections. -/
lemma foldlM_redirects {α : Type*} {step : GenState → α → Option GenState}
    {p : α → List Instr} {xs : List α} (hpm : pmFn ≠ fn)
    (hstep : ∀ x ∈ xs, ∀ ρ s s', (∀ i, ρ i ≠ some fn) → Patched m ρ extra s.1 →
      step s x = some s' → Redirects m ρ extra fn pmFn (p x) s.2 s')
    (hρ : ∀ i, ρ i ≠ some fn) (h : Patched m ρ extra s.1) (hrun : xs.foldlM step s = some s') :
    Redirects m ρ extra fn pmFn (xs.flatMap p) s.2 s' := by
  induction xs generalizing ρ s with
  | nil =>
      obtain rfl := Option.some.inj hrun
      exact ⟨redirectTo_nil.symm ▸ h, .inl ⟨rfl, fun j hj => absurd hj List.not_mem_nil⟩⟩
  | cons x xs ih =>
      rw [List.foldlM_cons, Option.bind_eq_bind, Option.bind_eq_some_iff] at hrun
      obtain ⟨s₁, hx, hxs⟩ := hrun
      have hfirst := hstep x List.mem_cons_self ρ s s₁ hρ h hx
      exact hfirst.append (ih (fun y hy => hstep y (List.mem_cons_of_mem x hy))
        (redirectTo_ne hρ hpm _) hfirst.patched hxs)

/-- An instruction that does not call `fn`, or was redirected before, is left alone. -/
lemma Redirects.of_closed {j : Instr} (h : Patched m ρ extra s.1)
    (hclosed : ¬ (ρ j.id = none ∧ j.getCalledFunction = some fn)) :
    Redirects m ρ extra fn pmFn [j] s.2 s := by
  by_cases hfn : j.getCalledFunction = some fn
  · have hsome : ρ j.id ≠ none := fun hnil => hclosed ⟨hnil, hfn⟩
    have hcalls : callsOf fn [j] = [j] := by simp [callsOf, hfn]
    have hsame : redirectTo ρ [j] pmFn = ρ := by
      funext i
      rw [redirectTo]
      by_cases hi : i = j.id
      · obtain ⟨g, hg⟩ := Option.ne_none_iff_exists'.mp hsome
        rw [hi, hg]
        rfl
      · simp [hi]
    exact ⟨by rw [hcalls, hsame]; exact h, .inl ⟨rfl, by simpa [hcalls] using hsome⟩⟩
  · have hcalls : callsOf fn [j] = [] := by simp [callsOf, hfn]
    refine ⟨by rw [hcalls, redirectTo_nil]; exact h, .inl ⟨rfl, ?_⟩⟩
    rw [hcalls]
    exact fun k hk => absurd hk List.not_mem_nil

/-- A call of `fn` is redirected. -/
lemma Redirects.of_open {j : Instr} (hwf : m.WF)
    (hid : pmFn.getIntrinsicID = fn.getIntrinsicID) (hj : j ∈ m.insts) (h : Patched m ρ extra s.1)
    (hopen : ρ j.id = none) (hfn : j.getCalledFunction = some fn) (ret : Option InstId) :
    Redirects m ρ extra fn pmFn [j] ret (s.1.setCalledFunction j.id pmFn, some j.id) := by
  have hcalls : callsOf fn [j] = [j] := by simp [callsOf, hfn]
  have hto : redirectTo ρ [j] pmFn =
      fun k => (ρ k).or (if k = j.id then some pmFn else none) := by
    funext k
    simp [redirectTo]
  refine ⟨?_, .inr ⟨[], j, [], hcalls, by rw [redirectTo_nil]; exact hopen, by simp, rfl⟩⟩
  rw [hcalls, hto]
  exact h.setCalledFunction hwf hj hopen hfn hid

lemma redirectCall_spec (hwf : m.WF) (hid : pmFn.getIntrinsicID = fn.getIntrinsicID)
    {j : Instr} (hj : j ∈ m.insts) (hρ : ∀ i, ρ i ≠ some fn) (h : Patched m ρ extra s.1)
    (hstep : redirectCall fn pmFn s j.id = some s') :
    Redirects m ρ extra fn pmFn [j] s.2 s' := by
  -- what has been redirected calls a clone, so the call is not of `fn` any more
  have hcallee : (redirect ρ j).getCalledFunction = some fn ↔
      ρ j.id = none ∧ j.getCalledFunction = some fn := by
    rw [getCalledFunction_redirect (h.callee j hj), Option.or_eq_some_iff]
    exact or_iff_right (hρ j.id)
  rw [redirectCall, h.findInst hj] at hstep
  dsimp only at hstep
  split_ifs at hstep with hcb
  · split at hstep
    · rename_i cbFn hcbFn
      split_ifs at hstep with heq
      · obtain rfl := Option.some.inj hstep
        obtain ⟨hopen, hfn⟩ := hcallee.mp (heq ▸ hcbFn)
        exact .of_open hwf hid hj h hopen hfn s.2
      · obtain rfl := Option.some.inj hstep
        refine .of_closed h fun hopen => heq ?_
        exact Option.some.inj (hcbFn.symm.trans (hcallee.mpr hopen))
    · cases hstep
  · -- no call at all
    obtain rfl := Option.some.inj hstep
    refine .of_closed h fun hopen => hcb ?_
    have hsome := hcallee.mpr hopen
    rw [Instr.getCalledFunction] at hsome
    rw [Instr.isCallBase]
    split at hsome
    · rename_i hop
      rw [hop]
    · cases hsome

lemma redirectLoc_spec (hwf : m.WF) (hid : pmFn.getIntrinsicID = fn.getIntrinsicID)
    (hpm : pmFn ≠ fn) {fl : FixLoc} (hvalid : fl.isValid m = true) (hρ : ∀ i, ρ i ≠ some fn)
    (h : Patched m ρ extra s.1) (hstep : redirectLoc fn pmFn s fl = some s') :
    Redirects m ρ extra fn pmFn ((fl.insts m).getD []) s.2 s' := by
  rw [redirectLoc, h.fixLoc_insts hvalid] at hstep
  cases hinsts : fl.insts m with
  | none =>
      rw [hinsts] at hstep
      cases hstep
  | some insts =>
      rw [hinsts] at hstep
      simp only [Option.map_some, List.map_map, Function.comp_def, redirect_id,
        List.foldlM_map] at hstep
      have hfold := foldlM_redirects (p := fun j => [j]) hpm (fun j hj ρ s s' hρ h =>
        redirectCall_spec hwf hid (FixLoc.mem_insts hinsts hj) hρ h) hρ h hstep
      rw [List.flatMap_singleton'] at hfold
      exact hfold

end Redirect

/-! ### Rounds -/

/-- The places of a location are valid and in the function `f`. -/
def MapsTo (G : GenEnv) (m : Module) (li : LocationInfo) (f : FnId) : Prop :=
  ∃ fixLocs, G.mapper li = some fixLocs ∧ fixLocs ≠ [] ∧
    ∀ fl ∈ fixLocs, fl.isValid m = true ∧ m.getFunction fl.first = some f

section Rounds

variable {G : GenEnv} {m : Module} {ρ : InstId → Option FnId} {extra : List (FnId × Function)}
  {fn : FnId}

/-- A valid location is in one function. -/
lemma FixLoc.getFunction_last (hwf : m.WF) {fl : FixLoc} (hvalid : fl.isValid m = true)
    (hfn : m.getFunction fl.first = some fn) : m.getFunction fl.last = some fn := by
  obtain ⟨⟨g, b⟩, hpar, rfl⟩ := Option.map_eq_some_iff.mp hfn
  obtain ⟨body, hp, hb, -⟩ := Module.parent_spec hpar
  rw [FixLoc.isValid, hpar] at hvalid
  obtain ⟨j, hj, hid⟩ := List.any_eq_true.mp hvalid
  rw [Module.getFunction, ← beq_iff_eq.mp hid, hwf.parent_eq hp hb hj]
  rfl

lemma isFlushPoint_redirect (G : GenEnv) (j : Instr) :
    isFlushPoint G (redirect ρ j) = isFlushPoint G j := by
  rw [isFlushPoint, isFlushPoint, redirect_pointerOperand]

lemma flushPoint_redirect (body : Function) (x : InstId) :
    FlushPoint G (body.rewrite fun j => [redirect ρ j]) x ↔ FlushPoint G body x := by
  have hinsts : (body.rewrite fun j => [redirect ρ j]).insts = body.insts.map (redirect ρ) := by
    rw [Function.insts_rewrite, List.map_eq_flatMap]
  simp [FlushPoint, hinsts, isFlushPoint_redirect, redirect_id]

/-- **One round**: the frame's function is cloned with its flush points flushed, and the calls of
it at the next frame are redirected to the clone. -/
theorem cloneFrame_spec (hwf : m.WF) {li next : LocationInfo} {fixLocs : List FixLoc}
    {fn' : FnId} {s s' : GenState} (hmap : MapsTo G m li fn) (hfls : G.mapper li = some fixLocs)
    (hnext : MapsTo G m next fn') (hρ : ∀ i, ρ i ≠ some fn) (h : Patched m ρ extra s.1)
    (hrun : cloneFrame G true fixLocs next s = some s') :
    ∃ body B, m.lookup fn = some body ∧
      List.Forall₂ (FlushedBlock s.1.next (FlushPoint G body))
        (body.rewrite fun j => [redirect ρ j]).blocks B ∧
      Redirects m ρ (extra ++ [(fn.clone s.1.next, ⟨B⟩)]) fn (fn.clone s.1.next)
        (G.instsAt m next) s.2 s' := by
  obtain ⟨fls, hfls', hne, hvalid⟩ := hmap
  obtain rfl := Option.some.inj (hfls'.symm.trans hfls)
  obtain ⟨nextLocs, hnextLocs, -, hvalid'⟩ := hnext
  obtain ⟨fl, rest, rfl⟩ := List.exists_cons_of_ne_nil hne
  obtain ⟨hv, hf⟩ := hvalid fl List.mem_cons_self
  have hlast := FixLoc.getFunction_last hwf hv hf
  obtain ⟨⟨g, b⟩, hpar, heq⟩ := Option.map_eq_some_iff.mp hlast
  obtain ⟨body, hmem, -, -⟩ := Module.parent_spec hpar
  obtain rfl : g = fn := heq
  have hbody := hwf.lookup_eq hmem
  unfold cloneFrame at hrun
  -- the locations of the frame are in one function, or the round fails
  have hsame : ¬ ((fl :: rest).any fun f => (fl :: rest).any fun g =>
      s.1.getFunction f.last != s.1.getFunction g.last) = true := by
    intro hdiffer
    rw [if_pos hdiffer] at hrun
    cases hrun
  rw [if_neg hsame] at hrun
  dsimp only at hrun
  rw [h.getFunction hlast] at hrun
  simp only [↓reduceIte] at hrun
  split at hrun
  · cases hrun
  · rename_i m₁ pmFn hpersist
    split at hpersist
    · cases hpersist
    · rename_i m₂ pmFn' hdup
      obtain ⟨rfl, hclone⟩ := h.duplicateFunction hbody hdup
      obtain ⟨m₃, hmake, heq⟩ := Option.map_eq_some_iff.mp hpersist
      simp only [Prod.mk.injEq] at heq
      obtain ⟨rfl, rfl⟩ := heq
      obtain ⟨B, hB, hflushed⟩ := makeAllStoresPersistent_spec hclone (hclone.lookup hbody) hmake
      refine ⟨body, B, hbody, ?_, ?_⟩
      · exact hflushed.imp fun b b' hbb' => hbb'.congr fun i _ => flushPoint_redirect body _
      · rw [hnextLocs] at hrun
        dsimp only at hrun
        split_ifs at hrun
        have hid : (g.clone s.1.next).getIntrinsicID = g.getIntrinsicID := rfl
        have hpm := g.clone_ne s.1.next
        have hfold := foldlM_redirects (s := (m₃, s.2))
          (p := fun fl => (fl.insts m).getD []) hpm (fun nFix hnFix ρ s s' hρ h =>
            redirectLoc_spec hwf hid hpm (hvalid' nFix hnFix).1 hρ h) hρ hB hrun
        rw [GenEnv.instsAt, hnextLocs]
        exact hfold

/-- A frame lies in a function of the module. -/
lemma MapsTo.below (hwf : m.WF) {li : LocationInfo} (h : MapsTo G m li fn) :
    fn.Below m.next := by
  obtain ⟨fls, -, hne, hvalid⟩ := h
  obtain ⟨fl, rest, rfl⟩ := List.exists_cons_of_ne_nil hne
  obtain ⟨⟨g, b⟩, hpar, heq⟩ := Option.map_eq_some_iff.mp (hvalid fl List.mem_cons_self).2
  obtain ⟨body, hmem, -, -⟩ := Module.parent_spec hpar
  obtain rfl : g = fn := heq
  exact hwf.namesBelow _ hmem

end Rounds

/-! ### The loop -/

/-- The call sites of frame `j`: the calls of its function at the next frame. -/
def callSites (G : GenEnv) (m : Module) (callstack : List LocationInfo) (f : ℕ → FnId) (j : ℕ) :
    List Instr :=
  (callstack[j + 1]?).elim [] fun li => callsOf (f j) (G.instsAt m li)

/-- The number of the clone made in round `j`. -/
def cloneNumber (G : GenEnv) (m : Module) (callstack : List LocationInfo) (j : ℕ) : ℕ :=
  match runFrames G callstack true m j with
  | some (.next s) => s.1.next
  | _ => 0

/-- The clone made in round `j`. -/
def frameClone (G : GenEnv) (m : Module) (callstack : List LocationInfo) (f : ℕ → FnId) (j : ℕ) :
    FnId :=
  (f j).clone (cloneNumber G m callstack j)

/-- Where the calls are redirected in the first rounds. -/
def redirects (G : GenEnv) (m : Module) (callstack : List LocationInfo) (f : ℕ → FnId) :
    ℕ → InstId → Option FnId
  | 0 => fun _ => none
  | j + 1 => redirectTo (redirects G m callstack f j) (callSites G m callstack f j)
      (frameClone G m callstack f j)

/-- The call sites of the first frames, in the order of the rounds. -/
def siteIds (G : GenEnv) (m : Module) (callstack : List LocationInfo) (f : ℕ → FnId) (n : ℕ) :
    List InstId :=
  (List.range n).flatMap fun j => (callSites G m callstack f j).map Instr.id

/-- The first frames are mapped, to places in the functions `f`. -/
structure FramesIn (G : GenEnv) (m : Module) (callstack : List LocationInfo) (f : ℕ → FnId)
    (idx : ℕ) : Prop where
  wf : m.WF
  mapped : ∀ j ≤ idx, ∃ li, callstack[j]? = some li ∧ MapsTo G m li (f j)

/-- A new clone is none of the frames' functions. -/
lemma FramesIn.clone_ne {G : GenEnv} {m : Module} {callstack : List LocationInfo}
    {f : ℕ → FnId} {idx j k : ℕ} (h : FramesIn G m callstack f idx) (hj : j ≤ idx)
    (hk : m.next ≤ k) (g : FnId) : g.clone k ≠ f j := by
  intro heq
  obtain ⟨li, -, hmap⟩ := h.mapped j hj
  have hbelow := hmap.below h.wf
  rw [← heq] at hbelow
  exact FnId.not_below_clone hk g hbelow

/-- The state after `n` rounds. -/
structure Rounds (G : GenEnv) (m : Module) (callstack : List LocationInfo) (f : ℕ → FnId) (n : ℕ)
    (s : GenState) (extra : List (FnId × Function)) : Prop where
  patched : Patched m (redirects G m callstack f n) extra s.1
  clones : ∀ j < n, m.next ≤ cloneNumber G m callstack j ∧ ∃ body B, m.lookup (f j) = some body ∧
    (frameClone G m callstack f j, ⟨B⟩) ∈ extra ∧
    List.Forall₂ (FlushedBlock (cloneNumber G m callstack j) (FlushPoint G body))
      (body.rewrite fun i => [redirect (redirects G m callstack f j) i]).blocks B
  distinct : ∀ i j, i < j → j < n → frameClone G m callstack f i ≠ frameClone G m callstack f j
  returned : ∀ r, s.2 = some r → ForLoop.LastNew (siteIds G m callstack f n) r

section Loop

variable {G : GenEnv} {m : Module} {callstack : List LocationInfo} {f : ℕ → FnId}

/-- A redirected call is a call site, and leads to the clone of its round. -/
lemma redirects_eq_some {n : ℕ} {i : InstId} {g : FnId}
    (h : redirects G m callstack f n i = some g) :
    ∃ j < n, g = frameClone G m callstack f j ∧ redirects G m callstack f j i = none ∧
      ∃ c ∈ callSites G m callstack f j, c.id = i := by
  induction n with
  | zero => cases h
  | succ n ih =>
      rcases Option.or_eq_some_iff.mp h with h | ⟨hnone, h⟩
      · obtain ⟨j, hj, hrest⟩ := ih h
        exact ⟨j, hj.trans (Nat.lt_succ_self n), hrest⟩
      · split_ifs at h with hmem
        obtain rfl := Option.some.inj h
        obtain ⟨c, hc, rfl⟩ := List.mem_map.mp hmem
        exact ⟨n, Nat.lt_succ_self n, rfl, hnone, c, hc, rfl⟩

/-- A call site is redirected in its round, or was before. -/
lemma redirects_ne_none {n j : ℕ} (hj : j < n) {c : Instr}
    (hc : c ∈ callSites G m callstack f j) : redirects G m callstack f n c.id ≠ none := by
  induction n with
  | zero => exact absurd hj (Nat.not_lt_zero j)
  | succ n ih =>
      intro hnone
      obtain ⟨hbefore, hround⟩ := Option.or_eq_none_iff.mp hnone
      rcases Nat.lt_succ_iff_lt_or_eq.mp hj with hj | rfl
      · exact ih hj hbefore
      · rw [if_pos (List.mem_map_of_mem hc)] at hround
        cases hround

lemma siteIds_succ {n : ℕ} : siteIds G m callstack f (n + 1) =
    siteIds G m callstack f n ++ (callSites G m callstack f n).map Instr.id := by
  simp [siteIds, List.range_succ]

/-- What is redirected are the call sites. -/
lemma redirects_eq_none_iff {n : ℕ} {i : InstId} :
    redirects G m callstack f n i = none ↔ i ∉ siteIds G m callstack f n := by
  induction n with
  | zero => exact iff_of_true rfl List.not_mem_nil
  | succ n ih => rw [redirects, redirectTo_eq_none_iff, ih, siteIds_succ, List.mem_append, not_or]

/-- The returned call was redirected in some round. -/
lemma Rounds.ret {n : ℕ} {s : GenState} {extra : List (FnId × Function)}
    (h : Rounds G m callstack f n s extra) {r : InstId} (hr : s.2 = some r) :
    ∃ j < n, ∃ c ∈ callSites G m callstack f j, c.id = r := by
  obtain ⟨j, hj, hmem⟩ := List.mem_flatMap.mp (h.returned r hr).mem
  exact ⟨j, List.mem_range.mp hj, List.mem_map.mp hmem⟩

/-- **One more round.** -/
lemma Rounds.frameStep {n : ℕ} (hframes : FramesIn G m callstack f (n + 1)) {s : GenState}
    {extra : List (FnId × Function)} {r : Round}
    (hprev : runFrames G callstack true m n = some (.next s))
    (h : Rounds G m callstack f n s extra)
    (hstep : frameStep G callstack true n s = some r) :
    ∃ s', r = .next s' ∧ ∃ extra', Rounds G m callstack f (n + 1) s' extra' := by
  have hnumber : cloneNumber G m callstack n = s.1.next := by rw [cloneNumber, hprev]
  obtain ⟨li, hli, hmap⟩ := hframes.mapped n (Nat.le_succ n)
  obtain ⟨next, hnext, hmapNext⟩ := hframes.mapped (n + 1) le_rfl
  have ⟨fls, hfls, _⟩ := hmap
  rw [Hippocrates.frameStep, hli] at hstep
  dsimp only at hstep
  rw [hfls, hnext] at hstep
  obtain ⟨s', hround, rfl⟩ := Option.map_eq_some_iff.mp hstep
  -- an earlier redirection leads to a clone, and the function of the frame is given
  have hρ : ∀ i, redirects G m callstack f n i ≠ some (f n) := by
    intro i hi
    obtain ⟨j, hj, heq, -⟩ := redirects_eq_some hi
    exact hframes.clone_ne (Nat.le_succ n) (h.clones j hj).1 (f j) heq.symm
  obtain ⟨body, B, hbody, hflushed, hredirects⟩ :=
    cloneFrame_spec hframes.wf hmap hfls hmapNext hρ h.patched hround
  have hsites : callSites G m callstack f n = callsOf (f n) (G.instsAt m next) := by
    rw [callSites, hnext]
    rfl
  rw [← hnumber] at hflushed hredirects
  refine ⟨s', rfl, extra ++ [(frameClone G m callstack f n, ⟨B⟩)], ?_, ?_, ?_, ?_⟩
  · rw [redirects, hsites]
    exact hredirects.patched
  · intro j hj
    rcases Nat.lt_succ_iff_lt_or_eq.mp hj with hj | rfl
    · obtain ⟨hnum, body, B, hbody, hmem, hflushed⟩ := h.clones j hj
      exact ⟨hnum, body, B, hbody, List.mem_append_left _ hmem, hflushed⟩
    · exact ⟨hnumber ▸ h.patched.next, body, B, hbody,
        List.mem_append_right _ List.mem_cons_self, hflushed⟩
  · intro i j hij hj heq
    rcases Nat.lt_succ_iff_lt_or_eq.mp hj with hj | rfl
    · exact h.distinct i j hij hj heq
    · -- an earlier clone is in the module that the new one is added to
      obtain ⟨-, -, B, -, hmem, -⟩ := h.clones i hij
      have hbelow := h.patched.wf.namesBelow (frameClone G m callstack f i, ⟨B⟩)
        (h.patched.funs ▸ List.mem_append_right _ hmem)
      rw [heq] at hbelow
      exact FnId.not_below_clone hnumber.ge (f j) hbelow
  · intro r hr
    have hret := hredirects.ret
    rw [← hsites] at hret
    rw [siteIds_succ]
    rcases hret with ⟨heq, hall⟩ | ⟨pre, c, post, hsplit, hopen, hpost, hsome⟩
    · -- nothing was redirected in this round
      refine (h.returned r (heq ▸ hr)).append_old fun x hx => ?_
      obtain ⟨c, hc, rfl⟩ := List.mem_map.mp hx
      exact not_not.mp (redirects_eq_none_iff.not.mp (hall c hc))
    · obtain rfl : c.id = r := Option.some.inj (hsome.symm.trans hr)
      rw [hsplit, List.map_append, List.map_cons]
      refine .append_new (fun hmem => ?_) fun x hx => ?_
      · rw [redirectTo_eq_none_iff, redirects_eq_none_iff, ← not_or] at hopen
        exact hopen (List.mem_append.mp hmem)
      · obtain ⟨k, hk, rfl⟩ := List.mem_map.mp hx
        have hclosed := hpost k hk
        rw [ne_eq, redirectTo_eq_none_iff, redirects_eq_none_iff, ← not_or, not_not] at hclosed
        simpa [or_assoc] using hclosed

/-- **The loop**: what the rounds make of the module. -/
theorem runFrames_spec {n : ℕ} (hframes : FramesIn G m callstack f n) {r : Round}
    (hrun : runFrames G callstack true m n = some r) :
    ∃ s, r = .next s ∧ ∃ extra, Rounds G m callstack f n s extra := by
  induction n generalizing r with
  | zero =>
      obtain rfl := Option.some.inj hrun
      refine ⟨(m, none), rfl, [], Patched.refl hframes.wf, fun j hj => ?_, fun i j _ hj => ?_,
        fun r hr => by cases hr⟩
      · exact absurd hj (Nat.not_lt_zero j)
      · exact absurd hj (Nat.not_lt_zero j)
  | succ n ih =>
      have hbefore : FramesIn G m callstack f n :=
        ⟨hframes.wf, fun j hj => hframes.mapped j (hj.trans (Nat.le_succ n))⟩
      rw [runFrames] at hrun
      cases hprev : runFrames G callstack true m n with
      | none =>
          rw [hprev] at hrun
          cases hrun
      | some r' =>
          obtain ⟨s, rfl, extra, h⟩ := ih hbefore hprev
          rw [hprev] at hrun
          exact h.frameStep hframes hprev hrun

end Loop

end Hippocrates
