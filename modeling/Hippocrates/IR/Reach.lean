import Mathlib.Tactic
import Hippocrates.IR.After
import Hippocrates.IR.Subprogram

/-!
What a persistent subprogram is for: an execution that enters at the call at `callstack[idx]` and
follows the call sites of the frames below reaches a clone of the last frame's function in which
the store is flushed, and the call at the top is followed by a fence.

* `Follows`: the functions such an execution is in, frame by frame.
* `PmDesc.MayBePersistent`: the stores that are flushed. Targets on the stack, functions and
  constants are never persistent values, so a store that has only such targets is not flushed.
* `EnteredAlike`: the frames above frame 0 that are entered by the call that enters it. The first
  clone is made with no call redirected, so its own calls lead to the original: of a recursion
  every other function is in the first clone.
* `insertPersistentSubProgram_flushes_iff`: when the subprogram does what it is for.
-/

namespace Hippocrates

/-! ### Executions along the call stack -/

/-- The function `g` calls `g'` at the instruction `c`. -/
def Calls (m : Module) (g : FnId) (c : InstId) (g' : FnId) : Prop :=
  ∃ body i, m.lookup g = some body ∧ i ∈ body.insts ∧ i.id = c ∧ i.getCalledFunction = some g'

/-- In `g`, which is `f` or a clone of it, the instruction `i` of `f` has the name `c`. -/
def CopyIn (f : FnId) (i : InstId) (g : FnId) (c : InstId) : Prop :=
  (g = f ∧ c = i) ∨ ∃ k, g = f.clone k ∧ c = i.copy k

/-- An execution of `m'` that starts in the function at the top and follows the call sites is in
the function `g` at frame `n`. -/
inductive Follows (G : GenEnv) (m : Module) (callstack : List LocationInfo) (f : ℕ → FnId)
    (idx : ℕ) (m' : Module) : ℕ → FnId → Prop
  | enter : Follows G m callstack f idx m' idx (f idx)
  | call {n : ℕ} {g g' : FnId} {i : Instr} {c : InstId}
      (h : Follows G m callstack f idx m' (n + 1) g) (hi : i ∈ callSites G m callstack f n)
      (hc : CopyIn (f (n + 1)) i.id g c) (hcall : Calls m' g c g') :
      Follows G m callstack f idx m' n g'

/-- The store `s` of the pointer `p` is flushed wherever an execution reaches it, and a fence
follows the calls at the top. -/
structure SubprogramFlushes (G : GenEnv) (m : Module) (callstack : List LocationInfo)
    (f : ℕ → FnId) (idx : ℕ) (addFence : Bool) (s : InstId) (p : Value) (m' : Module) : Prop where
  reached : ∃ g, Follows G m callstack f idx m' 0 g
  flushed : ∀ g, Follows G m callstack f idx m' 0 g → ∃ k, g = (f 0).clone k ∧
    FollowedBy m' g (s.copy k) (StartsFlush (p.copy k))
  fenced : addFence = true → ∀ j, j + 1 = idx → ∀ c ∈ callSites G m callstack f j,
    FollowedBy m' (f idx) c.id StartsFence

/-! ### Flush points -/

namespace PmDesc

/-- The pointers may point to one thing that can be persistent. -/
def MayAlias (getPointsToSet : Value → Option (List Value)) (p q : Value) : Prop :=
  ∃ ps qs, getPointsToSet p = some ps ∧ getPointsToSet q = some qs ∧
    ∃ v ∈ targets p ps, v ∈ targets q qs ∧ isFiltered v = true

/-- The pointer is no stack slot, and has a target that is no stack slot, function or constant. -/
def MayBePersistent (getPointsToSet : Value → Option (List Value)) (p : Value) : Prop :=
  p.isAllocaInst = false ∧
    ∃ ps, getPointsToSet p = some ps ∧ ∃ v ∈ targets p ps, isFiltered v = true

lemma getPointsToSet_of_registered {d d' : PmDesc} {vs : List Value}
    (h : vs.foldlM addKnownPmValue d = some d') : d'.getPointsToSet = d.getPointsToSet := by
  refine ForLoop.foldlM_inv (I := fun b => b.getPointsToSet = d.getPointsToSet) rfl
    (fun v _ b b' hstep hb => ?_) h
  rw [addKnownPmValue] at hstep
  split at hstep
  · cases hstep
  · obtain rfl := Option.some.inj hstep
    exact hb

/-- What the registered values point to is known, and nothing else. -/
lemma mem_pmValues_iff {d d' : PmDesc} {vs : List Value}
    (h : vs.foldlM addKnownPmValue d = some d') {v : Value} :
    v ∈ d'.pmValues ↔ v ∈ d.pmValues ∨ ∃ q ∈ vs, ∃ qs, d.getPointsToSet q = some qs ∧
      v ∈ targets q qs ∧ isFiltered v = true := by
  induction vs generalizing d with
  | nil =>
      obtain rfl := Option.some.inj h
      simp
  | cons w vs ih =>
      rw [List.foldlM_cons, Option.bind_eq_bind, Option.bind_eq_some_iff] at h
      obtain ⟨d₁, hstep, hrest⟩ := h
      rw [addKnownPmValue] at hstep
      split at hstep
      · cases hstep
      · rename_i ws hws
        obtain rfl := Option.some.inj hstep
        rw [ih hrest, List.exists_mem_cons_iff, hws]
        simp [or_assoc]

/-- **The filter** finds the pointers that may alias a registered one. -/
lemma pointsToPm_iff {pts : Value → Option (List Value)} {d : PmDesc} {vs : List Value}
    (h : vs.foldlM addKnownPmValue ⟨pts, []⟩ = some d) {p : Value} :
    d.contains p && d.pointsToPm p = true ↔ ∃ q ∈ vs, MayAlias pts p q := by
  have hsame : d.getPointsToSet = pts := getPointsToSet_of_registered h
  rw [contains, pointsToPm, hsame]
  cases hps : pts p with
  | none => simp [MayAlias, hps]
  | some ps =>
      have hpos : 0 < d.getNumPmAliases (targets p ps) ↔ ∃ v ∈ targets p ps, v ∈ d.pmValues := by
        rw [getNumPmAliases, List.length_pos_iff_exists_mem]
        simp
      simp only [Option.isSome_some, Bool.true_and, decide_eq_true_eq, hpos, mem_pmValues_iff h,
        List.not_mem_nil, false_or]
      constructor
      · rintro ⟨v, hv, q, hq, qs, hqs, hvq, hf⟩
        exact ⟨q, hq, ps, qs, hps, hqs, v, hv, hvq, hf⟩
      · rintro ⟨q, hq, ps', qs, hps', hqs, v, hv, hvq, hf⟩
        obtain rfl := Option.some.inj (hps.symm.trans hps')
        exact ⟨v, hv, q, hq, qs, hqs, hvq, hf⟩

end PmDesc

/-- Of the stores whose pointers are registered those are flush points whose pointers may be
persistent. -/
lemma isFlushPoint_iff_of_registered {G : GenEnv} {pts : Value → Option (List Value)}
    {vs : List Value} (hreg : vs.foldlM PmDesc.addKnownPmValue ⟨pts, []⟩ = some G.pmDesc)
    {s : Instr} {p q : Value} (hp : s.pointerOperand = some p) (hq : G.analysed p = some q)
    (hvs : q ∈ vs) : isFlushPoint G s = true ↔ PmDesc.MayBePersistent pts q := by
  have halias : (∃ q' ∈ vs, PmDesc.MayAlias pts q q') ↔
      ∃ ps, pts q = some ps ∧ ∃ v ∈ PmDesc.targets q ps, PmDesc.isFiltered v = true := by
    constructor
    · rintro ⟨q', -, ps, -, hps, -, v, hv, -, hf⟩
      exact ⟨ps, hps, v, hv, hf⟩
    · rintro ⟨ps, hps, v, hv, hf⟩
      exact ⟨q, hvs, ps, ps, hps, hps, v, hv, hv, hf⟩
  rw [isFlushPoint, hp, Option.bind_some, hq, PmDesc.MayBePersistent, ← halias,
    ← PmDesc.pointsToPm_iff hreg]
  cases hslot : q.isAllocaInst <;> simp [hslot]

/-! ### The functions of an execution -/

lemma Instr.getCalledFunction_copy (k : ℕ) (i : Instr) :
    (i.copy k).getCalledFunction = i.getCalledFunction := by
  obtain ⟨id, op⟩ := i
  cases op with
  | call callee args => cases callee <;> rfl
  | _ => rfl

lemma CopyIn.eq_self {f : FnId} {i c : InstId} (h : CopyIn f i f c) : c = i := by
  rcases h with ⟨-, rfl⟩ | ⟨k, hk, -⟩
  · rfl
  · exact absurd hk.symm (FnId.clone_ne f k)

lemma CopyIn.eq_copy {f : FnId} {i c : InstId} {k : ℕ} (h : CopyIn f i (f.clone k) c) :
    c = i.copy k := by
  rcases h with ⟨hk, -⟩ | ⟨l, hl, rfl⟩
  · exact absurd hk (FnId.clone_ne f k)
  · rw [FnId.clone_injective f hl]

lemma Calls.unique {m' : Module} (hwf : m'.WF) {g : FnId} {c : InstId} {g₁ g₂ : FnId}
    (h₁ : Calls m' g c g₁) (h₂ : Calls m' g c g₂) : g₁ = g₂ := by
  obtain ⟨body₁, i₁, hbody₁, hi₁, rfl, hcall₁⟩ := h₁
  obtain ⟨body₂, i₂, hbody₂, hi₂, hid, hcall₂⟩ := h₂
  have heq : i₁ = i₂ :=
    hwf.eq_of_id (Module.mem_insts_of_lookup hbody₁ hi₁) (Module.mem_insts_of_lookup hbody₂ hi₂)
      hid.symm
  rw [heq] at hcall₁
  exact Option.some.inj (hcall₁.symm.trans hcall₂)

section Execution

variable {G : GenEnv} {m m' : Module} {callstack : List LocationInfo} {f : ℕ → FnId} {idx : ℕ}
  {s : GenState} {extra : List (FnId × Function)} {addFence : Bool}

lemma FramesIn.site_mem_insts (h : FramesIn G m callstack f idx) {j : ℕ} (hj : j < idx)
    {c : Instr} (hc : c ∈ callSites G m callstack f j) : c ∈ m.insts := by
  obtain ⟨-, body, hbody, hcb⟩ := h.mem_callSites hj hc
  exact Module.mem_insts_of_lookup hbody hcb

/-- An instruction of a function stays in it when the fence is inserted. -/
lemma Fenced.mem_body (h : Fenced s addFence m') {g : FnId} {body : Function}
    (hg : s.1.lookup g = some body) {i : Instr} (hi : i ∈ body.insts) :
    ∃ body', m'.lookup g = some body' ∧ i ∈ body'.insts := by
  cases h with
  | without => exact ⟨body, hg, hi⟩
  | after hr =>
      rw [Module.lookup_insertAfter, hg]
      exact ⟨_, rfl, Function.mem_insts_rewrite hi (mem_insertedAfter_self _ _ i)⟩

/-- The clone of a round is in the module in the end, as it was made. -/
lemma Rounds.lookup_clone (h : Rounds G m callstack f idx s extra)
    (hframes : FramesIn G m callstack f idx) (hfenced : Fenced s addFence m') {j : ℕ}
    (hj : j < idx) {B : List Block} (hB : (frameClone G m callstack f j, ⟨B⟩) ∈ extra) :
    m'.lookup (frameClone G m callstack f j) = some ⟨B⟩ := by
  have hlookup : s.1.lookup (frameClone G m callstack f j) = some ⟨B⟩ := by
    refine h.patched.wf.lookup_eq ?_
    rw [h.patched.funs]
    exact List.mem_append_right _ hB
  refine hfenced.lookup hlookup fun r hr i hi hid => ?_
  -- the fence is in an original, the clone is none
  obtain ⟨j', hj', c, hc, rfl⟩ := h.ret hr
  obtain ⟨-, body, hbody, hcb⟩ := hframes.mem_callSites hj' hc
  have hcb' : redirect (redirects G m callstack f idx) c ∈
      (body.rewrite fun i => [redirect (redirects G m callstack f idx) i]).insts :=
    Function.mem_insts_rewrite hcb (List.mem_singleton_self _)
  exact hframes.clone_ne hj' (h.clones j hj).1 (f j)
    (h.patched.wf.fn_unique hlookup (h.patched.lookup hbody) hi hcb'
      (hid.trans (redirect_id _ c).symm))

/-- Where an execution can be at frame `n`: in the function of the frame, or in a clone of it. -/
def InFrame (G : GenEnv) (m : Module) (callstack : List LocationInfo) (f : ℕ → FnId) (idx n : ℕ)
    (g : FnId) : Prop :=
  g = f n ∨ ∃ k < idx, f k = f n ∧ g = frameClone G m callstack f k

/-- The calls are redirected to clones of what they call. -/
lemma FramesIn.callee_of_redirects (hframes : FramesIn G m callstack f idx) {k : ℕ} (hk : k ≤ idx)
    {i : Instr} (hi : i ∈ m.insts) {g : FnId} (hg : redirects G m callstack f k i.id = some g) :
    ∃ j < k, g = frameClone G m callstack f j ∧ i.getCalledFunction = some (f j) ∧
      i ∈ callSites G m callstack f j ∧ redirects G m callstack f j i.id = none := by
  obtain ⟨j, hj, rfl, hnone, c, hc, hid⟩ := redirects_eq_some hg
  obtain rfl := hframes.wf.eq_of_id (hframes.site_mem_insts (hj.trans_le hk) hc) hi hid
  exact ⟨j, hj, rfl, (hframes.mem_callSites (hj.trans_le hk) hc).1, hc, hnone⟩

/-- **A call site after `k` rounds** leads to the first clone if it enters frame 0, and if there
has been a round. -/
lemma Rounds.callee (h : Rounds G m callstack f idx s extra)
    (hframes : FramesIn G m callstack f idx) {n k : ℕ} (hn : n < idx) (hk : k ≤ idx) {i : Instr}
    (hi : i ∈ callSites G m callstack f n) :
    ∃ g, (redirect (redirects G m callstack f k) i).getCalledFunction = some g ∧
      InFrame G m callstack f idx n g ∧ (k = 0 → g = f n) ∧
        (g = frameClone G m callstack f 0 ↔ 0 < k ∧ i ∈ callSites G m callstack f 0) := by
  have him := hframes.site_mem_insts hn hi
  have hcall := (hframes.mem_callSites hn hi).1
  have hcallee := getCalledFunction_redirect (j := i) (ρ := redirects G m callstack f k) fun g hg =>
    have ⟨j, _, hclone, hj, _⟩ := hframes.callee_of_redirects hk him hg
    ⟨f j, hj, by rw [hclone]; rfl⟩
  -- the call is still of the original, or has been redirected by an earlier round
  cases hg : redirects G m callstack f k i.id with
  | none =>
      rw [hg, Option.none_or, hcall] at hcallee
      refine ⟨f n, hcallee, .inl rfl, fun _ => rfl, iff_of_false (fun heq => ?_) fun hzero => ?_⟩
      · exact hframes.clone_ne hn.le (h.clones 0 (by omega)).1 (f 0) heq.symm
      · exact redirects_ne_none hzero.1 hzero.2 hg
  | some g =>
      rw [hg, Option.some_or] at hcallee
      obtain ⟨j, hj, rfl, hfj, hsite, hopen⟩ := hframes.callee_of_redirects hk him hg
      have hsame : f j = f n := Option.some.inj (hfj.symm.trans hcall)
      refine ⟨_, hcallee, .inr ⟨j, hj.trans_le hk, hsame, rfl⟩, fun hzero => by omega, ?_⟩
      rcases Nat.eq_zero_or_pos j with rfl | hpos
      · exact iff_of_true rfl ⟨hj, hsite⟩
      · refine iff_of_false (fun heq => ?_) fun hzero => redirects_ne_none hpos hzero.2 hopen
        exact h.distinct 0 j hpos (hj.trans_le hk) heq.symm

/-- **One step**: a call that enters frame 0 leads to the first clone, but not out of it. -/
lemma Rounds.call_site (h : Rounds G m callstack f idx s extra)
    (hframes : FramesIn G m callstack f idx) (hfenced : Fenced s addFence m') {n : ℕ} {g : FnId}
    (hn : n < idx) (hg : InFrame G m callstack f idx (n + 1) g) {i : Instr}
    (hi : i ∈ callSites G m callstack f n) :
    ∃ c g', CopyIn (f (n + 1)) i.id g c ∧ (∀ c', CopyIn (f (n + 1)) i.id g c' → c' = c) ∧
      Calls m' g c g' ∧ InFrame G m callstack f idx n g' ∧
        (g = frameClone G m callstack f 0 → g' = f n) ∧
        (g' = frameClone G m callstack f 0 ↔
          i ∈ callSites G m callstack f 0 ∧ g ≠ frameClone G m callstack f 0) := by
  obtain ⟨-, body, hbody, hib⟩ := hframes.mem_callSites hn hi
  have hidx : 0 < idx := by omega
  rcases hg with rfl | ⟨k, hk, hfk, rfl⟩
  · -- in an original all redirections are there
    obtain ⟨g', hcallee, hin, -, hfirst⟩ := h.callee hframes hn le_rfl hi
    have hne : f (n + 1) ≠ frameClone G m callstack f 0 :=
      (hframes.clone_ne hn (h.clones 0 hidx).1 (f 0)).symm
    have hnew : redirect (redirects G m callstack f idx) i ∈
        (body.rewrite fun j => [redirect (redirects G m callstack f idx) j]).insts :=
      Function.mem_insts_rewrite hib (List.mem_singleton_self _)
    obtain ⟨body', hbody', hmem⟩ := hfenced.mem_body (h.patched.lookup hbody) hnew
    refine ⟨i.id, g', .inl ⟨rfl, rfl⟩, fun c' hc' => hc'.eq_self,
      ⟨body', _, hbody', hmem, redirect_id _ i, hcallee⟩, hin, fun heq => absurd heq hne, ?_⟩
    rw [hfirst, and_comm]
    exact and_congr_right fun _ => iff_of_true hidx hne
  · -- in a clone those of the rounds before it, in the first one none
    obtain ⟨g', hcallee, hin, hzero, hfirst⟩ := h.callee hframes hn hk.le hi
    have hnumber : frameClone G m callstack f k = frameClone G m callstack f 0 → k = 0 := by
      intro heq
      by_contra hne
      exact h.distinct 0 k (Nat.pos_of_ne_zero hne) hk heq.symm
    obtain ⟨-, body', B, hbody', hB, hflushed⟩ := h.clones k hk
    rw [hfk] at hbody'
    obtain rfl := Option.some.inj (hbody.symm.trans hbody')
    obtain ⟨b, hb, hib⟩ := List.mem_flatten.mp hib
    rw [Function.rewrite_map] at hflushed
    obtain ⟨b', hb', hbb'⟩ := exists_of_forall₂ hflushed (List.mem_map_of_mem hb)
    have hcopy := hbb'.mem (List.mem_map_of_mem hib)
    have hclone : frameClone G m callstack f k =
        (f (n + 1)).clone (cloneNumber G m callstack k) := by rw [frameClone, hfk]
    refine ⟨i.id.copy (cloneNumber G m callstack k), g', .inr ⟨_, hclone, rfl⟩,
      fun c' hc' => (hclone ▸ hc').eq_copy, ⟨⟨B⟩, _, h.lookup_clone hframes hfenced hk hB,
        List.mem_flatten.mpr ⟨b', hb', hcopy⟩, ?_, ?_⟩, hin, fun heq => hzero (hnumber heq), ?_⟩
    · rw [Instr.copy, redirect_id]
    · rw [Instr.getCalledFunction_copy]
      exact hcallee
    · rw [hfirst, and_comm]
      refine and_congr_right fun _ => ⟨fun hpos heq => hpos.ne' (hnumber heq), fun hne => ?_⟩
      exact Nat.pos_of_ne_zero fun hzero => hne (by rw [hzero])

/-- An execution is in the functions of the frames or in clones of them. -/
lemma Rounds.inFrame (h : Rounds G m callstack f idx s extra)
    (hframes : FramesIn G m callstack f idx) (hfenced : Fenced s addFence m') {n : ℕ} {g : FnId}
    (hfollows : Follows G m callstack f idx m' n g) :
    n ≤ idx ∧ InFrame G m callstack f idx n g := by
  induction hfollows with
  | enter => exact ⟨le_rfl, .inl rfl⟩
  | @call n g g' i c _ hi hc hcall ih =>
      obtain ⟨c', g₁, -, hunique, hcalls, hin, -, -⟩ := h.call_site hframes hfenced ih.1 ih.2 hi
      rw [hunique c hc] at hcall
      rw [hcall.unique (hfenced.wf h.patched.wf) hcalls]
      exact ⟨(Nat.le_succ n).trans ih.1, hin⟩

/-- An execution goes on from each frame by each call. -/
lemma Rounds.follows_call (h : Rounds G m callstack f idx s extra)
    (hframes : FramesIn G m callstack f idx) (hfenced : Fenced s addFence m') {n : ℕ} {g : FnId}
    (hfollows : Follows G m callstack f idx m' (n + 1) g) {i : Instr}
    (hi : i ∈ callSites G m callstack f n) :
    ∃ g', Follows G m callstack f idx m' n g' ∧ (g = frameClone G m callstack f 0 → g' = f n) ∧
      (g' = frameClone G m callstack f 0 ↔
        i ∈ callSites G m callstack f 0 ∧ g ≠ frameClone G m callstack f 0) := by
  obtain ⟨hn, hin⟩ := h.inFrame hframes hfenced hfollows
  obtain ⟨c, g', hc, -, hcalls, -, hback, hfirst⟩ := h.call_site hframes hfenced hn hin hi
  exact ⟨g', .call hfollows hi hc hcalls, hback, hfirst⟩

/-- An execution comes to a frame from the one above. -/
lemma Rounds.follows_cases (h : Rounds G m callstack f idx s extra)
    (hframes : FramesIn G m callstack f idx) (hfenced : Fenced s addFence m') {n : ℕ} {g' : FnId}
    (hn : n < idx) (hfollows : Follows G m callstack f idx m' n g') :
    ∃ g, Follows G m callstack f idx m' (n + 1) g ∧ ∃ i ∈ callSites G m callstack f n,
      (g' = frameClone G m callstack f 0 ↔
        i ∈ callSites G m callstack f 0 ∧ g ≠ frameClone G m callstack f 0) := by
  cases hfollows with
  | enter => exact absurd hn (lt_irrefl idx)
  | @call _ g _ i c hprev hi hc hcall =>
      obtain ⟨c', g₁, -, hunique, hcalls, -, -, hfirst⟩ :=
        h.call_site hframes hfenced hn (h.inFrame hframes hfenced hprev).2 hi
      rw [hunique c hc] at hcall
      rw [hcall.unique (hfenced.wf h.patched.wf) hcalls]
      exact ⟨g, hprev, i, hi, hfirst⟩

/-- An execution gets to every frame. -/
lemma Rounds.exists_follows (h : Rounds G m callstack f idx s extra)
    (hframes : FramesIn G m callstack f idx) (hfenced : Fenced s addFence m')
    (hcalls : ∀ j < idx, callSites G m callstack f j ≠ []) {n : ℕ} (hn : n ≤ idx) :
    ∃ g, Follows G m callstack f idx m' n g := by
  induction hn using Nat.decreasingInduction with
  | self => exact ⟨f idx, .enter⟩
  | of_succ n hn ih =>
      obtain ⟨g, hg⟩ := ih
      obtain ⟨i, hi⟩ := List.exists_mem_of_ne_nil _ (hcalls n hn)
      obtain ⟨g', hg', -, -⟩ := h.follows_call hframes hfenced hg hi
      exact ⟨g', hg'⟩

/-! ### Recursion -/

/-- The `r` frames from frame `n` on are entered by calls that enter frame 0, and the frame above
them is the one at the top, or is entered by a call that does not. -/
def EnteredAlike (G : GenEnv) (m : Module) (callstack : List LocationInfo) (f : ℕ → FnId)
    (idx n r : ℕ) : Prop :=
  n + r ≤ idx ∧
    (∀ j, n ≤ j → j < n + r →
      ∃ c ∈ callSites G m callstack f j, c ∈ callSites G m callstack f 0) ∧
    (n + r < idx →
      ∃ c ∈ callSites G m callstack f (n + r), c ∉ callSites G m callstack f 0)

lemma enteredAlike_top {r : ℕ} : EnteredAlike G m callstack f idx idx r ↔ r = 0 := by
  constructor
  · rintro ⟨hle, -⟩
    omega
  · rintro rfl
    exact ⟨le_rfl, fun j hj hlt => by omega, fun hlt => by omega⟩

lemma enteredAlike_zero {n : ℕ} (hn : n < idx) : EnteredAlike G m callstack f idx n 0 ↔
    ∃ c ∈ callSites G m callstack f n, c ∉ callSites G m callstack f 0 :=
  ⟨fun h => h.2.2 hn, fun h => ⟨hn.le, fun j hj hlt => by omega, fun _ => h⟩⟩

lemma enteredAlike_succ {n r : ℕ} : EnteredAlike G m callstack f idx n (r + 1) ↔
    (∃ c ∈ callSites G m callstack f n, c ∈ callSites G m callstack f 0) ∧
      EnteredAlike G m callstack f idx (n + 1) r := by
  have hsum : n + (r + 1) = n + 1 + r := by omega
  rw [EnteredAlike, EnteredAlike, hsum]
  constructor
  · rintro ⟨hle, hall, htop⟩
    exact ⟨hall n le_rfl (by omega), hle, fun j hj => hall j (by omega), htop⟩
  · rintro ⟨hfirst, hle, hall, htop⟩
    refine ⟨hle, fun j hj hlt => ?_, htop⟩
    rcases hj.eq_or_lt with rfl | hj
    · exact hfirst
    · exact hall j hj hlt

/-- **Which executions are in the first clone** at a frame: those that have been entered alike an
odd number of times in a row. -/
lemma Rounds.follows_iff (h : Rounds G m callstack f idx s extra)
    (hframes : FramesIn G m callstack f idx) (hfenced : Fenced s addFence m')
    (hcalls : ∀ j < idx, callSites G m callstack f j ≠ []) (hidx : 0 < idx) {n : ℕ}
    (hn : n ≤ idx) :
    (Follows G m callstack f idx m' n (frameClone G m callstack f 0) ↔
      ∃ r, Odd r ∧ EnteredAlike G m callstack f idx n r) ∧
    ((∃ g, Follows G m callstack f idx m' n g ∧ g ≠ frameClone G m callstack f 0) ↔
      ∃ r, Even r ∧ EnteredAlike G m callstack f idx n r) := by
  induction hn using Nat.decreasingInduction with
  | self =>
      have htop : f idx ≠ frameClone G m callstack f 0 :=
        (hframes.clone_ne le_rfl (h.clones 0 hidx).1 (f 0)).symm
      simp only [enteredAlike_top]
      constructor
      · refine iff_of_false (fun hfollows => ?_) ?_
        · generalize hg : frameClone G m callstack f 0 = g at hfollows htop
          cases hfollows with
          | enter => exact htop rfl
          | call hprev => exact absurd (h.inFrame hframes hfenced hprev).1 (Nat.not_succ_le_self _)
        · rintro ⟨r, hodd, rfl⟩
          exact absurd hodd (by decide)
      · exact iff_of_true ⟨f idx, .enter, htop⟩ ⟨0, Even.zero, rfl⟩
  | of_succ n hn ih =>
      constructor
      -- from frame to frame: the parity changes where the call is the one that enters frame 0
      · constructor
        · intro hfollows
          obtain ⟨g, hg, i, hi, hfirst⟩ := h.follows_cases hframes hfenced hn hfollows
          obtain ⟨hsite, hne⟩ := hfirst.mp rfl
          obtain ⟨r, heven, halike⟩ := ih.2.mp ⟨g, hg, hne⟩
          exact ⟨r + 1, heven.add_one, enteredAlike_succ.mpr ⟨⟨i, hi, hsite⟩, halike⟩⟩
        · rintro ⟨r, hodd, halike⟩
          obtain ⟨r, rfl⟩ := Nat.exists_eq_succ_of_ne_zero hodd.pos.ne'
          obtain ⟨⟨i, hi, hsite⟩, halike⟩ := enteredAlike_succ.mp halike
          obtain ⟨g, hg, hne⟩ := ih.2.mpr ⟨r, by simpa [Nat.odd_add_one] using hodd, halike⟩
          obtain ⟨g', hg', -, hfirst⟩ := h.follows_call hframes hfenced hg hi
          exact hfirst.mpr ⟨hsite, hne⟩ ▸ hg'
      · constructor
        · rintro ⟨g', hg', hne⟩
          obtain ⟨g, hg, i, hi, hfirst⟩ := h.follows_cases hframes hfenced hn hg'
          by_cases hsite : i ∈ callSites G m callstack f 0
          · -- only the first clone calls the original
            have hclone : g = frameClone G m callstack f 0 := by
              by_contra hother
              exact hne (hfirst.mpr ⟨hsite, hother⟩)
            obtain ⟨r, hodd, halike⟩ := ih.1.mp (hclone ▸ hg)
            exact ⟨r + 1, hodd.add_one, enteredAlike_succ.mpr ⟨⟨i, hi, hsite⟩, halike⟩⟩
          · exact ⟨0, Even.zero, (enteredAlike_zero hn).mpr ⟨i, hi, hsite⟩⟩
        · rintro ⟨r, heven, halike⟩
          cases r with
          | zero =>
              obtain ⟨i, hi, hsite⟩ := (enteredAlike_zero hn).mp halike
              obtain ⟨g, hg⟩ := h.exists_follows hframes hfenced hcalls hn
              obtain ⟨g', hg', -, hfirst⟩ := h.follows_call hframes hfenced hg hi
              exact ⟨g', hg', fun heq => hsite (hfirst.mp heq).1⟩
          | succ r =>
              obtain ⟨⟨i, hi, -⟩, halike⟩ := enteredAlike_succ.mp halike
              have hg := ih.1.mpr ⟨r, by simpa [Nat.even_add_one] using heven, halike⟩
              obtain ⟨g', hg', -, hfirst⟩ := h.follows_call hframes hfenced hg hi
              exact ⟨g', hg', fun heq => (hfirst.mp heq).2 rfl⟩

/-! ### The store and the fence -/

/-- **The copy of the store** in the first clone is followed by a flush if the store is a flush
point, or is followed by one in the function itself. -/
lemma Rounds.flushed_iff (h : Rounds G m callstack f idx s extra)
    (hframes : FramesIn G m callstack f idx) (hfenced : Fenced s addFence m') (hidx : 0 < idx)
    {body : Function} {st : Instr} {p : Value} (hbody : m.lookup (f 0) = some body)
    (hst : st ∈ body.insts) (hp : st.pointerOperand = some p) :
    FollowedBy m' (frameClone G m callstack f 0) (st.id.copy (cloneNumber G m callstack 0))
        (StartsFlush (p.copy (cloneNumber G m callstack 0))) ↔
      isFlushPoint G st = true ∨ FollowedBy m (f 0) st.id (StartsFlush p) := by
  obtain ⟨-, body', B, hbody', hB, hflushed⟩ := h.clones 0 hidx
  obtain rfl := Option.some.inj (hbody.symm.trans hbody')
  obtain ⟨b, hb, hstb⟩ := List.mem_flatten.mp hst
  obtain ⟨pre, rest, rfl⟩ := List.append_of_mem hstb
  rw [redirects, Function.rewrite_redirect_none] at hflushed
  obtain ⟨b', hb', hbb'⟩ := exists_of_forall₂ hflushed hb
  obtain ⟨pre', flush, rest', rfl, hrest, hcase⟩ := hbb'.split
  have hwf' := hfenced.wf h.patched.wf
  have hclone : (frameClone G m callstack f 0, pre' ++
      st.copy (cloneNumber G m callstack 0) :: (flush ++ rest')) ∈ m'.blockList :=
    Module.mem_blockList.mpr
      ⟨⟨B⟩, Module.mem_of_lookup (h.lookup_clone hframes hfenced hidx hB), hb'⟩
  have horig : (f 0, pre ++ st :: rest) ∈ m.blockList :=
    Module.mem_blockList.mpr ⟨body, Module.mem_of_lookup hbody, hb⟩
  have hpoint : FlushPoint G body st.id ↔ isFlushPoint G st = true := by
    constructor
    · rintro ⟨j, hj, hflush, hid⟩
      rwa [← hframes.wf.eq_of_id (Module.mem_insts_of_lookup hbody hj)
        (Module.mem_insts_of_lookup hbody hst) hid]
    · exact fun hflush => ⟨st, hst, hflush, rfl⟩
  have hstores : ∀ j ∈ rest, FlushPoint G body j.id → j.pointerOperand.isSome = true := by
    rintro j hj ⟨k, hk, hflush, hid⟩
    have hjb : j ∈ body.insts :=
      List.mem_flatten.mpr ⟨_, hb, List.mem_append_right pre (List.mem_cons_of_mem st hj)⟩
    obtain rfl := hframes.wf.eq_of_id (Module.mem_insts_of_lookup hbody hk)
      (Module.mem_insts_of_lookup hbody hjb) hid
    rw [isFlushPoint] at hflush
    cases hptr : k.pointerOperand with
    | none => simp [hptr] at hflush
    | some v => rfl
  have hat := hwf'.followedBy_iff hclone (P := StartsFlush (p.copy (cloneNumber G m callstack 0)))
  rw [hframes.wf.followedBy_iff horig, ← hpoint]
  refine hat.trans ?_
  -- the store is a flush point and has its flush, or nothing follows that was not there
  rcases hcase with ⟨hnot, rfl⟩ | ⟨hyes, q, n, hq, rfl⟩
  · rw [List.nil_append, hrest.startsFlush_iff hstores]
    exact (or_iff_right hnot).symm
  · obtain rfl := Option.some.inj (hp.symm.trans hq)
    exact iff_of_true (startsFlush_flushInstrs n _ rest') (.inl hyes)

/-- **A call site** is followed by a fence if it is the last one redirected, or is followed by one
in the given module. -/
lemma Rounds.fenced_iff (h : Rounds G m callstack f idx s extra)
    (hframes : FramesIn G m callstack f idx) {r : InstId} (hr : s.2 = some r) {j : ℕ}
    (hj : j < idx) {c : Instr} (hc : c ∈ callSites G m callstack f j) :
    FollowedBy (s.1.insertAfter r [sfenceCall s.1.next]) (f (j + 1)) c.id StartsFence ↔
      ForLoop.LastNew (siteIds G m callstack f idx) c.id ∨
        FollowedBy m (f (j + 1)) c.id StartsFence := by
  obtain ⟨-, body, hbody, hcb⟩ := hframes.mem_callSites hj hc
  obtain ⟨b, hb, hcb⟩ := List.mem_flatten.mp hcb
  obtain ⟨pre, rest, rfl⟩ := List.append_of_mem hcb
  let ρ := redirects G m callstack f idx
  let fence := insertedAfter r [sfenceCall s.1.next]
  have horig : (f (j + 1), pre ++ c :: rest) ∈ m.blockList :=
    Module.mem_blockList.mpr ⟨body, Module.mem_of_lookup hbody, hb⟩
  have hredirected : (f (j + 1), (pre ++ c :: rest).map (redirect ρ)) ∈ s.1.blockList := by
    refine Module.mem_blockList.mpr ⟨_, Module.mem_of_lookup (h.patched.lookup hbody), ?_⟩
    rw [Function.rewrite_map]
    exact List.mem_map_of_mem hb
  have hnew : (f (j + 1), ((pre ++ c :: rest).map (redirect ρ)).flatMap fence) ∈
      (s.1.insertAfter r [sfenceCall s.1.next]).blockList := by
    show _ ∈ (s.1.rewrite fence).blockList
    rw [Module.blockList_rewrite]
    exact List.mem_map_of_mem hredirected
  have hsplit : ((pre ++ c :: rest).map (redirect ρ)).flatMap fence =
      (pre.map (redirect ρ)).flatMap fence ++ redirect ρ c ::
        ((if c.id = r then [sfenceCall s.1.next] else []) ++
          (rest.map (redirect ρ)).flatMap fence) := by
    have hhead : fence (redirect ρ c) =
        redirect ρ c :: (if c.id = r then [sfenceCall s.1.next] else []) := by
      show insertedAfter r [sfenceCall s.1.next] (redirect ρ c) = _
      rw [insertedAfter, redirect_id]
      split_ifs <;> rfl
    simp [hhead]
  rw [hsplit] at hnew
  have hwf : (s.1.insertAfter r [sfenceCall s.1.next]).WF := h.patched.wf.insertAfter rfl
  have hat := hwf.followedBy_iff hnew (P := StartsFence)
  rw [redirect_id] at hat
  -- the fence goes after the call that was redirected last
  have hlast : ForLoop.LastNew (siteIds G m callstack f idx) c.id ↔ c.id = r :=
    ⟨fun hnew => hnew.unique (h.returned r hr), fun heq => heq ▸ h.returned r hr⟩
  have hcallee : ∀ k ∈ rest, ∀ g, ρ k.id = some g →
      ∃ f', k.getCalledFunction = some f' ∧ g.getIntrinsicID = f'.getIntrinsicID := by
    intro k hk g hg
    have hkb : k ∈ body.insts :=
      List.mem_flatten.mpr ⟨_, hb, List.mem_append_right pre (List.mem_cons_of_mem c hk)⟩
    obtain ⟨i, -, rfl, hcall, -⟩ :=
      hframes.callee_of_redirects le_rfl (Module.mem_insts_of_lookup hbody hkb) hg
    exact ⟨f i, hcall, rfl⟩
  rw [hat, hlast, hframes.wf.followedBy_iff horig]
  split_ifs with heq
  · exact iff_of_true ⟨_, rfl, isFence_sfenceCall s.1.next⟩ (.inl heq)
  · rw [List.nil_append, startsFence_redirected_iff hcallee]
    exact (or_iff_right heq).symm

/-- **A persistent subprogram flushes the store** it was inserted for, whose pointer is one of the
registered values `vs`, exactly when the pointer may be persistent, or a flush comes after the
store already; an even number of frames above frame 0 is entered by a call that enters it, whatever
calls the execution follows; and the calls at the top come last among the redirected ones, if there
is to be a fence, or have one already. -/
theorem insertPersistentSubProgram_flushes_iff (hframes : FramesIn G m callstack f idx)
    (hcalls : ∀ j < idx, callSites G m callstack f j ≠ [])
    {body : Function} {st : Instr} {p q : Value} (hbody : m.lookup (f 0) = some body)
    (hst : st ∈ body.insts) (hp : st.pointerOperand = some p)
    {pts : Value → Option (List Value)} {vs : List Value}
    (hreg : vs.foldlM PmDesc.addKnownPmValue ⟨pts, []⟩ = some G.pmDesc)
    (hq : G.analysed p = some q) (hvs : q ∈ vs) {r : InstId}
    (hrun : insertPersistentSubProgram G m callstack idx true addFence = some (m', some r)) :
    SubprogramFlushes G m callstack f idx addFence st.id p m' ↔
      (PmDesc.MayBePersistent pts q ∨ FollowedBy m (f 0) st.id (StartsFlush p)) ∧
      (∀ n, EnteredAlike G m callstack f idx 1 n → Even n) ∧
      (addFence = true → ∀ j, j + 1 = idx → ∀ c ∈ callSites G m callstack f j,
        ForLoop.LastNew (siteIds G m callstack f idx) c.id ∨
          FollowedBy m (f idx) c.id StartsFence) := by
  obtain ⟨s, extra, h, hr, hfenced⟩ := insertPersistentSubProgram_spec hframes hrun
  have hidx : 0 < idx := by
    obtain ⟨j, hj, -⟩ := h.ret hr.symm
    omega
  have hstore := h.flushed_iff hframes hfenced hidx hbody hst hp
  rw [isFlushPoint_iff_of_registered hreg hp hq hvs] at hstore
  obtain ⟨hodd, -⟩ := h.follows_iff hframes hfenced hcalls hidx (n := 1) hidx
  have hreached := h.exists_follows hframes hfenced hcalls (Nat.zero_le idx)
  have hfirst : (∀ n, EnteredAlike G m callstack f idx 1 n → Even n) →
      ∀ g, Follows G m callstack f idx m' 0 g → g = frameClone G m callstack f 0 := by
    intro heven g hg
    obtain ⟨g₁, hg₁, i, hi, hiff⟩ := h.follows_cases hframes hfenced hidx hg
    refine hiff.mpr ⟨hi, fun hclone => ?_⟩
    obtain ⟨n, hn, halike⟩ := hodd.mp (hclone ▸ hg₁)
    exact Nat.not_odd_iff_even.mpr (heven n halike) hn
  have hfence : (addFence = true → ∀ j, j + 1 = idx → ∀ c ∈ callSites G m callstack f j,
      FollowedBy m' (f idx) c.id StartsFence) ↔
        (addFence = true → ∀ j, j + 1 = idx → ∀ c ∈ callSites G m callstack f j,
          ForLoop.LastNew (siteIds G m callstack f idx) c.id ∨
            FollowedBy m (f idx) c.id StartsFence) := by
    cases hfenced with
    | without => simp
    | after hs =>
        refine imp_congr_right fun _ => forall₂_congr fun j hj => forall₂_congr fun c hc => ?_
        subst hj
        exact h.fenced_iff hframes hs j.lt_succ_self hc
  constructor
  · intro hflushes
    have heven : ∀ n, EnteredAlike G m callstack f idx 1 n → Even n := by
      intro n halike
      by_contra hnot
      have hclone := hodd.mpr ⟨n, Nat.not_even_iff_odd.mp hnot, halike⟩
      -- the first clone calls the original
      obtain ⟨i, hi⟩ := List.exists_mem_of_ne_nil _ (hcalls 0 hidx)
      obtain ⟨g, hg, hback, -⟩ := h.follows_call hframes hfenced hclone hi
      obtain ⟨k, hk, -⟩ := hflushes.flushed g hg
      exact FnId.clone_ne (f 0) k (hk.symm.trans (hback rfl))
    refine ⟨?_, heven, hfence.mp hflushes.fenced⟩
    obtain ⟨g, hg⟩ := hflushes.reached
    obtain rfl := hfirst heven g hg
    obtain ⟨k, hk, hflush⟩ := hflushes.flushed _ hg
    obtain rfl := FnId.clone_injective (f 0) hk
    exact hstore.mp hflush
  · rintro ⟨hflush, heven, hfenceTop⟩
    refine ⟨hreached, fun g hg => ?_, hfence.mpr hfenceTop⟩
    obtain rfl := hfirst heven g hg
    exact ⟨_, rfl, hstore.mpr hflush⟩

end Execution

/-! ### The store two calls deep -/

lemma storeBelow_callSites (target : Value) :
    ∀ j < 2,
      callSites (storeBelowEnv target) storeBelow storeBelowStack storeBelowFrame j ≠ [] := by
  intro j hj
  interval_cases j
  · rw [← List.isEmpty_eq_false_iff]
    rfl
  · rw [← List.isEmpty_eq_false_iff]
    rfl

/-- The pointer of the store is registered. -/
lemma storeBelow_registered (target : Value) :
    [Value.arg (FnId.named "update") 0 (.other "i64*")].foldlM PmDesc.addKnownPmValue
      ⟨fun _ => some [target], []⟩ = some (storeBelowEnv target).pmDesc := rfl

/-! ### A recursion

`clear` stores and calls itself. The store of the third call is not persisted. -/

def countdown : Module :=
  ⟨[(FnId.named "clear", ⟨[[
        ⟨InstId.orig 0, .store (.constant "0" (.other "i64"))
          (.arg (FnId.named "clear") 0 (.other "i64*"))⟩,
        ⟨InstId.orig 1, .other "br" []⟩],
        [⟨InstId.orig 2, .call (.function (FnId.named "clear"))
          [.arg (FnId.named "clear") 0 (.other "i64*")]⟩,
        ⟨InstId.orig 3, .other "ret" []⟩]]⟩),
    (FnId.named "main", ⟨[[
        ⟨InstId.orig 4, .call (.function (FnId.named "map")) []⟩,
        ⟨InstId.orig 5, .call (.function (FnId.named "clear"))
          [.inst (InstId.orig 4) (.other "i64*")]⟩,
        ⟨InstId.orig 6, .other "ret" []⟩]]⟩),
    (FnId.named "map", ⟨[]⟩)], 0⟩

/-- All pointers point to what `map` returns. -/
def countdownEnv : GenEnv where
  mapper li :=
    if li = ⟨"clear", "clear.c", 3⟩ then some [FixLoc.single (InstId.orig 0)]
    else if li = ⟨"clear", "clear.c", 5⟩ then some [FixLoc.single (InstId.orig 2)]
    else if li = ⟨"main", "clear.c", 9⟩ then some [FixLoc.single (InstId.orig 5)]
    else none
  pmDesc := ⟨fun _ => some [.inst (InstId.orig 4) (.other "i64*")],
    [.inst (InstId.orig 4) (.other "i64*")]⟩
  traceAAMap := none
  demangle name := name

def countdownStack : List LocationInfo :=
  [⟨"clear", "clear.c", 3⟩, ⟨"clear", "clear.c", 5⟩, ⟨"clear", "clear.c", 5⟩,
    ⟨"main", "clear.c", 9⟩]

def countdownFrame : ℕ → FnId
  | 0 | 1 | 2 => FnId.named "clear"
  | _ => FnId.named "main"

lemma countdown_framesIn : FramesIn countdownEnv countdown countdownStack countdownFrame 3 := by
  refine ⟨⟨by decide, by decide, ?_, ?_, by decide⟩, fun j hj => ?_⟩
  · simp [countdown, FnId.Below, FnId.named]
  · simp [countdown, Module.insts, Function.insts, InstId.Below, InstId.orig]
  · interval_cases j
    · exact ⟨_, rfl, [FixLoc.single (InstId.orig 0)], rfl, by simp, by simp; decide⟩
    · exact ⟨_, rfl, [FixLoc.single (InstId.orig 2)], rfl, by simp, by simp; decide⟩
    · exact ⟨_, rfl, [FixLoc.single (InstId.orig 2)], rfl, by simp, by simp; decide⟩
    · exact ⟨_, rfl, [FixLoc.single (InstId.orig 5)], rfl, by simp, by simp; decide⟩

/-- The sites of the two calls of `clear` in itself are one. -/
lemma countdown_enteredAlike :
    EnteredAlike countdownEnv countdown countdownStack countdownFrame 3 1 1 := by
  refine ⟨by decide, fun j hj hlt => ?_, fun _ => ?_⟩
  · obtain rfl : j = 1 := by omega
    exact ⟨⟨InstId.orig 2, _⟩, List.mem_singleton_self _, List.mem_singleton_self _⟩
  · exact ⟨⟨InstId.orig 5, _⟩, List.mem_singleton_self _, by decide⟩

/-- The store two calls deep is flushed. In the recursion it is not: the calls lead from `main` to
the third clone, to the first clone, and to the original. -/
theorem insertPersistentSubProgram_flushes_iff_storeBelow :
    (∃ m' r, insertPersistentSubProgram (storeBelowEnv (.inst (InstId.orig 4) (.other "i64*")))
        storeBelow storeBelowStack 2 true true = some (m', some r) ∧
      SubprogramFlushes (storeBelowEnv (.inst (InstId.orig 4) (.other "i64*"))) storeBelow
        storeBelowStack storeBelowFrame 2 true (InstId.orig 0)
        (.arg (FnId.named "update") 0 (.other "i64*")) m') ∧
    ∃ m' r, insertPersistentSubProgram countdownEnv countdown countdownStack 3 true true =
        some (m', some r) ∧
      ¬ SubprogramFlushes countdownEnv countdown countdownStack countdownFrame 3 true
        (InstId.orig 0) (.arg (FnId.named "clear") 0 (.other "i64*")) m' := by
  constructor
  · have hrun : ((insertPersistentSubProgram
        (storeBelowEnv (.inst (InstId.orig 4) (.other "i64*"))) storeBelow storeBelowStack 2 true
        true).bind Prod.snd).isSome = true := by
      decide
    obtain ⟨r, hr⟩ := Option.isSome_iff_exists.mp hrun
    obtain ⟨⟨m', ret⟩, hm', rfl⟩ := Option.bind_eq_some_iff.mp hr
    refine ⟨m', r, hm', (insertPersistentSubProgram_flushes_iff (storeBelow_framesIn _)
      (storeBelow_callSites _) rfl List.mem_cons_self rfl (storeBelow_registered _) rfl
      List.mem_cons_self hm').mpr ⟨.inl ⟨rfl, _, rfl, _, List.mem_cons_self, rfl⟩, ?_, ?_⟩⟩
    · -- `relay` and `update` are entered by calls of different functions
      intro n halike
      cases n with
      | zero => exact Even.zero
      | succ n =>
          obtain ⟨c, hc, hc'⟩ := (enteredAlike_succ.mp halike).1
          -- the two sites are calls of different functions
          have hcall := (storeBelow_framesIn _).mem_callSites one_lt_two hc
          have hcall' := (storeBelow_framesIn _).mem_callSites two_pos hc'
          exact absurd (hcall.1.symm.trans hcall'.1) (by decide)
    · rintro - j hj c hc
      obtain rfl : j = 1 := by omega
      obtain rfl := List.mem_singleton.mp hc
      exact .inl ⟨[InstId.orig 2], [], rfl, by decide, by simp⟩
  · have hrun : ((insertPersistentSubProgram countdownEnv countdown countdownStack 3 true
        true).bind Prod.snd).isSome = true := by
      decide
    obtain ⟨r, hr⟩ := Option.isSome_iff_exists.mp hrun
    obtain ⟨⟨m', ret⟩, hm', rfl⟩ := Option.bind_eq_some_iff.mp hr
    have hcalls : ∀ j < 3,
        callSites countdownEnv countdown countdownStack countdownFrame j ≠ [] := by
      decide
    have hreg : [Value.arg (FnId.named "clear") 0 (.other "i64*")].foldlM PmDesc.addKnownPmValue
        ⟨countdownEnv.pmDesc.getPointsToSet, []⟩ = some countdownEnv.pmDesc := rfl
    refine ⟨m', r, hm', fun hflushes => ?_⟩
    obtain ⟨-, heven, -⟩ := (insertPersistentSubProgram_flushes_iff countdown_framesIn hcalls rfl
      List.mem_cons_self rfl hreg rfl List.mem_cons_self hm').mp hflushes
    exact absurd (heven 1 countdown_enteredAlike) (by decide)

/-! ### A store to a stack slot

The program of `005_immutable_fn_pmemcheck.c`: the memory registered as persistent is an array
of `main`, `incorrect` gets its address and calls `my_memset`, which stores to it. -/

def stackArray : Module :=
  ⟨[(FnId.named "my_memset", ⟨[[
        ⟨InstId.orig 0, .other "getelementptr" [.arg (FnId.named "my_memset") 0 .i8Ptr]⟩,
        ⟨InstId.orig 1, .store (.arg (FnId.named "my_memset") 1 (.other "i8"))
          (.inst (InstId.orig 0) .i8Ptr)⟩,
        ⟨InstId.orig 2, .other "ret" []⟩]]⟩),
    (FnId.named "incorrect", ⟨[[
        ⟨InstId.orig 3, .call (.function (FnId.named "my_memset"))
          [.arg (FnId.named "incorrect") 0 .i8Ptr, .constant "105" (.other "i8")]⟩,
        ⟨InstId.orig 4, .call (.function (FnId.intrinsic .x86_sse_sfence)) []⟩,
        ⟨InstId.orig 5, .other "ret" []⟩]]⟩),
    (FnId.named "main", ⟨[[
        ⟨InstId.orig 6, .alloca⟩,
        ⟨InstId.orig 7, .other "getelementptr" [.alloca (InstId.orig 6) (.other "[1024 x i8]*")]⟩,
        ⟨InstId.orig 8, .call (.function (FnId.named "incorrect")) [.inst (InstId.orig 7) .i8Ptr]⟩,
        ⟨InstId.orig 9, .other "ret" []⟩]]⟩)], 0⟩

/-- The array. -/
def stackArraySlot : Value := .alloca (InstId.orig 6) (.other "[1024 x i8]*")

/-- All pointers point to the array, and the pointer of the store is registered. -/
def stackArrayEnv : GenEnv where
  mapper li :=
    if li = ⟨"my_memset", "005_immutable_fn_pmemcheck.c", 19⟩ then
      some [⟨InstId.orig 0, InstId.orig 1⟩]
    else if li = ⟨"incorrect", "005_immutable_fn_pmemcheck.c", 30⟩ then
      some [FixLoc.single (InstId.orig 3)]
    else none
  pmDesc := ⟨fun _ => some [stackArraySlot], []⟩
  traceAAMap := none
  demangle name := name

def stackArrayStack : List LocationInfo :=
  [⟨"my_memset", "005_immutable_fn_pmemcheck.c", 19⟩,
    ⟨"incorrect", "005_immutable_fn_pmemcheck.c", 30⟩]

def stackArrayFrame : ℕ → FnId
  | 0 => FnId.named "my_memset"
  | _ => FnId.named "incorrect"

lemma stackArray_wf : stackArray.WF := by
  refine ⟨by decide, by decide, ?_, ?_, by decide⟩
  · simp [stackArray, FnId.Below, FnId.named]
  · simp [stackArray, Module.insts, Function.insts, InstId.Below, InstId.orig]

lemma stackArray_framesIn :
    FramesIn stackArrayEnv stackArray stackArrayStack stackArrayFrame 1 := by
  refine ⟨stackArray_wf, fun j hj => ?_⟩
  interval_cases j
  · exact ⟨_, rfl, [⟨InstId.orig 0, InstId.orig 1⟩], rfl, by simp, by simp; decide⟩
  · exact ⟨_, rfl, [FixLoc.single (InstId.orig 3)], rfl, by simp, by simp; decide⟩

/-- The pointer of the store is registered, the subprogram is inserted, and nothing is flushed in
the clone of `my_memset`: the array is on the stack. -/
theorem stackArray_not_flushed :
    [Value.inst (InstId.orig 0) .i8Ptr].foldlM PmDesc.addKnownPmValue
        ⟨stackArrayEnv.pmDesc.getPointsToSet, []⟩ = some stackArrayEnv.pmDesc ∧
      FramesIn stackArrayEnv stackArray stackArrayStack stackArrayFrame 1 ∧
      (∀ j < 1, callSites stackArrayEnv stackArray stackArrayStack stackArrayFrame j ≠ []) ∧
      ∃ m' r, insertPersistentSubProgram stackArrayEnv stackArray stackArrayStack 1 true false =
          some (m', some r) ∧
        ¬ SubprogramFlushes stackArrayEnv stackArray stackArrayStack stackArrayFrame 1 false
          (InstId.orig 1) (.inst (InstId.orig 0) .i8Ptr) m' := by
  have hsites : ∀ j < 1,
      callSites stackArrayEnv stackArray stackArrayStack stackArrayFrame j ≠ [] := by
    intro j hj
    obtain rfl : j = 0 := by omega
    rw [← List.isEmpty_eq_false_iff]
    rfl
  have hrun : (insertPersistentSubProgram stackArrayEnv stackArray stackArrayStack 1 true
      false).map (fun r => (r.2, r.1.insts.any isFlush)) = some (some (InstId.orig 3), false) := by
    decide
  obtain ⟨⟨m', ret⟩, hm', heq⟩ := Option.map_eq_some_iff.mp hrun
  simp only [Prod.mk.injEq] at heq
  obtain ⟨rfl, hnone⟩ := heq
  refine ⟨rfl, stackArray_framesIn, hsites, m', InstId.orig 3, hm', fun hflushes => ?_⟩
  obtain ⟨g, hg⟩ := hflushes.reached
  obtain ⟨k, -, pre, i, rest, hb, -, hstart⟩ := hflushes.flushed g hg
  -- a flush after the copy would be a flush of the module, and there is none
  have hmem : ∀ j ∈ rest, j ∈ m'.insts := fun j hj =>
    Module.mem_insts_of_blockList hb (List.mem_append_right pre (List.mem_cons_of_mem i hj))
  obtain ⟨j, hj, hflush⟩ := hstart.exists_isFlush
  exact absurd hflush (List.any_eq_false.mp hnone j (hmem j hj))

end Hippocrates
