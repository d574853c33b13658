import Mathlib.Tactic
import Hippocrates.Fix.AddressOrder
import Hippocrates.Fix.Applied
import Hippocrates.Fix.PmValues
import Hippocrates.Fix.RaiseWalk
import Hippocrates.IR.Footprint

/-!
The functions that a run of `BugFixer::doRepair` changes, and among them those that it is told not
to change (`immutableFns_`).

* `doRepair_frame`: a function that no fix of the map touches keeps its body.
* `raiseTarget_hosts`, `raiseTarget_ne_stays`: a raise ends at a frame that can hold the fix or past
  the last frame, and a fix in an immutable function does not stay.
* `exists_raises_not_takes`: a fix that the optimization leaves where it is has been raised to a
  location that does not take it.

`immutable_changed`: an immutable function is changed only as an inner frame of a persistent
subprogram, or for a fix that is not taken where it is raised to.
-/

namespace Hippocrates

open FixType

/-! ### The functions that are not touched -/

lemma touches_congr {mapper : LocationInfo → Option (List FixLoc)} {m m' : Module} {fl : FixLoc}
    {desc : FixDesc} {f : FnId} (h : m'.lookup f = m.lookup f) :
    Touches mapper m' fl desc f ↔ Touches mapper m fl desc f := by
  simp only [Touches, FrameIn, Module.has_congr h]

/-- **The fixes of a run** keep the functions that none of them touches. -/
lemma Fixer.fixBugs_frame {X : Fixer} {m m' : Module} {fixes : List (FixLoc × FixDesc)}
    {res : Bool} {f : FnId} (hsource : X.source = .GENERIC) (hwf : m.WF)
    (hf : (m.lookup f).isSome = true) (hoff : ∀ p ∈ fixes, ¬ Touches X.mapper m p.1 p.2 f)
    (h : X.fixBugs m fixes = .ok (m', res)) : m'.lookup f = m.lookup f := by
  induction fixes generalizing m res with
  | nil =>
      rw [fixBugs] at h
      cases h
      rfl
  | cons fix fixes ih =>
      obtain ⟨fl, desc⟩ := fix
      rw [List.forall_mem_cons] at hoff
      rw [fixBugs] at h
      split at h
      · cases h
      · rename_i m₁ res₁ hfix
        obtain ⟨⟨m₂, res₂⟩, hrest, heq⟩ := map_eq_ok_iff.mp h
        obtain ⟨rfl, -⟩ := Prod.mk.inj heq
        have hfix' := fixBug_generic hsource hfix
        have hkept : m₁.lookup f = m.lookup f := fixBug_frame hwf hf hoff.1 hfix'
        have hrest' := ih ((fixBug_edits hwf hfix').wf hwf) (hkept ▸ hf)
          (fun p hp => mt (touches_congr hkept).mp (hoff.2 p hp)) hrest
        exact hrest'.trans hkept

/-- The patch keeps the functions that call no memory primitive. -/
lemma patchMemoryPrimitives_frame {m m' : Module} {dumb changed : Bool} {f : FnId}
    {body : Function} (hwf : m.WF) (h : patchMemoryPrimitives m dumb = some (m', changed))
    (hbody : m.lookup f = some body) (hprim : ∀ i ∈ body.insts, selected i = none) :
    m'.lookup f = some body := by
  obtain ⟨Q, hfuns, hrewrites⟩ := patchMemoryPrimitives_spec hwf h
  rw [Module.lookup_of_funs hfuns, hbody, Option.map_some, Function.rewrite_eq_self]
  exact fun i hi => (hrewrites i (Module.mem_insts_of_lookup hbody hi)).self (hprim i hi)

section Run

variable [LinearOrder FixLoc] {R : RepairEnv} {F : Flags} {m' : Module} {modified : Bool}
  {A : AliasInfo} {fixMap : FixMap} {f : FnId} {body : Function}

/-- **A run changes only what its fixes touch**: a function keeps its body if no fix of the map is
in it, no persistent subprogram has a frame above the first in it, and, with raising disabled, it
has no call of a memory primitive. -/
theorem RepairEnv.doRepair_frame (hwf : R.module.WF) (horig : R.module.Original)
    (hsource : R.source = .GENERIC) (h : R.doRepair F = .ok (m', modified))
    (hA : R.construct F = some A) (hfixes : R.findFixes F A = some fixMap)
    (hbody : R.module.lookup f = some body)
    (hoff : ∀ fl desc, fixMap.find fl = some desc → ¬ Touches R.mapper R.module fl desc f)
    (hprim : F.disableRaising = true → ∀ i ∈ body.insts, selected i = none) :
    m'.lookup f = some body := by
  obtain ⟨A', fixMap', m₁, hA', -, hfixes', hrun, hpatch⟩ := doRepair_eq_ok_iff.mp h
  obtain rfl := Option.some.inj (hA.symm.trans hA')
  obtain rfl := Option.some.inj (hfixes.symm.trans hfixes')
  have hkept : m₁.lookup f = some body := by
    rw [← hbody]
    refine Fixer.fixBugs_frame hsource hwf (hbody ▸ rfl) (fun p hp => ?_) hrun
    exact hoff p.1 p.2 (OrderedMap.find_eq_some_iff.mpr hp)
  split_ifs at hpatch with hF
  · obtain ⟨changed, hpatch⟩ := hpatch
    have hwf₁ : m₁.WF :=
      (Fixer.fixBugs_generic hsource hwf horig.onlyFlushes hrun).1.wf hwf
    exact patchMemoryPrimitives_frame hwf₁ hpatch hkept (hprim hF)
  · rw [hpatch, hkept]

end Run

/-! ### The end of a raise -/

section Raise

variable {E : RaiseEnv} {hasStart : Bool}

/-- A walk ends at a frame that can hold the fix or past the last frame, and has raised the fix if
it has passed a frame. -/
lemma raiseWalk_end {frames : List LocationInfo} {w w' : WalkState}
    (h : raiseWalk E hasStart frames w = some w') :
    ∃ n, w'.idx = w.idx + n ∧ (∀ li, frames[n]? = some li → Hosts E li) ∧
      (w.raised = true ∨ 0 < n → w'.raised = true) := by
  induction frames generalizing w with
  | nil =>
      obtain rfl := Option.some.inj h
      exact ⟨0, rfl, by simp, by simp⟩
  | cons li frames ih =>
      by_cases hpass : Passed E hasStart li
      -- a frame that is passed raises the fix, and the walk goes on
      · have hstep : ∃ curr', raiseWalk E hasStart (li :: frames) w =
            raiseWalk E hasStart frames ⟨w.idx + 1, true, curr'⟩ :=
          (raiseWalk_passed hpass).imp fun _ h => h.1
        obtain ⟨curr', hstep⟩ := hstep
        rw [hstep] at h
        obtain ⟨n, hidx, hhost, hraised⟩ := ih h
        exact ⟨n + 1, by rw [hidx]; dsimp only; omega, hhost, fun _ => hraised (.inl rfl)⟩
      · by_cases hhost : Hosts E li
        · obtain ⟨curr, f, hin, hmut⟩ := id hhost
          rw [raiseWalk_host hin hmut] at h
          obtain rfl := Option.some.inj h
          refine ⟨0, rfl, fun li' hli' => ?_, by simp⟩
          obtain rfl : li = li' := Option.some.inj hli'
          exact hhost
        · rw [raiseWalk_fail hpass hhost] at h
          cases h

/-- The steps of a raise. -/
lemma raiseTarget_walk {desc : FixDesc} {r : Option (FixLoc × FixDesc)}
    (h : raiseTarget E hasStart desc = some r) :
    ∃ k w, raiseWalk E hasStart (desc.dynStack.drop k) ⟨k, decide (0 < k), none⟩ = some w ∧
      (r = none ↔ w.raised = false) ∧ ∀ curr d, r = some (curr, d) →
        d.dynStack = desc.dynStack ∧ d.stackIdx = w.idx := by
  rw [raiseTarget] at h
  split at h
  · cases h
  · split at h
    · cases h
    · rename_i k _
      split at h
      · cases h
      · rename_i w hwalk
        refine ⟨k, w, hwalk, ?_⟩
        split at h
        · rename_i hraised
          dsimp only at h
          split at h
          · cases h
          · obtain rfl := Option.some.inj h
            refine ⟨by simp [hraised], fun curr d heq => ?_⟩
            simp only [Option.some.injEq, Prod.mk.injEq] at heq
            obtain ⟨-, rfl⟩ := heq
            exact ⟨rfl, rfl⟩
        · rename_i hraised
          obtain rfl := Option.some.inj h
          exact ⟨by simpa using hraised, fun curr d heq => by cases heq⟩

/-- The frame of a raised fix can hold it, unless it is past the last frame. -/
lemma raiseTarget_hosts {desc d : FixDesc} {curr : FixLoc}
    (h : raiseTarget E hasStart desc = some (some (curr, d))) {li : LocationInfo}
    (hli : d.dynStack[d.stackIdx]? = some li) : Hosts E li := by
  obtain ⟨k, w, hwalk, -, hd⟩ := raiseTarget_walk h
  obtain ⟨hstack, hidx⟩ := hd curr d rfl
  obtain ⟨n, hn, hhost, -⟩ := raiseWalk_end hwalk
  refine hhost li ?_
  rw [List.getElem?_drop, ← hli, hstack, hidx, hn]

/-- A fix at an instruction of an immutable function does not stay. -/
lemma raiseTarget_ne_stays (hwf : E.module.WF) {desc : FixDesc} {front : LocationInfo}
    {stack : List LocationInfo} (hstack : desc.dynStack = front :: stack) {fixLocs : List FixLoc}
    (hmap : E.mapper front = some fixLocs) {i : Instr} (hi : InstOf E.module fixLocs i) {f : FnId}
    (hf : E.module.Has f i.id) (himm : E.immutableFns f = true) :
    raiseTarget E hasStart desc ≠ some none := by
  intro h
  obtain ⟨k, w, hwalk, hstays, -⟩ := raiseTarget_walk h
  have hnot := hstays.mp rfl
  obtain ⟨n, -, hhost, hraised⟩ := raiseWalk_end hwalk
  by_cases hk : 0 < k ∨ 0 < n
  · rw [hraised (by simpa using hk)] at hnot
    cases hnot
  · -- the walk has stopped at the first frame, which the instruction is of
    obtain ⟨rfl, rfl⟩ : k = 0 ∧ n = 0 := by omega
    obtain ⟨curr, g, ⟨rest, hmap', hall⟩, hmut⟩ := hhost front (by rw [hstack]; rfl)
    obtain rfl := Option.some.inj (hmap.symm.trans hmap')
    obtain ⟨fLoc, hfLoc, insts, hinsts, hmem⟩ := hi
    have hlast := hwf.has_iff.mp (hwf.has_last hinsts hmem hf)
    obtain rfl : g = f := Option.some.inj ((hall fLoc hfLoc).symm.trans hlast)
    rw [himm] at hmut
    cases hmut

end Raise

/-! ### Immutable functions -/

section Immutable

variable [LinearOrder FixLoc]

/-- A primitive fix that is left by the optimization was reached, and not taken where it is raised
to. -/
lemma exists_raises_not_takes {E : RaiseEnv} {M M' : FixMap} {res : Bool} {fl : FixLoc}
    {desc : FixDesc} (hrun : runFixMapOptimization E M = some (M', res))
    (h : M'.find fl = some desc) (hprim : desc.type.isPrimative = true)
    (hstays : raiseTarget E true desc ≠ some none) :
    ∃ curr d, Raises E M fl desc curr d ∧ Intact E M fl ∧ ¬ Takes E M fl curr d := by
  have hremains := (runFixMapOptimization_spec hrun fl desc).mp h
  obtain ⟨hfind, hfree⟩ := hremains.1.of_isPrimative hprim
  -- a fix that loses its location is replaced by a subprogram, and this one is primitive
  have hintact : Intact E M fl := by
    rw [intact_iff]
    intro z _ hraise hz
    have hne : ∀ e, M.find fl = some e → e.type ≠ ADD_PERSIST_CALLSTACK_OPT := by
      intro e he
      obtain rfl := Option.some.inj (hfind.symm.trans he)
      exact ne_opt_of_isPrimative hprim
    obtain ⟨y, -, dy, d', hmoves, -⟩ := exists_moves_fence hne hraise hz
    exact hfree y dy d' hmoves trivial
  -- the run has not failed, so no raise fails
  have hnotFails : ¬ FailsAt E M fl desc := by
    intro hfails
    rw [runFixMapOptimization_eq_none_iff.mpr ⟨fl, desc, hfails⟩] at hrun
    cases hrun
  cases htarget : raiseTarget E true desc with
  | none =>
      refine absurd ⟨hfind, hprim, hintact, fun t ht => ?_⟩ hnotFails
      rw [htarget] at ht
      cases ht
  | some r =>
      cases r with
      | none => exact absurd htarget hstays
      | some t =>
          obtain ⟨curr, d⟩ := t
          have hraises : Raises E M fl desc curr d := ⟨hfind, hprim, htarget⟩
          refine ⟨curr, d, hraises, hintact, fun htakes => ?_⟩
          exact hremains.2 desc curr d ⟨hraises, hintact, htakes⟩

variable {R : RepairEnv} {F : Flags} {m' : Module} {modified : Bool}

/-- **What changes an immutable function**, with raising enabled: it has an inner frame of a
persistent subprogram, whose calls are redirected, or it keeps the fix of one of its stores, which
is not taken where it is raised to. -/
theorem RepairEnv.immutable_changed (hwf : R.module.WF) (hsource : R.source = .GENERIC)
    (hraise : F.disableRaising = false)
    (hfront : ∀ te ∈ R.trace, ∃ front stack, te.callstack = front :: stack ∧
      R.mapper front = R.mapper te.location)
    (h : R.doRepair F = .ok (m', modified)) {f : FnId} {body : Function}
    (hbody : R.module.lookup f = some body) (himm : R.immutableFns f = true)
    (hchanged : m'.lookup f ≠ some body) :
    ∃ A bugFixes fixMap, R.construct F = some A ∧ R.bugFixes F A = some bugFixes ∧
      R.findFixes F A = some fixMap ∧
      ((∃ fl desc, fixMap.find fl = some desc ∧ desc.type.isPST = true ∧
          ∃ j, 1 ≤ j ∧ j < desc.stackIdx ∧ FrameIn R.mapper R.module desc.dynStack j f) ∨
        ∃ i ∈ body.insts, ∃ desc curr d, fixMap.find (FixLoc.single i.id) = some desc ∧
          Raises (R.raiseEnv F A) bugFixes (FixLoc.single i.id) desc curr d ∧
          Intact (R.raiseEnv F A) bugFixes (FixLoc.single i.id) ∧
          ¬ Takes (R.raiseEnv F A) bugFixes (FixLoc.single i.id) curr d) := by
  obtain ⟨A, fixMap, m₁, hA, -, hfixes, hrun, hpatch⟩ := doRepair_eq_ok_iff.mp h
  rw [if_neg (by simp [hraise])] at hpatch
  subst hpatch
  obtain ⟨bugFixes, hbugs, -, hon⟩ := findFixes_cases hfixes
  obtain ⟨res, hopt⟩ := hon hraise
  refine ⟨A, bugFixes, fixMap, hA, hbugs, hfixes, ?_⟩
  have htouched : ∃ p ∈ fixMap.entries, Touches R.mapper R.module p.1 p.2 f := by
    by_contra hnone
    push Not at hnone
    refine hchanged ?_
    rw [← hbody]
    exact Fixer.fixBugs_frame (X := R.fixer F A) hsource hwf (hbody ▸ rfl) hnone hrun
  obtain ⟨⟨fl, desc⟩, hmem, htouches⟩ := htouched
  have hfind := OrderedMap.find_eq_some_iff.mpr hmem
  rw [Touches] at htouches
  rcases (findFixes_planned hfixes fl desc hfind).kind with
    ⟨hpst, te, -, -, -, desc₀, curr, d, htarget, hstack, hidx⟩ | ⟨hprim, i, hi, -, rfl, te, hte,
      hcall, fixLocs, hmap, hat⟩
  · rw [if_pos hpst] at htouches
    obtain ⟨j, hj, hle, hframe⟩ := htouches
    refine .inl ⟨fl, desc, hfind, hpst, j, hj, lt_of_le_of_ne hle fun heq => ?_, hframe⟩
    -- the last of the frames is not immutable
    obtain ⟨li, locs, hli, hlocs, loc, hloc, hhas⟩ := hframe
    rw [heq, ← hstack, ← hidx] at hli
    obtain ⟨c, g, ⟨rest, hmap, hall⟩, hmut⟩ := raiseTarget_hosts htarget hli
    obtain rfl := Option.some.inj (hlocs.symm.trans hmap)
    obtain rfl : g = f := Option.some.inj ((hall loc hloc).symm.trans (hwf.has_iff.mp hhas))
    exact Bool.noConfusion (himm.symm.trans hmut)
  · rw [if_neg (not_isPST_of_isPrimative hprim)] at htouches
    obtain ⟨front, stack, hfirst, hsame⟩ := hfront te hte
    have hstays : raiseTarget (R.raiseEnv F A) true desc ≠ some none :=
      raiseTarget_ne_stays hwf (hcall.symm.trans hfirst) (hsame.trans hmap) hat htouches himm
    obtain ⟨curr, d, hraises, hleft⟩ := exists_raises_not_takes hopt hfind hprim hstays
    obtain ⟨body', hbody', hid⟩ := htouches
    obtain rfl := Option.some.inj (hbody.symm.trans hbody')
    obtain ⟨k, hk, hki⟩ := List.mem_map.mp hid
    obtain rfl := hwf.eq_of_id (Module.mem_insts_of_lookup hbody hk) hi hki
    exact .inr ⟨k, hk, desc, curr, d, hfind, hraises, hleft⟩

end Immutable

/-! ### The store of two calls deep, below two immutable functions -/

/-- `update` and `relay` are immutable. -/
def belowRelay : RepairEnv :=
  { storeBelowRepair with
    immutableFns := fun f => f == FnId.named "update" || f == FnId.named "relay"
    trace := [⟨.STORE, 0, [⟨4096, 8⟩], ⟨"update", "update.c", 1⟩, false, storeBelowStack, none⟩,
      ⟨.ASSERT_PERSISTED, 1, [⟨4096, 8⟩], ⟨"main", "update.c", 9⟩, true,
        [⟨"main", "update.c", 9⟩], none⟩] }

/-- The fix of the store is in `update`, and `relay` keeps its body. -/
theorem doRepair_frame_storeRepair :
    letI := FixLoc.compare InstId.address InstId.address_injective
    ∃ m' modified, storeRepair.doRepair noFlags = .ok (m', modified) ∧
      m'.lookup (FnId.named "relay") = storeBelow.lookup (FnId.named "relay") := by
  let := FixLoc.compare InstId.address InstId.address_injective
  have hrun : ∃ r, storeRepair.doRepair noFlags = .ok r := ⟨_, rfl⟩
  obtain ⟨⟨m', modified⟩, hrun⟩ := hrun
  have hmap : ∃ fm, storeRepair.findFixes noFlags AliasInfo.empty = some fm ∧
      ∀ p ∈ fm.entries, p.2.type.isPST = false ∧ p.1.last = InstId.orig 0 := ⟨_, rfl, by decide⟩
  obtain ⟨fm, hfm, hentries⟩ := hmap
  refine ⟨m', modified, hrun, RepairEnv.doRepair_frame storeBelow_wf storeBelow_original rfl hrun
    rfl hfm rfl (fun fl desc hfind htouches => ?_) (by decide)⟩
  obtain ⟨hnot, hlast⟩ := hentries _ (OrderedMap.find_eq_some_iff.mp hfind)
  rw [Touches, if_neg (by simp [hnot]), hlast] at htouches
  obtain ⟨body, hbody, hmem⟩ := htouches
  obtain rfl := Option.some.inj hbody
  revert hmem
  decide

/-- The fix is raised over both, and the call in `relay` is redirected. -/
theorem immutable_changed_belowRelay :
    letI := FixLoc.compare InstId.address InstId.address_injective
    ∃ m' modified, belowRelay.doRepair heuristicFlags = .ok (m', modified) ∧
      m'.lookup (FnId.named "relay") ≠ storeBelow.lookup (FnId.named "relay") ∧
      ∃ A fixMap, belowRelay.findFixes heuristicFlags A = some fixMap ∧
        ∃ fl desc, fixMap.find fl = some desc ∧ desc.type.isPST = true ∧
          ∃ j, 1 ≤ j ∧ j < desc.stackIdx ∧
            FrameIn storeBelowMapper storeBelow desc.dynStack j (FnId.named "relay") := by
  let := FixLoc.compare InstId.address InstId.address_injective
  have hrun : ∃ r, belowRelay.doRepair heuristicFlags = .ok r ∧
      r.1.lookup (FnId.named "relay") ≠ storeBelow.lookup (FnId.named "relay") :=
    ⟨_, rfl, by decide⟩
  obtain ⟨⟨m', modified⟩, hrun, hchanged⟩ := hrun
  have hfront : ∀ te ∈ belowRelay.trace, ∃ front stack, te.callstack = front :: stack ∧
      belowRelay.mapper front = belowRelay.mapper te.location := by
    rw [belowRelay, List.forall_mem_cons, List.forall_mem_singleton]
    exact ⟨⟨_, _, rfl, rfl⟩, ⟨_, _, rfl, rfl⟩⟩
  obtain ⟨A, bugFixes, fixMap, hA, -, hfixes, hcase⟩ := RepairEnv.immutable_changed storeBelow_wf
    rfl rfl hfront hrun rfl rfl hchanged
  refine ⟨m', modified, hrun, hchanged, A, fixMap, hfixes, hcase.resolve_right ?_⟩
  rintro ⟨i, hi, desc, curr, d, hfind, -⟩
  -- the map has the subprogram in `main` and nothing else
  have hmap : ∃ B fm, belowRelay.construct heuristicFlags = some B ∧
      belowRelay.findFixes heuristicFlags B = some fm ∧
      ∀ p ∈ fm.entries, p.1.last = InstId.orig 5 := ⟨_, _, rfl, rfl, by decide⟩
  obtain ⟨B, fm, hB, hfm, hentries⟩ := hmap
  obtain rfl := Option.some.inj (hA.symm.trans hB)
  obtain rfl := Option.some.inj (hfixes.symm.trans hfm)
  have hlast : i.id = InstId.orig 5 := hentries _ (OrderedMap.find_eq_some_iff.mp hfind)
  clear hfind
  revert i
  decide

end Hippocrates
