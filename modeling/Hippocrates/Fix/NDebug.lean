import Mathlib.Tactic
import Hippocrates.Fix.Optimization
import Hippocrates.Flow.PmSets

/-!
The build without assertions (`NDEBUG`): `BugFixer::runFixMapOptimization` and
`PmDesc::addKnownPmValue` with their `assert` statements compiled out. Two of the statements do
work: one erases the fixes that moved, the other looks up what a value points to. The alias
analysis runs inside a third (`PmDesc::PmDesc`), so that the heuristic may choose other frames
without it.

* `addFixToMappingNDebug` to `runFixMapOptimizationNDebug`: the fix map. Where no assertion
  fails, the loop is the same (`optimizeLoopNDebug_eq`).
* `Raised`: what a pass that raises a fix does for good. Each run raises one or changes nothing
  (`optimizeLoopNDebug_run`).
* `addKnownPmValueNDebug`: the persistent values.
* `Transparent`: both builds have the same fix map and the same persistent values.

`transparent_iff`: they do exactly if neither build raises a fix and each value points to itself
alone, up to targets that are filtered out.
-/

namespace Hippocrates

open FixType

/-! ### The fix map -/

/-- `raiseWalk` without the assertion on the functions of several locations. -/
def raiseWalkNDebug (E : RaiseEnv) (hasStart : Bool) :
    List LocationInfo → WalkState → Option WalkState
  | [], w => some w
  | li :: frames, w =>
    match E.mapper li with
    | none =>
      if !hasStart then
        raiseWalkNDebug E hasStart frames { w with idx := w.idx + 1, raised := true }
      else none -- `at` throws
    | some [] => none
    | some (curr :: _) =>
      match E.module.getFunction curr.last with
      | none => none
      | some f =>
        if E.immutableFns f then
          raiseWalkNDebug E hasStart frames ⟨w.idx + 1, true, some curr⟩
        else some { w with curr := some curr }

/-- `raiseTarget` without assertions. -/
def raiseTargetNDebug (E : RaiseEnv) (hasStart : Bool) (desc : FixDesc) :
    Option (Option (FixLoc × FixDesc)) :=
  match E.heuristicIdx desc.dynStack with
  | none => some none -- `idx` is -1, which is compared as an unsigned number: no walk
  | some h =>
    match raiseWalkNDebug E hasStart (desc.dynStack.drop h) ⟨h, decide (0 < h), none⟩ with
    | none => none
    | some w =>
      if w.raised then
        let ft :=
          if desc.type = ADD_FLUSH_ONLY then ADD_PERSIST_CALLSTACK_OPT_NOFENCE
          else ADD_PERSIST_CALLSTACK_OPT
        match w.curr with
        | none => none -- a null pointer is used
        | some curr => some (some (curr, FixDesc.mk' ft desc.dynStack w.idx))
      else some none

lemma raiseWalkNDebug_eq {E : RaiseEnv} {hasStart : Bool} {frames : List LocationInfo}
    {w w' : WalkState} (h : raiseWalk E hasStart frames w = some w') :
    raiseWalkNDebug E hasStart frames w = some w' := by
  induction frames generalizing w with
  | nil => exact h
  | cons li frames ih =>
      rw [raiseWalk] at h
      -- frame by frame: where the assertion holds, both builds take the same branch
      rw [raiseWalkNDebug]
      cases hmap : E.mapper li with
      | none =>
          simp only [hmap] at h
          split_ifs at h with hstart
          exact (if_pos hstart).trans (ih h)
      | some fixLocList =>
          simp only [hmap] at h
          split_ifs at h
          cases fixLocList with
          | nil => cases h
          | cons curr rest =>
              dsimp only at h ⊢
              cases hf : E.module.getFunction curr.last with
              | none => simp [hf] at h
              | some f =>
                  simp only [hf] at h
                  split_ifs at h with himm
                  · exact (if_pos himm).trans (ih h)
                  · exact (if_neg himm).trans h

lemma raiseTargetNDebug_eq {E : RaiseEnv} {hasStart : Bool} {desc : FixDesc}
    {t : Option (FixLoc × FixDesc)} (h : raiseTarget E hasStart desc = some t) :
    raiseTargetNDebug E hasStart desc = some t := by
  rw [raiseTarget] at h
  by_cases hstack : desc.dynStack = []
  · simp [hstack] at h
  rw [if_neg hstack] at h
  rw [raiseTargetNDebug]
  cases hidx : E.heuristicIdx desc.dynStack with
  | none => simp [hidx] at h
  | some k =>
      simp only [hidx] at h
      cases hwalk : raiseWalk E hasStart (desc.dynStack.drop k) ⟨k, decide (0 < k), none⟩ with
      | none => simp [hwalk] at h
      | some w =>
          simp only [hwalk] at h
          simp only [raiseWalkNDebug_eq hwalk]
          exact h

lemma raiseTargetNDebug_isPST {E : RaiseEnv} {hasStart : Bool} {desc d : FixDesc} {curr : FixLoc}
    (h : raiseTargetNDebug E hasStart desc = some (some (curr, d))) : d.type.isPST = true := by
  rw [raiseTargetNDebug] at h
  split at h
  · cases h
  · split at h
    · cases h
    · split at h
      · dsimp only at h
        split at h
        · cases h
        · simp only [Option.some.injEq, Prod.mk.injEq] at h
          obtain ⟨-, rfl⟩ := h
          rw [FixDesc.mk']
          split_ifs <;> rfl
      · cases h

section FixMap

variable [LinearOrder FixLoc]

/-- `addFixToMapping` without assertions: past those in its tests is the last `return false`. -/
def addFixToMappingNDebug (fixMap : FixMap) (fl : FixLoc) (desc : FixDesc) : FixMap × Bool :=
  match fixMap.find fl with
  | none => (fixMap.insert fl desc, true)
  | some old =>
    match coalesce old desc with
    | none => (fixMap, false)
    | some none => (fixMap, false)
    | some (some new) => (fixMap.insert fl new, true)

/-- `raiseFixLocation` without assertions. -/
def raiseFixLocationNDebug (E : RaiseEnv) (fixMap : FixMap) (fl : Option FixLoc)
    (desc : FixDesc) : Option (FixMap × Bool) :=
  match raiseTargetNDebug E fl.isSome desc with
  | none => none
  | some none => some (fixMap, false)
  | some (some (curr, desc')) => some (addFixToMappingNDebug fixMap curr desc')

/-- `optimizeLoop` without assertions. -/
def optimizeLoopNDebug (E : RaiseEnv) : ℕ → Option FixLoc → OptState → Option OptState
  | 0, _, _ => none
  | n + 1, cursor, s =>
    match s.fixMap.after cursor with
    | none => some s
    | some (fl, desc) =>
      if !desc.type.isPrimative then optimizeLoopNDebug E n (some fl) s
      else
        match raiseFixLocationNDebug E s.fixMap (some fl) desc with
        | none => none
        | some (fixMap, success) =>
          optimizeLoopNDebug E n (some fl)
            ⟨fixMap, if success then s.moved ++ [fl] else s.moved, s.res || success⟩

/-- `runFixMapOptimization` without assertions: the last loop does nothing. -/
def runFixMapOptimizationNDebug (E : RaiseEnv) (fixMap : FixMap) : Option (FixMap × Bool) :=
  (optimizeLoopNDebug E (2 * fixMap.entries.length + 1) none ⟨fixMap, [], false⟩).map
    fun s => (s.fixMap, s.res)

/-- The subprogram `d` lands at `curr`: the location is free, or `d` has a fence and replaces a
primitive fix or a subprogram without one. -/
def Lands (fixMap : FixMap) (curr : FixLoc) (d : FixDesc) : Prop :=
  fixMap.find curr = none ∨ ∃ old, fixMap.find curr = some old ∧
    d.type = ADD_PERSIST_CALLSTACK_OPT ∧
    (old.type.isPrimative = true ∨ old.type = ADD_PERSIST_CALLSTACK_OPT_NOFENCE)

/-- The fix is not raised: it has nowhere to go, or its subprogram does not land there. -/
def Stays (E : RaiseEnv) (fixMap : FixMap) (desc : FixDesc) : Prop :=
  raiseTargetNDebug E true desc = some none ∨
    ∃ curr d, raiseTargetNDebug E true desc = some (some (curr, d)) ∧ ¬ Lands fixMap curr d

/-- No primitive fix of the map is raised. -/
def Blocked (E : RaiseEnv) (fixMap : FixMap) : Prop :=
  ∀ fl desc, fixMap.find fl = some desc → desc.type.isPrimative = true → Stays E fixMap desc

/-! ### The assertions that do no work -/

lemma addFixToMappingNDebug_eq {m : Module} {fixMap : FixMap} {fl : FixLoc} {desc : FixDesc}
    {r : FixMap × Bool} (h : addFixToMapping m fixMap fl desc = some r) :
    addFixToMappingNDebug fixMap fl desc = r := by
  rw [addFixToMapping] at h
  split_ifs at h
  rw [addFixToMappingNDebug]
  cases hfind : fixMap.find fl with
  | none => exact Option.some.inj (by simpa only [hfind] using h)
  | some old =>
      simp only [hfind] at h
      dsimp only
      cases hco : coalesce old desc with
      | none => simp [hco] at h
      | some new =>
          simp only [hco] at h
          cases new <;> exact Option.some.inj h

lemma raiseFixLocationNDebug_eq {E : RaiseEnv} {fixMap : FixMap} {fl : Option FixLoc}
    {desc : FixDesc} {r : FixMap × Bool} (h : raiseFixLocation E fixMap fl desc = some r) :
    raiseFixLocationNDebug E fixMap fl desc = some r := by
  rw [raiseFixLocation] at h
  rw [raiseFixLocationNDebug]
  cases htarget : raiseTarget E fl.isSome desc with
  | none => simp [htarget] at h
  | some t =>
      simp only [htarget] at h
      rw [raiseTargetNDebug_eq htarget]
      cases t with
      | none => exact h
      | some t => exact congrArg some (addFixToMappingNDebug_eq h)

/-! ### What a raise does for good -/

/-- The tests replace an entry by a subprogram or leave it. -/
lemma coalesce_of_isPST {old d : FixDesc} (hd : d.type.isPST = true) :
    if d.type = ADD_PERSIST_CALLSTACK_OPT ∧
        (old.type.isPrimative = true ∨ old.type = ADD_PERSIST_CALLSTACK_OPT_NOFENCE) then
      coalesce old d = some (some d)
    else coalesce old d = none ∨ coalesce old d = some none := by
  rw [coalesce, FixDesc.eq]
  rcases isPST_iff.mp hd with ht | ht
  · cases old.type <;> simp [ht, isPrimative, isPST]
  · cases old.type <;> simp [ht, isPrimative, isPST, addsFence]
    -- two subprograms without a fence: equal or not, nothing changes
    tauto

/-- Adding a subprogram stores it where it lands, and does nothing else. -/
lemma addFixToMappingNDebug_isPST (fixMap : FixMap) (curr : FixLoc) {d : FixDesc}
    (hd : d.type.isPST = true) :
    (Lands fixMap curr d ∧ addFixToMappingNDebug fixMap curr d = (fixMap.insert curr d, true)) ∨
      (¬ Lands fixMap curr d ∧ addFixToMappingNDebug fixMap curr d = (fixMap, false)) := by
  rw [addFixToMappingNDebug, Lands]
  cases hfind : fixMap.find curr with
  | none => exact .inl ⟨.inl rfl, rfl⟩
  | some old =>
      have hco := @coalesce_of_isPST _ old d hd
      split_ifs at hco with hlands
      · refine .inl ⟨.inr ⟨old, rfl, hlands⟩, ?_⟩
        simp only [hco]
      · refine .inr ⟨?_, ?_⟩
        · rintro (hnone | ⟨_, ⟨⟩, hland⟩)
          · cases hnone
          · exact hlands hland
        · rcases hco with hco | hco <;> simp only [hco]

/-- How far the fix of a location has come: nothing, a fix, a subprogram with a fence. -/
def level (fixMap : FixMap) (curr : FixLoc) : ℕ :=
  match fixMap.find curr with
  | none => 0
  | some e => if e.type = ADD_PERSIST_CALLSTACK_OPT then 2 else 1

lemma level_pos {fixMap : FixMap} {curr : FixLoc} :
    0 < level fixMap curr ↔ fixMap.find curr ≠ none := by
  rw [level]
  cases fixMap.find curr with
  | none => simp
  | some e =>
      dsimp only
      split_ifs <;> simp

/-- The level of a location rises when a subprogram lands there. -/
lemma Lands.level_lt {fixMap : FixMap} {curr : FixLoc} {d : FixDesc} (h : Lands fixMap curr d) :
    level fixMap curr < level (fixMap.insert curr d) curr := by
  have hpos : 0 < level (fixMap.insert curr d) curr := by
    rw [level_pos, OrderedMap.find_insert, if_pos rfl]
    exact Option.some_ne_none d
  rcases h with hnone | ⟨old, hold, hfence, hne⟩
  · rw [level, hnone]
    exact hpos
  · have htype : old.type ≠ ADD_PERSIST_CALLSTACK_OPT := by
      rcases hne with hprim | hnf
      · exact ne_opt_of_isPrimative hprim
      · rw [hnf]
        decide
    simp only [level, hold, OrderedMap.find_insert, if_pos, if_neg htype, hfence]
    omega

lemma level_insert_of_ne {fixMap : FixMap} {curr c : FixLoc} {d : FixDesc} (h : c ≠ curr) :
    level (fixMap.insert curr d) c = level fixMap c := by
  rw [level, level, OrderedMap.find_insert, if_neg h]

/-- From `s` to `s'` a fix has been raised. -/
structure Raised (s s' : OptState) : Prop where
  moved : s.moved ⊆ s'.moved
  erases : ∃ fl ∈ s'.moved, s.fixMap.find fl ≠ none
  level_le : ∀ curr, level s.fixMap curr ≤ level s'.fixMap curr
  level_lt : ∃ curr, level s.fixMap curr < level s'.fixMap curr

lemma Raised.trans {s s' s'' : OptState} (h : Raised s s') (h' : Raised s' s'') : Raised s s'' := by
  obtain ⟨fl, hfl, hfind⟩ := h.erases
  obtain ⟨curr, hcurr⟩ := h.level_lt
  exact ⟨List.Subset.trans h.moved h'.moved, ⟨fl, h'.moved hfl, hfind⟩,
    fun c => (h.level_le c).trans (h'.level_le c), curr, hcurr.trans_le (h'.level_le curr)⟩

/-- A raise that succeeds. -/
lemma Lands.raised {s : OptState} {fl curr : FixLoc} {d : FixDesc} (h : Lands s.fixMap curr d)
    (hfind : s.fixMap.find fl ≠ none) (res : Bool) :
    Raised s ⟨s.fixMap.insert curr d, s.moved ++ [fl], res⟩ where
  moved := List.subset_append_left _ _
  erases := ⟨fl, by simp, hfind⟩
  level_le c := by
    by_cases hc : c = curr
    · rw [hc]
      exact h.level_lt.le
    · exact (level_insert_of_ne hc).ge
  level_lt := ⟨curr, h.level_lt⟩

/-- **One raise** leaves the map and the fix stays, or a subprogram lands. -/
lemma raiseFixLocationNDebug_cases {E : RaiseEnv} {fixMap fixMap' : FixMap} {fl : FixLoc}
    {desc : FixDesc} {success : Bool}
    (h : raiseFixLocationNDebug E fixMap (some fl) desc = some (fixMap', success)) :
    (success = false ∧ fixMap' = fixMap ∧ Stays E fixMap desc) ∨
      (success = true ∧ ∃ curr d, d.type.isPST = true ∧ Lands fixMap curr d ∧
        fixMap' = fixMap.insert curr d) := by
  rw [raiseFixLocationNDebug, Option.isSome_some] at h
  cases htarget : raiseTargetNDebug E true desc with
  | none => simp [htarget] at h
  | some t =>
      simp only [htarget] at h
      cases t with
      | none =>
          simp only [Option.some.injEq, Prod.mk.injEq] at h
          exact .inl ⟨h.2.symm, h.1.symm, .inl htarget⟩
      | some t =>
          obtain ⟨curr, d⟩ := t
          have hpst := raiseTargetNDebug_isPST htarget
          rcases addFixToMappingNDebug_isPST fixMap curr hpst with ⟨hlands, hadd⟩ | ⟨hlands, hadd⟩
          · simp only [hadd, Option.some.injEq, Prod.mk.injEq] at h
            exact .inr ⟨h.2.symm, curr, d, hpst, hlands, h.1.symm⟩
          · simp only [hadd, Option.some.injEq, Prod.mk.injEq] at h
            exact .inl ⟨h.2.symm, h.1.symm, .inr ⟨curr, d, htarget, hlands⟩⟩

/-- A fix that stays leaves the map. -/
lemma Stays.raiseFixLocationNDebug {E : RaiseEnv} {fixMap : FixMap} {desc : FixDesc}
    (h : Stays E fixMap desc) (fl : FixLoc) :
    raiseFixLocationNDebug E fixMap (some fl) desc = some (fixMap, false) := by
  rw [Hippocrates.raiseFixLocationNDebug, Option.isSome_some]
  rcases h with hnone | ⟨curr, d, htarget, hlands⟩
  · rw [hnone]
  · have hpst := raiseTargetNDebug_isPST htarget
    obtain ⟨-, hadd⟩ := (addFixToMappingNDebug_isPST fixMap curr hpst).resolve_left
      fun hl => hlands hl.1
    rw [htarget]
    exact congrArg some hadd

section Loop

variable {E : RaiseEnv} {n : ℕ} {cursor : Option FixLoc} {s s' : OptState}

/-- **The loop is the same** in both builds if no assertion fails. -/
theorem optimizeLoopNDebug_eq (h : optimizeLoop E n cursor s = some s') :
    optimizeLoopNDebug E n cursor s = some s' := by
  induction n generalizing cursor s with
  | zero => cases h
  | succ n ih =>
      rw [optimizeLoop] at h
      rw [optimizeLoopNDebug]
      cases ha : s.fixMap.after cursor with
      | none => simpa only [ha] using h
      | some e =>
          obtain ⟨fl, desc⟩ := e
          simp only [ha] at h
          split_ifs at h with hprim
          · exact (if_pos hprim).trans (ih h)
          · cases hraise : raiseFixLocation E s.fixMap (some fl) desc with
            | none => simp [hraise] at h
            | some r =>
                obtain ⟨fixMap, success⟩ := r
                simp only [hraise] at h
                dsimp only
                rw [if_neg hprim, raiseFixLocationNDebug_eq hraise]
                exact ih h

/-- The primitive fixes ahead of the cursor stay. -/
def StaysAhead (E : RaiseEnv) (cursor : Option FixLoc) (fixMap : FixMap) : Prop :=
  ∀ fl desc, fixMap.find fl = some desc → (∀ c ∈ cursor, c < fl) →
    desc.type.isPrimative = true → Stays E fixMap desc

lemma StaysAhead.blocked {fixMap : FixMap} (h : StaysAhead E none fixMap) : Blocked E fixMap :=
  fun fl desc hfind hprim => h fl desc hfind (by simp) hprim

/-- Ahead of the cursor are the next entry and what is ahead of it. -/
lemma StaysAhead.before {fixMap : FixMap} {fl : FixLoc} {desc : FixDesc}
    (ha : fixMap.after cursor = some (fl, desc)) (h : StaysAhead E (some fl) fixMap)
    (hstay : desc.type.isPrimative = true → Stays E fixMap desc) :
    StaysAhead E cursor fixMap := by
  intro z dz hz hc hprim
  rcases (OrderedMap.le_of_after ha hz hc).eq_or_lt with rfl | hlt
  · obtain rfl := Option.some.inj ((OrderedMap.find_of_after ha).1.symm.trans hz)
    exact hstay hprim
  · exact h z dz hz (fun c hcfl => Option.mem_some_iff.mp hcfl ▸ hlt) hprim

/-- **A run** changes nothing and the fixes ahead of the cursor stay, or a fix is raised. -/
theorem optimizeLoopNDebug_run (h : optimizeLoopNDebug E n cursor s = some s') :
    (s' = s ∧ StaysAhead E cursor s.fixMap) ∨ Raised s s' := by
  induction n generalizing cursor s with
  | zero => cases h
  | succ n ih =>
      rw [optimizeLoopNDebug] at h
      cases ha : s.fixMap.after cursor with
      | none =>
          simp only [ha, Option.some.injEq] at h
          exact .inl ⟨h.symm, fun fl desc hfind hc =>
            absurd hfind (OrderedMap.find_ne_some_of_after ha hc)⟩
      | some e =>
          obtain ⟨fl, desc⟩ := e
          simp only [ha] at h
          split_ifs at h with hprim
          · refine (ih h).imp_left fun ⟨hs, hstays⟩ => ⟨hs, hstays.before ha fun htrue => ?_⟩
            simp [htrue] at hprim
          · cases hraise : raiseFixLocationNDebug E s.fixMap (some fl) desc with
            | none => simp [hraise] at h
            | some r =>
                obtain ⟨fixMap, success⟩ := r
                simp only [hraise] at h
                rcases raiseFixLocationNDebug_cases hraise with
                  ⟨rfl, rfl, hstay⟩ | ⟨rfl, curr, d, -, hlands, rfl⟩
                · simp only [Bool.or_false, Bool.false_eq_true, if_false] at h
                  exact (ih h).imp_left fun ⟨hs, hstays⟩ =>
                    ⟨hs, hstays.before ha fun _ => hstay⟩
                · have hthere : s.fixMap.find fl ≠ none := by
                    simp [(OrderedMap.find_of_after ha).1]
                  have hraised := hlands.raised hthere (s.res || true)
                  rw [if_pos rfl] at h
                  -- one raise is enough, the rest keeps it
                  rcases ih h with ⟨rfl, -⟩ | hraised'
                  · exact .inr hraised
                  · exact .inr (hraised.trans hraised')

/-- If all fixes stay, the loop changes nothing. -/
lemma optimizeLoopNDebug_of_blocked (h : Blocked E s.fixMap) (hn : remaining cursor s.fixMap < n) :
    optimizeLoopNDebug E n cursor s = some s := by
  induction n generalizing cursor with
  | zero => omega
  | succ n ih =>
      rw [optimizeLoopNDebug]
      cases ha : s.fixMap.after cursor with
      | none => rfl
      | some e =>
          obtain ⟨fl, desc⟩ := e
          have hadv := remaining_advance ha
          dsimp only
          split_ifs with hprim
          · exact ih (by omega)
          · rw [Bool.not_eq_true', Bool.not_eq_false] at hprim
            have hstay := h fl desc (OrderedMap.find_of_after ha).1 hprim
            simp only [hstay.raiseFixLocationNDebug, Bool.or_false, Bool.false_eq_true, if_false]
            exact ih (by omega)

/-- The loop of this build does not run out of fuel either. -/
theorem optimizeLoopNDebug_stable (h : remaining cursor s.fixMap < n) :
    optimizeLoopNDebug E n cursor s = optimizeLoopNDebug E (n + 1) cursor s := by
  induction n generalizing cursor s with
  | zero => omega
  | succ n ih =>
      rw [optimizeLoopNDebug, optimizeLoopNDebug]
      cases ha : s.fixMap.after cursor with
      | none => rfl
      | some e =>
          obtain ⟨fl, desc⟩ := e
          have hadv := remaining_advance ha
          dsimp only
          split_ifs with hprim
          · exact ih (by omega)
          · rw [Bool.not_eq_true', Bool.not_eq_false] at hprim
            rw [if_pos hprim] at hadv
            cases hraise : raiseFixLocationNDebug E s.fixMap (some fl) desc with
            | none => rfl
            | some r =>
                obtain ⟨fixMap, success⟩ := r
                -- a subprogram may come in, but the fix that moved is behind the cursor
                have hle : remaining (some fl) fixMap ≤ remaining (some fl) s.fixMap + 1 := by
                  rcases raiseFixLocationNDebug_cases hraise with
                    ⟨-, rfl, -⟩ | ⟨-, curr, d, hpst, -, rfl⟩
                  · omega
                  · exact remaining_insert hpst
                exact ih (by dsimp only; omega)

end Loop

/-- **The fix map** is the same in both builds exactly if neither raises a fix. -/
theorem fixMap_eq_iff {E E' : RaiseEnv} {M M' : FixMap} {res : Bool}
    (hrun : runFixMapOptimization E M = some (M', res)) :
    (∃ res', runFixMapOptimizationNDebug E' M = some (M', res')) ↔ Blocked E M ∧ Blocked E' M := by
  rw [runFixMapOptimization] at hrun
  cases hloop : optimizeLoop E (2 * M.entries.length + 1) none ⟨M, [], false⟩ with
  | none => simp [hloop] at hrun
  | some s =>
      simp only [hloop, Option.map_eq_some_iff, Prod.mk.injEq] at hrun
      obtain ⟨_, herase, rfl, -⟩ := hrun
      have hsame := optimizeLoopNDebug_eq hloop
      have hfuel : remaining none M < 2 * M.entries.length + 1 :=
        Nat.lt_succ_of_le (remaining_none_le M)
      simp only [runFixMapOptimizationNDebug, Option.map_eq_some_iff, Prod.mk.injEq]
      constructor
      · rintro ⟨_, s', hloop', rfl, -⟩
        rcases optimizeLoopNDebug_run hsame with ⟨rfl, hstays⟩ | hraised
        · refine ⟨hstays.blocked, ?_⟩
          rcases optimizeLoopNDebug_run hloop' with ⟨-, hstays'⟩ | hraised'
          · exact hstays'.blocked
          · -- nothing is erased, so the other map has not changed
            obtain ⟨curr, hlt⟩ := hraised'.level_lt
            rw [← Option.some.inj herase] at hlt
            exact absurd hlt (lt_irrefl _)
        · -- what is erased was there before, and the other build keeps it
          obtain ⟨fl, hfl, hfind⟩ := hraised.erases
          have hgone : s'.fixMap.find fl = none := by
            rw [find_of_eraseMoved herase, if_pos hfl]
          have hle : level M fl ≤ level s'.fixMap fl := by
            rcases optimizeLoopNDebug_run hloop' with ⟨rfl, -⟩ | hraised'
            · exact le_rfl
            · exact hraised'.level_le fl
          exact absurd hgone (level_pos.mp ((level_pos.mpr hfind).trans_le hle))
      · rintro ⟨hblocked, hblocked'⟩
        obtain rfl := Option.some.inj
          (hsame.symm.trans (optimizeLoopNDebug_of_blocked hblocked hfuel))
        exact ⟨false, _, optimizeLoopNDebug_of_blocked hblocked' hfuel, Option.some.inj herase, rfl⟩

end FixMap

/-! ### The persistent values -/

namespace PmSets

/-- `addKnownPmValue` without assertions: `ptsSet` stays empty. -/
def addKnownPmValueNDebug (A : AliasResult) (d : PmSets) (pmv : Value) : PmSets :=
  d.insertTargets A pmv []

/-- A sequence of calls of `addKnownPmValue`. -/
def addKnownPmValues (A : AliasResult) (d : PmSets) (pmvs : List Value) : Option PmSets :=
  pmvs.foldlM (addKnownPmValue A) d

/-- The same sequence without assertions. -/
def addKnownPmValuesNDebug (A : AliasResult) (d : PmSets) (pmvs : List Value) : PmSets :=
  pmvs.foldl (addKnownPmValueNDebug A) d

/-- Each value points to itself alone, up to targets that are filtered out. -/
def PointsToSelf (A : AliasResult) : Prop :=
  ∀ v ptsSet, A.getPointsToSet v = some ptsSet →
    ∀ t, PmDesc.isFiltered t = true → (t ∈ PmDesc.targets v ptsSet ↔ t = v)

variable {A : AliasResult} {d d' : PmSets}

lemma filtered_eq_iff {v : Value} {ptsSet : List Value} :
    ((PmDesc.targets v ptsSet).filter PmDesc.isFiltered).toFinset =
        ((PmDesc.targets v []).filter PmDesc.isFiltered).toFinset ↔
      ∀ t, PmDesc.isFiltered t = true → (t ∈ PmDesc.targets v ptsSet ↔ t = v) := by
  have hself : PmDesc.targets v [] = [v] := if_pos rfl
  simp only [Finset.ext_iff, List.mem_toFinset, List.mem_filter, hself, List.mem_singleton]
  exact forall_congr' fun t => and_congr_left_iff

/-- A value that points to itself is added alike. -/
lemma PointsToSelf.addKnownPmValue (h : PointsToSelf A) {pmv : Value}
    (hadd : d.addKnownPmValue A pmv = some d') : d.addKnownPmValueNDebug A pmv = d' := by
  obtain ⟨ptsSet, hpts, rfl⟩ := Option.map_eq_some_iff.mp hadd
  rw [addKnownPmValueNDebug, insertTargets, insertTargets, filtered_eq_iff.mpr (h pmv ptsSet hpts)]

lemma PointsToSelf.addKnownPmValues (h : PointsToSelf A) {pmvs : List Value}
    (hadd : d.addKnownPmValues A pmvs = some d') : d.addKnownPmValuesNDebug A pmvs = d' := by
  induction pmvs generalizing d with
  | nil => exact Option.some.inj hadd
  | cons pmv pmvs ih =>
      obtain ⟨d₁, hfirst, hrest⟩ := Option.bind_eq_some_iff.mp hadd
      rw [addKnownPmValuesNDebug, List.foldl_cons, h.addKnownPmValue hfirst]
      exact ih hrest

/-- **The persistent values** are the same in both builds after every sequence of calls exactly
if each value points to itself. -/
theorem pmValues_eq_iff :
    (∀ pmvs d, empty.addKnownPmValues A pmvs = some d →
      empty.addKnownPmValuesNDebug A pmvs = d) ↔ PointsToSelf A := by
  constructor
  · intro hsame v ptsSet hpts
    -- one call tells
    have hone : empty.addKnownPmValues A [v] = some (empty.insertTargets A v ptsSet) := by
      simp [addKnownPmValues, PmSets.addKnownPmValue, hpts]
    have heq : empty.insertTargets A v [] = empty.insertTargets A v ptsSet := hsame [v] _ hone
    refine filtered_eq_iff.mp ?_
    rw [insertTargets, insertTargets] at heq
    split_ifs at heq
    · simpa [empty] using (congrArg pm_globals heq).symm
    · simpa [empty] using (congrArg pm_locals heq).symm
  · exact fun h pmvs d hadd => h.addKnownPmValues hadd

end PmSets

/-! ### Both builds -/

/-- Assertions are transparent: if none fails, the fix map and the persistent values after any
sequence of calls are those of the build without assertions. Its heuristic is `heuristicIdx'`. -/
structure Transparent [LinearOrder FixLoc] (E : RaiseEnv)
    (heuristicIdx' : List LocationInfo → Option ℕ) (A : AliasResult) (M : FixMap) : Prop where
  fixMap : ∀ fixMap res, runFixMapOptimization E M = some (fixMap, res) →
    ∃ res', runFixMapOptimizationNDebug { E with heuristicIdx := heuristicIdx' } M =
      some (fixMap, res')
  pmValues : ∀ pmvs d, PmSets.empty.addKnownPmValues A pmvs = some d →
    PmSets.empty.addKnownPmValuesNDebug A pmvs = d

/-- **When assertions are transparent**: exactly if no fix is raised, with the heuristic of
either build, and each value points to itself. -/
theorem transparent_iff [LinearOrder FixLoc] {E : RaiseEnv}
    {heuristicIdx' : List LocationInfo → Option ℕ} {A : AliasResult} {M : FixMap}
    (hrun : (runFixMapOptimization E M).isSome = true) :
    Transparent E heuristicIdx' A M ↔
      (Blocked E M ∧ Blocked { E with heuristicIdx := heuristicIdx' } M) ∧
        PmSets.PointsToSelf A := by
  obtain ⟨⟨fixMap, res⟩, hrun⟩ := Option.isSome_iff_exists.mp hrun
  rw [← fixMap_eq_iff hrun, ← PmSets.pmValues_eq_iff]
  constructor
  · exact fun h => ⟨h.fixMap fixMap res hrun, h.pmValues⟩
  · rintro ⟨hmap, hvalues⟩
    refine ⟨fun fixMap' res' hrun' => ?_, hvalues⟩
    obtain ⟨rfl, -⟩ := Prod.mk.inj (Option.some.inj (hrun.symm.trans hrun'))
    exact hmap

/-- The functions of the two calls can be changed: nothing is raised. -/
theorem transparent_iff_mutable :
    letI := FixLoc.compare InstId.address InstId.address_injective
    Transparent { twoCallsEnv with immutableFns := fun _ => false } twoCallsEnv.heuristicIdx
      ⟨fun _ => some [], fun _ => false⟩ flushFix := by
  let := FixLoc.compare InstId.address InstId.address_injective
  have hblocked : Blocked { twoCallsEnv with immutableFns := fun _ => false } flushFix := by
    intro fl desc hfind _
    rw [flushFix, OrderedMap.find_insert] at hfind
    split_ifs at hfind
    · obtain rfl := Option.some.inj hfind
      exact .inl rfl
    · cases hfind
  refine (transparent_iff rfl).mpr ⟨⟨hblocked, hblocked⟩, ?_⟩
  rintro v _ ⟨⟩ t -
  exact List.mem_singleton

/-! ### A raised flush and a pointer to the heap -/

/-- The result of a load. -/
def heapPtr : Value := .inst (InstId.orig 4) .i8Ptr

/-- The call that allocates. -/
def heapSite : Value := .inst (InstId.orig 5) .i8Ptr

/-- The pointer points to the allocation site. -/
def heapAlias : AliasResult where
  getPointsToSet v := some (if v = heapPtr then [heapSite] else [])
  isGlobalValue _ := false

/-- Without assertions the flush that moved to the call site is still in the map, and the pointer
is taken for the allocation site. -/
theorem flushFix_not_transparent :
    letI := FixLoc.compare InstId.address InstId.address_injective
    (runFixMapOptimization twoCallsEnv flushFix).map (fun r => r.1.entries) =
        some [(⟨InstId.orig 2, InstId.orig 3⟩,
          FixDesc.mk' ADD_PERSIST_CALLSTACK_OPT_NOFENCE putFlush.dynStack 1)] ∧
      (runFixMapOptimizationNDebug twoCallsEnv flushFix).map (fun r => r.1.entries) =
        some [(FixLoc.single (InstId.orig 0), putFlush), (⟨InstId.orig 2, InstId.orig 3⟩,
          FixDesc.mk' ADD_PERSIST_CALLSTACK_OPT_NOFENCE putFlush.dynStack 1)] ∧
      PmSets.empty.addKnownPmValues heapAlias [heapPtr] = some ⟨{heapSite}, ∅⟩ ∧
      PmSets.empty.addKnownPmValuesNDebug heapAlias [heapPtr] = ⟨{heapPtr}, ∅⟩ ∧
      ¬ Transparent twoCallsEnv twoCallsEnv.heuristicIdx heapAlias flushFix := by
  let := FixLoc.compare InstId.address InstId.address_injective
  have hvalues : PmSets.empty.addKnownPmValues heapAlias [heapPtr] = some ⟨{heapSite}, ∅⟩ := by
    decide
  refine ⟨rfl, rfl, hvalues, by decide, fun h => ?_⟩
  exact absurd (h.pmValues _ _ hvalues) (by decide)

end Hippocrates
