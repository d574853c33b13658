import Mathlib.Tactic
import Hippocrates.Fix.Coalesce

/-!
Fix raising: `BugFixer::raiseFixLocation`.

The mapper from source locations to fix locations, the set of immutable functions and the
heuristic choice of the first stack frame to consider are parameters (`RaiseEnv`); with
heuristic raising off the choice is frame 0.

* `raiseWalk`: the walk up the call stack past unmapped frames and immutable functions.
* `raiseTarget`: the location and the fix a raise adds, if it adds one.
* `raiseFixLocation`: the raise, with its effect on the fix map.
-/

namespace Hippocrates

open FixType

/-- What the raising of fixes depends on. -/
structure RaiseEnv where
  module : Module
  mapper : LocationInfo → Option (List FixLoc)
  immutableFns : FnId → Bool
  heuristicIdx : List LocationInfo → Option ℕ

/-- The variables of the walk: the index of the frame reached, whether the fix is raised, and
the location of the last frame looked at. -/
structure WalkState where
  idx : ℕ
  raised : Bool
  curr : Option FixLoc

/-- The walk over the frames from `idx` on. `hasStart` says whether the fix has a location of
its own (`startInst`); without one, unmapped frames are skipped. -/
def raiseWalk (E : RaiseEnv) (hasStart : Bool) :
    List LocationInfo → WalkState → Option WalkState
  | [], w => some w
  | li :: frames, w =>
    match E.mapper li with
    | none =>
      if !hasStart then raiseWalk E hasStart frames { w with idx := w.idx + 1, raised := true }
      else none -- `at` throws
    | some fixLocList =>
      -- several locations have to be in one function
      if fixLocList.any fun f => fixLocList.any fun g =>
          E.module.getFunction f.last != E.module.getFunction g.last then none
      else
        match fixLocList with
        | [] => none
        | curr :: _ =>
          match E.module.getFunction curr.last with
          | none => none
          | some f =>
            if E.immutableFns f then
              raiseWalk E hasStart frames ⟨w.idx + 1, true, some curr⟩
            else some { w with curr := some curr }

/-- The location and the fix a raise of `desc` adds: `some none` if the fix is not raised. -/
def raiseTarget (E : RaiseEnv) (hasStart : Bool) (desc : FixDesc) :
    Option (Option (FixLoc × FixDesc)) :=
  if desc.dynStack = [] then none
  else
    match E.heuristicIdx desc.dynStack with
    | none => none
    | some h =>
      match raiseWalk E hasStart (desc.dynStack.drop h) ⟨h, decide (0 < h), none⟩ with
      | none => none
      | some w =>
        if w.raised then
          let ft :=
            if desc.type = ADD_FLUSH_ONLY then ADD_PERSIST_CALLSTACK_OPT_NOFENCE
            else ADD_PERSIST_CALLSTACK_OPT
          match w.curr with
          | none => none
          | some curr => some (some (curr, FixDesc.mk' ft desc.dynStack w.idx))
        else some none

/-- `raiseFixLocation`, for a fix at `fl` or without a location (`NullLoc`). -/
def raiseFixLocation [LinearOrder FixLoc] (E : RaiseEnv) (fixMap : FixMap) (fl : Option FixLoc)
    (desc : FixDesc) : Option (FixMap × Bool) :=
  match raiseTarget E fl.isSome desc with
  | none => none
  | some none => some (fixMap, false)
  | some (some (curr, desc')) => addFixToMapping E.module fixMap curr desc'

/-- A raised fix is a persistent subprogram over the same stack, with a fence unless only a
flush was asked for. -/
lemma raiseTarget_desc {E : RaiseEnv} {hasStart : Bool} {desc desc' : FixDesc} {curr : FixLoc}
    (h : raiseTarget E hasStart desc = some (some (curr, desc'))) :
    desc'.dynStack = desc.dynStack ∧ desc'.originals = [] ∧ desc'.points = [] ∧
      desc'.type = if desc.type = ADD_FLUSH_ONLY then ADD_PERSIST_CALLSTACK_OPT_NOFENCE
        else ADD_PERSIST_CALLSTACK_OPT := by
  rw [raiseTarget] at h
  split at h
  · cases h
  · split at h
    · cases h
    · split at h
      · cases h
      · split at h
        · dsimp only at h
          split at h
          · cases h
          · simp only [Option.some.injEq, Prod.mk.injEq] at h
            obtain ⟨-, rfl⟩ := h
            exact ⟨rfl, rfl, rfl, rfl⟩
        · cases h

lemma raiseTarget_isPST {E : RaiseEnv} {hasStart : Bool} {desc desc' : FixDesc} {curr : FixLoc}
    (h : raiseTarget E hasStart desc = some (some (curr, desc'))) : desc'.type.isPST = true := by
  obtain ⟨-, -, -, ht⟩ := raiseTarget_desc h
  rw [ht]
  split <;> rfl

/-- A subprogram with a fence replaces every fix but another one like it. -/
lemma coalesce_opt [LinearOrder FixLoc] {old desc : FixDesc} {r : Option FixDesc}
    (hdesc : desc.type = ADD_PERSIST_CALLSTACK_OPT) (h : coalesce old desc = some r) :
    (r = none ∧ old.type = ADD_PERSIST_CALLSTACK_OPT) ∨
      (r = some desc ∧ old.type ≠ ADD_PERSIST_CALLSTACK_OPT) := by
  have hprim : desc.type.isPrimative ≠ true := by simp [hdesc, isPrimative]
  cases coalesce_cases h with
  | equal heq =>
      simp only [FixDesc.eq, Bool.and_eq_true, beq_iff_eq] at heq
      exact .inl ⟨rfl, heq.1.1.trans hdesc⟩
  | both _ hdesc' => exact absurd hdesc' hprim
  | stays _ hdesc' => exact absurd hdesc' hprim
  | removal _ hdesc' =>
      rw [hdesc] at hdesc'
      cases hdesc'
  | subprogram hold => exact .inl ⟨rfl, hold⟩
  | replaced hold => exact .inr ⟨rfl, hold⟩
  | fenced _ _ hne => exact absurd hdesc hne

/-- A subprogram without a fence never replaces a fix. -/
lemma coalesce_noFence [LinearOrder FixLoc] {old desc : FixDesc} {r : Option FixDesc}
    (hdesc : desc.type = ADD_PERSIST_CALLSTACK_OPT_NOFENCE) (h : coalesce old desc = some r) :
    r = none := by
  have hprim : desc.type.isPrimative ≠ true := by simp [hdesc, isPrimative]
  cases coalesce_cases h with
  | equal => rfl
  | both _ hdesc' => exact absurd hdesc' hprim
  | stays => rfl
  | removal _ hdesc' =>
      rw [hdesc] at hdesc'
      cases hdesc'
  | subprogram => rfl
  | replaced _ hdesc' =>
      rw [hdesc] at hdesc'
      cases hdesc'
  | fenced _ hdesc' =>
      rw [hdesc] at hdesc'
      cases hdesc'

/-- **Adding a persistent subprogram**: nothing changes, or it is stored at a free location, or
it has a fence and replaces a fix without one. -/
lemma addFixToMapping_isPST [LinearOrder FixLoc] {m : Module} {fixMap fixMap' : FixMap}
    {fl : FixLoc} {desc : FixDesc} {res : Bool} (hdesc : desc.type.isPST = true)
    (h : addFixToMapping m fixMap fl desc = some (fixMap', res)) :
    (res = false ∧ fixMap' = fixMap ∧ ∃ old, fixMap.find fl = some old ∧
        (desc.type = ADD_PERSIST_CALLSTACK_OPT → old.type = ADD_PERSIST_CALLSTACK_OPT)) ∨
      (res = true ∧ fixMap' = fixMap.insert fl desc ∧
        (fixMap.find fl = none ∨ ∃ old, fixMap.find fl = some old ∧
          desc.type = ADD_PERSIST_CALLSTACK_OPT ∧ old.type ≠ ADD_PERSIST_CALLSTACK_OPT)) := by
  rw [addFixToMapping] at h
  split_ifs at h
  cases hfind : fixMap.find fl with
  | none =>
      simp only [hfind, Option.some.injEq, Prod.mk.injEq] at h
      exact .inr ⟨h.2.symm, h.1.symm, .inl rfl⟩
  | some old =>
      cases hco : coalesce old desc with
      | none => simp [hfind, hco] at h
      | some r =>
          -- a subprogram with a fence replaces what has none, one without a fence replaces nothing
          rcases isPST_iff.mp hdesc with ht | ht
          · rcases coalesce_opt ht hco with ⟨rfl, hold⟩ | ⟨rfl, hold⟩
            · simp only [hfind, hco, Option.some.injEq, Prod.mk.injEq] at h
              exact .inl ⟨h.2.symm, h.1.symm, old, rfl, fun _ => hold⟩
            · simp only [hfind, hco, Option.some.injEq, Prod.mk.injEq] at h
              exact .inr ⟨h.2.symm, h.1.symm, .inr ⟨old, rfl, ht, hold⟩⟩
          · obtain rfl := coalesce_noFence ht hco
            simp only [hfind, hco, Option.some.injEq, Prod.mk.injEq] at h
            refine .inl ⟨h.2.symm, h.1.symm, old, rfl, fun hopt => ?_⟩
            rw [ht] at hopt
            cases hopt

end Hippocrates
