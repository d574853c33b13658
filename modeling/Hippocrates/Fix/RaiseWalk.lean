import Mathlib.Order.Bounds.Basic
import Mathlib.Tactic
import Hippocrates.Fix.Optimization

/-!
Where `BugFixer::raiseFixLocation` ends with heuristic raising off.

The walk up the call stack passes the frames of immutable functions, and the unmapped frames if
the fix has no location of its own (`Passed`), and is to stop at the first frame that can hold
the fix (`Hosts`). A fix with a location looks every frame up, so an unmapped frame ends the
program, and a walk that passes all frames keeps the location of the last one it rejected.

`raisesToHost_iff`: the raise ends at a frame that can hold the fix, or leaves the map as it
is, exactly when the walk passes the frames up to the first that can hold it.
-/

namespace Hippocrates

open FixType

/-- The front location of the frame lies in a function that may be changed. -/
def MappedMutable (E : RaiseEnv) (li : LocationInfo) : Prop :=
  ∃ curr rest f, E.mapper li = some (curr :: rest) ∧ E.module.getFunction curr.last = some f ∧
    E.immutableFns f = false

/-- All locations of the frame lie in one function. -/
def LiesIn (E : RaiseEnv) (li : LocationInfo) (curr : FixLoc) (f : FnId) : Prop :=
  ∃ rest, E.mapper li = some (curr :: rest) ∧
    ∀ g ∈ curr :: rest, E.module.getFunction g.last = some f

/-- The walk stops at the frame. -/
def Hosts (E : RaiseEnv) (li : LocationInfo) : Prop :=
  ∃ curr f, LiesIn E li curr f ∧ E.immutableFns f = false

/-- The walk passes the frame. -/
def Passed (E : RaiseEnv) (hasStart : Bool) (li : LocationInfo) : Prop :=
  (hasStart = false ∧ E.mapper li = none) ∨
    ∃ curr f, LiesIn E li curr f ∧ E.immutableFns f = true

/-- The raise makes no failed lookup and trips no assertion, and whatever the fix map it returns
`false` and leaves the map, or hands `addFixToMapping` a persistent subprogram for the least
frame that is mapped and lies in a mutable function. -/
def RaisesToHost [LinearOrder FixLoc] (E : RaiseEnv) (fl : Option FixLoc) (desc : FixDesc) :
    Prop :=
  raiseTarget E fl.isSome desc ≠ none ∧
    ∀ fixMap, raiseFixLocation E fixMap fl desc = some (fixMap, false) ∨
      ∃ idx li curr rest d, desc.dynStack[idx]? = some li ∧
        IsLeast {i | ∃ li, desc.dynStack[i]? = some li ∧ MappedMutable E li} idx ∧
        E.mapper li = some (curr :: rest) ∧
        d.type.isPST = true ∧ d.dynStack = desc.dynStack ∧ d.stackIdx = idx ∧
        raiseFixLocation E fixMap fl desc = addFixToMapping E.module fixMap curr d

section Walk

variable {E : RaiseEnv} {hasStart : Bool} {li : LocationInfo} {curr : FixLoc} {f : FnId}

lemma LiesIn.getFunction (h : LiesIn E li curr f) : E.module.getFunction curr.last = some f := by
  obtain ⟨rest, -, hall⟩ := h
  exact hall curr List.mem_cons_self

/-- The check that the locations of a frame are in one function. -/
lemma LiesIn.any_eq_false {rest : List FixLoc} (h : LiesIn E li curr f)
    (hmap : E.mapper li = some (curr :: rest)) :
    ((curr :: rest).any fun a => (curr :: rest).any fun b =>
      E.module.getFunction a.last != E.module.getFunction b.last) = false := by
  obtain ⟨rest', hmap', hall⟩ := h
  obtain ⟨-, rfl⟩ := List.cons.inj (Option.some.inj (hmap.symm.trans hmap'))
  rw [List.any_eq_false]
  intro a ha
  rw [Bool.not_eq_true, List.any_eq_false]
  intro b hb
  rw [hall a ha, hall b hb]
  simp

/-- The locations of a frame that pass the check lie in the function of the first. -/
lemma liesIn_of_any {rest : List FixLoc} (hmap : E.mapper li = some (curr :: rest))
    (hone : ((curr :: rest).any fun a => (curr :: rest).any fun b =>
      E.module.getFunction a.last != E.module.getFunction b.last) = false)
    (hf : E.module.getFunction curr.last = some f) : LiesIn E li curr f := by
  refine ⟨rest, hmap, fun g hg => ?_⟩
  have hg' := (List.any_eq_false.mp hone) g hg
  rw [Bool.not_eq_true, List.any_eq_false] at hg'
  have hsame : E.module.getFunction g.last = E.module.getFunction curr.last := by
    simpa using hg' curr List.mem_cons_self
  exact hsame.trans hf

/-- The walk stops at a frame that can hold the fix. -/
lemma raiseWalk_host {frames : List LocationInfo} {w : WalkState} (h : LiesIn E li curr f)
    (hmut : E.immutableFns f = false) :
    raiseWalk E hasStart (li :: frames) w = some { w with curr := some curr } := by
  obtain ⟨rest, hmap, -⟩ := id h
  rw [raiseWalk, hmap]
  dsimp only
  rw [if_neg (by rw [h.any_eq_false hmap]; decide), h.getFunction]
  simp [hmut]

/-- The walk passes a frame, and keeps its location if it is mapped. -/
lemma raiseWalk_passed {frames : List LocationInfo} {w : WalkState} (h : Passed E hasStart li) :
    ∃ curr', raiseWalk E hasStart (li :: frames) w =
        raiseWalk E hasStart frames ⟨w.idx + 1, true, curr'⟩ ∧
      (curr' = w.curr ∨ ∃ c rest, E.mapper li = some (c :: rest) ∧ curr' = some c) := by
  rcases h with ⟨rfl, hmap⟩ | ⟨curr, f, hin, himm⟩
  · exact ⟨w.curr, by simp [raiseWalk, hmap], .inl rfl⟩
  · obtain ⟨rest, hmap, -⟩ := id hin
    refine ⟨some curr, ?_, .inr ⟨curr, rest, hmap, rfl⟩⟩
    rw [raiseWalk, hmap]
    dsimp only
    rw [if_neg (by rw [hin.any_eq_false hmap]; decide), hin.getFunction]
    simp [himm]

/-- The walk fails at any other frame. -/
lemma raiseWalk_fail {frames : List LocationInfo} {w : WalkState}
    (hpass : ¬ Passed E hasStart li) (hhost : ¬ Hosts E li) :
    raiseWalk E hasStart (li :: frames) w = none := by
  rw [raiseWalk]
  cases hmap : E.mapper li with
  | none =>
      cases hasStart with
      | true => simp
      | false => exact absurd (.inl ⟨rfl, hmap⟩) hpass
  | some fixLocList =>
      dsimp only
      split_ifs with hany
      · rfl
      · cases fixLocList with
        | nil => rfl
        | cons curr rest =>
            dsimp only
            cases hf : E.module.getFunction curr.last with
            | none => rfl
            | some f =>
                have hin := liesIn_of_any hmap (Bool.eq_false_iff.mpr hany) hf
                cases himm : E.immutableFns f with
                | true => exact absurd (.inr ⟨curr, f, hin, himm⟩) hpass
                | false => exact absurd ⟨curr, f, hin, himm⟩ hhost

/-- The walk passes frames one after the other. -/
lemma raiseWalk_append {pre rest : List LocationInfo} {w : WalkState}
    (h : ∀ li ∈ pre, Passed E hasStart li) :
    ∃ curr', raiseWalk E hasStart (pre ++ rest) w =
        raiseWalk E hasStart rest ⟨w.idx + pre.length, w.raised || !pre.isEmpty, curr'⟩ ∧
      (curr' = w.curr ∨
        ∃ li ∈ pre, ∃ c rest, E.mapper li = some (c :: rest) ∧ curr' = some c) := by
  induction pre generalizing w with
  | nil => exact ⟨w.curr, by simp, .inl rfl⟩
  | cons li pre ih =>
      obtain ⟨c, hstep, hc⟩ : ∃ c, raiseWalk E hasStart (li :: (pre ++ rest)) w = _ ∧ _ :=
        raiseWalk_passed (h li List.mem_cons_self)
      obtain ⟨c', hrest, hc'⟩ := ih (w := ⟨w.idx + 1, true, c⟩) fun l hl =>
        h l (List.mem_cons_of_mem li hl)
      refine ⟨c', ?_, ?_⟩
      · rw [List.cons_append, hstep, hrest]
        simp [Nat.add_assoc, Nat.add_comm 1]
      · rcases hc' with rfl | ⟨l, hl, hmap⟩
        · exact hc.imp_right fun hmap => ⟨li, List.mem_cons_self, hmap⟩
        · exact .inr ⟨l, List.mem_cons_of_mem li hl, hmap⟩

/-- The frames up to the first that is not passed. -/
lemma exists_first_not_passed (stack : List LocationInfo) :
    (∀ li ∈ stack, Passed E hasStart li) ∨ ∃ pre li post, stack = pre ++ li :: post ∧
      (∀ l ∈ pre, Passed E hasStart l) ∧ ¬ Passed E hasStart li := by
  induction stack with
  | nil => exact .inl (by simp)
  | cons li stack ih =>
      by_cases hli : Passed E hasStart li
      · rcases ih with hall | ⟨pre, l, post, rfl, hpre, hl⟩
        · exact .inl (List.forall_mem_cons.mpr ⟨hli, hall⟩)
        · exact .inr ⟨li :: pre, l, post, rfl, List.forall_mem_cons.mpr ⟨hli, hpre⟩, hl⟩
      · exact .inr ⟨[], li, stack, rfl, by simp, hli⟩

/-- A frame that is passed does not lie in a mutable function. -/
lemma Passed.not_mappedMutable (h : Passed E hasStart li) : ¬ MappedMutable E li := by
  rintro ⟨curr, rest, f, hmap, hf, hmut⟩
  rcases h with ⟨-, hnone⟩ | ⟨curr', f', hin, himm⟩
  · simp [hnone] at hmap
  · obtain ⟨rest', hmap', -⟩ := id hin
    obtain ⟨rfl, -⟩ := List.cons.inj (Option.some.inj (hmap.symm.trans hmap'))
    obtain rfl : f = f' := Option.some.inj (hf.symm.trans hin.getFunction)
    rw [hmut] at himm
    cases himm

end Walk

/-! ### The raise -/

section Raise

variable {E : RaiseEnv} {hasStart : Bool} {li : LocationInfo} {pre post : List LocationInfo}
  {desc : FixDesc}

/-- The type of the subprogram fix a fix is raised to. -/
def raisedType (desc : FixDesc) : FixType :=
  if desc.type = ADD_FLUSH_ONLY then ADD_PERSIST_CALLSTACK_OPT_NOFENCE
  else ADD_PERSIST_CALLSTACK_OPT

lemma raisedType_isPST (desc : FixDesc) : (raisedType desc).isPST = true := by
  rw [raisedType]
  split <;> rfl

/-- The raise past `pre` to a frame that can hold the fix. -/
lemma raiseTarget_host {curr : FixLoc} {f : FnId} (hoff : E.heuristicIdx = fun _ => some 0)
    (hstack : desc.dynStack = pre ++ li :: post) (hpre : ∀ l ∈ pre, Passed E hasStart l)
    (hin : LiesIn E li curr f) (hmut : E.immutableFns f = false) :
    raiseTarget E hasStart desc = some (if pre = [] then none
      else some (curr, FixDesc.mk' (raisedType desc) desc.dynStack pre.length)) := by
  obtain ⟨c, hwalk, -⟩ : ∃ c, raiseWalk E hasStart (pre ++ li :: post) ⟨0, false, none⟩ = _ ∧ _ :=
    raiseWalk_append hpre
  have hne : desc.dynStack ≠ [] := by simp [hstack]
  rw [raiseTarget, if_neg hne, hoff]
  dsimp only
  rw [List.drop_zero, show decide (0 < 0) = false from rfl]
  rw [show raiseWalk E hasStart desc.dynStack ⟨0, false, none⟩ = _ from
    (congrArg (raiseWalk E hasStart · _) hstack).trans (hwalk.trans (raiseWalk_host hin hmut))]
  cases pre with
  | nil => rfl
  | cons l pre => simp [raisedType]

/-- A raise that passes all frames hands on the location of a frame it rejected, or fails. -/
lemma raiseTarget_all_passed (hoff : E.heuristicIdx = fun _ => some 0)
    (hpass : ∀ l ∈ desc.dynStack, Passed E hasStart l) :
    raiseTarget E hasStart desc = none ∨
      ∃ curr d, raiseTarget E hasStart desc = some (some (curr, d)) ∧
        d.stackIdx = desc.dynStack.length := by
  by_cases hne : desc.dynStack = []
  · exact .inl (by rw [raiseTarget, if_pos hne])
  · obtain ⟨c, hwalk, -⟩ : ∃ c,
        raiseWalk E hasStart (desc.dynStack ++ []) ⟨0, false, none⟩ = _ ∧ _ :=
      raiseWalk_append hpass
    rw [List.append_nil, raiseWalk] at hwalk
    rw [raiseTarget, if_neg hne, hoff]
    dsimp only
    rw [List.drop_zero, show decide (0 < 0) = false from rfl, hwalk]
    cases c with
    | none => exact .inl (by simp [hne])
    | some curr =>
        refine .inr
          ⟨curr, FixDesc.mk' (raisedType desc) desc.dynStack desc.dynStack.length, ?_, rfl⟩
        simp [hne, raisedType]

/-- A raise that comes to a frame it neither passes nor stops at fails. -/
lemma raiseTarget_fail (hoff : E.heuristicIdx = fun _ => some 0)
    (hstack : desc.dynStack = pre ++ li :: post) (hpre : ∀ l ∈ pre, Passed E hasStart l)
    (hpass : ¬ Passed E hasStart li) (hhost : ¬ Hosts E li) :
    raiseTarget E hasStart desc = none := by
  obtain ⟨c, hwalk, -⟩ : ∃ c, raiseWalk E hasStart (pre ++ li :: post) ⟨0, false, none⟩ = _ ∧ _ :=
    raiseWalk_append hpre
  have hne : desc.dynStack ≠ [] := by simp [hstack]
  rw [raiseTarget, if_neg hne, hoff]
  dsimp only
  rw [List.drop_zero, show decide (0 < 0) = false from rfl]
  rw [show raiseWalk E hasStart desc.dynStack ⟨0, false, none⟩ = none from
    (congrArg (raiseWalk E hasStart · _) hstack).trans (hwalk.trans (raiseWalk_fail hpass hhost))]

/-- The frame that can hold the fix, above the frames passed, is the least one that is mapped
and mutable. -/
lemma isLeast_mappedMutable (hpre : ∀ l ∈ pre, Passed E hasStart l) (hhost : Hosts E li) :
    IsLeast {i | ∃ l, (pre ++ li :: post)[i]? = some l ∧ MappedMutable E l} pre.length := by
  obtain ⟨curr, f, hin, hmut⟩ := hhost
  obtain ⟨rest, hmap, -⟩ := id hin
  refine ⟨⟨li, by simp, curr, rest, f, hmap, hin.getFunction, hmut⟩, ?_⟩
  rintro i ⟨l, hl, hmm⟩
  by_contra hlt
  rw [List.getElem?_append_left (not_le.mp hlt)] at hl
  exact (hpre l (List.mem_of_getElem? hl)).not_mappedMutable hmm

end Raise

/-- **Raising ends at a frame that can hold the fix or leaves the map**, exactly when the walk
passes the frames up to the first that can hold it. -/
theorem raisesToHost_iff [LinearOrder FixLoc] {E : RaiseEnv} {fl : Option FixLoc}
    {desc : FixDesc} (hoff : E.heuristicIdx = fun _ => some 0) :
    RaisesToHost E fl desc ↔ ∃ pre li post, desc.dynStack = pre ++ li :: post ∧
      (∀ l ∈ pre, Passed E fl.isSome l) ∧ Hosts E li := by
  constructor
  · rintro ⟨hnone, hall⟩
    rcases @exists_first_not_passed E fl.isSome desc.dynStack with
      hpass | ⟨pre, li, post, hstack, hpre, hli⟩
    · -- with no fix in the map the fix is added at a frame that was passed
      rcases raiseTarget_all_passed hoff hpass with htarget | ⟨curr, d, htarget, -⟩
      · exact absurd htarget hnone
      · rcases hall OrderedMap.empty with hres | ⟨idx, li, c, rest, d', -, hleast, -⟩
        · rw [raiseFixLocation, htarget] at hres
          dsimp only at hres
          rw [addFixToMapping] at hres
          split_ifs at hres
          simp at hres
        · obtain ⟨l, hl, hmm⟩ := hleast.1
          exact absurd hmm (hpass l (List.mem_of_getElem? hl)).not_mappedMutable
    · by_cases hhost : Hosts E li
      · exact ⟨pre, li, post, hstack, hpre, hhost⟩
      · exact absurd (raiseTarget_fail hoff hstack hpre hli hhost) hnone
  · rintro ⟨pre, li, post, hstack, hpre, hhost⟩
    -- the walk ends at the host, as a raise if it has passed a frame
    obtain ⟨curr, f, hin, hmut⟩ := id hhost
    obtain ⟨rest, hmap, -⟩ := id hin
    have htarget := raiseTarget_host hoff hstack hpre hin hmut
    refine ⟨by rw [htarget]; exact Option.some_ne_none _, fun fixMap => ?_⟩
    rw [raiseFixLocation, htarget]
    by_cases hnil : pre = []
    · exact .inl (by rw [if_pos hnil])
    · refine .inr ⟨pre.length, li, curr, rest,
        FixDesc.mk' (raisedType desc) desc.dynStack pre.length, ?_, ?_, hmap,
        raisedType_isPST desc, rfl, rfl, by rw [if_neg hnil]⟩
      · simp [hstack]
      · rw [hstack]
        exact isLeast_mappedMutable hpre hhost

theorem raisesToHost_iff_putFlush :
    letI := FixLoc.compare InstId.address InstId.address_injective
    RaisesToHost twoCallsEnv (some (FixLoc.single (InstId.orig 0))) putFlush := by
  let := FixLoc.compare InstId.address InstId.address_injective
  refine (raisesToHost_iff rfl).mpr ⟨[⟨"put", "lib.c", 5⟩], ⟨"main", "main.c", 20⟩, [], rfl, ?_, ?_⟩
  · exact List.forall_mem_singleton.mpr (.inr ⟨FixLoc.single (InstId.orig 0), FnId.named "put",
      ⟨[], rfl, List.forall_mem_singleton.mpr rfl⟩, rfl⟩)
  · exact ⟨⟨InstId.orig 2, InstId.orig 3⟩, FnId.named "main",
      ⟨[], rfl, List.forall_mem_singleton.mpr rfl⟩, rfl⟩

/-- A store in the library below a library function that no line belongs to. -/
def sortFlush : FixDesc :=
  FixDesc.mk' ADD_FLUSH_ONLY
    [⟨"put", "lib.c", 5⟩, ⟨"qsort", "qsort.c", 7⟩, ⟨"main", "main.c", 20⟩] 0

/-- The raise looks up the frame of `qsort`, which the mapper does not contain. -/
theorem sortFlush_not_raisesToHost :
    letI := FixLoc.compare InstId.address InstId.address_injective
    ¬ RaisesToHost twoCallsEnv (some (FixLoc.single (InstId.orig 0))) sortFlush := by
  let := FixLoc.compare InstId.address InstId.address_injective
  rintro ⟨hsome, -⟩
  exact hsome rfl

end Hippocrates
