import Mathlib.Tactic
import Hippocrates.Diagnosis.Collected

/-!
`BugReport._opt_remove_redt_bugs` of `Reports.py`: of the assertions with one call stack, only
the first is kept.

* `optRemoveRedtBugs`, `mem_optRemoveRedtBugs`: the filter, and the events it keeps
  (`FirstWithStack`). The filter goes by the kind of the event, so that an assertion that
  passed counts as a bug.
* `fixes`: the fixes the scan finds for the failing assertions, as locations of operations with
  what they miss.
* `ReadsAlike`: what the scan reads back from one assertion has all that matters in what it reads
  back from another.
* `fixes_kept_of_stoodFor`: the kept assertions have all the fixes when each dropped one is stood
  for by the first with its stack (`DroppedStoodFor`). There is no other way unless assertions with
  different stacks share a location (`StacksApart`).
-/

namespace Hippocrates

open TraceEvent.EventType

namespace BugReport

/-- `_is_bug`: the kind of the event decides, not its `is_bug`. -/
def isBug (te : TraceEvent) : Bool :=
  te.type ∈ [ASSERT_PERSISTED, ASSERT_ORDERED, REQUIRED_FLUSH]

/-- `_get_bugs`. -/
def getBugs (trace : List TraceEvent) : List TraceEvent := trace.filter isBug

/-- The loop that takes a bug for each of the stacks. -/
def uniqueBugs : List TraceEvent → Finset (List LocationInfo) → List TraceEvent
  | [], _ => []
  | b :: bugs, unique_stacks =>
    if b.callstack ∈ unique_stacks then
      b :: uniqueBugs bugs (unique_stacks.erase b.callstack)
    else uniqueBugs bugs unique_stacks

/-- `_opt_remove_redt_bugs`. -/
def optRemoveRedtBugs (trace : List TraceEvent) : List TraceEvent :=
  let bugs := getBugs trace
  let unique_bugs := uniqueBugs bugs (bugs.map TraceEvent.callstack).toFinset
  trace.filter fun te => !isBug te || decide (te ∈ unique_bugs)

/-- No assertion before `te` has its stack. -/
def FirstWithStack (trace : List TraceEvent) (te : TraceEvent) : Prop :=
  ∃ p q, trace = p ++ te :: q ∧ ∀ b ∈ p, isBug b = true → b.callstack ≠ te.callstack

lemma mem_uniqueBugs {bugs : List TraceEvent} {unique : Finset (List LocationInfo)}
    {te : TraceEvent} :
    te ∈ uniqueBugs bugs unique ↔ te.callstack ∈ unique ∧
      ∃ p q, bugs = p ++ te :: q ∧ ∀ b ∈ p, b.callstack ≠ te.callstack := by
  -- the first bug is taken, or one of the others with another stack
  have hcons : ∀ b bugs, (∃ p q, b :: bugs = p ++ te :: q ∧ ∀ c ∈ p, c.callstack ≠ te.callstack) ↔
      b = te ∨ (b.callstack ≠ te.callstack ∧
        ∃ p q, bugs = p ++ te :: q ∧ ∀ c ∈ p, c.callstack ≠ te.callstack) := by
    intro b bugs
    constructor
    · rintro ⟨p, q, heq, hp⟩
      cases p with
      | nil => exact .inl (List.cons.inj heq).1
      | cons c p =>
          obtain ⟨rfl, hbugs⟩ := List.cons.inj heq
          rw [List.forall_mem_cons] at hp
          exact .inr ⟨hp.1, p, q, hbugs, hp.2⟩
    · rintro (rfl | ⟨hb, p, q, rfl, hp⟩)
      · exact ⟨[], bugs, rfl, by simp⟩
      · exact ⟨b :: p, q, rfl, List.forall_mem_cons.mpr ⟨hb, hp⟩⟩
  induction bugs generalizing unique with
  | nil => simp [uniqueBugs]
  | cons b bugs ih =>
      rw [uniqueBugs, hcons]
      split_ifs with hb
      · simp only [List.mem_cons, ih, Finset.mem_erase]
        constructor
        · rintro (rfl | ⟨⟨hne, hmem⟩, h⟩)
          · exact ⟨hb, .inl rfl⟩
          · exact ⟨hmem, .inr ⟨Ne.symm hne, h⟩⟩
        · rintro ⟨hmem, rfl | ⟨hne, h⟩⟩
          · exact .inl rfl
          · exact .inr ⟨⟨Ne.symm hne, hmem⟩, h⟩
      · simp only [ih]
        refine and_congr_right fun hmem => ⟨fun h => .inr ⟨fun heq => hb (heq ▸ hmem), h⟩, ?_⟩
        rintro (rfl | ⟨-, h⟩)
        · exact absurd hmem hb
        · exact h

/-- The filter keeps what is no assertion, and the first assertion with each stack. -/
lemma mem_optRemoveRedtBugs {trace : List TraceEvent} {te : TraceEvent} :
    te ∈ optRemoveRedtBugs trace ↔
      te ∈ trace ∧ (isBug te = true → FirstWithStack trace te) := by
  simp only [optRemoveRedtBugs, List.mem_filter, Bool.or_eq_true, Bool.not_eq_true',
    decide_eq_true_eq, mem_uniqueBugs]
  refine and_congr_right fun hmem => ?_
  cases hbug : isBug te with
  | false => simp
  | true =>
      -- the stacks that are left at the start are those of all bugs
      have hstack : te.callstack ∈ ((getBugs trace).map TraceEvent.callstack).toFinset := by
        rw [List.mem_toFinset, List.mem_map]
        exact ⟨te, List.mem_filter.mpr ⟨hmem, hbug⟩, rfl⟩
      simp only [hstack, true_and, Bool.true_eq_false, false_or, forall_const]
      constructor
      · rintro ⟨p, q, heq, hp⟩
        obtain ⟨p₁, q₁, rfl, rfl, hq⟩ := List.filter_eq_append_iff.mp heq
        obtain ⟨p₂, q₂, rfl, hp₂, -, rfl⟩ := List.filter_eq_cons_iff.mp hq
        refine ⟨p₁ ++ p₂, q₂, by simp, fun b hb hbb => ?_⟩
        rcases List.mem_append.mp hb with hb | hb
        · exact hp b (List.mem_filter.mpr ⟨hb, hbb⟩)
        · exact absurd hbb (hp₂ b hb)
      · rintro ⟨p, q, rfl, hp⟩
        refine ⟨getBugs p, getBugs q, by simp [getBugs, hbug], fun b hb => ?_⟩
        obtain ⟨hb, hbb⟩ := List.mem_filter.mp hb
        exact hp b hb hbb

end BugReport

/-! ### The fixes of the failing assertions -/

/-- The fixes of the failing assertions in `keep`: the locations of the operations the scan
collects, with the flags of the diagnosis. -/
def fixes (clSz : ℕ) (t : List TraceEvent) (keep : Set TraceEvent) :
    Set (LocationInfo × Bool × Bool) :=
  {f | ∃ b te d k op, t[b]? = some te ∧ Failing te ∧ te ∈ keep ∧
    diagnose clSz t te b = some d ∧ k ∈ d.opIndices ∧ t[k]? = some op ∧
    f = (op.location, d.missingFlush, d.missingFence)}

/-- The events `win'` stand for `win`: both have a fence or none, without one the stores complete
both ranges or none, and the operations on `R` were at locations of operations on `R'`. -/
structure ReadsAlike (R' : AddressInfo) (win' : List TraceEvent) (R : AddressInfo)
    (win : List TraceEvent) : Prop where
  fence : win'.any isFence = win.any isFence
  completed : win.any isFence = false → (Completed R' win' ↔ Completed R win)
  operations : ∀ op ∈ win, isRelevant R op = true →
    ∃ op' ∈ win', isRelevant R' op' = true ∧ op'.location = op.location

/-- The first assertion with the stack of a dropped failing one failed as well, and what is read
back from it stands for what is read back from the dropped one. -/
def DroppedStoodFor (clSz : ℕ) (t : List TraceEvent) : Prop :=
  ∀ b te, t[b]? = some te → Failing te → ¬ BugReport.FirstWithStack t te →
    ∀ R win, ReadsBack clSz t b te R win → (∃ op ∈ win, isRelevant R op = true) →
      ∃ a te' R' win', t[a]? = some te' ∧ te'.callstack = te.callstack ∧
        BugReport.FirstWithStack t te' ∧ Failing te' ∧ ReadsBack clSz t a te' R' win' ∧
          ReadsAlike R' win' R win

/-- No failing assertion is listed twice, and a dropped and a kept one have operations at a common
location only if they have one stack. -/
structure StacksApart (clSz : ℕ) (t : List TraceEvent) : Prop where
  once : ∀ (a b : ℕ) te, t[a]? = some te → t[b]? = some te → Failing te → a = b
  apart : ∀ (b : ℕ) te (a : ℕ) te' R win R' win', t[b]? = some te → Failing te →
    ¬ BugReport.FirstWithStack t te → t[a]? = some te' → Failing te' →
    BugReport.FirstWithStack t te' → ReadsBack clSz t b te R win →
    ReadsBack clSz t a te' R' win' → ∀ op ∈ win, isRelevant R op = true → ∀ op' ∈ win',
    isRelevant R' op' = true → op'.location = op.location → te'.callstack = te.callstack

lemma mem_fixes_iff {clSz : ℕ} {t : List TraceEvent} {keep : Set TraceEvent}
    {l : LocationInfo} {mf mfe : Bool} :
    (l, mf, mfe) ∈ fixes clSz t keep ↔ ∃ b te op, t[b]? = some te ∧ Failing te ∧
      te ∈ keep ∧ Meets clSz t b te mf mfe op ∧ op.location = l := by
  constructor
  · rintro ⟨b, te, d, k, op, hb, hfail, hkeep, hd, hk, hop, heq⟩
    simp only [Prod.mk.injEq] at heq
    obtain ⟨rfl, rfl, rfl⟩ := heq
    exact ⟨b, te, op, hb, hfail, hkeep, exists_collected_iff.mp ⟨d, k, hd, hk, hop, rfl, rfl⟩, rfl⟩
  · rintro ⟨b, te, op, hb, hfail, hkeep, hmeet, rfl⟩
    obtain ⟨d, k, hd, hk, hop, rfl, rfl⟩ := exists_collected_iff.mpr hmeet
    exact ⟨b, te, d, k, op, hb, hfail, hkeep, hd, hk, hop, rfl⟩

lemma Failing.isBug {te : TraceEvent} (h : Failing te) : BugReport.isBug te = true := by
  simp [BugReport.isBug, h.1]

/-- What stands for a window misses the same. -/
lemma ReadsAlike.flags_iff {R R' : AddressInfo} {win win' : List TraceEvent}
    (h : ReadsAlike R' win' R win) :
    win'.any isFence = true ∨ Completed R' win' ↔ win.any isFence = true ∨ Completed R win := by
  rw [h.fence]
  cases hfence : win.any isFence with
  | true => simp
  | false => simp [h.completed hfence]

/-- There is one first assertion with a stack. -/
lemma BugReport.FirstWithStack.unique {t : List TraceEvent} {te te' : TraceEvent}
    (h : FirstWithStack t te) (h' : FirstWithStack t te') (hbug : isBug te = true)
    (hbug' : isBug te' = true) (hstack : te'.callstack = te.callstack) : te = te' := by
  obtain ⟨p, q, rfl, hp⟩ := h
  obtain ⟨p', q', heq, hp'⟩ := h'
  rcases List.append_eq_append_iff.mp heq with ⟨mid, rfl, hrest⟩ | ⟨mid, rfl, hrest⟩
  · cases mid with
    | nil => exact (List.cons.inj hrest).1
    | cons c mid =>
        obtain ⟨rfl, -⟩ := List.cons.inj hrest
        exact absurd hstack.symm (hp' te (by simp) hbug)
  · cases mid with
    | nil => exact (List.cons.inj hrest).1.symm
    | cons c mid =>
        obtain ⟨rfl, -⟩ := List.cons.inj hrest
        exact absurd hstack (hp te' (by simp) hbug')

section Kept

variable {clSz : ℕ} {t : List TraceEvent}

lemma mem_optRemoveRedtBugs_of_failing {b : ℕ} {te : TraceEvent} (hb : t[b]? = some te)
    (hfail : Failing te) : te ∈ BugReport.optRemoveRedtBugs t ↔ BugReport.FirstWithStack t te := by
  rw [BugReport.mem_optRemoveRedtBugs]
  simp [hfail.isBug, List.mem_of_getElem? hb]

/-- Assertions that are stood for can go. -/
lemma fixes_kept (h : DroppedStoodFor clSz t) :
    fixes clSz t Set.univ = fixes clSz t {te | te ∈ BugReport.optRemoveRedtBugs t} := by
  refine Set.Subset.antisymm ?_ ?_
  · rintro ⟨l, mf, mfe⟩ hf
    obtain ⟨b, te, op, hb, hfail, -, hmeet, rfl⟩ := mem_fixes_iff.mp hf
    rw [mem_fixes_iff]
    by_cases hfirst : BugReport.FirstWithStack t te
    · exact ⟨b, te, op, hb, hfail, (mem_optRemoveRedtBugs_of_failing hb hfail).mpr hfirst, hmeet,
        rfl⟩
    · obtain ⟨R, win, hreads, hop, hrel, rfl, hmf⟩ := meets_iff.mp hmeet
      obtain ⟨a, te', R', win', ha, -, hfirst', hfail', hreads', hstands⟩ :=
        h b te hb hfail hfirst R win hreads ⟨op, hop, hrel⟩
      obtain ⟨op', hop', hrel', hloc⟩ := hstands.operations op hop hrel
      refine ⟨a, te', op', ha, hfail', (mem_optRemoveRedtBugs_of_failing ha hfail').mpr hfirst',
        meets_iff.mpr ⟨R', win', hreads', hop', hrel', by rw [hstands.fence], ?_⟩, hloc⟩
      rw [hmf, hstands.flags_iff]
  · rintro ⟨l, mf, mfe⟩ hf
    obtain ⟨b, te, op, hb, hfail, -, hmeet, rfl⟩ := mem_fixes_iff.mp hf
    exact mem_fixes_iff.mpr ⟨b, te, op, hb, hfail, trivial, hmeet, rfl⟩

/-- An operation of a dropped assertion, in a trace that loses no fix, has its location and its
flags from the first assertion with the stack. -/
lemma exists_first_of_fixes_eq (hapart : StacksApart clSz t)
    (heq : fixes clSz t Set.univ = fixes clSz t {te | te ∈ BugReport.optRemoveRedtBugs t})
    {b : ℕ} {te op : TraceEvent} {mf mfe : Bool} (hb : t[b]? = some te) (hfail : Failing te)
    (hdrop : ¬ BugReport.FirstWithStack t te) (hmeet : Meets clSz t b te mf mfe op) :
    ∃ a te' op', t[a]? = some te' ∧ te'.callstack = te.callstack ∧
      BugReport.FirstWithStack t te' ∧ Failing te' ∧ Meets clSz t a te' mf mfe op' ∧
        op'.location = op.location := by
  have hmem : (op.location, mf, mfe) ∈ fixes clSz t Set.univ :=
    mem_fixes_iff.mpr ⟨b, te, op, hb, hfail, trivial, hmeet, rfl⟩
  rw [heq, mem_fixes_iff] at hmem
  obtain ⟨a, te', op', ha, hfail', hkeep', hmeet', hloc⟩ := hmem
  have hfirst' := (mem_optRemoveRedtBugs_of_failing ha hfail').mp hkeep'
  obtain ⟨R, win, hreads, hop, hrel, -, -⟩ := meets_iff.mp hmeet
  obtain ⟨R', win', hreads', hop', hrel', -, -⟩ := meets_iff.mp hmeet'
  have hstack := hapart.apart b te a te' R win R' win' hb hfail hdrop ha hfail' hfirst' hreads
    hreads' op hop hrel op' hop' hrel' hloc
  exact ⟨a, te', op', ha, hstack, hfirst', hfail', hmeet', hloc⟩

lemma droppedStoodFor_of_fixes_eq (hapart : StacksApart clSz t)
    (heq : fixes clSz t Set.univ = fixes clSz t {te | te ∈ BugReport.optRemoveRedtBugs t}) :
    DroppedStoodFor clSz t := by
  intro b te hb hfail hdrop R win hreads ⟨op₀, hop₀, hrel₀⟩
  obtain ⟨hR, older, mf, mfe, hpast, hwin⟩ := hreads
  obtain ⟨hmfe, hmf⟩ := hwin.flags
  have hfirst : ∀ op ∈ win, isRelevant R op = true → ∃ (a : ℕ) (te' op' : TraceEvent),
      t[a]? = some te' ∧ te'.callstack = te.callstack ∧ BugReport.FirstWithStack t te' ∧
        Failing te' ∧ Meets clSz t a te' mf mfe op' ∧ op'.location = op.location :=
    fun op hop hrel => exists_first_of_fixes_eq hapart heq hb hfail hdrop
      ⟨R, win, older, hR, hpast, hwin, hop, hrel⟩
  obtain ⟨a, te', op₀', ha, hstack, hfirst', hfail', hmeet₀, -⟩ := hfirst op₀ hop₀ hrel₀
  obtain ⟨R', win', hreads', -, -, hfence, hflush⟩ := meets_iff.mp hmeet₀
  have hfence' : win'.any isFence = win.any isFence := by simpa [hmfe] using hfence.symm
  refine ⟨a, te', R', win', ha, hstack, hfirst', hfail', hreads', hfence', fun hnone => ?_,
    fun op hop hrel => ?_⟩
  · simpa [hfence', hnone] using (hmf.symm.trans hflush).symm
  · -- the first assertion is the same for all operations, and so is what is read back from it
    obtain ⟨a', te'', op', ha', hstack', hfirst'', hfail'', hmeet, hloc⟩ := hfirst op hop hrel
    obtain rfl := hfirst'.unique hfirst'' hfail'.isBug hfail''.isBug (hstack'.trans hstack.symm)
    obtain rfl := hapart.once a a' te' ha ha' hfail'
    obtain ⟨R'', win'', hreads'', hop', hrel', -, -⟩ := meets_iff.mp hmeet
    obtain ⟨rfl, rfl⟩ := hreads'.unique hreads''
    exact ⟨op', hop', hrel', hloc⟩

end Kept

/-- **The kept assertions have all the fixes** when each dropped one is stood for by the first with
its stack, and then only if assertions with different stacks share no location. -/
theorem fixes_kept_of_stoodFor (clSz : ℕ) (t : List TraceEvent) :
    (DroppedStoodFor clSz t →
      fixes clSz t Set.univ = fixes clSz t {te | te ∈ BugReport.optRemoveRedtBugs t}) ∧
    (StacksApart clSz t →
      fixes clSz t Set.univ = fixes clSz t {te | te ∈ BugReport.optRemoveRedtBugs t} →
        DroppedStoodFor clSz t) :=
  ⟨fixes_kept, droppedStoodFor_of_fixes_eq⟩

/-- The store of a loop to the cell at `n`, and the check of the cell, which fails. -/
def cellStore (timestamp n : ℕ) : TraceEvent :=
  ⟨STORE, timestamp, [⟨n, 8⟩], ⟨"loop", "loop.c", 10⟩, false, [⟨"loop", "loop.c", 10⟩], none⟩

def cellCheck (timestamp n : ℕ) : TraceEvent :=
  ⟨ASSERT_PERSISTED, timestamp, [⟨n, 8⟩], ⟨"loop", "loop.c", 13⟩, true,
    [⟨"loop", "loop.c", 13⟩], none⟩

/-- Two rounds of the loop. -/
def failTwice : List TraceEvent :=
  [cellStore 1 4096, cellCheck 2 4096, cellStore 3 4104, cellCheck 4 4104]

/-- What is read back from an assertion right behind a store of its range. -/
lemma readsBack_store {clSz : ℕ} {t older : List TraceEvent} {b : ℕ} {te e : TraceEvent}
    {R : AddressInfo} {acc : AddressInfo × List AddressInfo} (hR : te.addresses.head? = some R)
    (hpast : past t b = e :: older) (h1 : HasOneRange e) (he : storeRange R e = some R)
    (hacc : sums R [e] = some acc) (hcov : acc.1.contains R = true) :
    ReadsBack clSz t b te R [e] :=
  ⟨hR, older, _, _, hpast, .store (openWindow_nil R) h1 he hacc hcov⟩

lemma failTwice_stoodFor : DroppedStoodFor 64 failTwice := by
  have hfirst : BugReport.FirstWithStack failTwice (cellCheck 2 4096) :=
    ⟨[cellStore 1 4096], _, rfl, by decide⟩
  intro b te hb hfail hdrop R win hreads _
  have hlt : b < failTwice.length := (List.getElem?_eq_some_iff.mp hb).1
  have hcases : b = 1 ∨ b = 3 := by
    have hfails : ∀ b < failTwice.length, ∀ te, failTwice[b]? = some te → Failing te →
        b = 1 ∨ b = 3 := by decide
    exact hfails b hlt te hb hfail
  rcases hcases with rfl | rfl
  · obtain rfl : cellCheck 2 4096 = te := Option.some.inj hb
    exact absurd hfirst hdrop
  · obtain rfl : cellCheck 4 4104 = te := Option.some.inj hb
    have hreads₃ : ReadsBack 64 failTwice 3 (cellCheck 4 4104) ⟨4104, 8⟩ [cellStore 3 4104] :=
      readsBack_store rfl rfl (fun _ => le_rfl) rfl rfl rfl
    have hreads₁ : ReadsBack 64 failTwice 1 (cellCheck 2 4096) ⟨4096, 8⟩ [cellStore 1 4096] :=
      readsBack_store rfl rfl (fun _ => le_rfl) rfl rfl rfl
    obtain ⟨rfl, rfl⟩ := hreads.unique hreads₃
    refine ⟨1, cellCheck 2 4096, _, _, rfl, rfl, hfirst, by decide, hreads₁, rfl, fun _ => ?_, ?_⟩
    · exact iff_of_true ⟨_, by decide, rfl, rfl⟩ ⟨_, by decide, rfl, rfl⟩
    · intro op hop _
      obtain rfl := List.mem_singleton.mp hop
      exact ⟨_, List.mem_singleton_self _, by decide, rfl⟩

/-- The second check is dropped, and the first has its fix. -/
theorem fixes_kept_of_stoodFor_failTwice :
    (∃ te ∈ failTwice, Failing te ∧ te ∉ BugReport.optRemoveRedtBugs failTwice) ∧
      (⟨"loop", "loop.c", 10⟩, true, true) ∈ fixes 64 failTwice Set.univ ∧
      fixes 64 failTwice Set.univ =
        fixes 64 failTwice {te | te ∈ BugReport.optRemoveRedtBugs failTwice} := by
  refine ⟨by decide, ?_, (fixes_kept_of_stoodFor 64 failTwice).1 failTwice_stoodFor⟩
  exact ⟨3, _, ⟨true, true, [2]⟩, 2, _, rfl, by decide, trivial, by decide, by simp, rfl, rfl⟩

/-- A loop in which the first check passes and the second fails: both are on one line. -/
def passThenFail : List TraceEvent :=
  [⟨STORE, 1, [⟨4096, 8⟩], ⟨"loop", "loop.c", 10⟩, false, [⟨"loop", "loop.c", 10⟩], none⟩,
    ⟨FLUSH, 2, [⟨4096, 64⟩], ⟨"loop", "loop.c", 11⟩, false, [⟨"loop", "loop.c", 11⟩], none⟩,
    ⟨FENCE, 3, [], ⟨"loop", "loop.c", 12⟩, false, [⟨"loop", "loop.c", 12⟩], none⟩,
    ⟨ASSERT_PERSISTED, 4, [⟨4096, 8⟩], ⟨"loop", "loop.c", 13⟩, false,
      [⟨"loop", "loop.c", 13⟩], none⟩,
    ⟨STORE, 5, [⟨4096, 8⟩], ⟨"loop", "loop.c", 10⟩, false, [⟨"loop", "loop.c", 10⟩], none⟩,
    ⟨ASSERT_PERSISTED, 6, [⟨4096, 8⟩], ⟨"loop", "loop.c", 13⟩, true,
      [⟨"loop", "loop.c", 13⟩], none⟩]

/-- The failing assertion is dropped, and its fix with it. -/
theorem passThenFail_fix_lost :
    (∀ te ∈ passThenFail, te.WellFormed) ∧
      (⟨"loop", "loop.c", 10⟩, true, true) ∈ fixes 64 passThenFail Set.univ ∧
      fixes 64 passThenFail {te | te ∈ BugReport.optRemoveRedtBugs passThenFail} = ∅ ∧
      fixes 64 passThenFail Set.univ ≠
        fixes 64 passThenFail {te | te ∈ BugReport.optRemoveRedtBugs passThenFail} := by
  have hwf : ∀ te ∈ passThenFail, te.WellFormed := by
    simp only [passThenFail, List.forall_mem_cons, List.not_mem_nil, false_imp_iff,
      implies_true, and_true]
    refine ⟨⟨rfl, ?_⟩, ⟨rfl, ?_⟩, ⟨rfl, ?_⟩, ⟨rfl, ?_⟩, ⟨rfl, ?_⟩, ⟨rfl, ?_⟩⟩ <;> simp <;>
      exact ⟨by decide, by decide⟩
  have hall : (⟨"loop", "loop.c", 10⟩, true, true) ∈ fixes 64 passThenFail Set.univ :=
    ⟨5, _, ⟨true, true, [4]⟩, 4, _, rfl, by decide, trivial, by decide, by simp, rfl, rfl⟩
  have hkept : fixes 64 passThenFail {te | te ∈ BugReport.optRemoveRedtBugs passThenFail} = ∅ := by
    have hnone : ∀ te ∈ BugReport.optRemoveRedtBugs passThenFail, ¬ Failing te := by decide
    refine Set.eq_empty_of_forall_notMem ?_
    rintro f ⟨b, te, d, k, op, -, hfail, hkeep, -⟩
    exact hnone te hkeep hfail
  refine ⟨hwf, hall, hkept, fun heq => ?_⟩
  rw [heq, hkept] at hall
  exact hall

/-! ### The deduplicated trace -/

section Filter

variable {clSz : ℕ} {R : AddressInfo} {keep : TraceEvent → Bool} {e : TraceEvent}
  {win older t : List TraceEvent} {mf mfe : Bool}

lemma isRelevant_of_not_isOperation (h : e.isOperation = false) : isRelevant R e = false := by
  have hs : e.type ≠ STORE := fun ht => by simp [TraceEvent.isOperation, ht] at h
  have hf : e.type ≠ FLUSH := fun ht => by simp [TraceEvent.isOperation, ht] at h
  simp [isRelevant, storeRange, flushRange, hs, hf]

lemma isFence_of_not_isOperation (h : e.isOperation = false) : isFence e = false := by
  have ht : e.type ≠ FENCE := fun ht => by simp [TraceEvent.isOperation, ht] at h
  simp [isFence, ht]

lemma storeRanges_filter (hkeep : ∀ e, keep e = false → e.isOperation = false)
    (win : List TraceEvent) : storeRanges R (win.filter keep) = storeRanges R win := by
  induction win with
  | nil => rfl
  | cons e win ih =>
      rw [storeRanges] at ih ⊢
      cases hk : keep e with
      | true => simp [hk, List.filterMap_cons, ih, storeRanges]
      | false =>
          have hrel := @isRelevant_of_not_isOperation R e (hkeep e hk)
          rw [isRelevant, Bool.or_eq_false_iff, Option.isSome_eq_false_iff,
            Option.isNone_iff_eq_none] at hrel
          simp [hk, hrel.1, ih, storeRanges]

lemma any_isFence_filter (hkeep : ∀ e, keep e = false → e.isOperation = false)
    (win : List TraceEvent) : (win.filter keep).any isFence = win.any isFence := by
  induction win with
  | nil => rfl
  | cons e win ih =>
      cases hk : keep e with
      | true => simp [hk, ih]
      | false => simp [hk, ih, isFence_of_not_isOperation (hkeep e hk)]

/-- Assertions do not matter to whether a window is open. -/
lemma openWindow_filter_iff (hkeep : ∀ e, keep e = false → e.isOperation = false) :
    OpenWindow R (win.filter keep) ↔ OpenWindow R win := by
  -- what is filtered out stores nothing and flushes nothing
  have hsums : ∀ p, sums R (p.filter keep) = sums R p := fun p => by
    rw [sums, sums, storeRanges_filter hkeep]
  constructor
  · intro h
    refine ⟨fun e he => ?_, fun e he => ?_, fun p hp => ?_⟩
    · intro hop
      have hk : keep e = true := by
        by_contra hk
        rw [hkeep e (by simpa using hk)] at hop
        cases hop
      exact h.oneRange e (List.mem_filter.mpr ⟨he, hk⟩) hop
    · cases hk : keep e with
      | true => exact h.noFlush e (List.mem_filter.mpr ⟨he, hk⟩)
      | false =>
          have hrel := @isRelevant_of_not_isOperation R e (hkeep e hk)
          rw [isRelevant, Bool.or_eq_false_iff, Option.isSome_eq_false_iff,
            Option.isSome_eq_false_iff, Option.isNone_iff_eq_none] at hrel
          exact Option.isNone_iff_eq_none.mp hrel.2
    · obtain ⟨acc, hacc, hcov⟩ := h.unfinished (p.filter keep) (hp.filter keep)
      rw [hsums] at hacc
      rw [storeRanges_filter hkeep] at hcov
      exact ⟨acc, hacc, hcov⟩
  · intro h
    refine ⟨fun e he => h.oneRange e (List.mem_filter.mp he).1,
      fun e he => h.noFlush e (List.mem_filter.mp he).1, fun p hp => ?_⟩
    obtain ⟨q, hq⟩ := hp
    obtain ⟨p', q', rfl, rfl, -⟩ := List.filter_eq_append_iff.mp hq.symm
    obtain ⟨acc, hacc, hcov⟩ := h.unfinished p' (List.prefix_append p' q')
    exact ⟨acc, by rw [hsums, hacc], by rwa [storeRanges_filter hkeep]⟩

lemma keep_of_isRelevant (hkeep : ∀ e, keep e = false → e.isOperation = false)
    (he : isRelevant R e = true) : keep e = true := by
  by_contra hk
  rw [isRelevant_of_not_isOperation (hkeep e (by simpa using hk))] at he
  cases he

/-- Nor do they to what the window misses. -/
lemma Window.filter (hkeep : ∀ e, keep e = false → e.isOperation = false)
    (h : Window clSz R older win mf mfe) :
    Window clSz R (older.filter keep) (win.filter keep) mf mfe := by
  cases h with
  | @store _ win e a acc hwin h1 he hacc hcov =>
      have hk := @keep_of_isRelevant R keep e hkeep (by simp [isRelevant, he])
      have hcut : (win ++ [e]).filter keep = win.filter keep ++ [e] := by
        simp [List.filter_append, hk]
      rw [sums, ← storeRanges_filter hkeep, hcut] at hacc
      rw [hcut, ← any_isFence_filter hkeep]
      exact .store ((openWindow_filter_iff hkeep).mpr hwin) h1 he hacc hcov
  | @flush _ win e a hwin h1 he hline hfence =>
      have hk := @keep_of_isRelevant R keep e hkeep (by simp [isRelevant, he])
      have hcut : (win ++ [e]).filter keep = win.filter keep ++ [e] := by
        simp [List.filter_append, hk]
      rw [← any_isFence_filter hkeep] at hfence
      rw [hcut]
      exact .flush ((openWindow_filter_iff hkeep).mpr hwin) h1 he hline hfence
  | start hwin =>
      rw [← any_isFence_filter hkeep]
      exact .start ((openWindow_filter_iff hkeep).mpr hwin)

/-- A window without the assertions is one with them. -/
lemma Window.of_filter (hkeep : ∀ e, keep e = false → e.isOperation = false)
    {all win' older' : List TraceEvent} (hall : all.filter keep = win' ++ older')
    (h : Window clSz R older' win' mf mfe) :
    ∃ win older, all = win ++ older ∧ win.filter keep = win' ∧ Window clSz R older win mf mfe := by
  -- the filtered window ends at an event that is kept, where the window itself ends
  have hcut : ∀ (w : List TraceEvent) (e : TraceEvent), all.filter keep = w ++ [e] ++ older' →
      ∃ win older, all = win ++ [e] ++ older ∧ win.filter keep = w ∧
        (win ++ [e]).filter keep = w ++ [e] := by
    intro w e heq
    rw [List.append_assoc] at heq
    obtain ⟨p, q, rfl, rfl, hq⟩ := List.filter_eq_append_iff.mp heq
    obtain ⟨p', q', rfl, hp', he, -⟩ := List.filter_eq_cons_iff.mp hq
    have hnil : p'.filter keep = [] := List.filter_eq_nil_iff.mpr hp'
    exact ⟨p ++ p', q', by simp, by simp [hnil], by simp [hnil, he]⟩
  cases h with
  | @store _ w e a acc hwin h1 he hacc hcov =>
      obtain ⟨win, older, hsplit, rfl, hcat⟩ := hcut w e hall
      refine ⟨win ++ [e], older, hsplit, hcat, ?_⟩
      rw [sums, ← hcat, storeRanges_filter hkeep] at hacc
      rw [any_isFence_filter hkeep]
      exact .store ((openWindow_filter_iff hkeep).mp hwin) h1 he hacc hcov
  | @flush _ w e a hwin h1 he hline hfence =>
      obtain ⟨win, older, hsplit, rfl, hcat⟩ := hcut w e hall
      refine ⟨win ++ [e], older, hsplit, hcat, ?_⟩
      rw [any_isFence_filter hkeep] at hfence
      exact .flush ((openWindow_filter_iff hkeep).mp hwin) h1 he hline hfence
  | start hwin =>
      rw [List.append_nil] at hall
      subst hall
      refine ⟨all, [], by simp, rfl, ?_⟩
      rw [any_isFence_filter hkeep]
      exact .start ((openWindow_filter_iff hkeep).mp hwin)

/-- An assertion meets the same operations with and without the other assertions. -/
lemma meets_filter_iff (hkeep : ∀ e, keep e = false → e.isOperation = false)
    {p q : List TraceEvent} {te op : TraceEvent} :
    Meets clSz (p.filter keep ++ te :: q.filter keep) (p.filter keep).length te mf mfe op ↔
      Meets clSz (p ++ te :: q) p.length te mf mfe op := by
  have hpast : ∀ p q : List TraceEvent, past (p ++ te :: q) p.length = p.reverse := by
    intro p q
    rw [past, List.take_left]
  constructor
  · rintro ⟨R, win', older', hR, heq, hwin, hmem, hrel⟩
    rw [hpast, ← List.filter_reverse] at heq
    obtain ⟨win, older, hall, rfl, hwindow⟩ := hwin.of_filter hkeep heq
    exact ⟨R, win, older, hR, by rw [hpast, hall], hwindow, (List.mem_filter.mp hmem).1, hrel⟩
  · rintro ⟨R, win, older, hR, heq, hwin, hmem, hrel⟩
    rw [hpast] at heq
    refine ⟨R, win.filter keep, older.filter keep, hR, ?_, hwin.filter hkeep,
      List.mem_filter.mpr ⟨hmem, keep_of_isRelevant hkeep hrel⟩, hrel⟩
    rw [hpast, ← List.filter_reverse, heq, List.filter_append]

end Filter

/-- **The fixer on the deduplicated trace** finds the fixes of the kept assertions. -/
theorem fixes_optRemoveRedtBugs (clSz : ℕ) (t : List TraceEvent) :
    fixes clSz (BugReport.optRemoveRedtBugs t) Set.univ =
      fixes clSz t {te | te ∈ BugReport.optRemoveRedtBugs t} := by
  set keep : TraceEvent → Bool := fun te => !BugReport.isBug te ||
    decide (te ∈ BugReport.uniqueBugs (BugReport.getBugs t)
      ((BugReport.getBugs t).map TraceEvent.callstack).toFinset) with hdef
  have hfilter : BugReport.optRemoveRedtBugs t = t.filter keep := rfl
  have hkeep : ∀ e, keep e = false → e.isOperation = false := by
    intro e he
    rw [hdef, Bool.or_eq_false_iff] at he
    have hbug : BugReport.isBug e = true := by simpa using he.1
    cases ht : e.type <;> simp [BugReport.isBug, ht] at hbug <;> simp [TraceEvent.isOperation, ht]
  -- an index into a trace cuts it at the event
  have hsplit : ∀ (l : List TraceEvent) (b : ℕ) (te : TraceEvent), l[b]? = some te →
      ∃ p q, l = p ++ te :: q ∧ p.length = b := by
    intro l b te hb
    obtain ⟨hlt, rfl⟩ := List.getElem?_eq_some_iff.mp hb
    exact ⟨l.take b, l.drop (b + 1), by simp, by simp [hlt.le]⟩
  ext ⟨l, mf, mfe⟩
  rw [mem_fixes_iff, mem_fixes_iff, hfilter]
  constructor
  · rintro ⟨b, te, op, hb, hfail, -, hmeet, hloc⟩
    obtain ⟨p', q', heq, rfl⟩ := hsplit _ b te hb
    have hte : te ∈ t.filter keep := List.mem_of_getElem? hb
    obtain ⟨p₁, q₁, rfl, rfl, hq⟩ := List.filter_eq_append_iff.mp heq
    obtain ⟨p₂, q, rfl, hp₂, hk, rfl⟩ := List.filter_eq_cons_iff.mp hq
    have hp : (p₁ ++ p₂).filter keep = p₁.filter keep := by
      simp [List.filter_eq_nil_iff.mpr hp₂]
    rw [heq, ← hp, meets_filter_iff hkeep] at hmeet
    exact ⟨(p₁ ++ p₂).length, te, op, by simp, hfail, hte, by simpa using hmeet, hloc⟩
  · rintro ⟨b, te, op, hb, hfail, hte, hmeet, hloc⟩
    obtain ⟨p, q, rfl, rfl⟩ := hsplit t b te hb
    have hk := (List.mem_filter.mp hte).2
    have heq : (p ++ te :: q).filter keep = p.filter keep ++ te :: q.filter keep := by
      rw [List.filter_append, List.filter_cons_of_pos hk]
    refine ⟨(p.filter keep).length, te, op, ?_, hfail, trivial, ?_, hloc⟩
    · rw [heq, List.getElem?_append_right le_rfl]
      simp
    · rwa [heq, meets_filter_iff hkeep]

end Hippocrates
