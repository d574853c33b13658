import Mathlib.Data.List.Sort
import Mathlib.Tactic
import Hippocrates.Lib.IntervalTree
import Hippocrates.Report.Dedup

/-!
`BugReport._optimize` of `Reports.py`, which prepares the trace for the fixer: repeated bugs are
dropped (`Hippocrates.Report.Dedup`), then stores and flushes unrelated to a bug, then the
stores and flushes are rewritten through an interval tree, and last repeated fences are dropped.

`arb` is the order in which a set of intervals is enumerated; `none` is a missing key or an
empty interval.

* `addBugAddrs`, `removeUnrelated`, `rewriteStores`, `removeFences`, `optimize`: the passes.
* `optimize_spec`: what the passes keep, of a trace with increasing timestamps. No flush is
  kept: the third pass adds the stores a flush covers to the trace, and not the flush.
* `optimize_stores`: the stores that are left are those to a byte of a kept bug.
* `optimize_replay_iff`: a kept bug sees the same state of its range as before exactly when no
  byte of the range is flushed after its last store.
-/

namespace Hippocrates

open TraceEvent.EventType TraceEvent Persistency

namespace BugReport

/-- `_get_range`. -/
def getRange (te : TraceEvent) : Option (ℕ × ℕ) :=
  match te.addresses with
  | [a] => some (a.address, a.address + a.length)
  | _ => none

/-- `_get_bug_addresses`. -/
def getBugAddresses (bug : TraceEvent) : Option ((ℕ × ℕ) × Option (ℕ × ℕ)) :=
  if bug.type = ASSERT_ORDERED then
    match bug.addresses with
    | [a, b] => some ((a.address, a.address + a.length), some (b.address, b.address + b.length))
    | _ => none
  else
    match bug.addresses with
    | [a] => some ((a.address, a.address + a.length), none)
    | _ => none

/-- The ranges of one event of the trace, if it is a bug, are added to the tree. -/
def addBugAddrs (addrs : IntervalTree Unit) (te : TraceEvent) : Option (IntervalTree Unit) :=
  if !isBug te then some addrs
  else
    match getBugAddresses te with
    | none => none
    | some (a1, none) => addrs.add a1.1 a1.2 ()
    | some (a1, some a2) => (addrs.add a1.1 a1.2 ()).bind fun addrs => addrs.add a2.1 a2.2 ()

/-- The second pass: stores and flushes that overlap no bug are dropped. The source goes
through the trace backwards and reverses the result. -/
def removeUnrelated (addrs : IntervalTree Unit) : List TraceEvent → Option (List TraceEvent)
  | [] => some []
  | te :: rest =>
    if te.type ≠ STORE ∧ te.type ≠ FLUSH then
      (removeUnrelated addrs rest).map (te :: ·)
    else
      match getRange te with
      | none => none
      | some (b, e) =>
        if addrs.overlap b e ≠ [] then (removeUnrelated addrs rest).map (te :: ·)
        else removeUnrelated addrs rest

/-- The loop of the third pass, with the stores in flight and the new trace. -/
def rewriteStep (arb : IntervalTree TraceEvent → IntervalTree TraceEvent)
    (s : IntervalTree TraceEvent × List TraceEvent) (te : TraceEvent) :
    Option (IntervalTree TraceEvent × List TraceEvent) :=
  if te.type ≠ FLUSH ∧ te.type ≠ STORE then some (s.1, s.2 ++ [te])
  else
    match getRange te with
    | none => none
    | some (b, e) =>
      if te.type = FLUSH then
        let tes := s.1.overlap b e
        if tes ≠ [] then
          some (s.1.removeOverlap b e, s.2 ++ (arb tes).map TreeInterval.data)
        else some s
      else (s.1.add b e te).map fun in_flight => (in_flight, s.2)

/-- The third pass: the stores a flush covers are added to the new trace, and at the end those
that were never flushed; the result is sorted. -/
def rewriteStores (arb : IntervalTree TraceEvent → IntervalTree TraceEvent)
    (trace : List TraceEvent) : Option (List TraceEvent) :=
  (trace.foldlM (rewriteStep arb) ([], [])).map fun s =>
    (s.2 ++ (arb s.1).map TreeInterval.data).insertionSort fun a b => a.timestamp ≤ b.timestamp

/-- The fourth pass: a fence whose predecessor, bugs aside, is a fence is dropped. -/
def removeFences (bugs : List TraceEvent) : Option TraceEvent → List TraceEvent → List TraceEvent
  | _, [] => []
  | prev_te, te :: rest =>
    if te ∈ bugs then te :: removeFences bugs prev_te rest
    else if te.type = FENCE ∧ prev_te.map TraceEvent.type = some FENCE then
      removeFences bugs prev_te rest
    else te :: removeFences bugs (some te) rest

/-- `_optimize`. -/
def optimize (arb : IntervalTree TraceEvent → IntervalTree TraceEvent)
    (trace : List TraceEvent) : Option (List TraceEvent) :=
  let bugs := getBugs trace
  let trace := optRemoveRedtBugs trace
  match trace.foldlM addBugAddrs [] with
  | none => none
  | some unique_bug_addrs =>
    match removeUnrelated unique_bug_addrs trace with
    | none => none
    | some trace =>
      match rewriteStores arb trace with
      | none => none
      | some trace => some (removeFences bugs none trace)

/-! ### The passes on an ordered trace -/

/-- Timestamps increase, and every event has the nonempty ranges of its kind. -/
structure Ordered (t : List TraceEvent) : Prop where
  timestamps : t.Pairwise fun a b => a.timestamp < b.timestamp
  arity : ∀ e ∈ t, e.addresses.length = arity e.type
  one_le : ∀ e ∈ t, ∀ a ∈ e.addresses, 1 ≤ a.length

lemma Ordered.sublist {t t' : List TraceEvent} (h : Ordered t) (hs : t'.Sublist t) : Ordered t' :=
  ⟨h.timestamps.sublist hs, fun e he => h.arity e (hs.subset he),
    fun e he => h.one_le e (hs.subset he)⟩

/-- The timestamp tells the events apart. -/
lemma Ordered.eq_of_timestamp {t : List TraceEvent} (h : Ordered t) {a b : TraceEvent}
    (ha : a ∈ t) (hb : b ∈ t) (hab : a.timestamp = b.timestamp) : a = b := by
  have hnodup : (t.map TraceEvent.timestamp).Nodup :=
    List.pairwise_map.mpr (h.timestamps.imp ne_of_lt)
  exact List.inj_on_of_nodup_map hnodup ha hb hab

/-- What comes before an event has a smaller timestamp. -/
lemma Ordered.mem_take_iff {t : List TraceEvent} (h : Ordered t) {i : ℕ} {te e : TraceEvent}
    (hi : t[i]? = some te) : e ∈ t.take i ↔ e ∈ t ∧ e.timestamp < te.timestamp := by
  obtain ⟨hlt, rfl⟩ := List.getElem?_eq_some_iff.mp hi
  have hsplit : t.take i ++ t[i] :: t.drop (i + 1) = t := by simp
  have hpw := h.timestamps
  rw [← hsplit, List.pairwise_append, List.pairwise_cons] at hpw
  obtain ⟨-, ⟨hafter, -⟩, hbefore⟩ := hpw
  constructor
  · exact fun he => ⟨List.mem_of_mem_take he, hbefore e he _ List.mem_cons_self⟩
  · rintro ⟨he, hts⟩
    rw [← hsplit, List.mem_append, List.mem_cons] at he
    rcases he with he | rfl | he
    · exact he
    · exact absurd hts (lt_irrefl _)
    · exact absurd hts (not_lt.mpr (hafter e he).le)

/-- The range of an event with one range. -/
lemma getRange_eq {te : TraceEvent} (h : te.addresses.length = 1) :
    ∃ a, te.addresses = [a] ∧ getRange te = some (a.address, a.address + a.length) := by
  obtain ⟨a, ha⟩ := List.length_eq_one_iff.mp h
  exact ⟨a, ha, by rw [getRange, ha]⟩

/-- An event adds the ranges of its bug. -/
lemma exists_addBugAddrs {te : TraceEvent} (addrs : IntervalTree Unit)
    (harity : te.addresses.length = arity te.type) (hone : ∀ a ∈ te.addresses, 1 ≤ a.length) :
    ∃ addrs', addBugAddrs addrs te = some addrs' ∧
      ∀ i, i ∈ addrs' ↔ i ∈ addrs ∨ (isBug te = true ∧
        ∃ a ∈ te.addresses, i = ⟨a.address, a.address + a.length, ()⟩) := by
  rw [addBugAddrs]
  cases hbug : isBug te with
  | false => exact ⟨addrs, rfl, by simp⟩
  | true =>
      by_cases ht : te.type = ASSERT_ORDERED
      · have hlen : te.addresses.length = 2 := by rw [harity, ht]; rfl
        obtain ⟨a, b, hab⟩ := List.length_eq_two.mp hlen
        have ha := hone a (by simp [hab])
        have hb := hone b (by simp [hab])
        obtain ⟨t₁, ht₁, hmem₁⟩ :=
          IntervalTree.exists_add (t := addrs) () (show a.address < a.address + a.length by omega)
        obtain ⟨t₂, ht₂, hmem₂⟩ :=
          IntervalTree.exists_add (t := t₁) () (show b.address < b.address + b.length by omega)
        refine ⟨t₂, by simp [getBugAddresses, ht, hab, ht₁, ht₂], fun i => ?_⟩
        -- both ranges of an ordering bug are added
        rw [hmem₂, hmem₁, hab]
        simp only [List.mem_cons, List.not_mem_nil, or_false, true_and, exists_eq_or_imp,
          exists_eq_left]
        tauto
      · have hlen : te.addresses.length = 1 := by
          rw [harity]
          cases hty : te.type <;> simp [isBug, hty] at hbug ht <;> rfl
        obtain ⟨a, ha⟩ := List.length_eq_one_iff.mp hlen
        have hpos := hone a (by simp [ha])
        obtain ⟨t₁, ht₁, hmem₁⟩ :=
          IntervalTree.exists_add (t := addrs) () (show a.address < a.address + a.length by omega)
        refine ⟨t₁, by simp [getBugAddresses, ht, ha, ht₁], fun i => ?_⟩
        rw [hmem₁, ha]
        simp [or_comm]

/-- The tree of the second pass holds the ranges of all bugs. -/
lemma exists_foldlM_addBugAddrs {t : List TraceEvent} (h : Ordered t)
    (addrs : IntervalTree Unit) : ∃ addrs', t.foldlM addBugAddrs addrs = some addrs' ∧
      ∀ i, i ∈ addrs' ↔ i ∈ addrs ∨ ∃ bug ∈ t, isBug bug = true ∧
        ∃ a ∈ bug.addresses, i = ⟨a.address, a.address + a.length, ()⟩ := by
  induction t generalizing addrs with
  | nil => exact ⟨addrs, rfl, by simp⟩
  | cons te t ih =>
      obtain ⟨addrs₁, h₁, hmem₁⟩ := exists_addBugAddrs addrs (h.arity te List.mem_cons_self)
        (h.one_le te List.mem_cons_self)
      obtain ⟨addrs₂, h₂, hmem₂⟩ := ih (h.sublist (List.sublist_cons_self te t)) addrs₁
      refine ⟨addrs₂, by rw [List.foldlM_cons, h₁]; exact h₂, fun i => ?_⟩
      rw [hmem₂, hmem₁]
      simp only [List.exists_mem_cons_iff, or_assoc]

/-- What the second pass keeps. -/
def related (addrs : IntervalTree Unit) (te : TraceEvent) : Bool :=
  (te.type ≠ STORE && te.type ≠ FLUSH) ||
    te.addresses.any fun a => !(addrs.overlap a.address (a.address + a.length)).isEmpty

lemma removeUnrelated_eq {t : List TraceEvent} (h : Ordered t) (addrs : IntervalTree Unit) :
    removeUnrelated addrs t = some (t.filter (related addrs)) := by
  induction t with
  | nil => rfl
  | cons te t ih =>
      have ih := ih (h.sublist (List.sublist_cons_self te t))
      rw [removeUnrelated, ih]
      by_cases hty : te.type ≠ STORE ∧ te.type ≠ FLUSH
      · have hrel : related addrs te = true := by simp [related, hty]
        rw [if_pos hty, List.filter_cons_of_pos hrel]
        rfl
      -- a store or a flush has one range, which is looked up
      · have hlen : te.addresses.length = 1 := by
          rw [h.arity te List.mem_cons_self]
          cases ht : te.type <;> simp [ht] at hty <;> rfl
        obtain ⟨a, ha, hrange⟩ := getRange_eq hlen
        have hrel : related addrs te =
            !(addrs.overlap a.address (a.address + a.length)).isEmpty := by
          have hstf : (te.type ≠ STORE && te.type ≠ FLUSH) = false := by
            by_contra hne
            exact hty (by simpa using hne)
          rw [related, hstf, ha]
          simp
        rw [if_neg hty, hrange]
        dsimp only
        split_ifs with hov
        · rw [List.filter_cons_of_pos (by simpa [hrel] using hov)]
          rfl
        · rw [List.filter_cons_of_neg (by simpa [hrel] using hov)]

/-! ### The third pass -/

/-- What the third pass keeps. -/
def isFlushless (te : TraceEvent) : Bool := te.type ≠ FLUSH

section Rewrite

variable {arb : IntervalTree TraceEvent → IntervalTree TraceEvent}

/-- After the events `seen`, those but the flushes are in flight or in the new trace. -/
def Rewritten (seen : List TraceEvent) (s : IntervalTree TraceEvent × List TraceEvent) : Prop :=
  (s.1.map TreeInterval.data ++ s.2).Perm (seen.filter isFlushless)

variable {seen : List TraceEvent} {s : IntervalTree TraceEvent × List TraceEvent}
  {te : TraceEvent}

/-- An event that is kept is added. -/
lemma Rewritten.concat {s' : IntervalTree TraceEvent × List TraceEvent} (h : Rewritten seen s)
    (hkeep : isFlushless te = true)
    (hadd : (s'.1.map TreeInterval.data ++ s'.2).Perm
      (s.1.map TreeInterval.data ++ s.2 ++ [te])) : Rewritten (seen ++ [te]) s' := by
  rw [Rewritten, List.filter_append, List.filter_singleton, hkeep]
  exact hadd.trans (h.append_right [te])

/-- An event that is dropped changes nothing. -/
lemma rewritten_concat_iff (hdrop : isFlushless te = false) :
    Rewritten (seen ++ [te]) s ↔ Rewritten seen s := by
  rw [Rewritten, Rewritten, List.filter_append, List.filter_singleton, hdrop, cond_false,
    List.append_nil]

/-- A flush moves the stores in flight that it meets to the new trace. -/
lemma Rewritten.flush (harb : ∀ l, (arb l).Perm l) (h : Rewritten seen s)
    (hdrop : isFlushless te = false) (start stop : ℕ) :
    Rewritten (seen ++ [te]) (s.1.removeOverlap start stop,
      s.2 ++ (arb (s.1.overlap start stop)).map TreeInterval.data) := by
  have harb' := (harb (s.1.overlap start stop)).map TreeInterval.data
  have hsplit := (IntervalTree.overlap_append_removeOverlap s.1 start stop).map TreeInterval.data
  rw [List.map_append] at hsplit
  have hout := (List.perm_append_comm.trans hsplit).append_right s.2
  rw [List.append_assoc] at hout
  rw [rewritten_concat_iff hdrop]
  exact (((List.perm_append_comm.trans (harb'.append_right s.2)).append_left _).trans hout).trans h

/-- The stores in flight have been seen. -/
lemma Rewritten.data_ne (h : Rewritten seen s) (hnew : te ∉ seen) : ∀ i ∈ s.1, i.data ≠ te := by
  rintro i hi rfl
  have hmem : i.data ∈ seen.filter isFlushless :=
    h.subset (List.mem_append_left s.2 (List.mem_map_of_mem hi))
  exact hnew (List.mem_filter.mp hmem).1

/-- **One round** of the third pass. -/
lemma Rewritten.step (harb : ∀ l, (arb l).Perm l) (h : Rewritten seen s)
    (hnew : te ∉ seen) (harity : te.addresses.length = arity te.type)
    (hone : ∀ a ∈ te.addresses, 1 ≤ a.length) :
    ∃ s', rewriteStep arb s te = some s' ∧ Rewritten (seen ++ [te]) s' := by
  rw [rewriteStep]
  by_cases hty : te.type ≠ FLUSH ∧ te.type ≠ STORE
  · refine ⟨_, if_pos hty, h.concat (by simpa [isFlushless] using hty.1) ?_⟩
    rw [List.append_assoc]
  · have hlen : te.addresses.length = 1 := by
      rw [harity]
      cases ht : te.type <;> simp [ht] at hty <;> rfl
    obtain ⟨a, ha, hrange⟩ := getRange_eq hlen
    rw [if_neg hty, hrange]
    dsimp only
    by_cases hflush : te.type = FLUSH
    -- a flush is dropped, and the stores that it covers go from the tree to the new trace
    · have hdrop : isFlushless te = false := by simp [isFlushless, hflush]
      rw [if_pos hflush]
      split_ifs with htes
      · exact ⟨_, rfl, h.flush harb hdrop _ _⟩
      · exact ⟨s, rfl, (rewritten_concat_iff hdrop).mpr h⟩
    · have hstore : te.type = STORE := by
        by_contra hne
        exact hty ⟨hflush, hne⟩
      have hpos := hone a (by simp [ha])
      rw [if_neg hflush, IntervalTree.add_of_new (by omega) (h.data_ne hnew)]
      refine ⟨_, rfl, h.concat (by simp [isFlushless, hstore]) ?_⟩
      exact (List.perm_append_singleton te _).symm

lemma Rewritten.run (harb : ∀ l, (arb l).Perm l) {seen rest : List TraceEvent}
    {s : IntervalTree TraceEvent × List TraceEvent} (h : Rewritten seen s)
    (hord : Ordered (seen ++ rest)) :
    ∃ s', rest.foldlM (rewriteStep arb) s = some s' ∧ Rewritten (seen ++ rest) s' := by
  induction rest generalizing seen s with
  | nil => exact ⟨s, rfl, by simpa using h⟩
  | cons te rest ih =>
      have hassoc : seen ++ te :: rest = seen ++ [te] ++ rest := by simp
      have hmem : te ∈ seen ++ te :: rest := by simp
      have hnew : te ∉ seen := fun hin =>
        lt_irrefl _ ((List.pairwise_append.mp hord.timestamps).2.2 te hin te List.mem_cons_self)
      obtain ⟨s₁, h₁, hs₁⟩ := h.step harb hnew (hord.arity te hmem) (hord.one_le te hmem)
      rw [hassoc] at hord ⊢
      obtain ⟨s₂, h₂, hs₂⟩ := ih hs₁ hord
      exact ⟨s₂, by rw [List.foldlM_cons, h₁]; exact h₂, hs₂⟩

/-- The third pass drops the flushes, whatever the order of the sets. -/
lemma rewriteStores_eq (harb : ∀ l, (arb l).Perm l) {t : List TraceEvent} (h : Ordered t) :
    rewriteStores arb t = some (t.filter isFlushless) := by
  have hinit : Rewritten [] ([], []) := List.Perm.refl _
  obtain ⟨s, hs, hperm⟩ := hinit.run harb (by simpa using h)
  rw [rewriteStores, hs, Option.map_some]
  congr 1
  have hsorted : (t.filter isFlushless).Pairwise fun a b => a.timestamp < b.timestamp :=
    h.timestamps.sublist List.filter_sublist
  have hall : (s.2 ++ (arb s.1).map TreeInterval.data).Perm (t.filter isFlushless) :=
    (List.perm_append_comm.trans (((harb s.1).map TreeInterval.data).append_right s.2)).trans hperm
  refine ((List.perm_insertionSort _ _).trans hall).eq_of_pairwise (fun a b ha hb hab hba => ?_)
    (List.pairwise_insertionSort _ _) (hsorted.imp le_of_lt)
  have hta := (List.mem_filter.mp (((List.perm_insertionSort _ _).trans hall).subset ha)).1
  exact h.eq_of_timestamp hta (List.mem_filter.mp hb).1 (le_antisymm hab hba)

end Rewrite

/-! ### The fourth pass, and all of them -/

lemma removeFences_sublist (bugs : List TraceEvent) (prev : Option TraceEvent)
    (t : List TraceEvent) : (removeFences bugs prev t).Sublist t := by
  induction t generalizing prev with
  | nil => exact List.Sublist.refl _
  | cons te t ih =>
      rw [removeFences]
      split_ifs
      · exact (ih prev).cons_cons te
      · exact (ih prev).cons te
      · exact (ih (some te)).cons_cons te

/-- The fourth pass drops fences only. -/
lemma mem_removeFences {bugs t : List TraceEvent} {prev : Option TraceEvent} {e : TraceEvent}
    (he : e ∈ t) (hf : e.type ≠ FENCE) : e ∈ removeFences bugs prev t := by
  induction t generalizing prev with
  | nil => exact absurd he List.not_mem_nil
  | cons te t ih =>
      rw [removeFences]
      rcases List.mem_cons.mp he with rfl | he
      · split_ifs with hbug hfence
        · exact List.mem_cons_self
        · exact absurd hfence.1 hf
        · exact List.mem_cons_self
      · split_ifs
        · exact List.mem_cons_of_mem te (ih he)
        · exact ih he
        · exact List.mem_cons_of_mem te (ih he)

/-- The bug has a range with the byte. -/
def Covers (bug : TraceEvent) (x : ℕ) : Prop := isBug bug = true ∧ ∃ a ∈ bug.addresses, x ∈ a

/-- The passes on an ordered trace: three filters, and the last pass. -/
lemma optimize_eq {arb : IntervalTree TraceEvent → IntervalTree TraceEvent}
    (harb : ∀ l, (arb l).Perm l) {t : List TraceEvent} (h : Ordered t) :
    ∃ addrs : IntervalTree Unit,
      (∀ i, i ∈ addrs ↔ ∃ bug ∈ optRemoveRedtBugs t, isBug bug = true ∧
        ∃ a ∈ bug.addresses, i = ⟨a.address, a.address + a.length, ()⟩) ∧
      optimize arb t = some (removeFences (getBugs t) none
        (((optRemoveRedtBugs t).filter (related addrs)).filter isFlushless)) := by
  have h₁ : Ordered (optRemoveRedtBugs t) := h.sublist List.filter_sublist
  obtain ⟨addrs, haddrs, hmem⟩ := exists_foldlM_addBugAddrs h₁ []
  have h₂ := h₁.sublist (List.filter_sublist (p := related addrs))
  refine ⟨addrs, by simpa using hmem, ?_⟩
  rw [optimize, haddrs]
  dsimp only
  rw [removeUnrelated_eq h₁]
  dsimp only
  rw [rewriteStores_eq harb h₂]

/-- A store to a byte of a bug that the first pass keeps. -/
def StoresToBug (t : List TraceEvent) (e : TraceEvent) : Prop :=
  ∃ bug ∈ optRemoveRedtBugs t, ∃ x, Covers bug x ∧ e.StoresTo x

/-- A store is related to the ranges of the kept bugs exactly when it shares a byte with one. -/
lemma related_iff_storesToBug {t : List TraceEvent} {addrs : IntervalTree Unit} {e : TraceEvent}
    (h : Ordered t)
    (haddrs : ∀ i, i ∈ addrs ↔ ∃ bug ∈ optRemoveRedtBugs t, isBug bug = true ∧
      ∃ a ∈ bug.addresses, i = ⟨a.address, a.address + a.length, ()⟩)
    (hst : e.type = STORE) : related addrs e = true ↔ StoresToBug t e := by
  have hrel : related addrs e = true ↔
      ∃ b ∈ e.addresses, addrs.overlap b.address (b.address + b.length) ≠ [] := by
    rw [related, hst, List.any_eq]
    simp
  rw [hrel]
  constructor
  · rintro ⟨b, hb, hov⟩
    obtain ⟨i, hi, hlt, hfirst, hlast⟩ := IntervalTree.overlap_ne_nil_iff.mp hov
    obtain ⟨bug, hbug, hisbug, a, ha, rfl⟩ := (haddrs i).mp hi
    dsimp only at hfirst hlast
    have hpos := h.one_le bug (mem_optRemoveRedtBugs.mp hbug).1 a ha
    -- the byte that is shared is the greater of the two starts
    have hxa : max a.address b.address ∈ a := by
      rw [AddressInfo.mem_iff]
      omega
    have hxb : max a.address b.address ∈ b := by
      rw [AddressInfo.mem_iff]
      omega
    exact ⟨bug, hbug, _, ⟨hisbug, a, ha, hxa⟩, hst, b, hb, hxb⟩
  · rintro ⟨bug, hbug, x, ⟨hisbug, a, ha, hxa⟩, -, b, hb, hxb⟩
    refine ⟨b, hb, ?_⟩
    rw [AddressInfo.mem_iff] at hxa hxb
    rw [IntervalTree.overlap_ne_nil_iff]
    refine ⟨_, (haddrs _).mpr ⟨bug, hbug, hisbug, a, ha, rfl⟩, ?_⟩
    exact ⟨by omega, by dsimp only; omega, by dsimp only; omega⟩

/-- **What the passes keep**: a part of the trace, without flushes, with the bugs of the first
pass and all stores to a byte of one of them. -/
theorem optimize_spec {arb : IntervalTree TraceEvent → IntervalTree TraceEvent}
    (harb : ∀ l, (arb l).Perm l) {t : List TraceEvent} (h : Ordered t) :
    ∃ t', optimize arb t = some t' ∧ t'.Sublist t ∧ (∀ e ∈ t', e.type ≠ FLUSH) ∧
      ∀ e ∈ t, e.type = STORE → ∀ bug ∈ t', ∀ x, Covers bug x → e.StoresTo x → e ∈ t' := by
  obtain ⟨addrs, haddrs, hrun⟩ := optimize_eq harb h
  refine ⟨_, hrun, ?_, fun e he => ?_, fun e he hst bug hbug x hx hex => ?_⟩
  · exact (removeFences_sublist _ _ _).trans
      (List.filter_sublist.trans (List.filter_sublist.trans List.filter_sublist))
  · have hin := (removeFences_sublist _ _ _).subset he
    simpa [isFlushless] using (List.mem_filter.mp hin).2
  · have hbug₁ : bug ∈ optRemoveRedtBugs t :=
      (List.mem_filter.mp (List.mem_filter.mp ((removeFences_sublist _ _ _).subset hbug)).1).1
    have hnobug : isBug e = false := by simp [isBug, hst]
    have he₁ : e ∈ optRemoveRedtBugs t := mem_optRemoveRedtBugs.mpr ⟨he, by simp [hnobug]⟩
    have hrel := (related_iff_storesToBug h haddrs hst).mpr ⟨bug, hbug₁, x, hx, hex⟩
    refine mem_removeFences ?_ (by simp [hst])
    exact List.mem_filter.mpr ⟨List.mem_filter.mpr ⟨he₁, hrel⟩, by simp [isFlushless, hst]⟩

/-- **The stores that are left** are those to a byte of a kept bug, each once, in the order of
the trace. -/
theorem optimize_stores {arb : IntervalTree TraceEvent → IntervalTree TraceEvent}
    (harb : ∀ l, (arb l).Perm l) {t : List TraceEvent} (h : Ordered t) :
    ∃ t', optimize arb t = some t' ∧ t'.Sublist t ∧ t'.Nodup ∧
      ∀ e, e.type = STORE → (e ∈ t' ↔ e ∈ t ∧ StoresToBug t e) := by
  obtain ⟨addrs, haddrs, hrun⟩ := optimize_eq harb h
  have hsub : (removeFences (getBugs t) none
      (((optRemoveRedtBugs t).filter (related addrs)).filter isFlushless)).Sublist t :=
    (removeFences_sublist _ _ _).trans
      (List.filter_sublist.trans (List.filter_sublist.trans List.filter_sublist))
  have hnodup : t.Nodup := h.timestamps.imp fun hlt heq => (heq ▸ hlt).false
  refine ⟨_, hrun, hsub, hnodup.sublist hsub, fun e hst => ⟨fun he => ?_, fun ⟨he, hbug⟩ => ?_⟩⟩
  · have hmem := (removeFences_sublist _ _ _).subset he
    have hrel := (List.mem_filter.mp (List.mem_filter.mp hmem).1).2
    have ht := hsub.subset he
    exact ⟨ht, (related_iff_storesToBug h haddrs hst).mp hrel⟩
  · have he₁ : e ∈ optRemoveRedtBugs t :=
      mem_optRemoveRedtBugs.mpr ⟨he, by simp [isBug, hst]⟩
    have hrel := (related_iff_storesToBug h haddrs hst).mpr hbug
    refine mem_removeFences ?_ (by simp [hst])
    exact List.mem_filter.mpr ⟨List.mem_filter.mpr ⟨he₁, hrel⟩, by simp [isFlushless, hst]⟩

end BugReport

/-! ### The state at a bug -/

/-- The byte is not flushed after its last store. -/
def NotFlushedSince (x : ℕ) (t : List TraceEvent) : Prop :=
  ∀ q, SinceStore x (opsOf t) q → ¬ Flushed x q

/-- The state of the bytes of the bug `te`, at `i` in `t`, is the same at `j` in `t'`. -/
def SameState (t : List TraceEvent) (i : ℕ) (t' : List TraceEvent) (j : ℕ) (te : TraceEvent) :
    Prop :=
  ∀ a ∈ te.addresses, ∀ x ∈ a, replay x (opsOf (t'.take j)) = replay x (opsOf (t.take i))

lemma written_opsOf {x : ℕ} {t : List TraceEvent} :
    Written x (opsOf t) ↔ ∃ e ∈ t, e.StoresTo x := by
  simp only [Written, opsOf, List.mem_flatMap, ← exists_stores_iff]
  tauto

/-- **The state at a kept bug** is that of the given trace exactly when no byte of its range is
flushed after its last store. -/
theorem optimize_replay_iff {arb : IntervalTree TraceEvent → IntervalTree TraceEvent}
    (harb : ∀ l, (arb l).Perm l) {t : List TraceEvent} (h : BugReport.Ordered t) :
    ∃ t', BugReport.optimize arb t = some t' ∧
      ∀ (i j : ℕ) (te : TraceEvent), t[i]? = some te → t'[j]? = some te →
        BugReport.isBug te = true →
        (SameState t i t' j te ↔
          ∀ a ∈ te.addresses, ∀ x ∈ a, NotFlushedSince x (t.take i)) := by
  obtain ⟨t', hrun, hsub, hnoflush, hstores⟩ := BugReport.optimize_spec harb h
  refine ⟨t', hrun, fun i j te hi hj hbug => forall₄_congr fun a ha x hx => ?_⟩
  have h' := h.sublist hsub
  have hcov : BugReport.Covers te x := ⟨hbug, a, ha, hx⟩
  -- the stores to the byte are kept, so it is written in both or in neither
  have hwritten : Written x (opsOf (t'.take j)) ↔ Written x (opsOf (t.take i)) := by
    rw [written_opsOf, written_opsOf]
    constructor
    · rintro ⟨e, he, hex⟩
      obtain ⟨he', hts⟩ := (h'.mem_take_iff hj).mp he
      exact ⟨e, (h.mem_take_iff hi).mpr ⟨hsub.subset he', hts⟩, hex⟩
    · rintro ⟨e, he, hex⟩
      obtain ⟨he', hts⟩ := (h.mem_take_iff hi).mp he
      have hin := hstores e he' hex.1 te (List.mem_of_getElem? hj) x hcov hex
      exact ⟨e, (h'.mem_take_iff hj).mpr ⟨hin, hts⟩, hex⟩
  -- no flush is kept, so in the other trace the byte is dirty once it is written
  have hflushless : ∀ q, SinceStore x (opsOf (t'.take j)) q → ¬ Flushed x q := by
    rintro q ⟨p, o, heq, -, -⟩ ⟨o', ho', hx'⟩
    have hmem : o' ∈ opsOf (t'.take j) := by simp [heq, ho']
    obtain ⟨e, he, heo⟩ := List.mem_flatMap.mp hmem
    exact hnoflush e (List.mem_of_mem_take he) (exists_flushes_iff.mp ⟨o', heo, hx'⟩).1
  by_cases hw : Written x (opsOf (t.take i))
  · obtain ⟨q, hq⟩ := exists_sinceStore hw
    obtain ⟨q', hq'⟩ := exists_sinceStore (hwritten.mpr hw)
    have hdirty : replay x (opsOf (t'.take j)) = .dirty :=
      hq'.replay_eq_dirty_iff.mpr (hflushless q' hq')
    rw [hdirty, eq_comm, hq.replay_eq_dirty_iff]
    exact ⟨fun hf q₁ hq₁ => hq₁.unique hq ▸ hf, fun hall => hall q hq⟩
  · have hclean := replay_eq_clean_iff.mpr hw
    have hclean' := replay_eq_clean_iff.mpr (mt hwritten.mp hw)
    exact iff_of_true (hclean'.trans hclean.symm) fun q hq => absurd hq.written hw

/-- A store that is flushed and not fenced. -/
def flushedStore : List TraceEvent :=
  [⟨STORE, 1, [⟨4096, 8⟩], ⟨"update", "update.c", 10⟩, false, [⟨"update", "update.c", 10⟩], none⟩,
    ⟨FLUSH, 2, [⟨4096, 64⟩], ⟨"update", "update.c", 11⟩, false, [⟨"update", "update.c", 11⟩], none⟩,
    ⟨ASSERT_PERSISTED, 3, [⟨4096, 8⟩], ⟨"update", "update.c", 12⟩, true,
      [⟨"update", "update.c", 12⟩], none⟩]

lemma flushedStore_ordered : BugReport.Ordered flushedStore :=
  ⟨by decide, by decide, by decide⟩

/-- A store elsewhere, and two stores that overlap the bug. -/
def threeStores : List TraceEvent :=
  [⟨STORE, 1, [⟨8192, 8⟩], ⟨"update", "update.c", 8⟩, false, [⟨"update", "update.c", 8⟩], none⟩,
    ⟨STORE, 2, [⟨4096, 8⟩], ⟨"update", "update.c", 9⟩, false, [⟨"update", "update.c", 9⟩], none⟩,
    ⟨STORE, 3, [⟨4100, 8⟩], ⟨"update", "update.c", 10⟩, false, [⟨"update", "update.c", 10⟩], none⟩,
    ⟨FLUSH, 4, [⟨4096, 64⟩], ⟨"update", "update.c", 11⟩, false, [⟨"update", "update.c", 11⟩], none⟩,
    ⟨ASSERT_PERSISTED, 5, [⟨4096, 8⟩], ⟨"update", "update.c", 12⟩, true,
      [⟨"update", "update.c", 12⟩], none⟩]

/-- The store elsewhere and the flush are dropped. -/
theorem optimize_stores_threeStores :
    ∃ t', BugReport.optimize id threeStores = some t' ∧ t'.map TraceEvent.timestamp = [2, 3, 5] ∧
      t'.Sublist threeStores ∧ t'.Nodup ∧
      ∀ e, e.type = STORE →
        (e ∈ t' ↔ e ∈ threeStores ∧ BugReport.StoresToBug threeStores e) := by
  have hrun : (BugReport.optimize id threeStores).map (List.map TraceEvent.timestamp) =
      some [2, 3, 5] := by decide
  obtain ⟨t', ht', htimes⟩ := Option.map_eq_some_iff.mp hrun
  have hordered : BugReport.Ordered threeStores := ⟨by decide, by decide, by decide⟩
  obtain ⟨t₀, ht₀, hstores⟩ := BugReport.optimize_stores (fun _ => List.Perm.refl _) hordered
  obtain rfl := Option.some.inj (ht'.symm.trans ht₀)
  exact ⟨t', ht', htimes, hstores⟩

/-- The flush is dropped: the byte at 4096 is flushed at the bug, and dirty afterwards. -/
theorem flushedStore_state_changed :
    ∃ te t', flushedStore[2]? = some te ∧ BugReport.isBug te = true ∧
      BugReport.optimize id flushedStore = some t' ∧ t'[1]? = some te ∧
      replay 4096 (opsOf (flushedStore.take 2)) = .flushed ∧
      replay 4096 (opsOf (t'.take 1)) = .dirty ∧ ¬ SameState flushedStore 2 t' 1 te := by
  refine ⟨_, _, rfl, rfl, rfl, rfl, by decide, by decide, fun hsame => ?_⟩
  have hstate := hsame ⟨4096, 8⟩ (by simp) 4096 (by decide)
  revert hstate
  decide

theorem optimize_replay_iff_flushedStore :
    ∃ t', BugReport.optimize id flushedStore = some t' ∧
      ∀ (i j : ℕ) (te : TraceEvent), flushedStore[i]? = some te → t'[j]? = some te →
        BugReport.isBug te = true →
        (SameState flushedStore i t' j te ↔
          ∀ a ∈ te.addresses, ∀ x ∈ a, NotFlushedSince x (flushedStore.take i)) :=
  optimize_replay_iff (fun _ => List.Perm.refl _) flushedStore_ordered

end Hippocrates
