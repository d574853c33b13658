import Mathlib.Tactic
import Hippocrates.Diagnosis.Soundness

/-!
The states the scan of `BugFixer::handleAssertPersisted` goes through (`Visits`), and what
holds in them.

* `scan_stores`: over stores that overlap the bug's range, the accumulated range is a connected
  component, it contains the bug's range exactly when the stores cover it, and the scan is left
  at the first store that completes the coverage.
* `noFlushAfterFence_iff`: the assertion that no overlapping flush is met after a fence holds
  exactly when the stores after the last overlapping flush cover the range, unless no fence
  follows that flush.
-/

namespace Hippocrates

open TraceEvent.EventType TraceEvent Persistency Interval

/-- The scan over `past` is about to visit the events, with the variables `s`. -/
inductive Visits (clSz : ℕ) (R : AddressInfo) (past : List TraceEvent) :
    List TraceEvent → ScanState → Prop
  | start : Visits clSz R past past ScanState.init
  | next {e : TraceEvent} {older : List TraceEvent} {s s' : ScanState}
      (h : Visits clSz R past (e :: older) s)
      (hvisit : scanEvent clSz R older.length e s = some (s', false)) :
      Visits clSz R past older s'

/-- The scan visits what follows an open window, with the variables after it. -/
lemma visits_iff {clSz : ℕ} {R : AddressInfo} {past rest : List TraceEvent} {s : ScanState} :
    Visits clSz R past rest s ↔
      ∃ win, past = win ++ rest ∧ OpenWindow R win ∧ s = stateAfter R rest.length win := by
  constructor
  · intro h
    induction h with
    | start => exact ⟨[], rfl, openWindow_nil R, rfl⟩
    | @next e older s s' _ hvisit ih =>
        obtain ⟨win, rfl, hopen, rfl⟩ := ih
        -- a visit either fails, or leaves the window open, or ends the scan
        rcases @OpenWindow.visit_cases clSz older.length R win e hopen with
          hnone | hopen' | ⟨s'', hstop, -, -⟩
        · rw [List.length_cons, hnone] at hvisit
          cases hvisit
        · rw [List.length_cons, hopen'.visit_open] at hvisit
          simp only [Option.some.injEq, Prod.mk.injEq, and_true] at hvisit
          exact ⟨win ++ [e], by simp, hopen', hvisit.symm⟩
        · rw [List.length_cons, hstop] at hvisit
          simp at hvisit
  · rintro ⟨win, rfl, hopen, rfl⟩
    induction win using List.reverseRecOn generalizing rest with
    | nil => exact .start
    | append_singleton win e ih =>
        have hvisit := @ih (e :: rest) hopen.of_append
        rw [List.append_assoc, List.singleton_append]
        exact hvisit.next hopen.visit_open

section Windows

variable {R : AddressInfo} {win : List TraceEvent}

/-- The sum of a well-formed window exists. -/
lemma exists_sums (hw : ∀ e ∈ win, e.WellFormed) (hR : R.WellFormed) :
    ∃ acc, sums R win = some acc := by
  have hranges : ∀ a ∈ storeRanges R win, a.WellFormed := fun a ha => by
    obtain ⟨e, he, hea⟩ := mem_storeRanges.mp ha
    exact (storesTo_of_storeRange (hw e he) hR hea).1
  obtain ⟨acc, hacc, -⟩ := accumulate_foldlM hranges
  exact ⟨acc, hacc⟩

/-- A well-formed window is open when it has no overlapping flush and its stores do not cover
the bug's range. -/
lemma openWindow_iff (hw : ∀ e ∈ win, e.WellFormed) (hR : R.WellFormed) :
    OpenWindow R win ↔
      (∀ e ∈ win, flushRange R e = none) ∧ ¬ ∀ x ∈ R, ∃ e ∈ win, e.StoresTo x := by
  refine ⟨fun h => ⟨h.noFlush, h.not_cover hw hR⟩, fun ⟨hflush, hcov⟩ => ⟨?_, hflush, ?_⟩⟩
  · intro e he hop
    rw [(hw e he).arity]
    cases ht : e.type <;> simp [TraceEvent.isOperation, TraceEvent.arity, ht] at hop ⊢
  · intro p hp
    have hwp : ∀ e ∈ p, e.WellFormed := fun e he => hw e (hp.subset he)
    obtain ⟨acc, hacc⟩ := exists_sums hwp hR
    refine ⟨acc, hacc, fun hne => ?_⟩
    rw [← Bool.not_eq_true, contains_sums_iff hwp hR hacc hne]
    refine fun hcovp => hcov fun x hx => ?_
    obtain ⟨e, he, hst⟩ := hcovp x hx
    exact ⟨e, hp.subset he, hst⟩

end Windows

/-! ### Stores over the bug's range -/

/-- A store whose range overlaps the bug's. -/
structure OverlappingStore (R : AddressInfo) (e : TraceEvent) : Prop where
  type : e.type = STORE
  range : ∃ a, e.addresses = [a] ∧ a.WellFormed ∧ a.overlaps R = true

/-- The ranges of the stores, in the order of the visits. -/
def ranges (stores : List TraceEvent) : List AddressInfo := stores.flatMap TraceEvent.addresses

/-- The ranges cover that of the bug. -/
def Covers (R : AddressInfo) (seen : List AddressInfo) : Prop := ∀ x ∈ R, ∃ a ∈ seen, x ∈ a

/-- The sum of the ranges seen is the connected component of the first, nothing set aside can be
added to it, and it contains the bug's range exactly when the ranges cover it. -/
structure SumsComponent (R : AddressInfo) (seen : List AddressInfo) (first : AddressInfo)
    (acc : AddressInfo × List AddressInfo) : Prop where
  component : ∀ x, x ∈ acc.1 ↔ ∃ a ∈ seen,
    Linked (seen.map AddressInfo.ival) first.ival a.ival ∧ x ∈ a
  unadded : ∀ u ∈ acc.2, acc.1.canAdd u = some false
  contains : acc.1.contains R = true ↔ Covers R seen

section Stores

variable {R : AddressInfo}

/-- Ranges that overlap the bug's are accumulated into a component. -/
lemma sumsComponent {seen : List AddressInfo} {first : AddressInfo} (hR : R.WellFormed)
    (hw : ∀ a ∈ first :: seen, a.WellFormed)
    (hov : ∀ a ∈ first :: seen, a.overlaps R = true) :
    ∃ acc, (first :: seen).foldlM (fun acc a => accumulate a acc) noRange = some acc ∧
      SumsComponent R (first :: seen) first acc := by
  obtain ⟨acc, hacc, hspec, hfirst⟩ := accumulate_foldlM hw
  have hne : (first :: seen).reverse ≠ [] := by simp
  obtain ⟨hwacc, hwrest, hmerged, hsat⟩ := hspec.resolve_left fun h => hne h.1
  refine ⟨acc, hacc, ⟨fun x => ?_, fun u hu => ?_, ?_⟩⟩
  · have hival : ∀ c ∈ ((first :: seen).reverse.map AddressInfo.ival), c.1 < c.2 := by
      intro c hc
      obtain ⟨a, ha, rfl⟩ := List.mem_map.mp hc
      exact Nat.lt_add_of_pos_right (hw a (List.mem_reverse.mp ha)).one_le
    have hmem : first.ival ∈ (first :: seen).reverse.map AddressInfo.ival :=
      List.mem_map_of_mem (by simp)
    have hin : first.ival.1 ∈ pts acc.1.ival := hfirst first rfl
    -- the ranges are accumulated in reverse, but what is linked does not depend on the order
    have hperm := (first :: seen).reverse_perm.map AddressInfo.ival
    have hsame : ∀ {a b : ℕ × ℕ}, Linked ((first :: seen).reverse.map AddressInfo.ival) a b ↔
        Linked ((first :: seen).map AddressInfo.ival) a b := fun {a b} =>
      ⟨Linked.mono fun c hc => hperm.mem_iff.mp hc, Linked.mono fun c hc => hperm.mem_iff.mpr hc⟩
    rw [← AddressInfo.mem_pts_ival, hmerged.mem_iff_linked hsat hival hmem hin]
    simp only [hsame, List.mem_map, List.mem_reverse, exists_exists_and_eq_and,
      AddressInfo.mem_pts_ival]
  · have hnot := hsat u.ival (List.mem_map_of_mem hu)
    rw [AddressInfo.canAdd_eq hwacc (hwrest u hu)]
    simp [hnot]
  · rw [hspec.contains_iff hne hR, Covers]
    · simp only [List.mem_reverse]
    · intro a ha
      have ha' := List.mem_reverse.mp ha
      obtain ⟨x, hxa, hxR⟩ := (AddressInfo.overlaps_iff (hw a ha') hR).mp (hov a ha')
      exact ⟨x, hxR, hxa⟩

lemma OverlappingStore.wellFormed {e : TraceEvent} (h : OverlappingStore R e) : e.WellFormed := by
  obtain ⟨a, ha, hwa, -⟩ := h.range
  exact ⟨by simp [ha, h.type, TraceEvent.arity], by simpa [ha] using hwa⟩

lemma OverlappingStore.storeRange_eq {e : TraceEvent} (h : OverlappingStore R e) :
    ∃ a, storeRange R e = some a ∧ e.addresses = [a] := by
  obtain ⟨a, ha, -, hov⟩ := h.range
  exact ⟨a, by simp [storeRange, h.type, ha, hov], ha⟩

lemma storeRanges_eq {stores : List TraceEvent} (h : ∀ e ∈ stores, OverlappingStore R e) :
    storeRanges R stores = ranges stores := by
  induction stores with
  | nil => rfl
  | cons e stores ih =>
      obtain ⟨a, hea, haddr⟩ := (h e List.mem_cons_self).storeRange_eq
      have htail := ih fun d hd => h d (List.mem_cons_of_mem e hd)
      rw [storeRanges, List.filterMap_cons_some hea, ranges, List.flatMap_cons, haddr]
      exact congrArg (a :: ·) htail

lemma covers_ranges_iff {stores : List TraceEvent} (h : ∀ e ∈ stores, OverlappingStore R e) :
    Covers R (ranges stores) ↔ ∀ x ∈ R, ∃ e ∈ stores, e.StoresTo x := by
  refine forall₂_congr fun x _ => ?_
  simp only [ranges, List.mem_flatMap, StoresTo]
  constructor
  · rintro ⟨a, ⟨e, he, ha⟩, hx⟩
    exact ⟨e, he, (h e he).type, a, ha, hx⟩
  · rintro ⟨e, he, -, a, ha, hx⟩
    exact ⟨a, ⟨e, he, ha⟩, hx⟩

/-- The sum of stores that overlap the bug's range. -/
lemma exists_sumsComponent {stores : List TraceEvent} (hR : R.WellFormed)
    (hst : ∀ d ∈ stores, OverlappingStore R d) (hne : stores ≠ []) :
    ∃ first acc, (ranges stores).head? = some first ∧
      (ranges stores).foldlM (fun acc a => accumulate a acc) noRange = some acc ∧
      SumsComponent R (ranges stores) first acc := by
  obtain ⟨first, seen, hr⟩ : ∃ first seen, ranges stores = first :: seen := by
    cases stores with
    | nil => exact absurd rfl hne
    | cons e stores =>
        obtain ⟨a, -, haddr⟩ := (hst e List.mem_cons_self).storeRange_eq
        exact ⟨a, ranges stores, by rw [ranges, List.flatMap_cons, haddr]; rfl⟩
  have hspec : ∀ b ∈ ranges stores, b.WellFormed ∧ b.overlaps R = true := by
    intro b hb
    obtain ⟨d, hd, hbd⟩ := List.mem_flatMap.mp hb
    obtain ⟨c, hc, hwc, hov⟩ := (hst d hd).range
    rw [hc, List.mem_singleton] at hbd
    exact hbd ▸ ⟨hwc, hov⟩
  rw [hr] at hspec ⊢
  obtain ⟨acc, hacc, hcomp⟩ :=
    sumsComponent hR (fun b hb => (hspec b hb).1) fun b hb => (hspec b hb).2
  exact ⟨first, acc, rfl, hacc, hcomp⟩

/-- **The accumulation stops exactly at coverage.** After any stores that overlap the bug's
range, the sum is the connected component of the first store, saturated, and contains the bug's
range exactly when the stores cover it. The scan reaches a store exactly when the stores before
it do not cover the range, and is left there exactly when it completes the coverage. -/
theorem scan_stores {clSz : ℕ} {p older : List TraceEvent} {e : TraceEvent} (hR : R.WellFormed)
    (hst : ∀ d ∈ p ++ [e], OverlappingStore R d) :
    (∃ first acc, (ranges (p ++ [e])).head? = some first ∧
      (ranges (p ++ [e])).foldlM (fun acc a => accumulate a acc) noRange = some acc ∧
      SumsComponent R (ranges (p ++ [e])) first acc) ∧
    ((∃ s, Visits clSz R (p ++ e :: older) (e :: older) s) ↔ ¬ Covers R (ranges p)) ∧
    ∀ s, Visits clSz R (p ++ e :: older) (e :: older) s →
      ∃ s' stop, scanEvent clSz R older.length e s = some (s', stop) ∧
        (ranges (p ++ [e])).foldlM (fun acc a => accumulate a acc) noRange = some s'.addrInfo ∧
        (stop = true ↔ Covers R (ranges (p ++ [e]))) := by
  have hp : ∀ d ∈ p, OverlappingStore R d := fun d hd => hst d (List.mem_append_left _ hd)
  have he := hst e (by simp)
  obtain ⟨a, hea, -⟩ := he.storeRange_eq
  have hsum := exists_sumsComponent hR hst (by simp)
  have hopen : OpenWindow R p ↔ ¬ Covers R (ranges p) := by
    rw [openWindow_iff (fun d hd => (hp d hd).wellFormed) hR, covers_ranges_iff hp]
    exact and_iff_right fun d hd =>
      (hp d hd).storeRange_eq.elim fun b hb => flushRange_of_storeRange hb.1
  -- the scan can only come to the store with the window `p` before it
  have hreach : ∀ s, Visits clSz R (p ++ e :: older) (e :: older) s →
      OpenWindow R p ∧ s = stateAfter R (older.length + 1) p := by
    intro s hs
    obtain ⟨win, heq, hwin, rfl⟩ := visits_iff.mp hs
    obtain rfl := List.append_cancel_right heq
    exact ⟨hwin, rfl⟩
  refine ⟨hsum, ⟨fun ⟨s, hs⟩ => hopen.mp (hreach s hs).1, fun hcov =>
    ⟨_, visits_iff.mpr ⟨p, rfl, hopen.mpr hcov, rfl⟩⟩⟩, fun s hs => ?_⟩
  obtain ⟨hwin, rfl⟩ := hreach s hs
  obtain ⟨first, acc, -, hacc, hcomp⟩ := hsum
  have hsums : sums R (p ++ [e]) = some acc := by rw [sums, storeRanges_eq hst, hacc]
  have h1 : HasOneRange e := fun _ => by simp [he.wellFormed.arity, he.type, TraceEvent.arity]
  exact ⟨_, _, hwin.visit_store h1 hea hsums, hacc, hcomp.contains⟩

end Stores

/-- Two stores with a gap, visited first. -/
def gapStores : List TraceEvent :=
  [⟨STORE, 3, [⟨4096, 8⟩], ⟨"main", "gap.c", 12⟩, false, [], none⟩,
    ⟨STORE, 2, [⟨4112, 8⟩], ⟨"main", "gap.c", 11⟩, false, [], none⟩]

/-- The store that bridges it. -/
def bridgeStore : TraceEvent := ⟨STORE, 1, [⟨4104, 8⟩], ⟨"main", "gap.c", 10⟩, false, [], none⟩

lemma gapStores_overlapping :
    ∀ d ∈ gapStores ++ [bridgeStore], OverlappingStore ⟨4096, 24⟩ d := by
  simp only [gapStores, bridgeStore, List.cons_append, List.nil_append, List.forall_mem_cons,
    List.not_mem_nil, false_imp_iff, implies_true, and_true]
  exact ⟨⟨rfl, _, rfl, ⟨by decide, by decide⟩, by decide⟩,
    ⟨rfl, _, rfl, ⟨by decide, by decide⟩, by decide⟩,
    ⟨rfl, _, rfl, ⟨by decide, by decide⟩, by decide⟩⟩

/-- The scan is left at the bridging store. -/
theorem scan_stores_bridge :
    ∃ s s', Visits 64 ⟨4096, 24⟩ (gapStores ++ bridgeStore :: []) [bridgeStore] s ∧
      scanEvent 64 ⟨4096, 24⟩ 0 bridgeStore s = some (s', true) := by
  obtain ⟨-, hreach, hstop⟩ := @scan_stores ⟨4096, 24⟩ 64 gapStores [] bridgeStore
    ⟨by decide, by decide⟩ gapStores_overlapping
  obtain ⟨s, hs⟩ := hreach.mpr fun hcov => by
    obtain ⟨a, ha, hx⟩ := hcov 4104 (by decide)
    revert a
    decide
  obtain ⟨s', stop, hvisit, -, hcov⟩ := hstop s hs
  have hcovers : Covers ⟨4096, 24⟩ (ranges (gapStores ++ [bridgeStore])) := by
    intro x hx
    simp only [AddressInfo.mem_iff] at hx
    simp only [ranges, gapStores, bridgeStore, List.cons_append, List.nil_append,
      List.flatMap_cons, List.flatMap_nil, List.mem_cons, List.not_mem_nil, or_false,
      exists_eq_or_imp, exists_eq_left, AddressInfo.mem_iff]
    omega
  obtain rfl := hcov.mpr hcovers
  exact ⟨s, s', hs, hvisit⟩

/-! ### Flushes after fences -/

/-- The assertion `missingFence == true` holds at every overlapping flush that is visited. -/
def NoFlushAfterFence (clSz : ℕ) (R : AddressInfo) (past : List TraceEvent) : Prop :=
  ∀ f older s, Visits clSz R past (f :: older) s → flushRange R f ≠ none →
    s.missingFence = true

/-- If a fence comes after the last flush that overlaps the range, the stores after that flush
cover the range. -/
def RewrittenSinceFlush (R : AddressInfo) (trace : List TraceEvent) : Prop :=
  ∀ p f q, trace = p ++ f :: q → flushRange R f ≠ none → (∀ e ∈ q, flushRange R e = none) →
    (∃ e ∈ q, e.type = FENCE) → ∀ x ∈ R, ∃ e ∈ q, e.StoresTo x

/-- **When no flush is met after a fence**: exactly when the stores after the last overlapping
flush cover the range, or no fence comes after it. -/
theorem noFlushAfterFence_iff {clSz b : ℕ} {t : List TraceEvent} {te : TraceEvent}
    {R : AddressInfo} (hw : ∀ e ∈ t, e.WellFormed) (hte : t[b]? = some te)
    (hR : te.addresses = [R]) :
    NoFlushAfterFence clSz R (past t b) ↔ RewrittenSinceFlush R (t.take b) := by
  have hwR : R.WellFormed := (hw te (List.mem_of_getElem? hte)).addresses R (by simp [hR])
  have hwt : ∀ e ∈ t.take b, e.WellFormed := fun e he => hw e (List.mem_of_mem_take he)
  rw [past]
  generalize t.take b = l at hwt
  have hsplit : ∀ {p q : List TraceEvent} {f : TraceEvent},
      l.reverse = q ++ f :: p ↔ l = p.reverse ++ f :: q.reverse := fun {p q f} => by
    rw [← List.reverse_inj, List.reverse_reverse]
    simp
  constructor
  · intro hno p f q heq hf hlast hfence
    by_contra hcov
    subst heq
    have hwq : ∀ e ∈ q.reverse, e.WellFormed := fun e he =>
      hwt e (List.mem_append_right p (List.mem_cons_of_mem f (List.mem_reverse.mp he)))
    -- the scan passes the events after the flush
    have hopen : OpenWindow R q.reverse :=
      (openWindow_iff hwq hwR).mpr ⟨by simpa using hlast, by simpa using hcov⟩
    have hvisits : Visits clSz R (p ++ f :: q).reverse (f :: p.reverse)
        (stateAfter R (f :: p.reverse).length q.reverse) :=
      visits_iff.mpr ⟨q.reverse, by simp, hopen, rfl⟩
    have hmissing := hno f p.reverse _ hvisits hf
    have hnone : q.reverse.any isFence = false := by simpa [stateAfter] using hmissing
    obtain ⟨e, he, ht⟩ := hfence
    exact (any_isFence_eq_false hwq).mp hnone e (List.mem_reverse.mpr he) ht
  · intro hrew f older s hvisits hf
    obtain ⟨win, heq, hopen, rfl⟩ := visits_iff.mp hvisits
    have hl := hsplit.mp heq
    have hww : ∀ e ∈ win, e.WellFormed := fun e he => hwt e (by simp [hl, he])
    by_contra hmissing
    have hany : win.any isFence = true := by simpa [stateAfter] using hmissing
    have hfence : ∃ e ∈ win, e.type = FENCE := by
      by_contra hnone
      rw [(any_isFence_eq_false hww).mpr fun e he ht => hnone ⟨e, he, ht⟩] at hany
      cases hany
    refine hopen.not_cover hww hwR ?_
    simpa using hrew older.reverse f win.reverse hl hf (by simpa using hopen.noFlush)
      (by simpa using hfence)

/-- A range of which one half is persisted and the other stored to again. -/
def halfRewritten : List TraceEvent :=
  [⟨STORE, 1, [⟨4096, 8⟩], ⟨"main", "half.c", 10⟩, false, [], none⟩,
    ⟨FLUSH, 2, [⟨4096, 64⟩], ⟨"main", "half.c", 11⟩, false, [], none⟩,
    ⟨FENCE, 3, [], ⟨"main", "half.c", 12⟩, false, [], none⟩,
    ⟨STORE, 4, [⟨4104, 8⟩], ⟨"main", "half.c", 13⟩, false, [], none⟩,
    ⟨ASSERT_PERSISTED, 5, [⟨4096, 16⟩], ⟨"main", "half.c", 14⟩, true, [], none⟩]

lemma halfRewritten_wellFormed : ∀ e ∈ halfRewritten, e.WellFormed := by
  simp only [halfRewritten, List.forall_mem_cons, List.not_mem_nil, false_imp_iff,
    implies_true, and_true]
  refine ⟨⟨rfl, ?_⟩, ⟨rfl, ?_⟩, ⟨rfl, ?_⟩, ⟨rfl, ?_⟩, ⟨rfl, ?_⟩⟩ <;> simp
  · exact ⟨by decide, by decide⟩
  · exact ⟨by decide, by decide⟩
  · exact ⟨by decide, by decide⟩
  · exact ⟨by decide, by decide⟩

/-- The scan reaches the flush of the persisted half with the fence passed, and fails there; the
bytes of the other half are not durable. -/
theorem halfRewritten_flushAfterFence :
    (∀ e ∈ halfRewritten, e.WellFormed ∧
      ∀ a ∈ e.addresses, a.isSingleCacheLine 64 = true) ∧
    halfRewritten[4]?.map TraceEvent.addresses = some [⟨4096, 16⟩] ∧
    (∃ x ∈ (⟨4096, 16⟩ : AddressInfo), Written x (opsOf (halfRewritten.take 4)) ∧
      ¬ Durable x (opsOf (halfRewritten.take 4))) ∧
    ¬ NoFlushAfterFence 64 ⟨4096, 16⟩ (past halfRewritten 4) := by
  refine ⟨fun e he => ⟨halfRewritten_wellFormed e he, ?_⟩, rfl, ⟨4104, by decide, ?_, ?_⟩, ?_⟩
  · revert e
    decide
  · simp [Written, halfRewritten, ops, AddressInfo.mem_iff]
  · rw [durable_iff_replay]
    decide
  · intro hno
    have hvisits : Visits 64 ⟨4096, 16⟩ (past halfRewritten 4)
        ((past halfRewritten 4).drop 2) ⟨true, false, [3], (⟨4104, 8⟩, [])⟩ :=
      (Visits.start.next rfl).next rfl
    exact absurd (hno _ _ _ hvisits (by decide)) (by decide)

theorem noFlushAfterFence_iff_halfRewritten :
    NoFlushAfterFence 64 ⟨4096, 16⟩ (past halfRewritten 4) ↔
      RewrittenSinceFlush ⟨4096, 16⟩ (halfRewritten.take 4) :=
  noFlushAfterFence_iff halfRewritten_wellFormed rfl rfl

end Hippocrates
