import Mathlib
import Hippocrates.ParseTrace.Accepted
import Hippocrates.Report.Optimize
import Hippocrates.Trace.TraceInfo

/-!
The way of a trace from the log of pmemcheck to the fixer: `_parse_pmemcheck`, `BugReport.dump`
with `_optimize`, and `TraceInfoBuilder::build`.

* `optimize_fixpoint`: the passes of `_optimize` leave nothing for a second run, and do not depend
  on the order in which the intervals of a set are enumerated.
* `Event.record`: the events of the parser, as the records that the passes work on.
* `diagnose_congr`: the diagnosis of a bug depends on the kinds and ranges of the events only.
* `parsedReport_built`: a report that has been written is read, up to the renaming of frames, as the
  trace that was written, and the diagnoses are those of that trace.
-/

namespace Hippocrates

open TraceEvent TraceEvent.EventType

namespace BugReport

/-! ### A second run of the passes -/

/-- On what it has left, the fourth pass does nothing. -/
lemma removeFences_removeFences {bugs bugs' l : List TraceEvent} {prev prev' : Option TraceEvent}
    (hbugs : ∀ e ∈ l, e ∈ bugs' ↔ e ∈ bugs)
    (hprev : prev'.map TraceEvent.type = prev.map TraceEvent.type) :
    removeFences bugs' prev' (removeFences bugs prev l) = removeFences bugs prev l := by
  induction l generalizing prev prev' with
  | nil => rfl
  | cons te l ih =>
      obtain ⟨hte, hl⟩ := List.forall_mem_cons.mp hbugs
      rw [removeFences]
      split_ifs with hbug hfence
      · rw [removeFences, if_pos (hte.mpr hbug), ih hl hprev]
      · exact ih hl hprev
      · rw [removeFences, if_neg (fun h => hbug (hte.mp h)), hprev, if_neg hfence, ih hl rfl]

/-- The bugs that are left are the first with their stacks among what is left. -/
lemma firstWithStack_sublist {t t' : List TraceEvent} {te : TraceEvent} (h : Ordered t)
    (hsub : t'.Sublist t) (hte : te ∈ t') (hfirst : FirstWithStack t te) :
    FirstWithStack t' te := by
  obtain ⟨p, q, rfl, hp⟩ := hfirst
  obtain ⟨p', q', rfl⟩ := List.append_of_mem hte
  refine ⟨p', q', rfl, fun b hb => hp b ?_⟩
  have hlt : b.timestamp < te.timestamp :=
    (List.pairwise_append.mp (h.sublist hsub).timestamps).2.2 b hb te List.mem_cons_self
  have hb' : b ∈ p ++ te :: q := hsub.subset (List.mem_append_left _ hb)
  obtain ⟨-, hcons, -⟩ := List.pairwise_append.mp h.timestamps
  rcases List.mem_append.mp hb' with hbp | hbq
  · exact hbp
  · rcases List.mem_cons.mp hbq with rfl | hbq
    · exact absurd hlt (lt_irrefl _)
    · exact absurd hlt (not_lt.mpr ((List.pairwise_cons.mp hcons).1 b hbq).le)

/-- The second pass depends on which ranges the tree has. -/
lemma related_congr {addrs addrs' : IntervalTree Unit} (h : ∀ i, i ∈ addrs' ↔ i ∈ addrs) :
    related addrs' = related addrs := by
  have hoverlap : ∀ b e, (addrs'.overlap b e).isEmpty = (addrs.overlap b e).isEmpty := by
    intro b e
    rw [Bool.eq_iff_iff, List.isEmpty_iff, List.isEmpty_iff, ← not_iff_not]
    simp only [← ne_eq, IntervalTree.overlap_ne_nil_iff, h]
  funext te
  simp only [related, hoverlap]

lemma type_of_isBug {te : TraceEvent} (h : isBug te = true) :
    te.type ≠ STORE ∧ te.type ≠ FLUSH ∧ te.type ≠ FENCE := by
  cases htype : te.type <;> simp [isBug, htype] at h ⊢

/-- Bugs pass the filters between the first pass and the last. -/
lemma mem_filters_of_isBug {t : List TraceEvent} {addrs : IntervalTree Unit} {te : TraceEvent}
    (hte : te ∈ t) (hbug : isBug te = true) :
    te ∈ (t.filter (related addrs)).filter isFlushless := by
  obtain ⟨hstore, hflush, -⟩ := type_of_isBug hbug
  refine List.mem_filter.mpr ⟨List.mem_filter.mpr ⟨hte, ?_⟩, ?_⟩
  · simp [related, hstore, hflush]
  · simp [isFlushless, hflush]

/-- **The passes leave nothing for a second run**: whichever order the intervals of a set are
enumerated in, they give the same trace, and of this trace they drop nothing. -/
theorem optimize_fixpoint {t : List TraceEvent} (h : Ordered t) :
    ∃ t', ∀ arb : IntervalTree TraceEvent → IntervalTree TraceEvent, (∀ l, (arb l).Perm l) →
      optimize arb t = some t' ∧ optimize arb t' = some t' := by
  obtain ⟨addrs, haddrs, -⟩ := optimize_eq (fun l => List.Perm.refl (id l)) h
  set l := ((optRemoveRedtBugs t).filter (related addrs)).filter isFlushless with hl
  set t' := removeFences (getBugs t) none l with ht'
  have hlt' : t'.Sublist l := removeFences_sublist _ _ _
  have hlt : l.Sublist t :=
    List.filter_sublist.trans (List.filter_sublist.trans List.filter_sublist)
  have hord := h.sublist (hlt'.trans hlt)
  have hbug : ∀ e, isBug e = true → (e ∈ t' ↔ e ∈ optRemoveRedtBugs t) := by
    intro e he
    constructor
    · intro het'
      exact (List.mem_filter.mp (List.mem_filter.mp (hlt'.subset het')).1).1
    · exact fun het => mem_removeFences (mem_filters_of_isBug het he) (type_of_isBug he).2.2
  -- the first pass keeps all of what is left
  have hdedup : optRemoveRedtBugs t' = t' := by
    refine List.filter_eq_self.mpr fun e he => ?_
    refine (List.mem_filter.mp (mem_optRemoveRedtBugs.mpr ⟨he, fun hebug => ?_⟩)).2
    have hfirst := (mem_optRemoveRedtBugs.mp ((hbug e hebug).mp he)).2 hebug
    exact firstWithStack_sublist h (hlt'.trans hlt) he hfirst
  refine ⟨t', fun arb harb => ⟨?_, ?_⟩⟩
  · obtain ⟨addrs₁, haddrs₁, hrun⟩ := optimize_eq harb h
    have hrel : related addrs₁ = related addrs :=
      related_congr fun i => (haddrs₁ i).trans (haddrs i).symm
    rw [hrun, hrel]
  · obtain ⟨addrs₁, haddrs₁, hrun⟩ := optimize_eq harb hord
    have hrel : related addrs₁ = related addrs := by
      refine related_congr fun i => ?_
      rw [haddrs₁, haddrs, hdedup]
      refine exists_congr fun bug => ?_
      constructor
      · rintro ⟨hmem, hb, hrange⟩
        exact ⟨(hbug bug hb).mp hmem, hb, hrange⟩
      · rintro ⟨hmem, hb, hrange⟩
        exact ⟨(hbug bug hb).mpr hmem, hb, hrange⟩
    have hrelated : t'.filter (related addrs) = t' := List.filter_eq_self.mpr fun e he =>
      (List.mem_filter.mp (List.mem_filter.mp (hlt'.subset he)).1).2
    have hflushless : t'.filter isFlushless = t' := List.filter_eq_self.mpr fun e he =>
      (List.mem_filter.mp (hlt'.subset he)).2
    rw [hrun, hdedup, hrel, hrelated, hflushless, ht']
    refine congrArg some (removeFences_removeFences (fun e he => ?_) rfl)
    rw [getBugs, List.mem_filter, getBugs, List.mem_filter]
    constructor
    · rintro ⟨het, hb⟩
      exact ⟨(hlt'.trans hlt).subset het, hb⟩
    · rintro ⟨-, hb⟩
      exact ⟨mem_removeFences he (type_of_isBug hb).2.2, hb⟩

theorem optimize_fixpoint_flushedStore :
    ∃ t', ∀ arb : IntervalTree TraceEvent → IntervalTree TraceEvent, (∀ l, (arb l).Perm l) →
      optimize arb flushedStore = some t' ∧ optimize arb t' = some t' :=
  optimize_fixpoint flushedStore_ordered

end BugReport

/-! ### From the log to the fixer -/

namespace ParseTrace

/-- The record of an event, of which the ranges are in the address space. -/
def Event.record (te : Event) : TraceEvent where
  type := te.event
  timestamp := te.timestamp
  addresses := te.ranges.map fun range => ⟨range.1.toNat, range.2.toNat⟩
  location := te.location
  isBug := te.isBug
  callstack := te.stack
  state := te.state.map String.ofList

/-- The ranges of the event are in the address space, and its lines are 64-bit numbers. -/
structure Event.InSpace (te : Event) : Prop where
  ranges : ∀ range ∈ te.ranges, 0 ≤ range.1 ∧ 1 ≤ range.2 ∧ range.1 + range.2 < 2 ^ 64
  lines : ∀ li ∈ te.stack, li.Fits

instance (te : Event) : Decidable te.InSpace :=
  decidable_of_iff ((∀ range ∈ te.ranges, 0 ≤ range.1 ∧ 1 ≤ range.2 ∧ range.1 + range.2 < 2 ^ 64) ∧
    ∀ li ∈ te.stack, li.Fits) ⟨fun h => ⟨h.1, h.2⟩, fun h => ⟨h.ranges, h.lines⟩⟩

section Record

variable {U : Unicode} {lines : List Text} {tes : List Event}

lemma record_wellFormed {te : Event} (hvalid : te.Valid) (hspace : te.InSpace) :
    te.record.WellFormed := by
  refine ⟨by simpa [Event.record] using hvalid.arity, fun a ha => ?_⟩
  obtain ⟨range, hrange, rfl⟩ := List.mem_map.mp ha
  obtain ⟨h0, h1, hlt⟩ := hspace.ranges range hrange
  exact ⟨by dsimp only; omega, by dsimp only; omega⟩

lemma record_fits {te : Event} (hvalid : te.Valid) (hspace : te.InSpace)
    (htime : te.timestamp < 2 ^ 64) : te.record.Fits := by
  obtain ⟨stack, hstack⟩ := hvalid.front
  have hwf := record_wellFormed hvalid hspace
  refine ⟨htime, hspace.lines _ (by simp [hstack, Event.record]), hspace.lines, fun _ => ?_,
    te.location, stack, hstack, by simp [LocationInfo.eqv, Event.record]⟩
  refine ⟨hwf.arity, fun a ha => ?_⟩
  have h := (hwf.addresses a ha).lt
  exact ⟨by omega, by omega⟩

/-- The events of a log are ordered, as the passes require. -/
lemma ordered_record (h : parsePmemcheck U lines = some tes)
    (hspace : ∀ te ∈ tes, te.InSpace) : BugReport.Ordered (tes.map Event.record) := by
  obtain ⟨s, hrec, rfl⟩ := exists_recorded h
  have hwf : ∀ te ∈ s.report, te.record.WellFormed := fun te hte =>
    record_wellFormed (hrec.valid te hte) (hspace te hte)
  refine ⟨?_, ?_, ?_⟩
  · have htimes : (s.report.map Event.timestamp).Pairwise (· < ·) := by
      rw [hrec.timestamps]
      exact List.pairwise_lt_range
    rw [List.pairwise_map] at htimes ⊢
    exact htimes
  · rintro _ he
    obtain ⟨te, hte, rfl⟩ := List.mem_map.mp he
    exact (hwf te hte).arity
  · rintro _ he a ha
    obtain ⟨te, hte, rfl⟩ := List.mem_map.mp he
    exact ((hwf te hte).addresses a ha).one_le

/-- The bugs of a log are its assertions. -/
lemma isBug_record_iff (h : parsePmemcheck U lines = some tes) {te : Event} (hte : te ∈ tes) :
    te.record.isBug = true ↔ BugReport.isBug te.record = true := by
  obtain ⟨s, hrec, rfl⟩ := exists_recorded h
  obtain ⟨ops, bugs, hreport, hop, hbug, -⟩ := hrec.parts
  rw [hreport] at hte
  rcases List.mem_append.mp hte with hte | hte
  · obtain ⟨htype, hnot, -⟩ := hop te hte
    rcases htype with htype | htype | htype <;>
      simp [Event.record, BugReport.isBug, hnot, htype]
  · obtain ⟨htype, hisbug⟩ := hbug te hte
    rcases htype with htype | htype <;> simp [Event.record, BugReport.isBug, hisbug, htype]

end Record

end ParseTrace

/-! ### What the fixer makes of the report -/

/-- The two events are the same operation or assertion. -/
structure SameEvent (te te' : TraceEvent) : Prop where
  type : te'.type = te.type
  timestamp : te'.timestamp = te.timestamp
  addresses : te'.addresses = te.addresses
  isBug : te'.isBug = te.isBug

section Same

variable {t t' : List TraceEvent} {clSz : ℕ}

lemma scanEvent_congr {te te' : TraceEvent} (h : SameEvent te te') (R : AddressInfo) (i : ℕ)
    (s : ScanState) : scanEvent clSz R i te' s = scanEvent clSz R i te s := by
  simp only [scanEvent, TraceEvent.isOperation, h.type, h.addresses]

lemma scan_congr (h : List.Forall₂ SameEvent t t') (R : AddressInfo) (s : ScanState) :
    scan clSz R t' s = scan clSz R t s := by
  induction h generalizing s with
  | nil => rfl
  | @cons te te' t t' hte ht ih =>
      rw [scan, scan, scanEvent_congr hte, ht.length_eq]
      simp only [ih]

/-- The diagnosis of a bug depends on the kinds and ranges of the events only. -/
lemma diagnose_congr (h : List.Forall₂ SameEvent t t') {i : ℕ} {te te' : TraceEvent}
    (hte : SameEvent te te') : diagnose clSz t' te' i = diagnose clSz t te i := by
  have hpast : List.Forall₂ SameEvent (past t i) (past t' i) := by
    rw [past, past, List.forall₂_reverse_iff]
    exact List.forall₂_take i h
  rw [diagnose, diagnose, hte.addresses]
  simp only [scan_congr hpast]

lemma resolveLocations_same {R : ResolveEnv} {te te' : TraceEvent}
    (h : resolveLocations R te = some te') : SameEvent te te' := by
  rw [resolveLocations] at h
  split at h
  · obtain rfl := Option.some.inj h
    exact ⟨rfl, rfl, rfl, rfl⟩
  · cases h

lemma mapM_resolveLocations_same {R : ResolveEnv}
    (h : t.mapM (resolveLocations R) = some t') : List.Forall₂ SameEvent t t' :=
  (ParseTrace.BugBlock.mapM_eq_some_iff.mp h).imp fun _ _ => resolveLocations_same

/-- The event at an index, and the one it is the same as. -/
lemma exists_same (h : List.Forall₂ SameEvent t t') {i : ℕ} {te' : TraceEvent}
    (hte : t'[i]? = some te') : ∃ te, t[i]? = some te ∧ SameEvent te te' := by
  induction h generalizing i with
  | nil => simp at hte
  | @cons e e' t t' hfirst hrest ih =>
      cases i with
      | zero =>
          obtain rfl := Option.some.inj hte
          exact ⟨e, rfl, hfirst⟩
      | succ i => exact ih hte

lemma SameEvent.wellFormed {te te' : TraceEvent} (h : SameEvent te te') (hte : te.WellFormed) :
    te'.WellFormed :=
  ⟨by rw [h.addresses, h.type, hte.arity], by rw [h.addresses]; exact hte.addresses⟩

lemma SameEvent.isBug_eq {te te' : TraceEvent} (h : SameEvent te te') :
    BugReport.isBug te' = BugReport.isBug te := by
  rw [BugReport.isBug, BugReport.isBug, h.type]

/-- What is read of well-formed events, and renamed, is the same. -/
lemma same_of_read {R : ResolveEnv} (hwf : ∀ te ∈ t, te.WellFormed)
    (h : (t.map TraceEvent.read).mapM (resolveLocations R) = some t') :
    List.Forall₂ SameEvent t t' := by
  have hread : t.map TraceEvent.read = t.map fun te => { te with state := none } := by
    refine List.map_congr_left fun te hte => ?_
    rw [TraceEvent.read]
    split_ifs with hfence
    · have hnil : te.addresses = [] := by
        rw [← List.length_eq_zero_iff, (hwf te hte).arity, hfence]
        rfl
      rw [hnil]
    · rfl
  rw [hread] at h
  have hsame := mapM_resolveLocations_same h
  rw [List.forall₂_map_left_iff] at hsame
  exact hsame.imp fun te te' hte => ⟨hte.type, hte.timestamp, hte.addresses, hte.isBug⟩

/-- What the fixer reads of a report of well-formed events. -/
lemma same_of_build {Y : Scalars} {R : ResolveEnv} {ti : TraceInfo} (hfits : ∀ te ∈ t, te.Fits)
    (hwf : ∀ te ∈ t, te.WellFormed) (h : build Y R (report .GENERIC t) = some ti) :
    ti.source = .GENERIC ∧ List.Forall₂ SameEvent t ti.events := by
  rw [build_report_of_fits hfits] at h
  obtain ⟨hsource, hres⟩ := resolve_eq_some_iff.mp h
  exact ⟨hsource, same_of_read hwf hres⟩

end Same

section Parsed

open ParseTrace

variable {U : Unicode} {lines : List Text} {tes : List Event}
  {arb : IntervalTree TraceEvent → IntervalTree TraceEvent}

/-- What the passes leave of a log is a part of it, fit to be written; its bugs are assertions. -/
lemma optimize_record (harb : ∀ l, (arb l).Perm l) (hlog : parsePmemcheck U lines = some tes)
    (hspace : ∀ te ∈ tes, te.InSpace) (hlen : tes.length < 2 ^ 64) :
    ∃ t, BugReport.optimize arb (tes.map Event.record) = some t ∧
      t.Sublist (tes.map Event.record) ∧
      ∀ te ∈ t, te.Fits ∧ te.WellFormed ∧ (te.isBug = true ↔ BugReport.isBug te = true) := by
  obtain ⟨s, hrec, rfl⟩ := exists_recorded hlog
  obtain ⟨t, hopt, hsub, -⟩ := BugReport.optimize_spec harb (ordered_record hlog hspace)
  refine ⟨t, hopt, hsub, fun te hte => ?_⟩
  obtain ⟨e, he, rfl⟩ := List.mem_map.mp (hsub.subset hte)
  have hrange : e.timestamp ∈ List.range s.report.length := by
    rw [← hrec.timestamps]
    exact List.mem_map_of_mem he
  have htime : e.timestamp < 2 ^ 64 := (List.mem_range.mp hrange).trans hlen
  exact ⟨record_fits (hrec.valid e he) (hspace e he) htime,
    record_wellFormed (hrec.valid e he) (hspace e he), isBug_record_iff hlog he⟩

/-- **A report that has been written is read**: of a log in the address space, the passes give a
part of the trace, in its order. The fixer reads the report of it unless a frame cannot be renamed,
and then as the same events, which are well formed; the bugs are the assertions among them, and they
are diagnosed as in the trace that was written. -/
theorem parsedReport_built (harb : ∀ l, (arb l).Perm l)
    (hlog : parsePmemcheck U lines = some tes) (hspace : ∀ te ∈ tes, te.InSpace)
    (hlen : tes.length < 2 ^ 64) :
    ∃ t, BugReport.optimize arb (tes.map Event.record) = some t ∧
      t.Sublist (tes.map Event.record) ∧
      ∀ (Y : Scalars) (R : ResolveEnv),
        ((build Y R (report .GENERIC t)).isSome =
          ((t.map TraceEvent.read).mapM (resolveLocations R)).isSome) ∧
        ∀ ti, build Y R (report .GENERIC t) = some ti →
          ti.source = .GENERIC ∧ List.Forall₂ SameEvent t ti.events ∧
          (∀ te ∈ ti.events, te.WellFormed) ∧
          (∀ i, i ∈ ti.bugs ↔ ∃ te, ti.events[i]? = some te ∧ BugReport.isBug te = true) ∧
          ∀ clSz i te te', t[i]? = some te → ti.events[i]? = some te' →
            diagnose clSz ti.events te' i = diagnose clSz t te i := by
  obtain ⟨t, hopt, hsub, hevents⟩ := optimize_record harb hlog hspace hlen
  have hfits : ∀ te ∈ t, te.Fits := fun te hte => (hevents te hte).1
  refine ⟨t, hopt, hsub, fun Y R => ⟨?_, fun ti hti => ?_⟩⟩
  -- the reading fails only where the frames are renamed
  · rw [build_report_of_fits hfits, Bool.eq_iff_iff, Option.isSome_iff_exists,
      Option.isSome_iff_exists]
    constructor
    · rintro ⟨ti, hti⟩
      exact ⟨ti.events, (resolve_eq_some_iff.mp hti).2⟩
    · rintro ⟨events, hevents⟩
      exact exists_resolve hevents
  · obtain ⟨hsource, hsame⟩ := same_of_build hfits (fun te hte => (hevents te hte).2.1) hti
    -- an event that is read is the same as the one at its place in the report
    refine ⟨hsource, hsame, fun te' hte' => ?_, fun i => ?_, fun clSz i te te' hte hte' => ?_⟩
    · obtain ⟨i, hi⟩ := List.mem_iff_getElem?.mp hte'
      obtain ⟨te, hte, heq⟩ := exists_same hsame hi
      exact heq.wellFormed (hevents te (List.mem_of_getElem? hte)).2.1
    · rw [ti.bugs_eq, mem_bugIndices_iff]
      refine exists_congr fun te' => and_congr_right fun hte' => ?_
      obtain ⟨te, hte, heq⟩ := exists_same hsame hte'
      rw [heq.isBug, heq.isBug_eq]
      exact (hevents te (List.mem_of_getElem? hte)).2.2
    · obtain ⟨te₀, hte₀, heq⟩ := exists_same hsame hte'
      obtain rfl := Option.some.inj (hte.symm.trans hte₀)
      exact diagnose_congr hsame heq

end Parsed

open ParseTrace in
theorem parsedReport_built_sample :
    ∃ tes, parsePmemcheck asciiOnly sampleLog = some tes ∧
      ∃ t, BugReport.optimize id (tes.map Event.record) = some t ∧
        t.Sublist (tes.map Event.record) ∧
        ∀ (Y : Scalars) (R : ResolveEnv),
          ((build Y R (report .GENERIC t)).isSome =
            ((t.map TraceEvent.read).mapM (resolveLocations R)).isSome) ∧
          ∀ ti, build Y R (report .GENERIC t) = some ti →
            ti.source = .GENERIC ∧ List.Forall₂ SameEvent t ti.events ∧
            (∀ te ∈ ti.events, te.WellFormed) ∧
            (∀ i, i ∈ ti.bugs ↔ ∃ te, ti.events[i]? = some te ∧ BugReport.isBug te = true) ∧
            ∀ clSz i te te', t[i]? = some te → ti.events[i]? = some te' →
              diagnose clSz ti.events te' i = diagnose clSz t te i := by
  have h : (parsePmemcheck asciiOnly sampleLog).map (fun tes =>
      decide ((∀ te ∈ tes, te.InSpace) ∧ tes.length = 2)) = some true := by decide
  obtain ⟨tes, htes, hfacts⟩ := Option.map_eq_some_iff.mp h
  obtain ⟨hspace, hlen⟩ := of_decide_eq_true hfacts
  exact ⟨tes, htes, parsedReport_built (fun l => List.Perm.refl l) htes hspace
    (by rw [hlen]; decide)⟩

end Hippocrates
