import Mathlib.Tactic
import Hippocrates.ParseTrace.BugSections
import Hippocrates.ParseTrace.PmtestWarnings

/-!
What every log that is accepted is read as, for both tools.

* `Event.Valid`: the ranges of the kind, and the location as the first frame of the stack. These are
  what the fixer asks of an event when it reads the report.
* `run_invariant`: what every round of the pmemcheck loop keeps holds at its end.
* `parsePmemcheck_report`: operations, then bugs, numbered from zero.
* `parsePmtest_report`: entries in the order of their lines, where only assertions are bugs.
-/

namespace Hippocrates.ParseTrace

open TraceEvent (EventType arity)
open TraceEvent.EventType

/-- An event of the shape that is read back from a report. -/
structure Event.Valid (te : Event) : Prop where
  arity : te.ranges.length = arity te.event
  front : ∃ stack, te.stack = te.location :: stack

/-- An event of the trace of pmemcheck. -/
structure Event.IsOperation (te : Event) : Prop where
  event : te.event = STORE ∨ te.event = FLUSH ∨ te.event = FENCE
  isBug : te.isBug = false
  state : te.state = none

/-- A bug of pmemcheck. A store that is not persisted has a state. -/
structure Event.IsFinding (te : Event) : Prop where
  event : te.event = ASSERT_PERSISTED ∨ te.event = REQUIRED_FLUSH
  isBug : te.isBug = true

section Events

variable {U : Unicode} {timestamp : ℕ}

/-- What is read of an operation whose kind fits its ranges. -/
lemma operationEvent_valid {type : EventType} {ranges : List (ℤ × ℤ)} {frames : List Text}
    {te : Event} (h : operationEvent U type timestamp ranges frames = some te)
    (htype : type = STORE ∨ type = FLUSH ∨ type = FENCE) (harity : ranges.length = arity type) :
    te.Valid ∧ te.IsOperation ∧ te.timestamp = timestamp := by
  rw [operationEvent] at h
  split at h
  · cases h
  · rename_i front stack hstack
    obtain rfl := Option.some.inj h
    exact ⟨⟨harity, stack, rfl⟩, ⟨htype, rfl, rfl⟩, rfl⟩

lemma parse_valid {event : Text} {te : Event}
    (h : parseFence U event timestamp = some te ∨ parseStoreFlush U event timestamp = some te) :
    te.Valid ∧ te.IsOperation ∧ te.timestamp = timestamp := by
  rcases h with h | h
  · rw [parseFence] at h
    split at h
    · cases h
    split at h
    · exact operationEvent_valid h (.inr (.inr rfl)) rfl
    · cases h
  · rw [parseStoreFlush] at h
    split at h
    · split at h
      · split at h
        · obtain ⟨range, -, h⟩ := Option.bind_eq_some_iff.mp h
          exact operationEvent_valid h (.inl rfl) rfl
        · cases h
      split at h
      · split at h
        · obtain ⟨range, -, h⟩ := Option.bind_eq_some_iff.mp h
          exact operationEvent_valid h (.inr (.inl rfl)) rfl
        · cases h
      · cases h
    · cases h

/-- The events of a line are operations, numbered one after the other. -/
lemma events_valid {pieces : List Text} {tes : List Event}
    (h : events U pieces timestamp = some tes) :
    (∀ te ∈ tes, te.Valid ∧ te.IsOperation) ∧
      tes.map Event.timestamp = List.range' timestamp tes.length := by
  induction pieces generalizing timestamp tes with
  | nil =>
      obtain rfl := Option.some.inj h
      exact ⟨by simp, rfl⟩
  | cons event rest ih =>
      -- an event that is read takes the timestamp, and the rest comes after it
      have hcons : ∀ {te tes}, (parseFence U event timestamp = some te ∨
          parseStoreFlush U event timestamp = some te) →
          events U rest (timestamp + 1) = some tes →
          (∀ e ∈ te :: tes, e.Valid ∧ e.IsOperation) ∧
            (te :: tes).map Event.timestamp = List.range' timestamp (te :: tes).length := by
        intro te tes hte htes
        obtain ⟨hvalid, hop, htime⟩ := parse_valid hte
        obtain ⟨hrest, htimes⟩ := ih htes
        refine ⟨List.forall_mem_cons.mpr ⟨⟨hvalid, hop⟩, hrest⟩, ?_⟩
        rw [List.map_cons, htime, htimes, List.length_cons, List.range'_succ]
      rw [events] at h
      split at h
      · exact ih h
      split at h
      · obtain rfl := Option.some.inj h
        exact ⟨by simp, rfl⟩
      split at h
      · obtain ⟨te, hte, h⟩ := Option.bind_eq_some_iff.mp h
        obtain ⟨tes, htes, rfl⟩ := Option.map_eq_some_iff.mp h
        exact hcons (.inl hte) htes
      split at h
      · obtain ⟨te, hte, h⟩ := Option.bind_eq_some_iff.mp h
        obtain ⟨tes, htes, rfl⟩ := Option.map_eq_some_iff.mp h
        exact hcons (.inr hte) htes
      · exact ih h

end Events

/-! ### The rounds of the loop over a pmemcheck log -/

section Pmemcheck

variable {U : Unicode} {s s' : State} {line : Text} {lines lines' : List Text}

/-- The report in the course of the loop: numbered from zero, and with no bug before the trace
stops. -/
structure Recorded (s : State) : Prop where
  started : s.stop_trace = true → s.start_trace = true
  timestamp : s.timestamp = s.report.length
  timestamps : s.report.map Event.timestamp = List.range s.report.length
  valid : ∀ te ∈ s.report, te.Valid
  parts : ∃ ops bugs, s.report = ops ++ bugs ∧ (∀ te ∈ ops, te.IsOperation) ∧
    (∀ te ∈ bugs, te.IsFinding) ∧ (s.stop_trace = false → bugs = [])

/-- The variables that the report depends on. -/
def State.tracked (s : State) : Bool × Bool × ℕ × List Event :=
  (s.start_trace, s.stop_trace, s.timestamp, s.report)

lemma Recorded.congr (h : Recorded s) (heq : s'.tracked = s.tracked) : Recorded s' := by
  simp only [State.tracked, Prod.mk.injEq] at heq
  obtain ⟨hstart, hstop, htime, hreport⟩ := heq
  constructor
  · rw [hstart, hstop]
    exact h.started
  · rw [htime, hreport]
    exact h.timestamp
  · rw [hreport]
    exact h.timestamps
  · rw [hreport]
    exact h.valid
  · rw [hreport, hstop]
    exact h.parts

lemma recorded_init : Recorded State.init :=
  ⟨fun h => absurd h Bool.false_ne_true, rfl, rfl, by simp [State.init], [], [], rfl, by simp,
    by simp, fun _ => rfl⟩

/-- Events that are numbered on, and are operations as long as the trace goes on, and bugs after
it. -/
lemma Recorded.add (h : Recorded s) {tes : List Event} (hvalid : ∀ te ∈ tes, te.Valid)
    (htimes : tes.map Event.timestamp = List.range' s.timestamp tes.length)
    (hops : s.stop_trace = false → ∀ te ∈ tes, te.IsOperation)
    (hbugs : s.stop_trace = true → ∀ te ∈ tes, te.IsFinding) : Recorded (s.add tes) := by
  obtain ⟨ops, bugs, hreport, hop, hbug, hnil⟩ := h.parts
  refine ⟨h.started, ?_, ?_, ?_, ?_⟩
  · rw [State.add, List.length_append, h.timestamp]
  · rw [State.add, List.map_append, h.timestamps, htimes, h.timestamp, List.length_append,
      List.range_eq_range', List.range_eq_range', ← List.range'_append_1, Nat.zero_add]
  · exact fun te hte => (List.mem_append.mp hte).elim (h.valid te) (hvalid te)
  · cases hstop : s.stop_trace with
    | false =>
        obtain rfl := hnil hstop
        refine ⟨ops ++ tes, [], by simp [State.add, hreport], ?_, by simp, fun _ => rfl⟩
        exact fun te hte => (List.mem_append.mp hte).elim (hop te) (hops hstop te)
    | true =>
        refine ⟨ops, bugs ++ tes, by simp [State.add, hreport], hop, ?_, fun hcon => ?_⟩
        · exact fun te hte => (List.mem_append.mp hte).elim (hbug te) (hbugs hstop te)
        · cases hstop.symm.trans hcon

lemma traceLine_recorded (h : Recorded s) (hstop : s.stop_trace = false)
    (hline : traceLine U s line = some s') : Recorded s' := by
  obtain ⟨tes, htes, rfl⟩ := Option.map_eq_some_iff.mp hline
  obtain ⟨hvalid, htimes⟩ := events_valid htes
  refine h.add (fun te hte => (hvalid te hte).1) htimes (fun _ te hte => (hvalid te hte).2) ?_
  exact fun hcon => by cases hstop.symm.trans hcon

lemma header_tracked (h : header U s line lines = some (.next s' lines')) :
    s'.tracked = s.tracked := by
  rw [header] at h
  split at h
  · obtain ⟨n, -, h⟩ := Option.bind_eq_some_iff.mp h
    split at h
    · split at h
      · cases h
      · split at h
        · cases h
          rfl
        · cases h
    · cases h
      rfl
  · split at h
    · obtain ⟨n, -, h⟩ := Option.map_eq_some_iff.mp h
      cases h
      rfl
    · cases h
      rfl

lemma nextBug_tracked (remaining bug_no : ℤ) :
    (nextBug s remaining bug_no).tracked = s.tracked := by
  rw [nextBug]
  split <;> rfl

lemma bugEvent_valid (is_perf : Bool) (timestamp : ℕ) (bug : BugLine) (front : LocationInfo)
    (frames : List LocationInfo) : (bugEvent is_perf timestamp bug front frames).Valid ∧
      (bugEvent is_perf timestamp bug front frames).IsFinding := by
  cases is_perf with
  | false => exact ⟨⟨rfl, frames, rfl⟩, .inl rfl, rfl⟩
  | true => exact ⟨⟨rfl, frames, rfl⟩, .inr rfl, rfl⟩

lemma block_recorded {remaining : ℤ} (h : Recorded s) (hstop : s.stop_trace = true)
    (hblock : block U s remaining line lines = some (.next s' lines')) : Recorded s' := by
  rw [block] at hblock
  split at hblock
  · rename_i front frames last rest hfront hframes hlast
    obtain ⟨bug, hbug, hblock⟩ := Option.bind_eq_some_iff.mp hblock
    split at hblock
    · cases hblock
      refine Recorded.congr ?_ (nextBug_tracked (remaining - 1) bug.bug_no)
      obtain ⟨hvalid, hfinding⟩ := bugEvent_valid s.is_perf s.timestamp bug front frames
      refine h.add (by simpa using hvalid) rfl (fun hcon => ?_) fun _ => by simpa using hfinding
      cases hstop.symm.trans hcon
    · cases hblock
  · cases hblock

/-- A round keeps the report in order. -/
lemma step_recorded (h : Recorded s) (hstep : step U s line lines = some (.next s' lines')) :
    Recorded s' := by
  rw [step] at hstep
  split at hstep
  · rename_i hstart
    -- the trace cannot have stopped before it was started
    have hstop : s.stop_trace = false := by
      by_contra hne
      simp [h.started (by simpa using hne)] at hstart
    split at hstep
    · obtain ⟨s₁, hs₁, hstep⟩ := Option.map_eq_some_iff.mp hstep
      cases hstep
      have hrec : Recorded { s with start_trace := true } :=
        ⟨fun _ => rfl, h.timestamp, h.timestamps, h.valid, h.parts⟩
      exact traceLine_recorded hrec hstop hs₁
    · cases hstep
      exact h
  rename_i hstart
  split at hstep
  · rename_i hstop
    rw [Bool.not_eq_true'] at hstop
    split at hstep
    · cases hstep
      obtain ⟨ops, bugs, hreport, hop, hbug, -⟩ := h.parts
      exact ⟨fun _ => by simpa using hstart, h.timestamp, h.timestamps, h.valid, ops, bugs, hreport,
        hop, hbug, fun hcon => by cases hcon⟩
    · obtain ⟨s₁, hs₁, hstep⟩ := Option.map_eq_some_iff.mp hstep
      cases hstep
      exact traceLine_recorded h hstop hs₁
  rename_i hstop
  split at hstep
  · exact h.congr (header_tracked hstep)
  · cases hstep
  · split at hstep
    · exact block_recorded h (by simpa using hstop) hstep
    · cases hstep

/-- What the rounds keep holds at the end. -/
lemma run_invariant {P : State → Prop} (hP : ∀ s line lines s' lines', P s →
      step U s line lines = some (.next s' lines') → P s')
    (hs : P s) (h : run U s lines = some s') : P s' := by
  induction hn : lines.length using Nat.strong_induction_on generalizing s lines with
  | _ n ih =>
    cases lines with
    | nil =>
        obtain rfl := Option.some.inj h
        exact hs
    | cons line lines =>
        rw [run_cons] at h
        split at h
        · cases h
        · obtain rfl := Option.some.inj h
          exact hs
        · rename_i s₁ lines₁ hstep
          have hlen : lines₁.length < n := by
            rw [← hn, List.length_cons]
            exact Nat.lt_succ_of_le (step_next hstep).1.length_le
          exact ih _ hlen (hP _ _ _ _ _ hs hstep) h rfl

lemma exists_recorded {tes : List Event} (h : parsePmemcheck U lines = some tes) :
    ∃ s, Recorded s ∧ s.report = tes := by
  obtain ⟨s, hs, rfl⟩ := Option.map_eq_some_iff.mp h
  exact ⟨s, run_invariant (fun _ _ _ _ _ hs hstep => step_recorded hs hstep) recorded_init hs, rfl⟩

/-- **The report of a pmemcheck log**: every log that is accepted is read as operations, none of
them a bug, and after them bugs; each has the ranges of its kind and its location as the first
frame, and they are numbered from zero. -/
theorem parsePmemcheck_report {tes : List Event} (h : parsePmemcheck U lines = some tes) :
    (∃ ops bugs, tes = ops ++ bugs ∧ (∀ te ∈ ops, te.IsOperation) ∧ ∀ te ∈ bugs, te.IsFinding) ∧
      (∀ te ∈ tes, te.Valid) ∧ tes.map Event.timestamp = List.range tes.length := by
  obtain ⟨s, hrec, rfl⟩ := exists_recorded h
  obtain ⟨ops, bugs, hreport, hop, hbug, -⟩ := hrec.parts
  exact ⟨⟨ops, bugs, hreport, hop, hbug⟩, hrec.valid, hrec.timestamps⟩

end Pmemcheck

/-- A log with a store, and with a flush that was not necessary. -/
def sampleLog : List Text :=
  ["START|STORE;0x1000;0x0;0x8;0x4005BD: append (log.c:12)\n".toList, "|STOP\n".toList] ++
    sectionLines true 7 [bugIn "append"]

theorem parsePmemcheck_report_sample :
    ∃ tes, parsePmemcheck asciiOnly sampleLog = some tes ∧ tes.length = 2 ∧
      ((∃ ops bugs, tes = ops ++ bugs ∧ (∀ te ∈ ops, te.IsOperation) ∧ ∀ te ∈ bugs, te.IsFinding) ∧
        (∀ te ∈ tes, te.Valid) ∧ tes.map Event.timestamp = List.range tes.length) := by
  have h : (parsePmemcheck asciiOnly sampleLog).map List.length = some 2 := by decide
  obtain ⟨tes, htes, hlen⟩ := Option.map_eq_some_iff.mp h
  exact ⟨tes, htes, hlen, parsePmemcheck_report htes⟩

/-! ### The entries of a PMTest log -/

section Pmtest

variable {U : Unicode} {T : Tools}

/-- Entries that have been read before the line `n`, in the order of their lines. -/
structure InOrder (n : ℕ) (entries : List Entry) : Prop where
  lt : ∀ e ∈ entries, e.timestamp < n
  pairwise : (entries.map Entry.timestamp).Pairwise (· < ·)

lemma InOrder.mono {n n' : ℕ} {entries : List Entry} (h : InOrder n entries) (hn : n ≤ n') :
    InOrder n' entries := ⟨fun e he => (h.lt e he).trans_le hn, h.pairwise⟩

lemma InOrder.concat {n : ℕ} {entries : List Entry} (h : InOrder n entries) {e : Entry}
    (he : e.timestamp = n) : InOrder (n + 1) (entries ++ [e]) := by
  refine ⟨fun e' he' => ?_, ?_⟩
  · rcases List.mem_append.mp he' with he' | he'
    · exact (h.lt e' he').trans (Nat.lt_succ_self n)
    · rw [List.mem_singleton.mp he', he]
      exact Nat.lt_succ_self n
  · rw [List.map_append, List.pairwise_append]
    refine ⟨h.pairwise, by simp, fun t ht t' ht' => ?_⟩
    obtain ⟨e', he', rfl⟩ := List.mem_map.mp ht
    rw [List.map_singleton, List.mem_singleton] at ht'
    rw [ht', he]
    exact h.lt e' he'

lemma map_timestamp_setStack {entries entries' : List Entry} {stacktrace : Text}
    (h : setStack entries stacktrace = some entries') :
    entries'.map Entry.timestamp = entries.map Entry.timestamp := by
  rw [setStack] at h
  split at h
  · cases h
  · rename_i e he
    obtain rfl := Option.some.inj h
    have hsplit : entries.dropLast ++ [e] = entries := List.dropLast_append_getLast? e he
    conv_rhs => rw [← hsplit]
    rw [List.map_append, List.map_append]
    rfl

/-- A line adds an entry of its own number, or none. -/
lemma readLine_inOrder {n : ℕ} {entries entries' : List Entry} {l : Text} (h : InOrder n entries)
    (hread : readLine U n entries l = some entries') : InOrder (n + 1) entries' := by
  rw [readLine] at hread
  dsimp only at hread
  split at hread
  · split at hread
    · obtain rfl := Option.some.inj hread
      exact h.concat rfl
    split at hread
    · obtain rfl := Option.some.inj hread
      exact h.concat rfl
    split at hread
    · have htimes := map_timestamp_setStack hread
      refine ⟨fun e he => ?_, by rw [htimes]; exact h.pairwise⟩
      have hmem : e.timestamp ∈ entries.map Entry.timestamp := by
        rw [← htimes]
        exact List.mem_map_of_mem he
      obtain ⟨e', he', heq⟩ := List.mem_map.mp hmem
      rw [← heq]
      exact (h.lt e' he').trans (Nat.lt_succ_self n)
    · obtain rfl := Option.some.inj hread
      exact h.mono (Nat.le_succ n)
  · cases hread

lemma readLog_inOrder {n : ℕ} {entries entries' : List Entry} {lines : List Text}
    (h : InOrder n entries) (hread : readLog U n entries lines = some entries') :
    InOrder (n + lines.length) entries' := by
  induction lines generalizing n entries with
  | nil =>
      obtain rfl := Option.some.inj hread
      exact h
  | cons l lines ih =>
      obtain ⟨entries₁, hline, hread⟩ := Option.bind_eq_some_iff.mp hread
      have hrest := ih (readLine_inOrder h hline) hread
      rw [List.length_cons, Nat.add_comm lines.length, ← Nat.add_assoc]
      exact hrest

/-- An assertion. -/
def IsAssertion (type : EventType) : Prop :=
  type = ASSERT_PERSISTED ∨ type = ASSERT_ORDERED ∨ type = REQUIRED_FLUSH

/-- The report after the entries before the line `n`. -/
structure Entered (n : ℕ) (report : List Event) : Prop where
  valid : ∀ te ∈ report, te.Valid
  bug : ∀ te ∈ report, te.isBug = true → IsAssertion te.event
  lt : ∀ te ∈ report, te.timestamp < n
  pairwise : (report.filter fun te => te.event ≠ REQUIRED_FLUSH).Pairwise
    fun a b => a.timestamp < b.timestamp
  copies : ∀ p te q, report = p ++ te :: q → te.event = REQUIRED_FLUSH →
    ∃ old ∈ p, old.ranges.length = 1 ∧ te = { old with event := REQUIRED_FLUSH, isBug := true }

/-- What an entry adds: nothing, an event of its line, or a copy of an earlier event. -/
inductive Entry.Adds (report : List Event) (n : ℕ) : List Event → Prop
  | nothing : Entry.Adds report n report
  | event {te : Event} (hvalid : te.Valid) (hbug : te.isBug = true → IsAssertion te.event)
      (htime : te.timestamp = n) (htype : te.event ≠ REQUIRED_FLUSH) :
      Entry.Adds report n (report ++ [te])
  | copy {old : Event} (hold : old ∈ report) (hone : old.ranges.length = 1) :
      Entry.Adds report n (report ++ [{ old with event := REQUIRED_FLUSH, isBug := true }])

lemma entryEvent_eq {e : Entry} {event : EventType} {n : ℕ} {is_bug : Bool} {common : Common}
    {te : Event} (hcommon : readCommon U T e = some common)
    (h : entryEvent U e event n is_bug common = some te) (hn : n = arity event) :
    te.Valid ∧ te.event = event ∧ te.isBug = is_bug ∧ te.timestamp = e.timestamp := by
  obtain ⟨ranges, hranges, h⟩ := Option.bind_eq_some_iff.mp h
  obtain ⟨stack, hstack, rfl⟩ := Option.map_eq_some_iff.mp h
  refine ⟨⟨(length_readRanges hranges).trans hn, ?_⟩, rfl, rfl, rfl⟩
  obtain ⟨location, -, hcommon⟩ := Option.bind_eq_some_iff.mp hcommon
  split at hcommon
  · obtain rfl := Option.some.inj hcommon
    cases hstack
  · obtain ⟨frames, -, rfl⟩ := Option.map_eq_some_iff.mp hcommon
    exact ⟨frames.tail, (Option.some.inj hstack).symm⟩

lemma mem_of_item {α : Type*} {l : List α} {i : ℤ} {a : α} (h : item l i = some a) : a ∈ l := by
  rw [item] at h
  split_ifs at h
  · exact List.mem_of_getElem? h
  · exact List.mem_of_getElem? h

lemma addEntry_adds {report report' : List Event} {i : ℕ} {e : Entry} {next : Option EntryType}
    (h : addEntry U T report i e next = some report') : Entry.Adds report e.timestamp report' := by
  obtain ⟨common, hcommon, h⟩ := Option.bind_eq_some_iff.mp h
  -- an event with the ranges of its type is added
  have hevent : ∀ {type : EventType} {n : ℕ} {is_bug : Bool}, n = arity type →
      type ≠ REQUIRED_FLUSH → (is_bug = true → IsAssertion type) →
      (entryEvent U e type n is_bug common).map (report ++ [·]) = some report' →
      Entry.Adds report e.timestamp report' := by
    intro type n is_bug hn htype hbug h
    obtain ⟨te, hte, rfl⟩ := Option.map_eq_some_iff.mp h
    obtain ⟨hvalid, rfl, rfl, htime⟩ := entryEvent_eq hcommon hte hn
    exact .event hvalid hbug htime htype
  split at h
  · exact hevent rfl (by decide) (fun h => by cases h) h
  · exact hevent rfl (by decide) (fun h => by cases h) h
  · exact hevent rfl (by decide) (fun h => by cases h) h
  · exact hevent rfl (by decide) (fun _ => .inl rfl) h
  · obtain rfl := Option.some.inj h
    exact .nothing
  · exact hevent rfl (by decide) (fun _ => .inr (.inl rfl)) h
  · obtain rfl := Option.some.inj h
    exact .nothing
  -- the copy is of an event that the report has already
  · obtain ⟨old, hold, h⟩ := Option.bind_eq_some_iff.mp h
    obtain ⟨te, hte, rfl⟩ := Option.map_eq_some_iff.mp h
    rw [requiredFlush, Option.ite_none_right_eq_some] at hte
    obtain ⟨hone, hte⟩ := hte
    obtain rfl := Option.some.inj hte
    exact .copy (mem_of_item hold) hone
  · cases h

lemma Entered.mono {n n' : ℕ} {report : List Event} (h : Entered n report) (hn : n ≤ n') :
    Entered n' report :=
  ⟨h.valid, h.bug, fun te hte => (h.lt te hte).trans_le hn, h.pairwise, h.copies⟩

/-- One more event keeps what the earlier ones say about copies. -/
lemma Entered.copies_concat {n : ℕ} {report : List Event} (h : Entered n report) {new : Event}
    (hnew : new.event = REQUIRED_FLUSH → ∃ old ∈ report, old.ranges.length = 1 ∧
      new = { old with event := REQUIRED_FLUSH, isBug := true }) :
    ∀ p te q, report ++ [new] = p ++ te :: q → te.event = REQUIRED_FLUSH →
      ∃ old ∈ p, old.ranges.length = 1 ∧
        te = { old with event := REQUIRED_FLUSH, isBug := true } := by
  intro p te q heq htype
  rcases List.eq_nil_or_concat q with rfl | ⟨q, last, rfl⟩
  · obtain ⟨rfl, hlast⟩ := List.append_inj' heq rfl
    obtain rfl := List.singleton_inj.mp hlast
    exact hnew htype
  · rw [List.concat_eq_append, ← List.cons_append, ← List.append_assoc] at heq
    exact h.copies p te q (List.append_inj' heq rfl).1 htype

/-- An entry of a later line keeps the report in order. -/
lemma Entered.adds {n : ℕ} {report report' : List Event} (h : Entered n report)
    (hadds : Entry.Adds report n report') : Entered (n + 1) report' := by
  cases hadds with
  | nothing => exact h.mono (Nat.le_succ n)
  | @event te hvalid hbug htime htype =>
      refine ⟨?_, ?_, ?_, ?_, h.copies_concat fun hcon => absurd hcon htype⟩
      · exact fun e he => (List.mem_append.mp he).elim (h.valid e) fun he =>
          List.mem_singleton.mp he ▸ hvalid
      · exact fun e he => (List.mem_append.mp he).elim (h.bug e) fun he =>
          List.mem_singleton.mp he ▸ hbug
      · intro e he
        rcases List.mem_append.mp he with he | he
        · exact (h.lt e he).trans (Nat.lt_succ_self n)
        · rw [List.mem_singleton.mp he, htime]
          exact Nat.lt_succ_self n
      -- but for the copies the events come one after the other
      · rw [List.filter_append, List.pairwise_append]
        refine ⟨h.pairwise, List.Pairwise.filter _ (List.pairwise_singleton _ _), ?_⟩
        intro a ha b hb
        rw [List.mem_singleton.mp (List.mem_of_mem_filter hb), htime]
        exact h.lt a (List.mem_of_mem_filter ha)
  | @copy old hold hone =>
      obtain ⟨stack, hstack⟩ := (h.valid old hold).front
      refine ⟨?_, ?_, ?_, ?_, h.copies_concat fun _ => ⟨old, hold, hone, rfl⟩⟩
      · refine fun e he => (List.mem_append.mp he).elim (h.valid e) fun he => ?_
        rw [List.mem_singleton.mp he]
        exact ⟨hone, stack, hstack⟩
      · refine fun e he => (List.mem_append.mp he).elim (h.bug e) fun he _ => ?_
        rw [List.mem_singleton.mp he]
        exact .inr (.inr rfl)
      · intro e he
        rcases List.mem_append.mp he with he | he
        · exact (h.lt e he).trans (Nat.lt_succ_self n)
        · rw [List.mem_singleton.mp he]
          exact (h.lt old hold).trans (Nat.lt_succ_self n)
      · rw [List.filter_append, List.filter_cons_of_neg (by simp), List.filter_nil,
          List.append_nil]
        exact h.pairwise

lemma addEntries_entered {n m i : ℕ} {report tes : List Event} {entries : List Entry}
    (h : Entered n report) (hle : ∀ e ∈ entries, n ≤ e.timestamp) (horder : InOrder m entries)
    (hn : n ≤ m) (hadd : addEntries U T i report entries = some tes) : Entered m tes := by
  induction entries generalizing n i report with
  | nil =>
      obtain rfl := Option.some.inj hadd
      exact h.mono hn
  | cons e entries ih =>
      obtain ⟨report₁, hentry, hadd⟩ := Option.bind_eq_some_iff.mp hadd
      obtain ⟨hfirst, hrest⟩ := List.pairwise_cons.mp horder.pairwise
      have hstep := (h.mono (hle e List.mem_cons_self)).adds (addEntry_adds hentry)
      refine ih hstep (fun e' he' => ?_) ⟨fun e' he' => ?_, hrest⟩ ?_ hadd
      · exact hfirst _ (List.mem_map_of_mem he')
      · exact horder.lt e' (List.mem_cons_of_mem e he')
      · exact horder.lt e List.mem_cons_self

/-- **The report of a PMTest log**: in every log that is accepted each event has the ranges of its
kind and its location as the first frame, only assertions are bugs, the events are in the order of
their lines but for the required flushes, and each of these is the copy of an earlier event with one
range. -/
theorem parsePmtest_report {lines : List Text} {tes : List Event}
    (h : parsePmtest U T lines = some tes) :
    (∀ te ∈ tes, te.Valid ∧ (te.isBug = true → IsAssertion te.event) ∧
        te.timestamp < lines.length) ∧
      ((tes.filter fun te => te.event ≠ REQUIRED_FLUSH).Pairwise
        fun a b => a.timestamp < b.timestamp) ∧
      ∀ p te q, tes = p ++ te :: q → te.event = REQUIRED_FLUSH →
        ∃ old ∈ p, old.ranges.length = 1 ∧
          te = { old with event := REQUIRED_FLUSH, isBug := true } := by
  obtain ⟨entries, hlog, hadd⟩ := Option.bind_eq_some_iff.mp h
  have horder : InOrder (0 + lines.length) entries :=
    readLog_inOrder ⟨by simp, List.Pairwise.nil⟩ hlog
  rw [Nat.zero_add] at horder
  have hnil : Entered 0 [] :=
    ⟨by simp, by simp, by simp, List.Pairwise.nil, fun p te q hp => by simp at hp⟩
  have hall := addEntries_entered hnil (fun _ _ => Nat.zero_le _) horder (Nat.zero_le _) hadd
  exact ⟨fun te hte => ⟨hall.valid te hte, hall.bug te hte, hall.lt te hte⟩, hall.pairwise,
    hall.copies⟩

end Pmtest

theorem parsePmtest_report_flush :
    ∃ tes, parsePmtest asciiOnly sampleTools flushLines = some tes ∧ tes.length = 2 ∧
      ((∀ te ∈ tes, te.Valid ∧ (te.isBug = true → IsAssertion te.event) ∧
          te.timestamp < flushLines.length) ∧
        ((tes.filter fun te => te.event ≠ REQUIRED_FLUSH).Pairwise
          fun a b => a.timestamp < b.timestamp) ∧
        ∀ p te q, tes = p ++ te :: q → te.event = REQUIRED_FLUSH →
          ∃ old ∈ p, old.ranges.length = 1 ∧
            te = { old with event := REQUIRED_FLUSH, isBug := true }) := by
  have h : (parsePmtest asciiOnly sampleTools flushLines).map List.length = some 2 := by decide
  obtain ⟨tes, htes, hlen⟩ := Option.map_eq_some_iff.mp h
  exact ⟨tes, htes, hlen, parsePmtest_report htes⟩

end Hippocrates.ParseTrace
