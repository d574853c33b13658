import Mathlib.Tactic
import Hippocrates.ParseTrace.Pmtest

/-!
The warnings of a PMTest log.

* `Group`: an entry with an event, and the warning or error that follows it.
* `warnings_attached_iff`: every warning is attached to its flush exactly when no error is before a
  warning. Errors take an index of the log, but add no event to the report, and the flush is looked
  for in the report with the index of the log.
-/

namespace Hippocrates.ParseTrace

open TraceEvent (EventType)

section Groups

variable (U : Unicode) (T : Tools)

/-- The event of an entry, if no error follows it. -/
def readEvent (e : Entry) : Option Event :=
  (readCommon U T e).bind fun common =>
    match e.event with
    | .ASSIGN => entryEvent U e .STORE 1 false common
    | .FLUSH => entryEvent U e .FLUSH 1 false common
    | .FENCE => entryEvent U e .FENCE 0 false common
    | .PERSIST => entryEvent U e .ASSERT_PERSISTED 1 false common
    | .ORDER => entryEvent U e .ASSERT_ORDERED 2 false common
    | _ => none

/-- What may follow an entry. -/
def followType : EntryType → Option EntryType
  | .FLUSH => some .FLUSH_WARNING
  | .PERSIST => some .PERSIST_ERROR
  | .ORDER => some .ORDER_ERROR
  | _ => none

/-- An entry with an event, and a warning or error for it. -/
structure Group where
  entry : Entry
  event : Event
  reads : readEvent U T entry = some event
  follow : Option Entry
  fits : ∀ f ∈ follow, followType entry.event = some f.event ∧ (readCommon U T f).isSome

end Groups

namespace Group

variable {U : Unicode} {T : Tools}

def entries (g : Group U T) : List Entry := g.entry :: g.follow.toList

/-- The flush has a warning. -/
def Warned (g : Group U T) : Prop := g.follow.isSome ∧ g.entry.event = .FLUSH

/-- The assertion has an error. -/
def Failed (g : Group U T) : Prop := g.follow.isSome ∧ g.entry.event ≠ .FLUSH

instance (g : Group U T) : Decidable g.Warned := inferInstanceAs (Decidable (_ ∧ _))

instance (g : Group U T) : Decidable g.Failed := inferInstanceAs (Decidable (_ ∧ _))

/-- The events of the group: after a flush with a warning, the same as a bug. -/
def events (g : Group U T) : List Event :=
  if g.Warned then [g.event, { g.event with event := .REQUIRED_FLUSH, isBug := true }]
  else [{ g.event with isBug := g.follow.isSome }]

end Group

/-! ### The entries of a group -/

section Entries

variable {U : Unicode} {T : Tools} {e : Entry} {ev : Event} {report : List Event} {i : ℕ}
  {next : Option EntryType} {es : List Entry} {g : Group U T} {log : List (Group U T)}

lemma entryEvent_isBug {event : EventType} {n : ℕ} {is_bug : Bool} {common : Common} :
    entryEvent U e event n is_bug common =
      (entryEvent U e event n false common).map ({ · with isBug := is_bug }) := by
  rw [entryEvent, entryEvent, Option.map_bind]
  congr 1
  funext ranges
  rw [Function.comp_apply, Option.map_map]
  rfl

/-- The next entry is the error of the entry. -/
def failsNext (event : EntryType) (next : Option EntryType) : Bool :=
  match event with
  | .PERSIST => next == some .PERSIST_ERROR
  | .ORDER => next == some .ORDER_ERROR
  | _ => false

lemma isBug_of_entryEvent {event : EventType} {n : ℕ} {is_bug : Bool} {common : Common}
    (h : entryEvent U e event n is_bug common = some ev) : ev.isBug = is_bug := by
  obtain ⟨ranges, -, h⟩ := Option.bind_eq_some_iff.mp h
  obtain ⟨stack, -, rfl⟩ := Option.map_eq_some_iff.mp h
  rfl

lemma isBug_of_readEvent (h : readEvent U T e = some ev) : ev.isBug = false := by
  obtain ⟨common, -, h⟩ := Option.bind_eq_some_iff.mp h
  split at h <;> first | exact isBug_of_entryEvent h | cases h

/-- An entry with an event adds it. -/
lemma addEntry_event (h : readEvent U T e = some ev) :
    addEntry U T report i e next =
      some (report ++ [{ ev with isBug := failsNext e.event next }]) := by
  have hbug := isBug_of_readEvent h
  obtain ⟨common, hcommon, h⟩ := Option.bind_eq_some_iff.mp h
  rw [addEntry, hcommon, Option.bind_some]
  have hev : ev = { ev with isBug := false } := by rw [← hbug]
  split at h <;> rename_i hevent <;> simp only [hevent, failsNext]
  · rw [h, Option.map_some, ← hev]
  · rw [h, Option.map_some, ← hev]
  · rw [h, Option.map_some, ← hev]
  · rw [entryEvent_isBug, h]
    rfl
  · rw [entryEvent_isBug, h]
    rfl
  · cases h

/-- Entries with an event are no errors. -/
lemma event_of_readEvent (h : readEvent U T e = some ev) :
    e.event ≠ .PERSIST_ERROR ∧ e.event ≠ .ORDER_ERROR := by
  obtain ⟨common, -, h⟩ := Option.bind_eq_some_iff.mp h
  constructor <;> intro hevent <;> simp [hevent] at h

/-- No error stands before the first group. -/
lemma failsNext_log (event : EntryType) :
    failsNext event ((log.flatMap Group.entries).head?.map Entry.event) = false := by
  cases log with
  | nil => cases event <;> rfl
  | cons g log =>
      obtain ⟨hpersist, horder⟩ := event_of_readEvent g.reads
      have hhead : ((g :: log).flatMap Group.entries).head?.map Entry.event = some g.entry.event :=
        rfl
      rw [hhead]
      cases event <;> simp [failsNext, hpersist, horder]

lemma followType_cases {event event' : EntryType} (h : followType event = some event') :
    (event = .FLUSH ∧ event' = .FLUSH_WARNING) ∨
      (event ≠ .FLUSH ∧ (event' = .PERSIST_ERROR ∨ event' = .ORDER_ERROR) ∧
        failsNext event (some event') = true) := by
  cases event <;> cases h
  · exact .inl ⟨rfl, rfl⟩
  · exact .inr ⟨by decide, .inl rfl, rfl⟩
  · exact .inr ⟨by decide, .inr rfl, rfl⟩

/-- An error adds nothing. -/
lemma addEntry_error (hcommon : (readCommon U T e).isSome)
    (h : e.event = .PERSIST_ERROR ∨ e.event = .ORDER_ERROR) :
    addEntry U T report i e next = some report := by
  obtain ⟨common, hcommon⟩ := Option.isSome_iff_exists.mp hcommon
  rw [addEntry, hcommon, Option.bind_some]
  rcases h with h | h <;> rw [h]

/-- A warning takes the event that stands before its index. -/
lemma addEntry_warning (hcommon : (readCommon U T e).isSome) (h : e.event = .FLUSH_WARNING) :
    addEntry U T report (i + 1) e next =
      (report[i]?).bind fun old_te => (requiredFlush old_te).map (report ++ [·]) := by
  obtain ⟨common, hcommon⟩ := Option.isSome_iff_exists.mp hcommon
  rw [addEntry, hcommon, Option.bind_some, h]
  simp [item]

lemma addEntries_cons (i : ℕ) (report : List Event) (e : Entry) (es : List Entry) :
    addEntries U T i report (e :: es) =
      (addEntry U T report i e (es.head?.map Entry.event)).bind fun report =>
        addEntries U T (i + 1) report es := rfl

/-- A group without a warning adds its event. -/
lemma addEntries_group (hg : ¬ g.Warned) :
    addEntries U T i report (g.entries ++ log.flatMap Group.entries) =
      addEntries U T (i + g.entries.length) (report ++ g.events) (log.flatMap Group.entries) := by
  rw [Group.events, if_neg hg, Group.entries]
  cases hfollow : g.follow with
  | none =>
      rw [Option.toList_none, List.singleton_append, addEntries_cons, addEntry_event g.reads,
        failsNext_log]
      rfl
  | some f =>
      obtain ⟨htype, hcommon⟩ := g.fits f hfollow
      rcases followType_cases htype with ⟨hflush, -⟩ | ⟨-, herror, hfails⟩
      · exact absurd ⟨by rw [hfollow]; rfl, hflush⟩ hg
      · rw [Option.toList_some, List.cons_append, List.singleton_append, addEntries_cons,
          addEntry_event g.reads, Option.bind_some, addEntries_cons, addEntry_error hcommon herror,
          List.head?_cons, Option.map_some, hfails]
        rfl

/-- A flush that is read has one range. -/
lemma requiredFlush_event (h : readEvent U T e = some ev) (hflush : e.event = .FLUSH) :
    requiredFlush ev = some { ev with event := .REQUIRED_FLUSH, isBug := true } := by
  obtain ⟨common, -, h⟩ := Option.bind_eq_some_iff.mp h
  rw [hflush] at h
  obtain ⟨ranges, hranges, h⟩ := Option.bind_eq_some_iff.mp h
  obtain ⟨stack, -, rfl⟩ := Option.map_eq_some_iff.mp h
  exact if_pos (length_readRanges hranges)

/-- The two entries of a flush with a warning. -/
lemma addEntries_warned (hg : g.Warned) :
    addEntries U T i report (g.entries ++ es) =
      ((report ++ [g.event])[i]?).bind fun old_te => (requiredFlush old_te).bind fun te =>
        addEntries U T (i + 2) (report ++ [g.event, te]) es := by
  obtain ⟨hsome, hflush⟩ := hg
  obtain ⟨f, hfollow⟩ := Option.isSome_iff_exists.mp hsome
  obtain ⟨htype, hcommon⟩ := g.fits f hfollow
  have hwarning : f.event = .FLUSH_WARNING := by
    rw [hflush] at htype
    exact (Option.some.inj htype).symm
  have hev : ({ g.event with isBug := false } : Event) = g.event := by
    rw [← isBug_of_readEvent g.reads]
  rw [Group.entries, hfollow, Option.toList_some, List.cons_append, List.singleton_append,
    addEntries_cons, addEntry_event g.reads, Option.bind_some, addEntries_cons, hflush,
    show failsNext .FLUSH _ = false from rfl, hev, addEntry_warning hcommon hwarning,
    Option.bind_assoc]
  simp only [Option.bind_map, List.append_assoc, Function.comp_def]
  rfl

/-- Behind an error, every warning is an index error. -/
lemma addEntries_late (h : report.length < i) :
    addEntries U T i report (log.flatMap Group.entries) =
        some (report ++ log.flatMap Group.events) ↔ ∀ g ∈ log, ¬ g.Warned := by
  induction log generalizing i report with
  | nil => simp [addEntries]
  | cons g log ih =>
      rw [List.flatMap_cons, List.flatMap_cons, List.forall_mem_cons]
      by_cases hg : g.Warned
      · have hindex : (report ++ [g.event])[i]? = none := by
          rw [List.getElem?_eq_none_iff, List.length_append]
          exact h
        rw [addEntries_warned hg, hindex]
        simp [hg]
      · have hlen : (report ++ g.events).length < i + g.entries.length := by
          rw [Group.events, if_neg hg, Group.entries, List.length_append]
          simp only [List.length_cons, List.length_nil]
          omega
        rw [addEntries_group hg, ← List.append_assoc, ih hlen, and_iff_right hg]

/-- If no error is before a warning, the indices agree. -/
lemma addEntries_log_iff (report : List Event) :
    addEntries U T report.length report (log.flatMap Group.entries) =
        some (report ++ log.flatMap Group.events) ↔
      log.Pairwise fun g g' => g.Failed → ¬ g'.Warned := by
  induction log generalizing report with
  | nil => simp [addEntries]
  | cons g log ih =>
      rw [List.flatMap_cons, List.flatMap_cons, List.pairwise_cons, ← List.append_assoc]
      by_cases hg : g.Warned
      -- so far the indices of the entries are those of the events
      · have hindex : (report ++ [g.event])[report.length]? = some g.event := by simp
        have hevents : report ++ [g.event,
            { g.event with event := .REQUIRED_FLUSH, isBug := true }] = report ++ g.events := by
          rw [Group.events, if_pos hg]
        have hlen : report.length + 2 = (report ++ g.events).length := by
          rw [← hevents, List.length_append]
          rfl
        rw [addEntries_warned hg, hindex, Option.bind_some, requiredFlush_event g.reads hg.2,
          Option.bind_some, hevents, hlen, ih, and_iff_right]
        exact fun g' _ hfailed => absurd hg.2 hfailed.2
      · rw [addEntries_group hg]
        by_cases hfailed : g.Failed
        -- after an error the indices are behind, so a warning copies another event
        · have hlate : (report ++ g.events).length < report.length + g.entries.length := by
            obtain ⟨f, hfollow⟩ := Option.isSome_iff_exists.mp hfailed.1
            simp [Group.events, hg, Group.entries, hfollow]
          rw [addEntries_late hlate]
          refine ⟨fun h => ⟨fun g' hg' _ => h g' hg', ?_⟩, fun h g' hg' => h.1 g' hg' hfailed⟩
          exact List.pairwise_of_forall_mem_list fun g₁ _ g₂ hg₂ _ => h g₂ hg₂
        · have hfollow : g.follow = none := by
            rw [← Option.not_isSome_iff_eq_none]
            exact fun hsome => hfailed ⟨hsome, fun hflush => hg ⟨hsome, hflush⟩⟩
          have hlen : report.length + g.entries.length = (report ++ g.events).length := by
            simp [Group.events, hg, Group.entries, hfollow]
          rw [hlen, ih, and_iff_right]
          exact fun g' _ h => absurd h hfailed

/-- **Every warning is attached to its flush**, and no other event is added, exactly when no error
is before a warning. -/
theorem warnings_attached_iff {lines : List Text}
    (h : readLog U 0 [] lines = some (log.flatMap Group.entries)) :
    parsePmtest U T lines = some (log.flatMap Group.events) ↔
      log.Pairwise fun g g' => g.Failed → ¬ g'.Warned := by
  rw [parsePmtest, h, Option.bind_some]
  exact addEntries_log_iff []

end Entries

/-! ### A warning after an error -/

/-- A program with one function. -/
def sampleTools : Tools where
  fileExists := fun _ => true
  readelf := fun _ => some "   12: 0000000000401122    22 FUNC    GLOBAL DEFAULT   14 main\n".toList
  addr2line := fun _ _ => some "main\nlog.c:16\n".toList

/-- A stack trace in the program. -/
def sampleTrace : Text := "./log(main+0x1d) [0x40113d]".toList

/-- An event of the program, at its line. -/
def sampleEvent (event : EventType) (timestamp : ℕ) (line : ℤ) : Event where
  event := event
  timestamp := timestamp
  ranges := [(4096, 4)]
  location := ⟨"main", "log.c", line⟩
  isBug := false
  stack := [⟨"main", "log.c", line⟩]
  state := none

/-- An assertion with its error. -/
def failedPersist : Group asciiOnly sampleTools where
  entry := ⟨0, .PERSIST, "_PERSIST 0x1000 4 main log.c 12".toList, some sampleTrace⟩
  event := sampleEvent .ASSERT_PERSISTED 0 12
  reads := by decide
  follow := some ⟨2, .PERSIST_ERROR, "PERSIST ERROR: main log.c 12".toList, none⟩
  fits := by decide

/-- A flush with its warning. -/
def warnedFlush : Group asciiOnly sampleTools where
  entry := ⟨3, .FLUSH, "_FLUSH 0x1000 4 main log.c 15".toList, some sampleTrace⟩
  event := sampleEvent .FLUSH 3 15
  reads := by decide
  follow := some ⟨5, .FLUSH_WARNING, "FLUSH WARNING: main log.c 15".toList, none⟩
  fits := by decide

/-- The assertion further down in the log. -/
def laterPersist : Group asciiOnly sampleTools where
  entry := ⟨6, .PERSIST, "_PERSIST 0x1000 4 main log.c 12".toList, some sampleTrace⟩
  event := sampleEvent .ASSERT_PERSISTED 6 12
  reads := by decide
  follow := some ⟨8, .PERSIST_ERROR, "PERSIST ERROR: main log.c 12".toList, none⟩
  fits := by decide

def persistLines : List Text :=
  ["_PERSIST 0x1000 4 main log.c 12\n".toList,
    "STACK TRACE: ./log(main+0x1d) [0x40113d]\n".toList, "PERSIST ERROR: main log.c 12\n".toList]

def flushLines : List Text :=
  ["_FLUSH 0x1000 4 main log.c 15\n".toList,
    "STACK TRACE: ./log(main+0x1d) [0x40113d]\n".toList, "FLUSH WARNING: main log.c 15\n".toList]

/-- Before an assertion that failed, the warning is attached. -/
theorem warnings_attached_iff_flush :
    parsePmtest asciiOnly sampleTools
        (List.replicate 3 "Starting the test\n".toList ++ flushLines ++ persistLines) =
      some (warnedFlush.events ++ laterPersist.events) := by
  have hlog : readLog asciiOnly 0 []
      (List.replicate 3 "Starting the test\n".toList ++ flushLines ++ persistLines) =
        some ([warnedFlush, laterPersist].flatMap Group.entries) := by decide
  exact (warnings_attached_iff hlog).mpr (List.pairwise_pair.mpr (by decide))

/-- Behind an assertion that failed, the warning is an index error. -/
theorem warnedFlush_not_attached :
    readLog asciiOnly 0 [] (persistLines ++ flushLines) =
        some ([failedPersist, warnedFlush].flatMap Group.entries) ∧
      parsePmtest asciiOnly sampleTools (persistLines ++ flushLines) = none := by
  decide

end Hippocrates.ParseTrace
