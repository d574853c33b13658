import Mathlib.Tactic
import Hippocrates.ParseTrace.PmtestWarnings

/-!
Output of the program in a PMTest log.

* `IsOutput`: a line of at least two words that is taken neither for an entry nor for a stack trace.
* `ignored_iff`: a line can be inserted anywhere in any log, and the events stay the same up to
  their timestamps, exactly when it is such a line.
-/

namespace Hippocrates.ParseTrace

open TraceEvent (EventType)

/-- The entry with another timestamp. -/
def Entry.retime (f : ℕ → ℕ) (e : Entry) : Entry := { e with timestamp := f e.timestamp }

/-- The event with another timestamp. -/
def Event.retime (f : ℕ → ℕ) (te : Event) : Event := { te with timestamp := f te.timestamp }

section

variable (U : Unicode)

/-- The words of a line, without white space at its ends and without colors. -/
def words (l : Text) : List Text := (stripColor U (strip l)).splitOn ' '

/-- The first word is no event, and the first two, without the last character, are no error and no
stack trace. -/
def IsOutput (l : Text) : Prop :=
  ∃ cmd word rest, words U l = cmd :: word :: rest ∧ (∀ type ∈ pmtestEvents, type.text ≠ cmd) ∧
    (∀ type ∈ pmtestErrors, type.text ≠ cmd ++ ' ' :: word.dropLast) ∧
    cmd ++ ' ' :: word.dropLast ≠ "STACK TRACE".toList

/-- Inserted anywhere in any log that is accepted, the line does not change the events but for their
timestamps, whose order is kept. -/
def Ignored (l : Text) : Prop :=
  ∀ T before after report, parsePmtest U T (before ++ after) = some report →
    ∃ f, StrictMono f ∧
      parsePmtest U T (before ++ l :: after) = some (report.map (Event.retime f))

end

/-! ### Later timestamps -/

section Retime

variable {U : Unicode} {T : Tools} {f : ℕ → ℕ} {es es' : List Entry} {lines : List Text}
  {timestamp i n : ℕ} {e : Entry} {report : List Event} {l : Text}

lemma readLine_retime : readLine U (f timestamp) (es.map (Entry.retime f)) l =
    (readLine U timestamp es l).map (List.map (Entry.retime f)) := by
  rw [readLine, readLine]
  dsimp only
  split
  · split
    · simp [Entry.retime]
    · split
      · simp [Entry.retime]
      · split
        · rw [setStack, setStack, List.getLast?_map]
          cases es.getLast? with
          | none => rfl
          | some e => simp [Entry.retime]
        · rfl
  · rfl

/-- If the timestamps from a line on are one later, so are those of the entries. -/
lemma readLog_retime (hf : ∀ t, timestamp ≤ t → f t = t + 1) :
    readLog U (timestamp + 1) (es.map (Entry.retime f)) lines =
      (readLog U timestamp es lines).map (List.map (Entry.retime f)) := by
  induction lines generalizing timestamp es with
  | nil => rfl
  | cons l lines ih =>
      rw [readLog, readLog, ← hf timestamp le_rfl, readLine_retime, hf timestamp le_rfl]
      cases readLine U timestamp es l with
      | none => rfl
      | some es' => exact ih fun t ht => hf t (Nat.le_of_succ_le ht)

lemma readLog_append {lines' : List Text} : readLog U timestamp es (lines ++ lines') =
    (readLog U timestamp es lines).bind fun es =>
      readLog U (timestamp + lines.length) es lines' := by
  induction lines generalizing timestamp es with
  | nil => rfl
  | cons l lines ih =>
      rw [List.cons_append, readLog, readLog, Option.bind_assoc]
      simp only [ih, List.length_cons, add_assoc, add_comm 1]

/-- A line adds at most an entry with its timestamp. -/
lemma timestamp_readLine (h : readLine U timestamp es l = some es')
    (hes : ∀ e ∈ es, e.timestamp < timestamp) : ∀ e ∈ es', e.timestamp < timestamp + 1 := by
  have hes' : ∀ e ∈ es, e.timestamp < timestamp + 1 := fun e he => Nat.lt_succ_of_lt (hes e he)
  -- a new entry has the timestamp of the line
  have hadd : ∀ event line, ∀ e ∈ es ++ [⟨timestamp, event, line, none⟩],
      e.timestamp < timestamp + 1 := by
    intro event line e he
    rcases List.mem_append.mp he with he | he
    · exact hes' e he
    · obtain rfl := List.mem_singleton.mp he
      exact Nat.lt_succ_self timestamp
  rw [readLine] at h
  dsimp only at h
  split at h
  · split at h
    · obtain rfl := Option.some.inj h
      exact hadd _ _
    · split at h
      · obtain rfl := Option.some.inj h
        exact hadd _ _
      · split at h
        · rw [setStack] at h
          split at h
          · cases h
          · rename_i last hlast
            obtain rfl := Option.some.inj h
            intro e he
            rcases List.mem_append.mp he with he | he
            · exact hes' e (List.mem_of_mem_dropLast he)
            · obtain rfl := List.mem_singleton.mp he
              exact hes' last (List.mem_of_mem_getLast? hlast)
        · obtain rfl := Option.some.inj h
          exact hes'
  · cases h

lemma timestamp_readLog (h : readLog U timestamp es lines = some es')
    (hes : ∀ e ∈ es, e.timestamp < timestamp) :
    ∀ e ∈ es', e.timestamp < timestamp + lines.length := by
  induction lines generalizing timestamp es with
  | nil =>
      obtain rfl := Option.some.inj h
      exact hes
  | cons l lines ih =>
      obtain ⟨es₁, hline, hlog⟩ := Option.bind_eq_some_iff.mp h
      have hlt := ih hlog (timestamp_readLine hline hes)
      rwa [List.length_cons, add_comm lines.length, ← add_assoc]

lemma entryEvent_retime {event : EventType} {is_bug : Bool} {common : Common} :
    entryEvent U (e.retime f) event n is_bug common =
      (entryEvent U e event n is_bug common).map (Event.retime f) := by
  rw [entryEvent, entryEvent, Option.map_bind]
  congr 1
  funext ranges
  rw [Function.comp_apply, Option.map_map]
  rfl

lemma item_map {α β : Type*} (g : α → β) (l : List α) (i : ℤ) :
    item (l.map g) i = (item l i).map g := by
  rw [item, item, List.length_map]
  split
  · rw [List.getElem?_map]
  · split
    · rw [List.getElem?_map]
    · rfl

lemma requiredFlush_retime (te : Event) :
    requiredFlush (te.retime f) = (requiredFlush te).map (Event.retime f) := by
  rw [requiredFlush, requiredFlush]
  by_cases h : te.ranges.length = 1
  · rw [if_pos (by exact h), if_pos h]
    rfl
  · rw [if_neg (by exact h), if_neg h]
    rfl

lemma addEntry_retime {next : Option EntryType} :
    addEntry U T (report.map (Event.retime f)) i (e.retime f) next =
      (addEntry U T report i e next).map (List.map (Event.retime f)) := by
  have hadd : ∀ te : Option Event,
      (te.map (Event.retime f)).map (report.map (Event.retime f) ++ [·]) =
        (te.map (report ++ [·])).map (List.map (Event.retime f)) := by
    intro te
    cases te with
    | none => rfl
    | some te => simp
  have hcommon : readCommon U T (e.retime f) = readCommon U T e := rfl
  have hevent : (e.retime f).event = e.event := rfl
  rw [addEntry, addEntry, hcommon, hevent, Option.map_bind]
  congr 1
  funext common
  rw [Function.comp_apply]
  cases e.event <;> dsimp only
  -- a warning copies an event of the report, whose timestamp has changed as well
  case FLUSH_WARNING =>
    rw [item_map, Option.bind_map, Option.map_bind]
    congr 1
    funext te
    rw [Function.comp_apply, Function.comp_apply, requiredFlush_retime, hadd]
  all_goals first
    | rfl
    | rw [entryEvent_retime, hadd]

lemma addEntries_retime :
    addEntries U T i (report.map (Event.retime f)) (es.map (Entry.retime f)) =
      (addEntries U T i report es).map (List.map (Event.retime f)) := by
  induction es generalizing i report with
  | nil => rfl
  | cons e es ih =>
      have hnext : (es.map (Entry.retime f)).head?.map Entry.event = es.head?.map Entry.event := by
        cases es <;> rfl
      rw [List.map_cons, addEntries_cons, addEntries_cons, hnext, addEntry_retime, Option.map_bind,
        Option.bind_map]
      congr 1
      funext report'
      exact ih

end Retime

/-! ### Lines of output -/

section Output

variable {U : Unicode} {T : Tools} {es : List Entry} {lines : List Text} {timestamp : ℕ} {l : Text}

lemma findType_eq_none_iff {types : List EntryType} {s : Text} :
    findType types s = none ↔ ∀ type ∈ types, type.text ≠ s := by
  simp [findType, List.find?_eq_none]

lemma mem_of_findType {types : List EntryType} {s : Text} {type : EntryType}
    (h : findType types s = some type) : type ∈ types := List.mem_of_find?_eq_some h

/-- A line with two words. -/
lemma readLine_of_words (timestamp : ℕ) (es : List Entry) {cmd word : Text} {rest : List Text}
    (h : words U l = cmd :: word :: rest) :
    readLine U timestamp es l =
      match findType pmtestEvents cmd with
      | some event => some (es ++ [⟨timestamp, event, stripColor U (strip l), none⟩])
      | none =>
        match findType pmtestErrors (cmd ++ ' ' :: word.dropLast) with
        | some event => some (es ++ [⟨timestamp, event, stripColor U (strip l), none⟩])
        | none =>
          if cmd ++ ' ' :: word.dropLast = "STACK TRACE".toList then
            setStack es
              (strip (Text.pieces "STACK TRACE:".toList (stripColor U (strip l))).flatten)
          else some es := by
  have hsplit : (stripColor U (strip l)).splitOn ' ' = cmd :: word :: rest := h
  rw [readLine]
  dsimp only
  exact hsplit ▸ rfl

/-- A line of output is passed over. -/
lemma IsOutput.readLine_eq (h : IsOutput U l) : readLine U timestamp es l = some es := by
  obtain ⟨cmd, word, rest, hwords, hevent, herror, hstack⟩ := h
  rw [readLine_of_words _ _ hwords, findType_eq_none_iff.mpr hevent]
  dsimp only
  rw [findType_eq_none_iff.mpr herror]
  exact if_neg hstack

/-- Behind a line of output, the timestamps are one later. -/
lemma IsOutput.ignored (h : IsOutput U l) : Ignored U l := by
  intro T before after report hreport
  set f : ℕ → ℕ := fun t => if t < before.length then t else t + 1 with hf
  refine ⟨f, fun a b hab => ?_, ?_⟩
  · simp only [hf]
    split <;> split <;> omega
  rw [parsePmtest, readLog_append, Option.bind_eq_some_iff] at hreport
  obtain ⟨es', hlog, hreport⟩ := hreport
  obtain ⟨es, hbefore, hafter⟩ := Option.bind_eq_some_iff.mp hlog
  rw [Nat.zero_add] at hafter
  -- the entries before the line keep their timestamps
  have hes : es.map (Entry.retime f) = es := by
    have hlt := timestamp_readLog hbefore (by simp)
    rw [List.map_congr_left (g := id) fun e he => ?_, List.map_id]
    rw [Nat.zero_add] at hlt
    simp [Entry.retime, hf, hlt e he]
  have hlate : ∀ t, before.length ≤ t → f t = t + 1 := fun t ht => by
    simp [hf, Nat.not_lt.mpr ht]
  have hretime : readLog U (before.length + 1) (es.map (Entry.retime f)) after = _ :=
    readLog_retime hlate
  rw [hes, hafter, Option.map_some] at hretime
  rw [parsePmtest, readLog_append, hbefore, Option.bind_some, readLog, h.readLine_eq,
    Option.bind_some, Nat.zero_add, hretime, Option.bind_some]
  have hevents : addEntries U T 0 ([].map (Event.retime f)) (es'.map (Entry.retime f)) = _ :=
    addEntries_retime
  rwa [hreport] at hevents

/-! ### Lines that are not output -/

/-- An entry with an event has to have a stack trace. -/
lemma addEntry_unstacked {e : Entry} {report : List Event} {i : ℕ} {next : Option EntryType}
    (he : e.event ∈ pmtestEvents) (hstack : e.stacktrace = none) :
    addEntry U T report i e next = none := by
  have hevent : ∀ event n is_bug location,
      entryEvent U e event n is_bug ⟨location, none⟩ = none := by
    intro event n is_bug location
    rw [entryEvent]
    exact Option.bind_fun_none _
  rw [addEntry, readCommon, hstack]
  cases readLocation U (e.line.splitOn ' ') with
  | none => rfl
  | some location =>
      rw [Option.bind_some, Option.bind_some]
      cases h : e.event <;> rw [h] at he <;> simp [hevent, pmtestEvents] at he ⊢

/-- Alone in the log, an error is passed over or fails. -/
lemma addEntry_alone {e : Entry} {report : List Event} {next : Option EntryType}
    (he : e.event ∈ pmtestErrors) (h : addEntry U T [] 0 e next = some report) :
    e.event = .PERSIST_ERROR ∨ e.event = .ORDER_ERROR := by
  obtain ⟨common, -, h⟩ := Option.bind_eq_some_iff.mp h
  cases hevent : e.event <;> rw [hevent] at h he <;> simp [item, pmtestErrors] at h he ⊢

/-- The error of an entry, where it is not, makes a bug of the event. -/
lemma not_ignored_of_error {e : Entry} {ev : Event} {event : EntryType} {line : Text}
    (hlog : readLog U 0 [] lines = some [e]) (hread : readEvent U T e = some ev)
    (hfails : failsNext e.event (some event) = true)
    (herror : event = .PERSIST_ERROR ∨ event = .ORDER_ERROR)
    (hline : readLine U lines.length [e] l = some [e, ⟨lines.length, event, line, none⟩]) :
    ¬ Ignored U l := by
  intro hignored
  have hnone : ∀ event, failsNext event none = false := by
    intro event
    cases event <;> rfl
  have hreport : parsePmtest U T (lines ++ []) = some [{ ev with isBug := false }] := by
    rw [List.append_nil, parsePmtest, hlog, Option.bind_some, addEntries_cons,
      addEntry_event hread, List.head?_nil, Option.map_none, hnone]
    rfl
  obtain ⟨f, -, hinserted⟩ := hignored T lines [] _ hreport
  rw [parsePmtest, readLog_append, hlog, Option.bind_some, readLog, Nat.zero_add, hline,
    Option.bind_some, readLog, Option.bind_some, addEntries_cons, addEntry_event hread,
    List.head?_cons, Option.map_some, hfails, Option.bind_some, addEntries_cons] at hinserted
  obtain ⟨report, hentry, hinserted⟩ := Option.bind_eq_some_iff.mp hinserted
  obtain ⟨common, -, hentry⟩ := Option.bind_eq_some_iff.mp hentry
  obtain rfl := Option.some.inj hinserted
  rcases herror with rfl | rfl <;> simp [Event.retime] at hentry

/-- An assertion that holds. -/
def persistEntry : Entry :=
  ⟨0, .PERSIST, "_PERSIST 0 4 f g h".toList, some "f(main+0) [0]".toList⟩

def orderEntry : Entry :=
  ⟨0, .ORDER, "_ORDER 0 4 8 4 f g h".toList, some "f(main+0) [0]".toList⟩

lemma persistEntry_log : readLog U 0 []
    ["_PERSIST 0 4 f g h".toList, "STACK TRACE: f(main+0) [0]".toList] = some [persistEntry] := by
  rfl

lemma orderEntry_log : readLog U 0 []
    ["_ORDER 0 4 8 4 f g h".toList, "STACK TRACE: f(main+0) [0]".toList] = some [orderEntry] := by
  rfl

lemma sampleTools_stack : parsePmtestStack U sampleTools "f(main+0) [0]".toList =
    some [⟨"main", "log.c", 16⟩] := by
  rfl

lemma readCommon_of_stack {e : Entry} {stacktrace : Text} {stack : List LocationInfo}
    (he : e.stacktrace = some stacktrace) (h : parsePmtestStack U T stacktrace = some stack) :
    readCommon U T e = (readLocation U (e.line.splitOn ' ')).map fun location =>
      ⟨location, some (location :: stack.tail)⟩ := by
  rw [readCommon, he]
  simp only [h, Option.map_some]
  exact Option.map_eq_bind.symm

lemma persistEntry_event : readEvent U sampleTools persistEntry =
    some ⟨.ASSERT_PERSISTED, 0, [(0, 4)], ⟨"f", "g", -1⟩, false, [⟨"f", "g", -1⟩], none⟩ := by
  rw [readEvent, readCommon_of_stack rfl sampleTools_stack]
  rfl

lemma orderEntry_event : readEvent U sampleTools orderEntry =
    some ⟨.ASSERT_ORDERED, 0, [(0, 4), (8, 4)], ⟨"f", "g", -1⟩, false, [⟨"f", "g", -1⟩], none⟩ := by
  rw [readEvent, readCommon_of_stack rfl sampleTools_stack]
  rfl

/-- On its own, or behind an assertion that holds, a line that is not output makes a difference. -/
lemma isOutput_of_ignored (h : Ignored U l) : IsOutput U l := by
  obtain ⟨f, -, halone⟩ := h sampleTools [] [] [] rfl
  rw [List.nil_append, List.map_nil, parsePmtest, Option.bind_eq_some_iff] at halone
  obtain ⟨es, hlog, halone⟩ := halone
  obtain ⟨es, hline, hes⟩ := Option.bind_eq_some_iff.mp hlog
  obtain rfl := Option.some.inj hes
  -- the line has at least two words
  obtain ⟨cmd, word, rest, hwords⟩ : ∃ cmd word rest, words U l = cmd :: word :: rest := by
    rw [readLine] at hline
    dsimp only at hline
    rw [← words] at hline
    split at hline
    · exact ⟨_, _, _, ‹_›⟩
    · cases hline
  have hread := fun timestamp es => readLine_of_words timestamp es hwords
  cases hevent : findType pmtestEvents cmd with
  | some event =>
      -- an event on its own has no stack, and its entry fails
      rw [hread, hevent] at hline
      obtain rfl := Option.some.inj hline
      rw [List.nil_append, addEntries_cons,
        addEntry_unstacked (mem_of_findType hevent) rfl] at halone
      cases halone
  | none =>
  cases herror : findType pmtestErrors (cmd ++ ' ' :: word.dropLast) with
  | some event =>
      exfalso
      simp only [hevent, herror] at hread
      rw [hread] at hline
      obtain rfl := Option.some.inj hline
      obtain ⟨report, halone, -⟩ := Option.bind_eq_some_iff.mp halone
      rcases addEntry_alone (mem_of_findType herror) halone with htype | htype
      · obtain rfl : event = .PERSIST_ERROR := htype
        exact not_ignored_of_error persistEntry_log persistEntry_event rfl (.inl rfl) (hread _ _) h
      · obtain rfl : event = .ORDER_ERROR := htype
        exact not_ignored_of_error orderEntry_log orderEntry_event rfl (.inr rfl) (hread _ _) h
  | none =>
      refine ⟨cmd, word, rest, hwords, findType_eq_none_iff.mp hevent,
        findType_eq_none_iff.mp herror, fun hstack => ?_⟩
      simp only [hevent, herror] at hread
      rw [hread, if_pos hstack] at hline
      cases hline

/-- **A line is ignored** exactly when it is a line of output. -/
theorem ignored_iff (l : Text) : Ignored U l ↔ IsOutput U l :=
  ⟨isOutput_of_ignored, IsOutput.ignored⟩

end Output

/-- An empty line is an index error. -/
theorem emptyLine_not_ignored :
    (parsePmtest asciiOnly sampleTools flushLines).isSome ∧
      parsePmtest asciiOnly sampleTools (flushLines ++ ["\n".toList]) = none ∧
      ¬ Ignored asciiOnly "\n".toList := by
  refine ⟨by decide, by decide, fun h => ?_⟩
  obtain ⟨f, -, hlog⟩ := h sampleTools [] [] [] rfl
  have hnone : parsePmtest asciiOnly sampleTools ([] ++ ["\n".toList]) = none := by decide
  rw [hnone] at hlog
  cases hlog

end Hippocrates.ParseTrace
