import Mathlib.Tactic
import Hippocrates.ParseTrace.Events

/-!
`_parse_pmemcheck` of `parse-trace`: the loop over the lines of a pmemcheck log, which are taken for
the trace of events until it stops, and for the sections of bugs after that.

* `State`, `step`: the variables of the loop, and a round. A round may take several lines.
* `run`: the loop. `none` is an assertion that fails, or another error.
* `run_cons`: the loop, round by round. `report_prefix`: events are only added to the report.
-/

namespace Hippocrates.ParseTrace

open Pattern

section Patterns

variable (U : Unicode)

/-- `==\d+==`, before a pattern. -/
def pidRe (parts : Pattern Char) : Pattern Char :=
  .word ['=', '='] :: .run (isDigit U) :: .word ['=', '='] :: parts

/-- `nbugs_re`. -/
def nbugsRe : Pattern Char :=
  pidRe U [.run isSpace, .word "Number of stores not made persistent: ".toList, .group (isDigit U)]

/-- `nperf_re`. -/
def nperfRe : Pattern Char :=
  pidRe U [.run isSpace, .word "Number of unnecessary flushes: ".toList, .group (isDigit U)]

/-- The end of `perf_re`, the line of the address. -/
def addressRe (parts : Pattern Char) : Pattern Char :=
  .run (isDigit U) :: .word ['=', '='] :: .run isSpace :: .word "Address: ".toList ::
    .group (isWord U) :: .run isSpace :: .word "size: ".toList :: .group (isDigit U) :: parts

/-- The part from the name of the function on. -/
def nameRe (parts : Pattern Char) : Pattern Char :=
  .run (fun c => !isSpace c) :: .word [' ', '('] :: .run isDot :: .word [')', ' ', '=', '='] ::
    addressRe U parts

/-- `perf_re`, and `bug_re` with the parts for the state. -/
def blockRe (parts : Pattern Char) : Pattern Char :=
  pidRe U (.run isSpace :: .word ['['] :: .group (isDigit U) :: .word [']'] :: .run isSpace ::
    .word [' ', 'a', 't', ' '] :: .run (isWord U) :: .word [':', ' '] :: nameRe U parts)

def perfRe : Pattern Char := blockRe U []

def bugRe : Pattern Char := blockRe U [.run isSpace, .word "state: ".toList, .group (isWord U)]

end Patterns

/-- The variables of the loop. -/
structure State where
  start_trace : Bool
  stop_trace : Bool
  nbugs_total : Option ℤ
  nbugs_remaining : Option ℤ
  last_bug_no : ℤ
  is_perf : Bool
  timestamp : ℕ
  report : List Event
deriving DecidableEq

namespace State

def init : State where
  start_trace := false
  stop_trace := false
  nbugs_total := none
  nbugs_remaining := none
  last_bug_no := -1
  is_perf := false
  timestamp := 0
  report := []

/-- Events are added to the report, each with a timestamp of its own. -/
def add (s : State) (tes : List Event) : State :=
  { s with timestamp := s.timestamp + tes.length, report := s.report ++ tes }

end State

/-- What a round of the loop leads to: the end of the loop, or a further round. -/
inductive Round where
  | done
  | next (s : State) (lines : List Text)

section Loop

variable (U : Unicode)

/-- The events of a line are added. -/
def traceLine (s : State) (line : Text) : Option State :=
  (parseEvents U line s.timestamp).map s.add

/-- A line before the first bug of a section. The line after the number of stores is skipped. -/
def header (s : State) (line : Text) (lines : List Text) : Option Round :=
  match firstMatch (nbugsRe U) line with
  | some [n] =>
    (readInt U 10 n).bind fun nbugs_found =>
      if 0 < nbugs_found then
        match lines with
        | [] => none
        | next :: lines =>
          if isIn "Stores not made persistent properly" next then
            some (.next { s with
              nbugs_total := some nbugs_found
              nbugs_remaining := some nbugs_found
              is_perf := false } lines)
          else none
      else some (.next s lines.tail)
  | _ =>
    match firstMatch (nperfRe U) line with
    | some [n] =>
      (readInt U 10 n).map fun nbugs => .next { s with
        nbugs_total := some nbugs
        nbugs_remaining := some nbugs
        is_perf := true } lines
    | _ => some (.next s lines)

/-- The frame of a line, after the last `split_word`. -/
def frameOf (split_word : String) (line : Text) : Option LocationInfo :=
  parseStackframe U (strip (Text.lastPiece split_word.toList line))

/-- The number of a bug, its range, and its state. -/
structure BugLine where
  bug_no : ℤ
  range : ℤ × ℤ
  state : Option Text

/-- The groups of the patterns of a block. -/
def bugLine (bug_no addr size : Text) (state : Option Text) : Option BugLine :=
  (readInt U 10 bug_no).bind fun bug_no => (readInt U 16 addr).bind fun addr =>
    (readInt U 10 size).map fun size => ⟨bug_no, (addr, size), state⟩

/-- The first and the last line of a block, joined, are matched. -/
def readBlock (is_perf : Bool) (bug_report : Text) : Option BugLine :=
  if !is_perf then
    match firstMatch (bugRe U) bug_report with
    | some [bug_no, addr, size, state] => bugLine U bug_no addr size (some state)
    | _ => none -- does not match
  else
    match firstMatch (perfRe U) bug_report with
    | some [bug_no, addr, size] => bugLine U bug_no addr size none
    | _ => none -- does not match

/-- The event of a bug. -/
def bugEvent (is_perf : Bool) (timestamp : ℕ) (bug : BugLine) (front : LocationInfo)
    (frames : List LocationInfo) : Event where
  event := if is_perf then .REQUIRED_FLUSH else .ASSERT_PERSISTED
  timestamp := timestamp
  ranges := [bug.range]
  location := front
  isBug := true
  stack := front :: frames
  state := bug.state

/-- The variables after a bug. -/
def nextBug (s : State) (remaining bug_no : ℤ) : State :=
  if remaining = 0 ∧ !s.is_perf then
    { s with nbugs_total := none, nbugs_remaining := none, last_bug_no := -1 }
  else { s with nbugs_remaining := some remaining, last_bug_no := bug_no }

/-- A block: the line of the first frame, the lines with `by`, and the line of the address. A frame
that is not read is an error when the event is made. -/
def block (s : State) (remaining : ℤ) (line : Text) (lines : List Text) : Option Round :=
  match frameOf U " at " line, (lines.takeWhile (isIn "by")).mapM (frameOf U " by "),
      lines.dropWhile (isIn "by") with
  | some front, some frames, last :: lines =>
    (readBlock U s.is_perf (strip line ++ ' ' :: strip last)).bind fun bug =>
      if bug.bug_no = s.last_bug_no + 1 then
        some (.next (nextBug (s.add [bugEvent s.is_perf s.timestamp bug front frames])
          (remaining - 1) bug.bug_no) lines)
      else none
  | _, _, _ => none

/-- A round of the loop. -/
def step (s : State) (line : Text) (lines : List Text) : Option Round :=
  if !s.start_trace then
    if isIn "START|" line || isIn "|STORE" line || isIn "|FLUSH" line || isIn "|FENCE" line then
      (traceLine U { s with start_trace := true } line).map (.next · lines)
    else some (.next s lines)
  else if !s.stop_trace then
    if isIn "|STOP" line then some (.next { s with stop_trace := true } lines)
    else (traceLine U s line).map (.next · lines)
  else
    match s.nbugs_total, s.nbugs_remaining with
    | none, _ => header U s line lines
    | some _, none => some .done
    | some _, some remaining =>
      if 0 < remaining then block U s remaining line lines else some .done

/-- The rounds, with a bound for their number. -/
def runFuel : ℕ → State → List Text → Option State
  | _, s, [] => some s
  | 0, _, _ :: _ => none
  | n + 1, s, line :: lines =>
    match step U s line lines with
    | none => none
    | some .done => some s
    | some (.next s lines) => runFuel n s lines

/-- The loop; every round takes a line. -/
def run (s : State) (lines : List Text) : Option State := runFuel U lines.length s lines

/-- `_parse_pmemcheck`. -/
def parsePmemcheck (lines : List Text) : Option (List Event) :=
  (run U State.init lines).map State.report

end Loop

/-! ### The rounds of the loop -/

section Run

variable {U : Unicode} {s s' : State} {line : Text} {lines lines' : List Text}

lemma traceLine_report (h : traceLine U s line = some s') : s.report <+: s'.report := by
  obtain ⟨tes, -, rfl⟩ := Option.map_eq_some_iff.mp h
  exact List.prefix_append _ _

lemma header_next (h : header U s line lines = some (.next s' lines')) :
    lines' <:+ lines ∧ s'.report = s.report := by
  rw [header] at h
  split at h
  · obtain ⟨n, -, h⟩ := Option.bind_eq_some_iff.mp h
    split at h
    · split at h
      · cases h
      · split at h
        · cases h
          exact ⟨List.suffix_cons _ _, rfl⟩
        · cases h
    · cases h
      exact ⟨List.tail_suffix _, rfl⟩
  · split at h
    · obtain ⟨n, -, h⟩ := Option.map_eq_some_iff.mp h
      cases h
      exact ⟨List.suffix_rfl, rfl⟩
    · cases h
      exact ⟨List.suffix_rfl, rfl⟩

@[simp] lemma nextBug_report (s : State) (remaining bug_no : ℤ) :
    (nextBug s remaining bug_no).report = s.report := by
  rw [nextBug]
  split <;> rfl

/-- A block adds one event, that of its frames. -/
lemma block_next {remaining : ℤ} (h : block U s remaining line lines = some (.next s' lines')) :
    lines' <:+ lines ∧ ∃ bug front frames last, frameOf U " at " line = some front ∧
      (lines.takeWhile (isIn "by")).mapM (frameOf U " by ") = some frames ∧
      lines.dropWhile (isIn "by") = last :: lines' ∧
      readBlock U s.is_perf (strip line ++ ' ' :: strip last) = some bug ∧
      s'.report = s.report ++ [bugEvent s.is_perf s.timestamp bug front frames] := by
  rw [block] at h
  split at h
  · rename_i front frames last rest hfront hframes hlast
    obtain ⟨bug, hbug, h⟩ := Option.bind_eq_some_iff.mp h
    split at h
    · cases h
      refine ⟨?_, bug, front, frames, last, hfront, hframes, hlast, hbug, by simp [State.add]⟩
      have hsuffix := List.dropWhile_suffix (l := lines) (isIn "by")
      rw [hlast] at hsuffix
      exact (List.suffix_cons last _).trans hsuffix
    · cases h
  · cases h

/-- A round takes its line, and only adds to the report. -/
lemma step_next (h : step U s line lines = some (.next s' lines')) :
    lines' <:+ lines ∧ s.report <+: s'.report := by
  rw [step] at h
  -- the three states of the loop, and the ways a round leaves each of them
  split at h
  · split at h
    · obtain ⟨s₁, hs₁, h⟩ := Option.map_eq_some_iff.mp h
      cases h
      have hreport := traceLine_report hs₁
      exact ⟨List.suffix_rfl, hreport⟩
    · cases h
      exact ⟨List.suffix_rfl, List.prefix_rfl⟩
  split at h
  · split at h
    · cases h
      exact ⟨List.suffix_rfl, List.prefix_rfl⟩
    · obtain ⟨s₁, hs₁, h⟩ := Option.map_eq_some_iff.mp h
      cases h
      exact ⟨List.suffix_rfl, traceLine_report hs₁⟩
  split at h
  · obtain ⟨hlines, hreport⟩ := header_next h
    exact ⟨hlines, by rw [hreport]⟩
  · cases h
  · split at h
    · obtain ⟨hlines, bug, front, frames, last, -, -, -, -, hreport⟩ := block_next h
      exact ⟨hlines, by rw [hreport]; exact List.prefix_append _ _⟩
    · cases h

/-- The bound does not matter once there is a round for each line. -/
lemma runFuel_eq {n m : ℕ} (hn : lines.length ≤ n) (hm : lines.length ≤ m) :
    runFuel U n s lines = runFuel U m s lines := by
  induction n generalizing m s lines with
  | zero =>
      obtain rfl := List.length_eq_zero_iff.mp (Nat.le_zero.mp hn)
      cases m <;> rfl
  | succ n ih =>
      cases lines with
      | nil => cases m <;> rfl
      | cons line lines =>
          cases m with
          | zero => simp at hm
          | succ m =>
              simp only [List.length_cons, Nat.add_le_add_iff_right] at hn hm
              rw [runFuel, runFuel]
              split
              · rfl
              · rfl
              · rename_i hstep
                have hlen := (step_next hstep).1.length_le
                exact ih (hlen.trans hn) (hlen.trans hm)

@[simp] lemma run_nil : run U s [] = some s := rfl

/-- The loop, round by round. -/
lemma run_cons : run U s (line :: lines) =
    match step U s line lines with
    | none => none
    | some .done => some s
    | some (.next s lines) => run U s lines := by
  rw [run, List.length_cons, runFuel]
  split
  · rfl
  · rfl
  · rename_i hstep
    exact runFuel_eq (step_next hstep).1.length_le le_rfl

lemma run_next (h : step U s line lines = some (.next s' lines')) :
    run U s (line :: lines) = run U s' lines' := by
  rw [run_cons, h]

/-- Events are only added to the report. -/
lemma report_prefix (h : run U s lines = some s') : s.report <+: s'.report := by
  induction hn : lines.length using Nat.strong_induction_on generalizing s lines with
  | _ n ih =>
    cases lines with
    | nil =>
        obtain rfl := Option.some.inj h
        exact List.prefix_rfl
    | cons line lines =>
        rw [run_cons] at h
        split at h
        · cases h
        · obtain rfl := Option.some.inj h
          exact List.prefix_rfl
        · rename_i s₁ lines₁ hstep
          obtain ⟨hlines, hreport⟩ := step_next hstep
          have hlen : lines₁.length < n := by
            rw [← hn, List.length_cons]
            exact Nat.lt_succ_of_le hlines.length_le
          exact hreport.trans (ih _ hlen h rfl)

end Run

end Hippocrates.ParseTrace
