import Mathlib.Tactic
import Hippocrates.ParseTrace.BugSections

/-!
Traces of events that are broken into lines.

* `Log`: a trace `START|e1|...|en|STOP` with line breaks before some of the bars.
* `Log.kept_iff_fits`: the trace is read as one event for each operation, and the sections of bugs
  after it, exactly when the line of the stop has no operation, and the start is seen on an earlier
  line (`Log.Fits`). The loop looks for the stop only on lines after that of the start, and does
  not read the line of the stop.
-/

namespace Hippocrates.ParseTrace

/-! ### Traces -/

/-- The words that are looked for. -/
def markers : List String := ["START", "STOP", "STORE", "FLUSH", "FENCE"]

def Unmarked (s : Text) : Prop := ∀ w ∈ markers, ¬ w.toList <:+: s

instance (s : Text) : Decidable (Unmarked s) :=
  inferInstanceAs (Decidable (∀ w ∈ markers, ¬ w.toList <:+: s))

/-- An operation whose fields and frames have no marker. The first frame is read. -/
structure TraceOp (U : Unicode) extends Operation U where
  plain : ∀ f ∈ toOperation.allFrames, Plain f.ending
  unmarked : ∀ s ∈ toOperation.parts, Unmarked s
  entry : LocationInfo
  reads : parseStackframe U front.text = some entry

/-- The event of the operation. -/
def TraceOp.event {U : Unicode} (op : TraceOp U) (timestamp : ℕ) : Event where
  event := op.head.type
  timestamp := timestamp
  ranges := op.head.ranges
  location := op.entry
  isBug := false
  stack := op.entry :: readStack U (op.frames.map Frame.text)
  state := none

/-- An event of a trace: an operation, or a text that is passed over. -/
inductive Item (U : Unicode) where
  | op (t : TraceOp U)
  | other (s : Text) (bar : '|' ∉ s) (unmarked : Unmarked s)

namespace Item

variable {U : Unicode}

def text : Item U → Text
  | op t => t.text
  | other s _ _ => s

def ops : Item U → List (TraceOp U)
  | op t => [t]
  | other _ _ _ => []

end Item

section Lines

variable {U : Unicode}

/-- The operations of events, in order. -/
def opsOf (items : List (Item U)) : List (TraceOp U) := items.flatMap Item.ops

/-- One event for each operation, with timestamps from the given one on. -/
def opEvents : ℕ → List (TraceOp U) → List Event
  | _, [] => []
  | timestamp, op :: ops => op.event timestamp :: opEvents (timestamp + 1) ops

/-- A line: its start, and pieces after a bar each. -/
def barLine (start : Text) (pieces : List Text) : Text :=
  start ++ (Text.records '|' pieces ++ ['\n'])

end Lines

/-- A trace on one line, or on several: the events after the start on the first line, those of the
lines between, and those before the stop on the last line. -/
inductive Log (U : Unicode) where
  | oneLine (items : List (Item U))
  | broken (first : List (Item U)) (middle : List (List (Item U))) (last : List (Item U))

namespace Log

variable {U : Unicode}

def items : Log U → List (Item U)
  | oneLine items => items
  | broken first middle last => first ++ middle.flatten ++ last

def lines : Log U → List Text
  | oneLine items => [barLine "START".toList (items.map Item.text ++ ["STOP".toList])]
  | broken first middle last =>
    barLine "START".toList (first.map Item.text) ::
      (middle.map (fun items => barLine [] (items.map Item.text)) ++
        [barLine [] (last.map Item.text ++ ["STOP".toList])])

/-- The start is seen before the last line, and the last line has no operation. -/
def Fits : Log U → Prop
  | oneLine _ => False
  | broken first middle last =>
    (first ≠ [] ∨ opsOf middle.flatten ≠ []) ∧ opsOf last = []

/-- The trace is kept: one event for each operation, in order, and the loop goes on with the
sections of bugs. -/
def Kept (log : Log U) : Prop :=
  ∀ rest, parsePmemcheck U (log.lines ++ rest) =
    (run U (State.stopped.add (opEvents 0 (opsOf log.items))) rest).map State.report

/-- Without the line breaks, the lines are the trace. -/
lemma flatten_lines (log : Log U) : (log.lines.map List.dropLast).flatten =
    "START".toList ++ Text.records '|' (log.items.map Item.text ++ ["STOP".toList]) := by
  have hline : ∀ start pieces, (barLine start pieces).dropLast =
      start ++ Text.records '|' pieces := by
    intro start pieces
    rw [barLine, ← List.append_assoc, List.dropLast_concat]
  cases log with
  | oneLine l => simp [lines, items, hline]
  | broken first middle last =>
      simp [lines, items, hline, Function.comp_def, Text.records, List.flatMap_def,
        List.flatten_flatten]

end Log

/-! ### The texts of the events -/

section Items

variable {U : Unicode} {items : List (Item U)} {s s' : State} {rest : List Text} {timestamp : ℕ}

namespace TraceOp

variable (op : TraceOp U)

/-- A marker is in the text of an operation only as its tag. -/
lemma infix_tag {w : String} (hw : w ∈ markers) (h : w.toList <:+: op.text) :
    w.toList <:+: op.head.tag.toList := by
  have hsemi : ';' ∉ w.toList ∧ w.toList ≠ [] := by
    revert hw
    simp only [markers, List.mem_cons, List.not_mem_nil, or_false]
    rintro (rfl | rfl | rfl | rfl | rfl) <;> decide
  have hparts : ∀ l : List Text, (∀ s ∈ l, Unmarked s) → ¬ w.toList <:+: [';'].intercalate l := by
    intro l hl
    induction l with
    | nil => simpa using hsemi.2
    | cons s l ih =>
        obtain ⟨hs, hl'⟩ := List.forall_mem_cons.mp hl
        cases l with
        | nil => simpa using hs w hw
        | cons s' l =>
            rw [List.intercalate_cons_cons, List.append_assoc, List.singleton_append,
              Text.infix_append_cons_iff hsemi.1]
            exact not_or.mpr ⟨hs w hw, ih hl'⟩
  rw [op.text_eq, Text.infix_append_cons_iff hsemi.1] at h
  exact h.resolve_right (hparts _ op.unmarked)

lemma not_start : ¬ "START".toList <:+: op.text := fun h => by
  have htag := op.infix_tag (by simp [markers]) h
  rcases op.head.tag_cases with heq | heq | heq <;> rw [heq] at htag <;> revert htag <;> decide

lemma not_stop : ¬ "STOP".toList <:+: op.text := fun h => by
  have htag := op.infix_tag (by simp [markers]) h
  rcases op.head.tag_cases with heq | heq | heq <;> rw [heq] at htag <;> revert htag <;> decide

lemma fence_of_infix (h : "FENCE".toList <:+: op.text) : op.head.type = .FENCE := by
  have htag := op.infix_tag (by simp [markers]) h
  cases hhead : op.head with
  | store address value plain size =>
      have htag : "FENCE".toList <:+: "STORE".toList := by rwa [hhead] at htag
      exact absurd htag (by decide)
  | flush address size =>
      have htag : "FENCE".toList <:+: "FLUSH".toList := by rwa [hhead] at htag
      exact absurd htag (by decide)
  | fence => rfl

/-- The operation is read, and the pieces after it. -/
lemma events_eq : events U (op.text :: rest) timestamp =
    (events U rest (timestamp + 1)).map (op.event timestamp :: ·) := by
  have hread : operationEvent U op.head.type timestamp op.head.ranges
      (op.allFrames.map Frame.text) = some (op.event timestamp) := by
    rw [operationEvent, Operation.allFrames, List.map_cons, readStack, op.reads]
    rfl
  rw [Operation.events_text op.not_start op.not_stop]
  by_cases hf : op.head.type = .FENCE
  · rw [if_pos (.inl hf), Operation.parseFence_text hf op.plain, hread, Option.bind_some]
  · rw [if_neg (not_or.mpr ⟨hf, mt op.fence_of_infix hf⟩),
      Operation.parseStoreFlush_text hf op.plain, hread, Option.bind_some]

end TraceOp

/-- A piece that is passed over, wherever it stands. -/
def Silent (U : Unicode) (s : Text) : Prop :=
  ∀ rest timestamp, events U (strip s :: rest) timestamp = events U rest timestamp

lemma silent_of_start {s : Text} (h : "START".toList <:+: strip s) : Silent U s := by
  intro rest timestamp
  rw [events, if_pos (isIn_iff.mpr h)]

lemma silent_of_unmarked {s : Text} (h : Unmarked s) : Silent U s := by
  have hin : ∀ w ∈ markers, isIn w (strip s) = false := by
    intro w hw
    refine isIn_eq_false_iff.mpr fun hin => ?_
    exact h w hw (hin.trans (Text.strip_isInfix s))
  intro rest timestamp
  simp only [markers, List.mem_cons, List.not_mem_nil, or_false, forall_eq_or_imp,
    forall_eq] at hin
  obtain ⟨hstart, hstop, hstore, hflush, hfence⟩ := hin
  simp [events, hstart, hstop, hfence, hstore, hflush]

lemma Unmarked.concat {s : Text} (h : Unmarked s) : Unmarked (s ++ ['\n']) := by
  intro w hw
  have hline : '\n' ∉ w.toList ∧ w.toList ≠ [] := by
    revert hw
    simp only [markers, List.mem_cons, List.not_mem_nil, or_false]
    rintro (rfl | rfl | rfl | rfl | rfl) <;> decide
  rw [Text.infix_append_cons_iff hline.1, List.infix_nil]
  exact not_or.mpr ⟨h w hw, hline.2⟩

lemma opEvents_append (ops ops' : List (TraceOp U)) : opEvents timestamp (ops ++ ops') =
    opEvents timestamp ops ++ opEvents (timestamp + ops.length) ops' := by
  induction ops generalizing timestamp with
  | nil => rfl
  | cons op ops ih =>
      rw [List.cons_append, opEvents, opEvents, ih, List.cons_append, List.length_cons, add_assoc,
        add_comm 1]

@[simp] lemma length_opEvents (ops : List (TraceOp U)) :
    (opEvents timestamp ops).length = ops.length := by
  induction ops generalizing timestamp with
  | nil => rfl
  | cons op ops ih => rw [opEvents, List.length_cons, ih, List.length_cons]

namespace Item

variable (e : Item U)

lemma bar_not_mem : '|' ∉ e.text := by
  cases e with
  | op t => exact Operation.bar_not_mem_text t.plain
  | other s bar unmarked => exact bar

lemma not_start : ¬ "START".toList <:+: e.text := by
  cases e with
  | op t => exact t.not_start
  | other s bar unmarked => exact unmarked "START" (by simp [markers])

lemma not_stop : ¬ "STOP".toList <:+: e.text := by
  cases e with
  | op t => exact t.not_stop
  | other s bar unmarked => exact unmarked "STOP" (by simp [markers])

/-- An event begins with a tag if it is an operation. -/
lemma tag_iff : ("STORE".toList <+: e.text ∨ "FLUSH".toList <+: e.text ∨
    "FENCE".toList <+: e.text) ↔ e.ops ≠ [] := by
  cases e with
  | op t =>
      refine iff_of_true ?_ (List.cons_ne_nil _ _)
      have hprefix : t.head.tag.toList <+: t.text := by
        rw [t.text_eq]
        exact List.prefix_append _ _
      rcases t.head.tag_cases with heq | heq | heq
      · exact .inl (heq ▸ hprefix)
      · exact .inr (.inl (heq ▸ hprefix))
      · exact .inr (.inr (heq ▸ hprefix))
  | other s bar unmarked =>
      refine iff_of_false ?_ (by simp [ops])
      rintro (h | h | h)
      · exact unmarked "STORE" (by simp [markers]) h.isInfix
      · exact unmarked "FLUSH" (by simp [markers]) h.isInfix
      · exact unmarked "FENCE" (by simp [markers]) h.isInfix

/-- An event adds its operation, also at the end of a line. -/
lemma events_eq {t : Text} (ht : t = e.text ∨ t = e.text ++ ['\n']) :
    events U (strip t :: rest) timestamp =
      (events U rest (timestamp + e.ops.length)).map (opEvents timestamp e.ops ++ ·) := by
  cases e with
  | op op =>
      have hstrip : strip t = op.text := by
        rcases ht with rfl | rfl
        · exact op.strip_text
        · exact op.strip_line
      rw [hstrip, op.events_eq]
      rfl
  | other s bar unmarked =>
      have hsilent : Silent U t := by
        rcases ht with rfl | rfl
        · exact silent_of_unmarked unmarked
        · exact silent_of_unmarked unmarked.concat
      rw [hsilent]
      exact Option.map_id'.symm

end Item

/-! ### The lines -/

/-- The operations of a line are read. -/
lemma events_items (e : Item U) : events U
    (((e.text ++ (Text.records '|' (items.map Item.text) ++ ['\n'])).splitOn '|').map strip)
      timestamp = some (opEvents timestamp (opsOf (e :: items))) := by
  induction items generalizing e timestamp with
  | nil =>
      have hbar : '|' ∉ e.text ++ ['\n'] := by simp [e.bar_not_mem]
      rw [List.map_nil, Text.records_nil, List.nil_append, List.splitOn_eq_singleton hbar,
        List.map_singleton, e.events_eq (.inr rfl), events]
      simp [opsOf]
  | cons e' items ih =>
      rw [List.map_cons, Text.records_cons, List.cons_append, List.append_assoc,
        List.splitOn_append_cons_self_of_not_mem e.bar_not_mem, List.map_cons,
        e.events_eq (.inl rfl), ih, Option.map_some, ← opEvents_append]
      simp [opsOf]

/-- The start of a line is passed over. -/
lemma parseEvents_barLine {start : Text} (hbar : '|' ∉ start) (h : Silent U start)
    (h' : Silent U (start ++ ['\n'])) :
    parseEvents U (barLine start (items.map Item.text)) timestamp =
      some (opEvents timestamp (opsOf items)) := by
  rw [parseEvents, barLine]
  cases items with
  | nil =>
      have hline : '|' ∉ start ++ ['\n'] := by simp [hbar]
      rw [List.map_nil, Text.records_nil, List.nil_append, List.splitOn_eq_singleton hline,
        List.map_singleton, h', events]
      rfl
  | cons e items =>
      rw [List.map_cons, Text.records_cons, List.cons_append, List.append_assoc,
        List.splitOn_append_cons_self_of_not_mem hbar, List.map_cons, h, events_items]

lemma silent_nil : Silent U [] := silent_of_unmarked (by simp [Unmarked, markers])

lemma parseEvents_line : parseEvents U (barLine [] (items.map Item.text)) timestamp =
    some (opEvents timestamp (opsOf items)) :=
  parseEvents_barLine (by simp) silent_nil
    (silent_of_unmarked (s := ['\n']) (by unfold Unmarked; decide))

lemma parseEvents_start : parseEvents U (barLine "START".toList (items.map Item.text)) timestamp =
    some (opEvents timestamp (opsOf items)) :=
  parseEvents_barLine (by decide) (silent_of_start (by decide)) (silent_of_start (by decide))

section Marks

variable {start : Text} {pieces : List Text}

/-- A word after a bar begins one of the pieces. -/
lemma isIn_bar_iff {w v : String} (hv : v.toList = '|' :: w.toList) (hbar : '|' ∉ start)
    (hpieces : ∀ t ∈ pieces, '|' ∉ t) (hw : '|' ∉ w.toList ∧ '\n' ∉ w.toList) :
    isIn v (barLine start pieces) = true ↔ ∃ t ∈ pieces, w.toList <+: t := by
  rw [isIn_iff, hv, barLine,
    Text.cons_infix_records_iff hbar hpieces (by decide) hw.1 hw.2]

lemma items_bar : ∀ t ∈ items.map Item.text, '|' ∉ t := by
  intro t ht
  obtain ⟨e, -, rfl⟩ := List.mem_map.mp ht
  exact e.bar_not_mem

lemma not_stop_line (hbar : '|' ∉ start) :
    ¬ isIn "|STOP" (barLine start (items.map Item.text)) = true := by
  rw [isIn_bar_iff (w := "STOP") (by decide) hbar items_bar (by decide)]
  rintro ⟨t, ht, hprefix⟩
  obtain ⟨e, -, rfl⟩ := List.mem_map.mp ht
  exact e.not_stop hprefix.isInfix

lemma stop_line (hbar : '|' ∉ start) :
    isIn "|STOP" (barLine start (items.map Item.text ++ ["STOP".toList])) = true := by
  have hpieces : ∀ t ∈ items.map Item.text ++ ["STOP".toList], '|' ∉ t := by
    intro t ht
    rcases List.mem_append.mp ht with ht | ht
    · exact items_bar t ht
    · obtain rfl := List.mem_singleton.mp ht
      decide
  rw [isIn_bar_iff (w := "STOP") (by decide) hbar hpieces (by decide)]
  exact ⟨"STOP".toList, by simp, List.prefix_rfl⟩

/-- A line starts the trace if it has an operation, or the start and a piece. -/
lemma starts_line_iff (hstart : ¬ "START".toList <:+: start) (hbar : '|' ∉ start)
    (items : List (Item U)) :
    (isIn "START|" (barLine start (items.map Item.text)) ||
      isIn "|STORE" (barLine start (items.map Item.text)) ||
      isIn "|FLUSH" (barLine start (items.map Item.text)) ||
      isIn "|FENCE" (barLine start (items.map Item.text))) = true ↔ opsOf items ≠ [] := by
  have hno : ¬ isIn "START|" (barLine start (items.map Item.text)) = true := by
    rw [isIn_iff]
    intro h
    have hin : "START".toList <:+: barLine start (items.map Item.text) :=
      (List.prefix_append "START".toList ['|']).isInfix.trans h
    rw [barLine, Text.infix_records_iff (by decide) (by decide) (by decide)] at hin
    obtain ⟨t, ht, hin⟩ := hin.resolve_left hstart
    obtain ⟨e, -, rfl⟩ := List.mem_map.mp ht
    exact e.not_start hin
  have htags : (∃ t ∈ items.map Item.text, "STORE".toList <+: t ∨ "FLUSH".toList <+: t ∨
      "FENCE".toList <+: t) ↔ opsOf items ≠ [] := by
    simp only [List.mem_map, exists_exists_and_eq_and, Item.tag_iff, opsOf, ne_eq,
      List.flatMap_eq_nil_iff, not_forall, exists_prop]
  simp only [Bool.or_eq_true, or_assoc, or_iff_right hno, ← htags, and_or_left, exists_or]
  rw [isIn_bar_iff (w := "STORE") (by decide) hbar items_bar (by decide),
    isIn_bar_iff (w := "FLUSH") (by decide) hbar items_bar (by decide),
    isIn_bar_iff (w := "FENCE") (by decide) hbar items_bar (by decide)]

end Marks

namespace State

/-- The trace starts. -/
def start (s : State) : State := { s with start_trace := true }

/-- The variables after operations. -/
def read (s : State) (ops : List (TraceOp U)) : State := s.add (opEvents s.timestamp ops)

lemma read_read (s : State) (ops ops' : List (TraceOp U)) :
    (s.read ops).read ops' = s.read (ops ++ ops') := by
  simp [read, add, opEvents_append, add_assoc]

end State

/-- A line of the trace. -/
lemma run_line (hs : s.start_trace = true) (hs' : s.stop_trace = false) :
    run U s (barLine [] (items.map Item.text) :: rest) = run U (s.read (opsOf items)) rest := by
  refine run_next ?_
  rw [step, if_neg (by simp [hs]), if_pos (by simp [hs']), if_neg (not_stop_line (by simp)),
    traceLine, parseEvents_line]
  rfl

lemma run_lines {middle : List (List (Item U))} (hs : s.start_trace = true)
    (hs' : s.stop_trace = false) :
    run U s (middle.map (fun items => barLine [] (items.map Item.text)) ++ rest) =
      run U (s.read (opsOf middle.flatten)) rest := by
  induction middle generalizing s with
  | nil => simp [State.read, State.add, opsOf, opEvents]
  | cons items middle ih =>
      have hread := ih (s := s.read (opsOf items)) hs hs'
      rw [List.map_cons, List.cons_append, run_line hs hs', hread, State.read_read]
      simp [opsOf]

/-- The line of the stop. -/
lemma run_stop (hs : s.start_trace = true) (hs' : s.stop_trace = false) :
    run U s (barLine [] (items.map Item.text ++ ["STOP".toList]) :: rest) =
      run U { s with stop_trace := true } rest := by
  refine run_next ?_
  rw [step, if_neg (by simp [hs]), if_pos (by simp [hs']), if_pos (stop_line (by simp))]

/-- A line before the trace is started. -/
lemma run_unstarted (hs : s.start_trace = false) :
    run U s (barLine [] (items.map Item.text) :: rest) =
      if opsOf items = [] then run U s rest else run U (s.start.read (opsOf items)) rest := by
  have hno : ¬ "START".toList <:+: [] := by decide
  have hiff := starts_line_iff hno (by simp) items
  split
  · rename_i hops
    refine run_next ?_
    rw [step, if_pos (by simp [hs]), if_neg (mt hiff.mp (not_not.mpr hops))]
  · rename_i hops
    refine run_next ?_
    rw [step, if_pos (by simp [hs]), if_pos (hiff.mpr hops), traceLine, parseEvents_line]
    rfl

/-- The lines between do not start the trace without an operation. -/
lemma run_lines_unstarted {middle : List (List (Item U))} (hs : s.start_trace = false)
    (hs' : s.stop_trace = false) :
    run U s (middle.map (fun items => barLine [] (items.map Item.text)) ++ rest) =
      if opsOf middle.flatten = [] then run U s rest
      else run U (s.start.read (opsOf middle.flatten)) rest := by
  induction middle with
  | nil => simp [opsOf]
  | cons items middle ih =>
      have hops : opsOf (items :: middle).flatten = opsOf items ++ opsOf middle.flatten := by
        simp [opsOf]
      rw [List.map_cons, List.cons_append, run_unstarted hs, hops]
      by_cases hitems : opsOf items = []
      · rw [if_pos hitems, ih, hitems, List.nil_append]
      · have hread : run U (s.start.read (opsOf items))
            (middle.map (fun items => barLine [] (items.map Item.text)) ++ rest) =
              run U ((s.start.read (opsOf items)).read (opsOf middle.flatten)) rest :=
          run_lines rfl hs'
        rw [if_neg hitems, hread, if_neg (by simp [hitems]), State.read_read]

/-- The first line starts the trace if an event is on it. -/
lemma run_first : run U State.init (barLine "START".toList (items.map Item.text) :: rest) =
    if items = [] then run U State.init rest
    else run U (State.init.start.read (opsOf items)) rest := by
  cases items with
  | nil =>
      rw [if_pos rfl]
      exact run_next rfl
  | cons e items =>
      have hin : isIn "START|" (barLine "START".toList ((e :: items).map Item.text)) = true := by
        rw [isIn_iff, barLine]
        exact ⟨[], e.text ++ (Text.records '|' (items.map Item.text) ++ ['\n']), by simp⟩
      rw [if_neg (List.cons_ne_nil _ _)]
      refine run_next ?_
      rw [step, if_pos (by simp [State.init]),
        if_pos (by rw [hin, Bool.true_or, Bool.true_or, Bool.true_or]), traceLine,
        parseEvents_start]
      rfl

end Items

/-! ### The trace and the sections after it -/

namespace Log

variable {U : Unicode} {first last : List (Item U)} {middle : List (List (Item U))} {s s' : State}
  {rest : List Text}

/-- If the start is seen before the last line, the events of all lines but the last are added. -/
lemma run_broken (h : first ≠ [] ∨ opsOf middle.flatten ≠ []) :
    run U State.init ((broken first middle last).lines ++ rest) =
      run U (State.stopped.read (opsOf (first ++ middle.flatten))) rest := by
  have hops : opsOf (first ++ middle.flatten) = opsOf first ++ opsOf middle.flatten := by
    simp [opsOf]
  rw [lines, List.cons_append, List.append_assoc, run_first, hops]
  split
  · rename_i hfirst
    have hmiddle : opsOf middle.flatten ≠ [] := h.resolve_left (not_not.mpr hfirst)
    rw [run_lines_unstarted rfl rfl, if_neg hmiddle, List.singleton_append, run_stop rfl rfl,
      hfirst]
    rfl
  · rw [run_lines rfl rfl, List.singleton_append, run_stop rfl rfl, State.read_read]
    rfl

end Log

/-! ### A trace that does not stop -/

section Tracing

variable {U : Unicode} {s s' : State} {line : Text} {lines rest : List Text} {timestamp : ℕ}

/-- The trace goes on, and no bug has been added. -/
structure State.Tracing (s : State) : Prop where
  stop_trace : s.stop_trace = false
  isBug : ∀ te ∈ s.report, te.isBug = false

lemma operationEvent_isBug {type : TraceEvent.EventType} {ranges : List (ℤ × ℤ)} {te : Event}
    (h : operationEvent U type timestamp ranges lines = some te) : te.isBug = false := by
  rw [operationEvent] at h
  split at h
  · cases h
  · obtain rfl := Option.some.inj h
    rfl

/-- The events of a line are no bugs. -/
lemma isBug_of_events {tes : List Event} (h : events U lines timestamp = some tes) :
    ∀ te ∈ tes, te.isBug = false := by
  induction lines generalizing timestamp tes with
  | nil =>
      obtain rfl := Option.some.inj h
      simp
  | cons event rest ih =>
      -- an operation is no assertion
      have hadd : ∀ {te}, (parseFence U event timestamp = some te ∨
          parseStoreFlush U event timestamp = some te) → te.isBug = false := by
        intro te hte
        obtain ⟨type, ranges, frames, hop, -⟩ := Operation.exists_operationEvent hte
        exact operationEvent_isBug hop
      rw [events] at h
      split at h
      · exact ih h
      split at h
      · obtain rfl := Option.some.inj h
        simp
      split at h
      · obtain ⟨te, hte, h⟩ := Option.bind_eq_some_iff.mp h
        obtain ⟨tes, htes, rfl⟩ := Option.map_eq_some_iff.mp h
        exact List.forall_mem_cons.mpr ⟨hadd (.inl hte), ih htes⟩
      split at h
      · obtain ⟨te, hte, h⟩ := Option.bind_eq_some_iff.mp h
        obtain ⟨tes, htes, rfl⟩ := Option.map_eq_some_iff.mp h
        exact List.forall_mem_cons.mpr ⟨hadd (.inr hte), ih htes⟩
      · exact ih h

lemma traceLine_tracing (hs : s.Tracing) (h : traceLine U s line = some s') : s'.Tracing := by
  obtain ⟨tes, htes, rfl⟩ := Option.map_eq_some_iff.mp h
  refine ⟨hs.stop_trace, fun te hte => ?_⟩
  rcases List.mem_append.mp hte with hte | hte
  · exact hs.isBug te hte
  · exact isBug_of_events htes te hte

/-- The trace goes on at a line that does not stop it, and at the line that starts it. -/
lemma step_tracing (lines : List Text) (hs : s.Tracing)
    (hstop : s.start_trace = true → isIn "|STOP" line = false) :
    step U s line lines = none ∨
      ∃ s', step U s line lines = some (.next s' lines) ∧ s'.Tracing := by
  have htrace : ∀ s₁ : State, s₁.Tracing → (traceLine U s₁ line).map (Round.next · lines) = none ∨
      ∃ s', (traceLine U s₁ line).map (Round.next · lines) = some (.next s' lines) ∧
        s'.Tracing := by
    intro s₁ hs₁
    cases hline : traceLine U s₁ line with
    | none => exact .inl rfl
    | some s' => exact .inr ⟨s', rfl, traceLine_tracing hs₁ hline⟩
  rw [step]
  cases hstart : s.start_trace with
  | false =>
      rw [if_pos (by simp)]
      split
      · exact htrace _ ⟨hs.stop_trace, hs.isBug⟩
      · exact .inr ⟨s, rfl, hs⟩
  | true =>
      rw [if_neg (by simp), if_pos (by simp [hs.stop_trace]), if_neg (by simp [hstop hstart])]
      exact htrace s hs

lemma run_step_tracing (hs : s.Tracing) (hstop : s.start_trace = true → isIn "|STOP" line = false)
    (h : run U s (line :: lines) = some s') :
    ∃ s₁ : State, s₁.Tracing ∧ run U s₁ lines = some s' := by
  rcases step_tracing (U := U) lines hs hstop with hnone | ⟨s₁, hs₁, htracing⟩
  · rw [run_cons, hnone] at h
    cases h
  · rw [run_next hs₁] at h
    exact ⟨s₁, htracing, h⟩

/-- Without a stop, no bug is added. -/
lemma run_tracing (hs : s.Tracing) (hlines : ∀ line ∈ lines, '|' ∉ line)
    (h : run U s lines = some s') : s'.Tracing := by
  induction lines generalizing s with
  | nil =>
      obtain rfl := Option.some.inj h
      exact hs
  | cons line lines ih =>
      obtain ⟨hline, hlines⟩ := List.forall_mem_cons.mp hlines
      have hstop : isIn "|STOP" line = false :=
        isIn_eq_false_iff.mpr fun hin => hline (hin.subset (by decide))
      obtain ⟨s₁, htracing, hrun⟩ := run_step_tracing hs (fun _ => hstop) h
      exact ih htracing hlines hrun

/-- On the line that starts the trace, a stop is not seen. -/
lemma run_last (hs : s.Tracing) (hstart : s.start_trace = false)
    (hlines : ∀ line ∈ rest, '|' ∉ line) (h : run U s (line :: rest) = some s') : s'.Tracing := by
  obtain ⟨s₁, htracing, hrun⟩ := run_step_tracing hs (by simp [hstart]) h
  exact run_tracing htracing hlines hrun

/-- A section with one bug. -/
def sampleBug (U : Unicode) : BugBlock U where
  front := .source ⟨['4'], by simp, by simp [isWord]⟩ ['f'] ['g'] 1
  frames := []
  address := { text := ['4'], ne_nil := by simp, isWord := by simp [isWord], value := 4,
               reads := rfl }
  size := 8
  state := ⟨['D'], by simp, by simp [isWord]⟩

lemma sampleBug_fits (U : Unicode) : (sampleBug U).Fits true := by
  have hblank : BugBlock.FirstBlank ['f', ' ', '(', 'g', ':', '1', ')'] := by decide
  have hfront : ¬ " at ".toList <:+: "4: f (g:1)".toList := by decide
  have haddr : ¬ "by".toList <:+: (sampleBug U).addressText true := by
    have htext : (sampleBug U).addressText true = " \tAddress: 4\tsize: 8".toList := by
      simp [BugBlock.addressText, sampleBug, show Nat.toDigits 10 8 = ['8'] from rfl]
    rw [htext]
    decide
  have hlast : Frame.OnlyLast [' ', '('] ['g'] := fun a b h => by
    have hlen := congrArg List.length h
    simp at hlen
    omega
  refine ⟨hblank, hfront, by simp [sampleBug], haddr, ?_⟩
  simp [BugBlock.allFrames, sampleBug, Frame.Reads, Frame.NameFits, hlast]

lemma bar_not_mem_sampleBug (U : Unicode) : ∀ l ∈ sectionLines true 0 [sampleBug U], '|' ∉ l := by
  simp [sectionLines, headerLines, blockLines, BugBlock.lines, BugBlock.atLine, atStart, pidText,
    BugBlock.addressLine, BugBlock.addressText, sampleBug, Frame.text, Frame.addr, Frame.ending,
    show Nat.toDigits 10 1 = ['1'] from rfl, show Nat.toDigits 10 8 = ['8'] from rfl]

/-- After the stop, the bug of the section is added. -/
lemma run_sampleBug (tes : List Event) :
    ∃ s', run U (State.stopped.add tes) (sectionLines true 0 [sampleBug U]) = some s' ∧
      ∃ te ∈ s'.report, te.isBug = true := by
  have hidle : (State.stopped.add tes).Idle := ⟨rfl, rfl, rfl, rfl⟩
  have hwithin : (openSection (State.stopped.add tes) true [sampleBug U].length).Within true 0
      [sampleBug U].length := openSection_within hidle
  have hrun : run U (openSection (State.stopped.add tes) true 1)
      (blockLines true 0 0 [sampleBug U] ++ []) = _ :=
    run_blocks hwithin (by simp) (by simpa using sampleBug_fits U)
  rw [List.append_nil, run_nil] at hrun
  refine ⟨_, (run_header (n := 1) hidle (by simp)).trans hrun, ?_⟩
  exact ⟨(sampleBug U).event true (State.stopped.add tes).timestamp,
    List.mem_append_right _ List.mem_cons_self, rfl⟩

end Tracing

namespace Log

variable {U : Unicode}

/-- If the trace goes on after its lines, the sections of bugs are lost. -/
lemma not_kept_of_tracing {log : Log U}
    (h : ∀ rest, (∀ l ∈ rest, '|' ∉ l) → ∀ s', run U State.init (log.lines ++ rest) = some s' →
      s'.Tracing) : ¬ log.Kept := by
  intro hkept
  obtain ⟨s, hs, te, hte, hbug⟩ := run_sampleBug (U := U) (opEvents 0 (opsOf log.items))
  have heq := hkept (sectionLines true 0 [sampleBug U])
  rw [hs, parsePmemcheck, Option.map_some, Option.map_eq_some_iff] at heq
  obtain ⟨s', hs', hreport⟩ := heq
  have htracing := h _ (bar_not_mem_sampleBug U) s' hs'
  have hno := htracing.isBug te (by rw [hreport]; exact hte)
  rw [hno] at hbug
  cases hbug

end Log

/-! ### Traces that are not kept -/

/-- A store. -/
def storeOp : TraceOp asciiOnly where
  head := .store ⟨"0x1000".toList, 4096, sampleNumeral_reads, sampleNumeral_plain⟩ "0x0".toList
    (by simp [Plain]) ⟨"0x8".toList, 8, by decide, by simp [Plain]⟩
  front :=
    .source ⟨"0x4005BD".toList, sampleAddr_ne_nil, sampleAddr_isWord⟩ "append".toList
      "log.c".toList 12
  frames := []
  plain := by
    simp [Operation.allFrames, Plain, Frame.ending, show Nat.toDigits 10 12 = ['1', '2'] from rfl]
  unmarked := by decide
  entry := ⟨"append", "log.c", 12⟩
  reads := by decide

end Hippocrates.ParseTrace
