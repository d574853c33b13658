import Mathlib.Tactic
import Hippocrates.ParseTrace.Events

/-!
`_parse_pmtest` of `parse-trace`: the lines of a PMTest log are read into entries, and the entries
into the events of the report.

* `readLine`, `readLog`: the loop over the lines. Stack traces are attached to the last entry.
* `addEntry`, `addEntries`: the loop over the entries, with their indices.
* `parsePmtestStack`: a stack trace; the programs that it calls are `Tools`.

`none` is an error, of an assertion, an index, or a conversion.
-/

namespace Hippocrates.ParseTrace

open Pattern
open TraceEvent (EventType)

/-! ### The lines of the log -/

/-- The events of PMTest, and its errors. -/
inductive EntryType where
  | ASSIGN | FLUSH | FENCE | PERSIST | ORDER | COMMIT | BARRIER | TRANSACTIONDELIM | ENDING
  | TRANSACTIONBEGIN | TRANSACTIONEND | TRANSACTIONADD | EXCLUDE | INCLUDE
  | PERSIST_ERROR | ASSIGN_ERROR | ORDER_ERROR | TRANSACTIONEND_ERROR | SENDTRACE_ERROR
  | FLUSH_WARNING
deriving DecidableEq

namespace EntryType

def text : EntryType → Text
  | ASSIGN => "_ASSIGN".toList
  | FLUSH => "_FLUSH".toList
  | FENCE => "_FENCE".toList
  | PERSIST => "_PERSIST".toList
  | ORDER => "_ORDER".toList
  | COMMIT => "_COMMIT".toList
  | BARRIER => "_BARRIER".toList
  | TRANSACTIONDELIM => "_TRANSACTIONDELIM".toList
  | ENDING => "_ENDING".toList
  | TRANSACTIONBEGIN => "_TRANSACTIONBEGIN".toList
  | TRANSACTIONEND => "_TRANSACTIONEND".toList
  | TRANSACTIONADD => "_TRANSACTIONADD".toList
  | EXCLUDE => "_EXCLUDE".toList
  | INCLUDE => "_INCLUDE".toList
  | PERSIST_ERROR => "PERSIST ERROR".toList
  | ASSIGN_ERROR => "ASSIGN ERROR".toList
  | ORDER_ERROR => "ORDER ERROR".toList
  | TRANSACTIONEND_ERROR => "TRANSACTIONEND ERROR".toList
  | SENDTRACE_ERROR => "SENDTRACE ERROR".toList
  | FLUSH_WARNING => "FLUSH WARNING".toList

end EntryType

/-- `pmtest_events`. -/
def pmtestEvents : List EntryType :=
  [.ASSIGN, .FLUSH, .FENCE, .PERSIST, .ORDER, .COMMIT, .BARRIER, .TRANSACTIONDELIM, .ENDING,
    .TRANSACTIONBEGIN, .TRANSACTIONEND, .TRANSACTIONADD, .EXCLUDE, .INCLUDE]

/-- `pmtest_errors`. -/
def pmtestErrors : List EntryType :=
  [.PERSIST_ERROR, .ASSIGN_ERROR, .ORDER_ERROR, .TRANSACTIONEND_ERROR, .SENDTRACE_ERROR,
    .FLUSH_WARNING]

/-- The element of a list of texts that is equal to the given one. -/
def findType (types : List EntryType) (s : Text) : Option EntryType :=
  types.find? fun type => decide (type.text = s)

/-- `[timestamp, event, line, stacktrace]`. -/
structure Entry where
  timestamp : ℕ
  event : EntryType
  line : Text
  stacktrace : Option Text
deriving DecidableEq

section Lines

variable (U : Unicode)

/-- `COLOR_RE`. -/
def colorRe : Pattern Char := [.word [Char.ofNat 27, '['], .group (isDigit U), .word ['m']]

/-- The text without the colors; the number of characters to skip is given. -/
def stripColorAux : ℕ → Text → Text
  | _, [] => []
  | skip + 1, _ :: s => stripColorAux skip s
  | 0, c :: s =>
    match firstMatch (colorRe U) (c :: s) with
    | some [digits] => stripColorAux (digits.length + 2) s
    | _ => c :: stripColorAux 0 s

/-- `strip_color`. -/
def stripColor (s : Text) : Text := stripColorAux U 0 s

/-- The last entry gets a stack trace. -/
def setStack (pmtest_trace : List Entry) (stacktrace : Text) : Option (List Entry) :=
  match pmtest_trace.getLast? with
  | none => none
  | some e => some (pmtest_trace.dropLast ++ [{ e with stacktrace := some stacktrace }])

/-- A line of the log. The second word is taken without its last character, a colon. -/
def readLine (timestamp : ℕ) (pmtest_trace : List Entry) (l : Text) : Option (List Entry) :=
  let line := stripColor U (strip l)
  match line.splitOn ' ' with
  | cmd :: word :: _ =>
    match findType pmtestEvents cmd with
    | some event => some (pmtest_trace ++ [⟨timestamp, event, line, none⟩])
    | none =>
      let err := cmd ++ ' ' :: word.dropLast
      match findType pmtestErrors err with
      | some event => some (pmtest_trace ++ [⟨timestamp, event, line, none⟩])
      | none =>
        if err = "STACK TRACE".toList then
          setStack pmtest_trace (strip (Text.pieces "STACK TRACE:".toList line).flatten)
        else some pmtest_trace
  | _ => none -- there is no second word

/-- The loop over the lines. -/
def readLog : ℕ → List Entry → List Text → Option (List Entry)
  | _, pmtest_trace, [] => some pmtest_trace
  | timestamp, pmtest_trace, l :: lines =>
    (readLine U timestamp pmtest_trace l).bind fun pmtest_trace =>
      readLog (timestamp + 1) pmtest_trace lines

end Lines

/-! ### Stack traces -/

/-- The files and programs that stack traces are resolved with: the output of `readelf -s` for a
file, and that of `addr2line` for a file and an address. -/
structure Tools where
  fileExists : Text → Bool
  readelf : Text → Option Text
  addr2line : Text → ℤ → Option Text

section Stack

variable (U : Unicode)

/-- `PMTEST_STACK_RE`. -/
def pmtestStackRe : Pattern Char :=
  [.group isDot, .word ['('], .group (isWord U), .word ['+'], .group (isWord U),
    .word [')', ' ', '['], .group (isWord U), .word [']']]

/-- `READELF_RE`, up to the name. -/
def readelfRe : Pattern Char :=
  .group (isDigit U) :: .word [':', ' '] :: .group (isWord U) ::
    (List.replicate 5 [.group isSpace, .group (isWord U)]).flatten

/-- The value and the name of a symbol. The name follows what is matched. -/
def readelfLine (l : Text) : Option (Text × Text) :=
  match firstMatch (readelfRe U) l with
  | some (num :: value :: fields) =>
    let rest := l.drop ((num :: value :: fields).flatten.length + 2)
    some (value, (rest.dropWhile isSpace).takeWhile (isWord U))
  | _ => none

/-- The value of the first symbol with the name. -/
def findSymbol (func_name : Text) : List Text → Option ℤ
  | [] => none
  | l :: lines =>
    match readelfLine U l with
    | none => findSymbol func_name lines
    | some (value, check_fn_name) =>
      if check_fn_name = func_name then readInt U 16 value else findSymbol func_name lines

/-- What `addr2line` prints for a function. -/
def addrEntry (func_name out : Text) : Option LocationInfo :=
  match (strip out).splitOn '\n' with
  | [check_fn_name, file_line] =>
    match file_line.splitOn ':' with
    | [file_name, line_no] =>
      if check_fn_name = func_name then
        (readInt U 10 (if line_no = ['?'] then ['-', '1'] else line_no)).map fun line =>
          ⟨String.ofList func_name, String.ofList file_name, line⟩
      else none
    | _ => none
  | _ => none

variable (T : Tools)

/-- An entry of a stack trace, `binary_file(func+offset) [byte address]`. -/
def stackEntry (e : Text) : Option LocationInfo :=
  match firstMatch (pmtestStackRe U) e with
  | some [binary_file, func_name, offset, _] =>
    (readInt U 16 offset).bind fun offset =>
      if T.fileExists binary_file then
        (T.readelf binary_file).bind fun out =>
          (findSymbol U func_name (((strip out).splitOn '\n').map strip)).bind fun value =>
            (T.addr2line binary_file (value + offset)).bind (addrEntry U func_name)
      else none
  | _ => none

/-- `_parse_pmtest_stack`. -/
def parsePmtestStack (stack_trace : Text) : Option (List LocationInfo) :=
  (stack_trace.splitOn ';').mapM (stackEntry U T)

end Stack

/-! ### The entries -/

/-- What is read of every entry. -/
structure Common where
  location : LocationInfo
  stack : Option (List LocationInfo)

section Entries

variable (U : Unicode)

/-- `isnumeric()`. -/
def isNumeric (s : Text) : Bool :=
  s ≠ [] && s.all fun c => if c.toNat < 128 then c.isDigit else U.isnumeric c

/-- The location is in the last three words. -/
def readLocation (parts : List Text) : Option LocationInfo :=
  match parts.reverse with
  | line :: file :: function :: _ =>
    (if isNumeric U line then readInt U 10 line else some (-1)).map fun line =>
      ⟨String.ofList function, String.ofList file, line⟩
  | _ => none

/-- An address and a length. -/
def readLength (addr sz : Text) : Option (ℤ × ℤ) :=
  (readInt U 16 addr).bind fun addr => (readInt U 10 sz).map fun sz => (addr, sz)

/-- The range of an event, or the two ranges. -/
def readRanges (n : ℕ) (parts : List Text) : Option (List (ℤ × ℤ)) :=
  match n, parts with
  | 0, _ => some []
  | n + 1, addr :: sz :: parts =>
    (readLength U addr sz).bind fun range => (readRanges n parts).map (range :: ·)
  | _, _ => none

variable (T : Tools)

/-- The fields `common`. The first frame of the stack is that of the entry. -/
def readCommon (e : Entry) : Option Common :=
  (readLocation U (e.line.splitOn ' ')).bind fun location =>
    match e.stacktrace with
    | none => some ⟨location, none⟩
    | some stacktrace => (parsePmtestStack U T stacktrace).map fun stack =>
        ⟨location, some (location :: stack.tail)⟩

/-- An event with the ranges in the entry. Without a stack it is not valid. -/
def entryEvent (e : Entry) (event : EventType) (n : ℕ) (is_bug : Bool) (common : Common) :
    Option Event :=
  (readRanges U n (e.line.splitOn ' ').tail).bind fun ranges => common.stack.map fun stack =>
    { event, timestamp := e.timestamp, ranges, location := common.location, isBug := is_bug, stack,
      state := none }

/-- An element of a list; negative indices count from the end. -/
def item {α : Type*} (l : List α) (i : ℤ) : Option α :=
  if 0 ≤ i then l[i.toNat]? else if 0 ≤ i + l.length then l[(i + l.length).toNat]? else none

/-- The assertion on an event. The event has to have an address and a length. -/
def requiredFlush (old_te : Event) : Option Event :=
  if old_te.ranges.length = 1 then some { old_te with event := .REQUIRED_FLUSH, isBug := true }
  else none

/-- An entry, its index and the type of the next one. -/
def addEntry (report : List Event) (i : ℕ) (e : Entry) (next : Option EntryType) :
    Option (List Event) :=
  (readCommon U T e).bind fun common =>
    match e.event with
    | .ASSIGN => (entryEvent U e .STORE 1 false common).map (report ++ [·])
    | .FLUSH => (entryEvent U e .FLUSH 1 false common).map (report ++ [·])
    | .FENCE => (entryEvent U e .FENCE 0 false common).map (report ++ [·])
    | .PERSIST =>
      (entryEvent U e .ASSERT_PERSISTED 1 (next == some .PERSIST_ERROR) common).map (report ++ [·])
    | .PERSIST_ERROR => some report
    | .ORDER =>
      (entryEvent U e .ASSERT_ORDERED 2 (next == some .ORDER_ERROR) common).map (report ++ [·])
    | .ORDER_ERROR => some report
    | .FLUSH_WARNING => (item report (i - 1)).bind fun old_te =>
        (requiredFlush old_te).map (report ++ [·])
    | _ => none -- 'Unsupported event type'

/-- The loop over the entries. -/
def addEntries : ℕ → List Event → List Entry → Option (List Event)
  | _, report, [] => some report
  | i, report, e :: es =>
    (addEntry U T report i e (es.head?.map Entry.event)).bind fun report =>
      addEntries (i + 1) report es

/-- `_parse_pmtest`. -/
def parsePmtest (lines : List Text) : Option (List Event) :=
  (readLog U 0 [] lines).bind (addEntries U T 0 [])

end Entries

/-! ### What is read -/

section Read

variable {U : Unicode}

lemma length_readRanges {n : ℕ} {parts : List Text} {ranges : List (ℤ × ℤ)}
    (h : readRanges U n parts = some ranges) : ranges.length = n := by
  induction n generalizing parts ranges with
  | zero =>
      obtain rfl := Option.some.inj h
      rfl
  | succ n ih =>
      match parts, h with
      | addr :: sz :: parts, h =>
          obtain ⟨range, -, h⟩ := Option.bind_eq_some_iff.mp h
          obtain ⟨ranges, hranges, rfl⟩ := Option.map_eq_some_iff.mp h
          rw [List.length_cons, ih hranges]

end Read

end Hippocrates.ParseTrace
