import Mathlib
import Hippocrates.Fix.Repair
import Hippocrates.IR.ResolveLocations
import Hippocrates.Lib.Document

/-!
`TraceInfo` and `TraceInfoBuilder` of `BugReports.cpp`, and the document that `BugReport.dump`
writes.

* `TraceInfo`: the events, with the indices of the bugs. The indices are those of the events that
  are bugs, which `addEvent` and the renaming of the frames keep (`TraceInfo.bugs_eq`).
* `processEvent`, `build`: the events of the document are read, then their frames are renamed.
  `none` is an assertion that fails, or a field that is missing or does not convert.
* `report`: the document of a trace.
* `build_report_iff`: which traces are read back from their document, and as what.
* `build_wellFormed`: every document that is accepted gives a trace of the shape the fixer needs.
-/

namespace Hippocrates

open TraceEvent

/-! ### The events of a trace -/

/-- The indices of the bugs. -/
def bugIndices (events : List TraceEvent) : List ℕ :=
  (events.zipIdx.filter fun p => p.1.isBug).map Prod.snd

/-- A trace, and where its bugs are. -/
structure TraceInfo where
  source : TraceEvent.Source
  events : List TraceEvent
  bugs : List ℕ
  bugs_eq : bugs = bugIndices events

lemma bugIndices_concat (events : List TraceEvent) (event : TraceEvent) :
    bugIndices (events ++ [event]) =
      if event.isBug then bugIndices events ++ [events.length] else bugIndices events := by
  rw [bugIndices, List.zipIdx_append, List.filter_append, List.map_append]
  split_ifs with h <;> simp [h, bugIndices]

lemma mem_bugIndices_iff {events : List TraceEvent} {i : ℕ} :
    i ∈ bugIndices events ↔ ∃ te, events[i]? = some te ∧ te.isBug = true := by
  simp [bugIndices, List.mem_zipIdx_iff_getElem?]

lemma bugIndices_pairwise (events : List TraceEvent) : (bugIndices events).Pairwise (· < ·) := by
  have hidx : (events.zipIdx.map Prod.snd).Pairwise (· < ·) := by
    rw [List.zipIdx_map_snd]
    exact List.pairwise_lt_range'
  exact hidx.sublist (List.filter_sublist.map _)

/-- The bugs depend on the flags of the events only. -/
lemma bugIndices_congr {events events' : List TraceEvent}
    (h : events.map TraceEvent.isBug = events'.map TraceEvent.isBug) :
    bugIndices events = bugIndices events' := by
  induction events using List.reverseRecOn generalizing events' with
  | nil =>
      obtain rfl := List.map_eq_nil_iff.mp h.symm
      rfl
  | append_singleton events event ih =>
      rw [List.map_append, List.map_singleton] at h
      obtain ⟨l, l', rfl, hl, hl'⟩ := List.map_eq_append_iff.mp h.symm
      obtain ⟨event', rfl, hevent⟩ := List.map_eq_singleton_iff.mp hl'
      have hlen : l.length = events.length := by simpa using congrArg List.length hl
      rw [bugIndices_concat, bugIndices_concat, ih hl.symm, hevent, hlen]

namespace TraceInfo

/-- The constructor, with the source named in the metadata. -/
def make (bugReportSrc : String) : TraceInfo where
  source := if bugReportSrc = "PMTEST" then .PMTEST
    else if bugReportSrc = "GENERIC" then .GENERIC else .UNKNOWN
  events := []
  bugs := []
  bugs_eq := rfl

/-- The source and the events determine the rest. -/
lemma eq_iff {ti ti' : TraceInfo} :
    ti = ti' ↔ ti.source = ti'.source ∧ ti.events = ti'.events := by
  obtain ⟨source, events, bugs, rfl⟩ := ti
  obtain ⟨source', events', bugs', rfl⟩ := ti'
  rw [TraceInfo.mk.injEq]
  constructor
  · rintro ⟨rfl, rfl, -⟩
    exact ⟨rfl, rfl⟩
  · rintro ⟨rfl, rfl⟩
    exact ⟨rfl, rfl, rfl⟩

/-- `addEvent`. -/
def addEvent (ti : TraceInfo) (event : TraceEvent) : TraceInfo where
  source := ti.source
  events := ti.events ++ [event]
  bugs := if event.isBug then ti.bugs ++ [ti.events.length] else ti.bugs
  bugs_eq := by rw [bugIndices_concat, ti.bugs_eq]

end TraceInfo

/-! ### Reading a document -/

/-- `getType`; capitals do not matter, and `none` is `INVALID`. -/
def TraceEvent.getType (typeString : String) : Option EventType :=
  let name := String.ofList (typeString.toList.map Char.toLower)
  if name = "store" then some .STORE
  else if name = "flush" then some .FLUSH
  else if name = "fence" then some .FENCE
  else if name = "assert_persisted" then some .ASSERT_PERSISTED
  else if name = "assert_ordered" then some .ASSERT_ORDERED
  else if name = "required_flush" then some .REQUIRED_FLUSH
  else none

section Read

variable (Y : Scalars)

/-- The three fields of a location. -/
def readLocationInfo (n : Node) : Option LocationInfo := do
  let function ← n.textOf "function"
  let file ← n.textOf "file"
  let line ← (n.textOf "line").bind Y.int64
  return ⟨function, file, line⟩

/-- A range, in the fields named. -/
def readAddress (n : Node) (address length : String) : Option AddressInfo := do
  let address ← (n.textOf address).bind Y.uint64
  let length ← (n.textOf length).bind Y.uint64
  return ⟨address, length⟩

/-- The ranges of an event of the given type. -/
def readAddresses (n : Node) : EventType → Option (List AddressInfo)
  | .STORE | .FLUSH | .ASSERT_PERSISTED | .REQUIRED_FLUSH => do
    let ai ← readAddress Y n "address" "length"
    return [ai]
  | .ASSERT_ORDERED => do
    let a ← readAddress Y n "address_a" "length_a"
    let b ← readAddress Y n "address_b" "length_b"
    return [a, b]
  | .FENCE => some []

/-- `processEvent`. The first frame has to be the location. -/
def processEvent (event : Node) : Option TraceEvent := do
  let type ← (event.textOf "event").bind getType
  let timestamp ← (event.textOf "timestamp").bind Y.uint64
  let location ← readLocationInfo Y event
  let isBug ← (event.textOf "is_bug").bind Y.bool
  let stack ← (event.field "stack").bind Node.nodes
  let callstack ← stack.mapM (readLocationInfo Y)
  let addresses ← readAddresses Y event type
  match callstack with
  | [] => none
  | front :: _ =>
    if front.eqv location then
      some { type, timestamp, addresses, location, isBug, callstack, state := none }
    else none

/-- The loop over the events of the document. -/
def processEvents : TraceInfo → List Node → Option TraceInfo
  | ti, [] => some ti
  | ti, event :: trace => (processEvent Y event).bind fun e => processEvents (ti.addEvent e) trace

end Read

lemma resolveLocations_isBug {R : ResolveEnv} {te te' : TraceEvent}
    (h : resolveLocations R te = some te') : te'.isBug = te.isBug := by
  rw [resolveLocations] at h
  split at h
  · obtain rfl := Option.some.inj h
    rfl
  · cases h

lemma mapM_resolveLocations_isBug {R : ResolveEnv} {events events' : List TraceEvent}
    (h : events.mapM (resolveLocations R) = some events') :
    events'.map TraceEvent.isBug = events.map TraceEvent.isBug := by
  induction events generalizing events' with
  | nil =>
      obtain rfl := Option.some.inj h
      rfl
  | cons te events ih =>
      rw [List.mapM_cons] at h
      obtain ⟨te', hte, h⟩ := Option.bind_eq_some_iff.mp h
      obtain ⟨rest, hrest, h⟩ := Option.bind_eq_some_iff.mp h
      obtain rfl := Option.some.inj h
      rw [List.map_cons, List.map_cons, resolveLocations_isBug hte, ih hrest]

/-- The loop that renames the frames of all events. -/
def TraceInfo.resolve (R : ResolveEnv) (ti : TraceInfo) : Option TraceInfo :=
  match h : ti.events.mapM (resolveLocations R) with
  | none => none
  | some events => some
    { source := ti.source, events, bugs := ti.bugs
      bugs_eq := ti.bugs_eq.trans (bugIndices_congr (mapM_resolveLocations_isBug h).symm) }

lemma resolve_eq_some_iff {R : ResolveEnv} {ti ti' : TraceInfo} : ti.resolve R = some ti' ↔
    ti'.source = ti.source ∧ ti.events.mapM (resolveLocations R) = some ti'.events := by
  rw [TraceInfo.resolve]
  split
  · rename_i hnone
    simp [hnone]
  · rename_i renamed hrenamed
    rw [Option.some.injEq, TraceInfo.eq_iff]
    exact and_congr eq_comm
      ⟨fun h => h ▸ hrenamed, fun h => Option.some.inj (hrenamed.symm.trans h)⟩

lemma exists_resolve {R : ResolveEnv} {ti : TraceInfo} {events : List TraceEvent}
    (h : ti.events.mapM (resolveLocations R) = some events) : ∃ ti', ti.resolve R = some ti' :=
  ⟨⟨ti.source, events, _, rfl⟩, resolve_eq_some_iff.mpr ⟨rfl, h⟩⟩

/-- `build`. -/
def build (Y : Scalars) (R : ResolveEnv) (doc : Node) : Option TraceInfo := do
  let bugReportSrc ← (doc.field "metadata").bind fun meta_ => meta_.textOf "source"
  let trace ← (doc.field "trace").bind Node.nodes
  let ti ← processEvents Y (TraceInfo.make bugReportSrc) trace
  ti.resolve R

/-! ### The document of a trace -/

/-- The name of a kind. -/
def TraceEvent.EventType.name : EventType → String
  | .STORE => "STORE"
  | .FLUSH => "FLUSH"
  | .FENCE => "FENCE"
  | .ASSERT_PERSISTED => "ASSERT_PERSISTED"
  | .ASSERT_ORDERED => "ASSERT_ORDERED"
  | .REQUIRED_FLUSH => "REQUIRED_FLUSH"

/-- The fields of a location. -/
def LocationInfo.fields (li : LocationInfo) : List (String × Node) :=
  [("function", .scalar li.function), ("file", .scalar li.file), ("line", .scalar li.line.repr)]

/-- The fields of the ranges. -/
def addressFields : List AddressInfo → List (String × Node)
  | [a] => [("address", .scalar a.address.repr), ("length", .scalar a.length.repr)]
  | [a, b] => [("address_a", .scalar a.address.repr), ("length_a", .scalar a.length.repr),
      ("address_b", .scalar b.address.repr), ("length_b", .scalar b.length.repr)]
  | _ => []

/-- The fields of an event. -/
def TraceEvent.fields (te : TraceEvent) : List (String × Node) :=
  ("timestamp", .scalar te.timestamp.repr) :: ("event", .scalar te.type.name) ::
    ("is_bug", .scalar (toString te.isBug)) ::
    ("stack", .sequence (te.callstack.map fun li => .map li.fields)) ::
    (te.location.fields ++ addressFields te.addresses ++
      (te.state.map fun state => ("state", Node.scalar state)).toList)

/-- `BugReportSource`. -/
inductive BugReportSource where
  | GENERIC
  | PMTEST

/-- The name of a source. -/
def BugReportSource.name : BugReportSource → String
  | .GENERIC => "GENERIC"
  | .PMTEST => "PMTEST"

/-- The source that the fixer takes it for. -/
def BugReportSource.source : BugReportSource → TraceEvent.Source
  | .GENERIC => .GENERIC
  | .PMTEST => .PMTEST

/-- The report that `dump` writes. -/
def report (s : BugReportSource) (trace : List TraceEvent) : Node :=
  .map [("trace", .sequence (trace.map fun te => .map te.fields)),
    ("metadata", .map [("source", .scalar s.name)])]

/-! ### Reading it back -/

/-- The line fits. -/
def LocationInfo.Fits (li : LocationInfo) : Prop := -2 ^ 63 ≤ li.line ∧ li.line < 2 ^ 63

instance (li : LocationInfo) : Decidable li.Fits := inferInstanceAs (Decidable (_ ∧ _))

/-- The numbers of an event fit, it has the ranges of its kind, which a fence is not asked for, and
the location as its first frame. -/
structure TraceEvent.Fits (te : TraceEvent) : Prop where
  timestamp : te.timestamp < 2 ^ 64
  location : te.location.Fits
  callstack : ∀ li ∈ te.callstack, li.Fits
  addresses : te.type ≠ .FENCE → te.addresses.length = arity te.type ∧
    ∀ a ∈ te.addresses, a.address < 2 ^ 64 ∧ a.length < 2 ^ 64
  front : ∃ front stack, te.callstack = front :: stack ∧ front.eqv te.location = true

/-- What is read of an event. -/
def TraceEvent.read (te : TraceEvent) : TraceEvent :=
  { te with
    addresses := if te.type = .FENCE then [] else te.addresses
    state := none }

lemma getType_name (type : EventType) : getType type.name = some type := by
  cases type <;> decide

section ReadBack

variable {Y : Scalars}

lemma readLocationInfo_fields (li : LocationInfo) (fields : List (String × Node)) :
    readLocationInfo Y (.map (li.fields ++ fields)) =
      if -2 ^ 63 ≤ li.line ∧ li.line < 2 ^ 63 then some li else none := by
  simp only [readLocationInfo, LocationInfo.fields, Node.textOf, Node.field_cons, List.cons_append]
  simp only [String.reduceEq, if_true, if_false, Option.bind_some, Node.text_scalar, Y.int64_repr]
  split_ifs <;> rfl

lemma readLocationInfo_iff {li li' : LocationInfo} :
    readLocationInfo Y (.map li.fields) = some li' ↔ li.Fits ∧ li' = li := by
  have h := readLocationInfo_fields (Y := Y) li []
  rw [List.append_nil] at h
  rw [h, LocationInfo.Fits, Option.ite_none_right_eq_some, Option.some.injEq, eq_comm (a := li)]

/-- The stack is read when the lines of its frames fit. -/
lemma mapM_readLocationInfo_iff {stack callstack : List LocationInfo} :
    (stack.map fun li => Node.map li.fields).mapM (readLocationInfo Y) = some callstack ↔
      (∀ li ∈ stack, li.Fits) ∧ callstack = stack := by
  induction stack generalizing callstack with
  | nil => simp [eq_comm]
  | cons li stack ih =>
      simp only [List.map_cons, List.mapM_cons, Option.bind_eq_bind, Option.bind_eq_some_iff,
        readLocationInfo_iff, ih, Option.pure_def, Option.some.injEq, List.forall_mem_cons]
      constructor
      · rintro ⟨_, ⟨hli, rfl⟩, _, ⟨hstack, rfl⟩, rfl⟩
        exact ⟨⟨hli, hstack⟩, rfl⟩
      · rintro ⟨⟨hli, hstack⟩, rfl⟩
        exact ⟨li, ⟨hli, rfl⟩, stack, ⟨hstack, rfl⟩, rfl⟩

/-- The fields of the ranges come after those that are read before them. -/
lemma textOf_fields (te : TraceEvent) (key : String)
    (h : key ∈ ["address", "length", "address_a", "length_a", "address_b", "length_b"]) :
    (Node.map te.fields).textOf key = (Node.map (addressFields te.addresses)).textOf key := by
  have hstate : ∀ fields : List (String × Node), (Node.map (fields ++
      (te.state.map fun state => ("state", Node.scalar state)).toList)).field key =
      (Node.map fields).field key := by
    intro fields
    induction fields with
    | nil =>
        cases te.state with
        | none => rfl
        | some state =>
            simp only [List.mem_cons, List.not_mem_nil, or_false] at h
            rcases h with rfl | rfl | rfl | rfl | rfl | rfl <;> rfl
    | cons f fields ih => rw [List.cons_append, Node.field_cons, ih, Node.field_cons]
  simp only [Node.textOf, TraceEvent.fields, Node.field_cons, hstate, LocationInfo.fields,
    List.cons_append, List.nil_append]
  simp only [List.mem_cons, List.not_mem_nil, or_false] at h
  rcases h with rfl | rfl | rfl | rfl | rfl | rfl <;> simp

/-- The range in the fields of a map with both fields. -/
lemma readAddress_iff {n : Node} {address length : String} {a b : AddressInfo}
    (haddress : n.textOf address = some a.address.repr)
    (hlength : n.textOf length = some a.length.repr) :
    readAddress Y n address length = some b ↔
      (a.address < 2 ^ 64 ∧ a.length < 2 ^ 64) ∧ b = a := by
  simp only [readAddress, haddress, hlength, Option.bind_some, Y.uint64_repr,
    Option.bind_eq_bind, Option.bind_eq_some_iff, Option.ite_none_right_eq_some,
    Option.some.injEq, Option.pure_def]
  constructor
  · rintro ⟨_, ⟨ha, rfl⟩, _, ⟨hl, rfl⟩, rfl⟩
    exact ⟨⟨ha, hl⟩, rfl⟩
  · rintro ⟨⟨ha, hl⟩, rfl⟩
    exact ⟨_, ⟨ha, rfl⟩, _, ⟨hl, rfl⟩, rfl⟩

lemma readAddress_none {n : Node} {address length : String} (h : n.textOf address = none) :
    readAddress Y n address length = none := by
  rw [readAddress, h]
  rfl

/-- One range is read when there is one. -/
lemma readAddress_fields_iff {te : TraceEvent} {l : List AddressInfo} :
    ((readAddress Y (.map te.fields) "address" "length").bind fun a => some [a]) = some l ↔
      (te.addresses.length = 1 ∧ ∀ a ∈ te.addresses, a.address < 2 ^ 64 ∧ a.length < 2 ^ 64) ∧
        l = te.addresses := by
  have htext := textOf_fields te "address" (by decide)
  have htext' := textOf_fields te "length" (by decide)
  match haddr : te.addresses with
  | [a] =>
      rw [haddr] at htext htext'
      rw [Option.bind_eq_some_iff]
      simp only [readAddress_iff htext htext', Option.some.injEq]
      constructor
      · rintro ⟨_, ⟨ha, rfl⟩, rfl⟩
        exact ⟨⟨rfl, by simpa using ha⟩, rfl⟩
      · rintro ⟨⟨-, ha⟩, rfl⟩
        exact ⟨a, ⟨by simpa using ha, rfl⟩, rfl⟩
  | [] | _ :: _ :: [] | _ :: _ :: _ :: _ =>
      rw [haddr] at htext
      rw [readAddress_none htext]
      simp

/-- Two ranges are read when there are two. -/
lemma readAddress_fields₂_iff {te : TraceEvent} {l : List AddressInfo} :
    ((readAddress Y (.map te.fields) "address_a" "length_a").bind fun a =>
      (readAddress Y (.map te.fields) "address_b" "length_b").bind fun b => some [a, b]) = some l ↔
      (te.addresses.length = 2 ∧ ∀ a ∈ te.addresses, a.address < 2 ^ 64 ∧ a.length < 2 ^ 64) ∧
        l = te.addresses := by
  have htext := textOf_fields te "address_a" (by decide)
  have htext' := textOf_fields te "length_a" (by decide)
  have htext₂ := textOf_fields te "address_b" (by decide)
  have htext₂' := textOf_fields te "length_b" (by decide)
  match haddr : te.addresses with
  | [a, b] =>
      rw [haddr] at htext htext' htext₂ htext₂'
      rw [Option.bind_eq_some_iff]
      simp only [readAddress_iff htext htext', readAddress_iff htext₂ htext₂',
        Option.bind_eq_some_iff, Option.some.injEq]
      constructor
      · rintro ⟨_, ⟨ha, rfl⟩, _, ⟨hb, rfl⟩, rfl⟩
        exact ⟨⟨rfl, by simpa using ⟨ha, hb⟩⟩, rfl⟩
      · rintro ⟨⟨-, hab⟩, rfl⟩
        exact ⟨a, ⟨hab a (by simp), rfl⟩, b, ⟨hab b (by simp), rfl⟩, rfl⟩
  | [] | [_] | _ :: _ :: _ :: _ =>
      rw [haddr] at htext
      rw [readAddress_none htext]
      simp

lemma readAddresses_iff {te : TraceEvent} {l : List AddressInfo} :
    readAddresses Y (.map te.fields) te.type = some l ↔
      (te.type ≠ .FENCE → te.addresses.length = arity te.type ∧
        ∀ a ∈ te.addresses, a.address < 2 ^ 64 ∧ a.length < 2 ^ 64) ∧
      l = te.read.addresses := by
  rw [TraceEvent.read]
  cases htype : te.type with
  | FENCE => simp [readAddresses, eq_comm]
  | ASSERT_ORDERED =>
      simp only [ne_eq, reduceCtorEq, not_false_eq_true, forall_const, if_false]
      exact readAddress_fields₂_iff
  | STORE | FLUSH | ASSERT_PERSISTED | REQUIRED_FLUSH =>
      simp only [ne_eq, reduceCtorEq, not_false_eq_true, forall_const, if_false]
      exact readAddress_fields_iff

/-- An event is read when it fits. -/
lemma processEvent_iff {te e : TraceEvent} :
    processEvent Y (.map te.fields) = some e ↔ te.Fits ∧ e = te.read := by
  have hevent : (Node.map te.fields).textOf "event" = some te.type.name := by
    simp [Node.textOf, TraceEvent.fields, Node.field_cons]
  have htimestamp : (Node.map te.fields).textOf "timestamp" = some te.timestamp.repr := by
    simp [Node.textOf, TraceEvent.fields, Node.field_cons]
  have hbug : (Node.map te.fields).textOf "is_bug" = some (toString te.isBug) := by
    simp [Node.textOf, TraceEvent.fields, Node.field_cons]
  have hstack : (Node.map te.fields).field "stack" =
      some (.sequence (te.callstack.map fun li => .map li.fields)) := by
    simp [TraceEvent.fields, Node.field_cons]
  -- the location of the event is read from its own keys
  have hlocation : readLocationInfo Y (.map te.fields) =
      if -2 ^ 63 ≤ te.location.line ∧ te.location.line < 2 ^ 63 then some te.location
      else none := by
    rw [← readLocationInfo_fields (Y := Y) te.location (addressFields te.addresses ++
      (te.state.map fun state => ("state", Node.scalar state)).toList)]
    simp only [readLocationInfo, Node.textOf, TraceEvent.fields, Node.field_cons,
      List.append_assoc, String.reduceEq, if_false]
  -- every field is read back from its text
  simp only [processEvent, hevent, htimestamp, hbug, hstack, hlocation, Option.bind_some,
    getType_name, Y.uint64_repr, Y.bool_toString, Node.nodes_sequence, Option.bind_eq_bind,
    Option.bind_eq_some_iff, Option.ite_none_right_eq_some, Option.some.injEq,
    mapM_readLocationInfo_iff]
  constructor
  · rintro ⟨_, ⟨htime, rfl⟩, _, ⟨hline, rfl⟩, _, ⟨hframes, rfl⟩, l, hl, h⟩
    obtain ⟨haddresses, rfl⟩ := readAddresses_iff.mp hl
    split at h
    · cases h
    · rename_i front stack hfront
      split_ifs at h with heqv
      obtain rfl := Option.some.inj h
      exact ⟨⟨htime, hline, hframes, haddresses, front, stack, hfront, heqv⟩, rfl⟩
  · rintro ⟨⟨htime, hline, hframes, haddresses, front, stack, hfront, heqv⟩, rfl⟩
    refine ⟨_, ⟨htime, rfl⟩, _, ⟨hline, rfl⟩, _, ⟨hframes, rfl⟩, _,
      readAddresses_iff.mpr ⟨haddresses, rfl⟩, ?_⟩
    rw [hfront]
    dsimp only
    rw [if_pos heqv, TraceEvent.read, ← hfront]

/-- The events of a report are read when all of them fit. -/
lemma processEvents_iff {trace : List TraceEvent} {ti ti' : TraceInfo} :
    processEvents Y ti (trace.map fun te => .map te.fields) = some ti' ↔
      (∀ te ∈ trace, te.Fits) ∧ ti'.source = ti.source ∧
        ti'.events = ti.events ++ trace.map TraceEvent.read := by
  induction trace generalizing ti with
  | nil =>
      rw [List.map_nil, processEvents, Option.some.injEq, eq_comm, TraceInfo.eq_iff]
      simp
  | cons te trace ih =>
      rw [List.map_cons, processEvents, Option.bind_eq_some_iff]
      simp only [processEvent_iff, ih, List.forall_mem_cons, List.map_cons]
      constructor
      · rintro ⟨_, ⟨hte, rfl⟩, htrace, hsource, hevents⟩
        exact ⟨⟨hte, htrace⟩, hsource, by rw [hevents, TraceInfo.addEvent]; simp⟩
      · rintro ⟨⟨hte, htrace⟩, hsource, hevents⟩
        exact ⟨_, ⟨hte, rfl⟩, htrace, hsource, by rw [hevents, TraceInfo.addEvent]; simp⟩

/-- Building from a report: reading its events, and renaming their frames. -/
lemma build_report_eq {R : ResolveEnv} {s : BugReportSource} {trace : List TraceEvent} :
    build Y R (report s trace) =
      (processEvents Y (TraceInfo.make s.name) (trace.map fun te => .map te.fields)).bind
        (TraceInfo.resolve R) := by
  have hmeta : ((report s trace).field "metadata").bind (fun meta_ => meta_.textOf "source") =
      some s.name := by
    simp [report, Node.field_cons, Node.textOf]
  have htrace : ((report s trace).field "trace").bind Node.nodes =
      some (trace.map fun te => .map te.fields) := by
    simp [report, Node.field_cons]
  rw [build, hmeta, htrace]
  rfl

lemma make_name_source (s : BugReportSource) : (TraceInfo.make s.name).source = s.source := by
  cases s <;> rfl

/-- The trace of a report, before the renaming. -/
def TraceInfo.ofReport (s : BugReportSource) (trace : List TraceEvent) : TraceInfo where
  source := s.source
  events := trace.map TraceEvent.read
  bugs := bugIndices (trace.map TraceEvent.read)
  bugs_eq := rfl

/-- If the events fit, the report is read, and the rest is the renaming. -/
lemma build_report_of_fits {R : ResolveEnv} {s : BugReportSource} {trace : List TraceEvent}
    (hfits : ∀ te ∈ trace, te.Fits) :
    build Y R (report s trace) = (TraceInfo.ofReport s trace).resolve R := by
  have hread : processEvents Y (TraceInfo.make s.name) (trace.map fun te => .map te.fields) =
      some (TraceInfo.ofReport s trace) :=
    processEvents_iff.mpr ⟨hfits, (make_name_source s).symm, rfl⟩
  rw [build_report_eq, hread, Option.bind_some]

/-- **The report of a trace is read back** exactly when its events fit: the builder gets the source
and, before the renaming, the events themselves, but for the ranges of fences and the states. -/
theorem build_report_iff {R : ResolveEnv} {s : BugReportSource} {trace : List TraceEvent}
    {ti : TraceInfo} : build Y R (report s trace) = some ti ↔
      (∀ te ∈ trace, te.Fits) ∧ ti.source = s.source ∧
        (trace.map TraceEvent.read).mapM (resolveLocations R) = some ti.events := by
  constructor
  · intro h
    have hfits : ∀ te ∈ trace, te.Fits := by
      rw [build_report_eq] at h
      obtain ⟨ti₀, hread, -⟩ := Option.bind_eq_some_iff.mp h
      exact (processEvents_iff.mp hread).1
    rw [build_report_of_fits hfits] at h
    exact ⟨hfits, resolve_eq_some_iff.mp h⟩
  · rintro ⟨hfits, hresolve⟩
    rw [build_report_of_fits hfits]
    exact resolve_eq_some_iff.mpr hresolve

end ReadBack

/-! ### What is accepted -/

/-- The shape of an event that has been read: the ranges of its kind, in the address space, and the
location as the first frame. -/
structure TraceEvent.Accepted (te : TraceEvent) : Prop where
  arity : te.addresses.length = arity te.type
  addresses : ∀ a ∈ te.addresses, a.address < 2 ^ 64 ∧ a.length < 2 ^ 64
  front : ∃ front stack, te.callstack = front :: stack ∧ front.eqv te.location = true

section Accepted

variable {Y : Scalars} {R : ResolveEnv}

lemma readAddress_lt {n : Node} {address length : String} {a : AddressInfo}
    (h : readAddress Y n address length = some a) : a.address < 2 ^ 64 ∧ a.length < 2 ^ 64 := by
  obtain ⟨address, haddress, h⟩ := Option.bind_eq_some_iff.mp h
  obtain ⟨length, hlength, h⟩ := Option.bind_eq_some_iff.mp h
  obtain rfl := Option.some.inj h
  obtain ⟨s, -, hs⟩ := Option.bind_eq_some_iff.mp haddress
  obtain ⟨s', -, hs'⟩ := Option.bind_eq_some_iff.mp hlength
  exact ⟨Y.uint64_lt hs, Y.uint64_lt hs'⟩

/-- The ranges are those of the type, and fit. -/
lemma readAddresses_accepted {n : Node} {type : EventType} {l : List AddressInfo}
    (h : readAddresses Y n type = some l) :
    l.length = arity type ∧ ∀ a ∈ l, a.address < 2 ^ 64 ∧ a.length < 2 ^ 64 := by
  have hone : ∀ {address length}, ((readAddress Y n address length).bind fun a => some [a]) =
      some l → l.length = 1 ∧ ∀ a ∈ l, a.address < 2 ^ 64 ∧ a.length < 2 ^ 64 := by
    intro address length h
    obtain ⟨a, ha, h⟩ := Option.bind_eq_some_iff.mp h
    obtain rfl := Option.some.inj h
    exact ⟨rfl, by simpa using readAddress_lt ha⟩
  cases type with
  | STORE => exact hone h
  | FLUSH => exact hone h
  | FENCE =>
      obtain rfl := Option.some.inj h
      exact ⟨rfl, by simp⟩
  | ASSERT_PERSISTED => exact hone h
  | ASSERT_ORDERED =>
      obtain ⟨a, ha, h⟩ := Option.bind_eq_some_iff.mp h
      obtain ⟨b, hb, h⟩ := Option.bind_eq_some_iff.mp h
      obtain rfl := Option.some.inj h
      exact ⟨rfl, by simpa using ⟨readAddress_lt ha, readAddress_lt hb⟩⟩
  | REQUIRED_FLUSH => exact hone h

lemma processEvent_accepted {event : Node} {te : TraceEvent} (h : processEvent Y event = some te) :
    te.Accepted := by
  obtain ⟨type, -, h⟩ := Option.bind_eq_some_iff.mp h
  obtain ⟨timestamp, -, h⟩ := Option.bind_eq_some_iff.mp h
  obtain ⟨location, -, h⟩ := Option.bind_eq_some_iff.mp h
  obtain ⟨isBug, -, h⟩ := Option.bind_eq_some_iff.mp h
  obtain ⟨stack, -, h⟩ := Option.bind_eq_some_iff.mp h
  obtain ⟨callstack, -, h⟩ := Option.bind_eq_some_iff.mp h
  obtain ⟨addresses, haddresses, h⟩ := Option.bind_eq_some_iff.mp h
  obtain ⟨harity, hlt⟩ := readAddresses_accepted haddresses
  split at h
  · cases h
  · split_ifs at h with hfront
    obtain rfl := Option.some.inj h
    exact ⟨harity, hlt, _, _, rfl, hfront⟩

/-- The renaming keeps the shape: where the first frame is renamed, the location follows it. -/
lemma resolveLocations_accepted {te te' : TraceEvent} (h : te.Accepted)
    (hres : resolveLocations R te = some te') : te'.Accepted := by
  rw [resolveLocations] at hres
  split at hres
  · rename_i front stack hstack
    obtain rfl := Option.some.inj hres
    refine ⟨h.arity, h.addresses, front, stack, rfl, ?_⟩
    dsimp only
    split_ifs with heqv
    · exact heqv
    · simp [LocationInfo.eqv]
  · cases hres

lemma mem_of_processEvents {trace : List Node} {ti ti' : TraceInfo} {te : TraceEvent}
    (h : processEvents Y ti trace = some ti') (hte : te ∈ ti'.events) :
    te ∈ ti.events ∨ ∃ event ∈ trace, processEvent Y event = some te := by
  induction trace generalizing ti with
  | nil =>
      obtain rfl := Option.some.inj h
      exact .inl hte
  | cons event trace ih =>
      obtain ⟨e, he, h⟩ := Option.bind_eq_some_iff.mp h
      rcases ih h with hti | ⟨event', hevent', hread⟩
      · rcases List.mem_append.mp hti with hti | hti
        · exact .inl hti
        · obtain rfl := List.mem_singleton.mp hti
          exact .inr ⟨event, List.mem_cons_self, he⟩
      · exact .inr ⟨event', List.mem_cons_of_mem event hevent', hread⟩

/-- **What is accepted is well formed**: every event has the ranges of its kind, in the address
space, and the location as its first frame; and the bugs are the indices, in order, of the events
that are bugs. -/
theorem build_wellFormed {doc : Node} {ti : TraceInfo} (h : build Y R doc = some ti) :
    (∀ te ∈ ti.events, te.Accepted) ∧ ti.bugs.Pairwise (· < ·) ∧
      ∀ i, i ∈ ti.bugs ↔ ∃ te, ti.events[i]? = some te ∧ te.isBug = true := by
  obtain ⟨bugReportSrc, -, h⟩ := Option.bind_eq_some_iff.mp h
  obtain ⟨trace, -, h⟩ := Option.bind_eq_some_iff.mp h
  obtain ⟨ti₀, hread, h⟩ := Option.bind_eq_some_iff.mp h
  obtain ⟨-, hres⟩ := resolve_eq_some_iff.mp h
  refine ⟨fun te hte => ?_, ?_, fun i => ?_⟩
  · obtain ⟨te₀, hte₀, hrenamed⟩ := (mem_of_mapM hres).mp hte
    rcases mem_of_processEvents hread hte₀ with hnil | ⟨event, -, hevent⟩
    · cases hnil
    · exact resolveLocations_accepted (processEvent_accepted hevent) hrenamed
  · rw [ti.bugs_eq]
    exact bugIndices_pairwise ti.events
  · rw [ti.bugs_eq, mem_bugIndices_iff]

end Accepted

/-- A store in a function without debug information, and the bug that it is not persisted. -/
def putTrace : List TraceEvent :=
  [storeBelowMain "put", ⟨.ASSERT_PERSISTED, 1, [⟨4096, 8⟩], ⟨"main", "main.c", 12⟩, true,
    [⟨"main", "main.c", 12⟩], none⟩]

lemma putTrace_fits : ∀ te ∈ putTrace, te.Fits := by
  have hline : ∀ li : LocationInfo, 0 ≤ li.line ∧ li.line < 100 → li.Fits := fun li h =>
    ⟨by omega, by omega⟩
  intro te hte
  simp only [putTrace, List.mem_cons, List.not_mem_nil, or_false] at hte
  rcases hte with rfl | rfl
  · exact ⟨by decide, hline _ (by decide), fun li hli => hline _ (by
      revert li; decide), fun _ => by decide, _, _, rfl, by decide⟩
  · exact ⟨by decide, hline _ (by decide), fun li hli => hline _ (by
      revert li; decide), fun _ => by decide, _, _, rfl, by decide⟩

theorem build_wellFormed_put :
    ∃ ti, build Scalars.decimal computeEnv (report .GENERIC putTrace) = some ti ∧
      ((∀ te ∈ ti.events, te.Accepted) ∧ ti.bugs.Pairwise (· < ·) ∧
        ∀ i, i ∈ ti.bugs ↔ ∃ te, ti.events[i]? = some te ∧ te.isBug = true) := by
  have hbuild := build_report_of_fits (Y := Scalars.decimal) (R := computeEnv) (s := .GENERIC)
    putTrace_fits
  obtain ⟨ti, hti⟩ := exists_resolve (R := computeEnv)
    (show (TraceInfo.ofReport .GENERIC putTrace).events.mapM (resolveLocations computeEnv) =
      some _ from rfl)
  exact ⟨ti, hbuild.trans hti, build_wellFormed (hbuild.trans hti)⟩

end Hippocrates
