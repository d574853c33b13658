import Mathlib.Tactic
import Hippocrates.Lib.Persistency
import Hippocrates.Trace.AddressInfo

/-!
`LocationInfo` and `TraceEvent` of `BugReports.hpp`, and the persistent-memory operation an
event stands for.

The same record is `TraceEvent` of `Reports.py`: `BugReport.dump` writes it to the report and
`TraceInfoBuilder::processEvent` reads it back. `state` is the extra field that the pmemcheck
parser gives its bugs; only the equality tests of `Reports.py` see it.
-/

namespace Hippocrates

/-- Source code location information. -/
structure LocationInfo where
  function : String
  file : String
  line : ℤ
deriving DecidableEq

namespace TraceEvent

/-- The kind of operation or assertion. -/
inductive EventType where
  | STORE
  | FLUSH
  | FENCE
  | ASSERT_PERSISTED
  | ASSERT_ORDERED
  | REQUIRED_FLUSH
deriving DecidableEq

end TraceEvent

/-- An event of the trace. `STORE`, `FLUSH`, `ASSERT_PERSISTED` and `REQUIRED_FLUSH` events
carry one range, `ASSERT_ORDERED` events two, `FENCE` events none. -/
structure TraceEvent where
  type : TraceEvent.EventType
  timestamp : ℕ
  addresses : List AddressInfo
  location : LocationInfo
  isBug : Bool
  callstack : List LocationInfo
  state : Option String
deriving DecidableEq

namespace TraceEvent

open EventType Persistency

def isOperation (e : TraceEvent) : Bool :=
  e.type == STORE || e.type == FLUSH || e.type == FENCE

/-- The operations an event performs on persistent memory: assertions perform none. -/
def ops (e : TraceEvent) : List (Op AddressInfo) :=
  match e.type with
  | STORE => e.addresses.map Op.store
  | FLUSH => e.addresses.map Op.flush
  | FENCE => [Op.fence]
  | _ => []

/-- The operations of a trace, in order. -/
def opsOf (t : List TraceEvent) : List (Op AddressInfo) := t.flatMap ops

@[simp] lemma opsOf_nil : opsOf [] = [] := rfl

@[simp] lemma opsOf_cons (e : TraceEvent) (t : List TraceEvent) :
    opsOf (e :: t) = e.ops ++ opsOf t := List.flatMap_cons

@[simp] lemma opsOf_append (p q : List TraceEvent) : opsOf (p ++ q) = opsOf p ++ opsOf q :=
  List.flatMap_append

/-- The event stores to a range covering `x`. -/
def StoresTo (e : TraceEvent) (x : ℕ) : Prop := e.type = STORE ∧ ∃ a ∈ e.addresses, x ∈ a

/-- The event flushes a range covering `x`. -/
def FlushesAt (e : TraceEvent) (x : ℕ) : Prop := e.type = FLUSH ∧ ∃ a ∈ e.addresses, x ∈ a

lemma exists_stores_iff {e : TraceEvent} {x : ℕ} : (∃ o ∈ e.ops, o.Stores x) ↔ e.StoresTo x := by
  cases h : e.type <;> simp [ops, StoresTo, h]

lemma exists_flushes_iff {e : TraceEvent} {x : ℕ} :
    (∃ o ∈ e.ops, o.Flushes x) ↔ e.FlushesAt x := by
  cases h : e.type <;> simp [ops, FlushesAt, h]

lemma fence_mem_ops_iff {e : TraceEvent} : Op.fence ∈ e.ops ↔ e.type = FENCE := by
  cases h : e.type <;> simp [ops, h]

/-- The shape `processEvent` gives an event: one range per store, flush, persistence
assertion or required flush, two per ordering assertion, none per fence. -/
def arity : EventType → ℕ
  | FENCE => 0
  | ASSERT_ORDERED => 2
  | _ => 1

/-- An event with the ranges of its kind, all nonempty and without wrap-around. -/
structure WellFormed (e : TraceEvent) : Prop where
  arity : e.addresses.length = TraceEvent.arity e.type
  addresses : ∀ a ∈ e.addresses, a.WellFormed

end TraceEvent

end Hippocrates
