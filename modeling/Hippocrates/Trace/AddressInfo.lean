import Mathlib.Tactic
import Hippocrates.Lib.Interval

/-!
`AddressInfo` of `BugReports.hpp`: a range of virtual addresses, with the `uint64_t`
arithmetic of its methods (`wrap`).

`endAddr` is the source's `end`, the last address of the range, inclusive. The assertions of
`canAdd` and of `operator+=` end the program, which is `none` here.

On ranges that are nonempty and do not wrap (`WellFormed`) the methods mean what their names
say: `overlaps_iff`, `contains_iff`, `canAdd_eq` and `addAssign_eq` read them as the
half-open interval `ival`, so that the merging of `Hippocrates.Lib.Interval` applies to them.
-/

namespace Hippocrates

/-- The value of a `uint64_t` expression. -/
def wrap (n : ℕ) : ℕ := n % 2 ^ 64

/-- A range of virtual addresses. -/
structure AddressInfo where
  address : ℕ
  length : ℕ
deriving DecidableEq

namespace AddressInfo

/-- The default constructor. -/
def empty : AddressInfo := ⟨0, 0⟩

/-- The first address. -/
def start (a : AddressInfo) : ℕ := a.address

/-- The last address, inclusive: `address + length - 1llu`. -/
def endAddr (a : AddressInfo) : ℕ := wrap (a.address + a.length + (2 ^ 64 - 1))

/-- The range stays inside one line of `clSz` bytes. -/
def isSingleCacheLine (clSz : ℕ) (a : AddressInfo) : Bool :=
  a.start / clSz == a.endAddr / clSz

/-- The ranges have an address in common. -/
def overlaps (a other : AddressInfo) : Bool :=
  a.start ≤ other.endAddr && other.start ≤ a.endAddr

/-- The range fully encompasses the other. -/
def contains (a other : AddressInfo) : Bool :=
  a.start ≤ other.start && other.endAddr ≤ a.endAddr

/-- The ranges can be combined without a gap. -/
def canAdd (a other : AddressInfo) : Option Bool :=
  if a.length = 0 then
    if a.address = 0 then some true else none
  else if other.address < a.address then
    some (a.address ≤ wrap (other.endAddr + 1))
  else
    some (other.address ≤ wrap (a.endAddr + 1))

/-- `operator+=`: combine the ranges. -/
def addAssign (a other : AddressInfo) : Option AddressInfo :=
  if a.length = 0 then
    if a.address = 0 then some other else none
  else if a.canAdd other = some true then
    let newAddress := min other.address a.address
    let newLength := wrap (max other.endAddr a.endAddr + 1 + (2 ^ 64 - newAddress))
    some ⟨newAddress, newLength⟩
  else none

/-- The addresses of the range. -/
instance : Membership ℕ AddressInfo :=
  ⟨fun a x => a.address ≤ x ∧ x < a.address + a.length⟩

lemma mem_iff {a : AddressInfo} {x : ℕ} :
    x ∈ a ↔ a.address ≤ x ∧ x < a.address + a.length := Iff.rfl

instance (x : ℕ) (a : AddressInfo) : Decidable (x ∈ a) :=
  inferInstanceAs (Decidable (_ ∧ _))

/-- The range is nonempty and the sum `address + length` does not wrap. -/
structure WellFormed (a : AddressInfo) : Prop where
  one_le : 1 ≤ a.length
  lt : a.address + a.length < 2 ^ 64

/-- The range as a half-open interval. -/
def ival (a : AddressInfo) : ℕ × ℕ := (a.address, a.address + a.length)

lemma mem_pts_ival {a : AddressInfo} {x : ℕ} : x ∈ Interval.pts a.ival ↔ x ∈ a := Iff.rfl

lemma WellFormed.start_mem {a : AddressInfo} (h : a.WellFormed) : a.address ∈ a :=
  mem_iff.mpr ⟨le_rfl, Nat.lt_add_of_pos_right h.one_le⟩

lemma WellFormed.endAddr_eq {a : AddressInfo} (h : a.WellFormed) :
    a.endAddr = a.address + a.length - 1 := by
  have h1 := h.one_le
  have h2 := h.lt
  rw [endAddr, wrap]
  omega

lemma overlaps_iff {a b : AddressInfo} (ha : a.WellFormed) (hb : b.WellFormed) :
    a.overlaps b = true ↔ ∃ x, x ∈ a ∧ x ∈ b := by
  have ha1 := ha.one_le
  have hb1 := hb.one_le
  rw [overlaps, Bool.and_eq_true, decide_eq_true_eq, decide_eq_true_eq, start, start,
    ha.endAddr_eq, hb.endAddr_eq]
  constructor
  · intro h
    refine ⟨max a.address b.address, mem_iff.mpr ?_, mem_iff.mpr ?_⟩ <;> omega
  · rintro ⟨x, hxa, hxb⟩
    rw [mem_iff] at hxa hxb
    omega

lemma contains_iff {a b : AddressInfo} (ha : a.WellFormed) (hb : b.WellFormed) :
    a.contains b = true ↔ a.ival.1 ≤ b.ival.1 ∧ b.ival.2 ≤ a.ival.2 := by
  have ha1 := ha.one_le
  have hb1 := hb.one_le
  rw [contains, Bool.and_eq_true, decide_eq_true_eq, decide_eq_true_eq, start, start,
    ha.endAddr_eq, hb.endAddr_eq, ival, ival]
  dsimp only
  omega

open Classical in
/-- Two well-formed ranges can be added when they overlap or are adjacent. -/
lemma canAdd_eq {a b : AddressInfo} (ha : a.WellFormed) (hb : b.WellFormed) :
    a.canAdd b = some (decide (Interval.Touch a.ival b.ival)) := by
  have ha1 := ha.one_le
  have hb1 := hb.one_le
  have ha2 := ha.lt
  have hb2 := hb.lt
  rw [canAdd, if_neg (by omega), ha.endAddr_eq, hb.endAddr_eq, wrap, wrap]
  split <;>
  · congr 1
    rw [decide_eq_decide, Interval.Touch, ival, ival]
    dsimp only
    omega

/-- The sum of two well-formed ranges that touch is their hull, and is well-formed. -/
lemma addAssign_eq {a b : AddressInfo} (ha : a.WellFormed) (hb : b.WellFormed)
    (ht : Interval.Touch a.ival b.ival) :
    ∃ c, a.addAssign b = some c ∧ c.WellFormed ∧ c.ival = Interval.hull a.ival b.ival := by
  have ha1 := ha.one_le
  have hb1 := hb.one_le
  have ha2 := ha.lt
  have hb2 := hb.lt
  have hlen : wrap (max b.endAddr a.endAddr + 1 + (2 ^ 64 - min b.address a.address))
      = max (b.address + b.length) (a.address + a.length) - min b.address a.address := by
    rw [ha.endAddr_eq, hb.endAddr_eq, wrap]
    omega
  refine ⟨⟨min b.address a.address,
    max (b.address + b.length) (a.address + a.length) - min b.address a.address⟩, ?_, ?_, ?_⟩
  · rw [addAssign, if_neg (by omega), canAdd_eq ha hb, if_pos (by simp [ht])]
    dsimp only
    rw [hlen]
  · exact ⟨by dsimp only; omega, by dsimp only; omega⟩
  · simp only [ival, Interval.hull, Prod.mk.injEq]
    omega

end AddressInfo

end Hippocrates
