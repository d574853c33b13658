import Mathlib.Tactic
import Hippocrates.Lib.Persistency
import Hippocrates.Trace.AddressInfo

/-!
The persistent memory routines of `persistent_intrinsics.c`: `flush_loop` and, on top of it,
`PMFIXER_memset`, `PMFIXER_memcpy`, `PMFIXER_memmove` and `PMFIXER_strncpy`, as compiled (the
manual copies are disabled). The fence that completes the flushes is added after the call.

A routine runs on a byte memory and performs persistency operations: the write of its
destination, and one flush of a 64-byte line for each round of the loop, whichever of the
three flush instructions is built in.

`persistentRoutines_iff`: the loop steps by 64 bytes from the destination, which need not be
aligned, so it misses the last line of some ranges. The routines persist the `n` bytes at `p`
exactly when `n = 0` or `p % 64 + (n - 1) % 64 < 64`.
-/

namespace Hippocrates

open Persistency

/-- Byte memory. -/
abbrev Memory := ℕ → UInt8

/-- The cache line of an address. -/
def cacheLine (a : ℕ) : AddressInfo := ⟨64 * (a / 64), 64⟩

/-- The rounds of the loop from the counter `i` on, if they come to an end. -/
def flushLoopFrom (p n : ℕ) : ℕ → ℕ → Option (List (Op AddressInfo))
  | 0, i => if i < n then none else some []
  | fuel + 1, i =>
    if i < n then
      (flushLoopFrom p n fuel (wrap (i + 64))).map fun ops =>
        Op.flush (cacheLine (wrap (p + i))) :: ops
    else some []

/-- `flush_loop`. If the loop ends at all it does so within `n` rounds. -/
def flush_loop (p n : ℕ) : Option (List (Op AddressInfo)) := flushLoopFrom p n n 0

/-- `memset`: the `n` bytes at `d` become `c`. -/
def memset (d : ℕ) (c : UInt8) (n : ℕ) (mem : Memory) : Memory := fun x =>
  if d ≤ x ∧ x < d + n then c else mem x

/-- `memmove`: the `n` bytes at `d` become those at `s`. -/
def memmove (d s n : ℕ) (mem : Memory) : Memory := fun x =>
  if d ≤ x ∧ x < d + n then mem (s + (x - d)) else mem x

/-- `memcpy`, whose ranges do not overlap. -/
def memcpy (d s n : ℕ) (mem : Memory) : Memory := memmove d s n mem

/-- `strncpy`: the bytes at `src` up to the terminator, padded by zeros to `n` bytes. -/
def strncpy (dest src n : ℕ) (mem : Memory) : Memory := fun x =>
  if dest ≤ x ∧ x < dest + n then
    if (List.range (x - dest)).any fun j => mem (src + j) == 0 then 0 else mem (src + (x - dest))
  else mem x

/-- A library routine that writes the `n` bytes at `d`, followed by `flush_loop(d, n)`: the
memory afterwards and the operations performed. -/
def persistently (write : Memory → Memory) (d n : ℕ) (mem : Memory) :
    Option (Memory × List (Op AddressInfo)) :=
  (flush_loop d n).map fun ops => (write mem, Op.store ⟨d, n⟩ :: ops)

def PMFIXER_memset (d : ℕ) (c : UInt8) (n : ℕ) (_unused : Bool) (mem : Memory) :
    Option (Memory × List (Op AddressInfo)) :=
  persistently (memset d c n) d n mem

def PMFIXER_memcpy (d s n : ℕ) (_unused : Bool) (mem : Memory) :
    Option (Memory × List (Op AddressInfo)) :=
  persistently (memcpy d s n) d n mem

def PMFIXER_memmove (d s n : ℕ) (_unused : Bool) (mem : Memory) :
    Option (Memory × List (Op AddressInfo)) :=
  persistently (memmove d s n) d n mem

/-- The destination is returned. -/
def PMFIXER_strncpy (dest src n : ℕ) (mem : Memory) :
    Option (ℕ × Memory × List (Op AddressInfo)) :=
  (persistently (strncpy dest src n) dest n mem).map fun r => (dest, r)

/-! ### The lines flushed -/

section Loop

variable {p n : ℕ}

lemma mem_cacheLine {a x : ℕ} : x ∈ cacheLine a ↔ x / 64 = a / 64 := by
  rw [AddressInfo.mem_iff, cacheLine]
  dsimp only
  omega

/-- One round after the other, as long as no sum wraps. -/
lemma flushLoopFrom_eq (hpn : p + n ≤ 2 ^ 64 - 64) (fuel i : ℕ) (hfuel : n ≤ i + 64 * fuel) :
    flushLoopFrom p n fuel i = some ((List.range ((n - i + 63) / 64)).map fun k =>
      Op.flush (cacheLine (p + i + 64 * k))) := by
  induction fuel generalizing i with
  | zero =>
      have hzero : (n - i + 63) / 64 = 0 := by omega
      rw [flushLoopFrom, if_neg (by omega), hzero]
      rfl
  | succ fuel ih =>
      rw [flushLoopFrom]
      split
      · have hrounds : (n - i + 63) / 64 = (n - (i + 64) + 63) / 64 + 1 := by omega
        have hi : wrap (i + 64) = i + 64 := Nat.mod_eq_of_lt (by omega)
        have hp : wrap (p + i) = p + i := Nat.mod_eq_of_lt (by omega)
        rw [hi, hp, ih (i + 64) (by omega), hrounds, List.range_succ_eq_map]
        simp only [Option.map_some, List.map_cons, List.map_map, Nat.mul_zero, Nat.add_zero]
        congr 3
        funext k
        simp only [Function.comp, Nat.succ_eq_add_one]
        congr 2
        omega
      · have hzero : (n - i + 63) / 64 = 0 := by omega
        rw [hzero]
        rfl

/-- **The loop ends**, after a round for each 64 bytes begun. -/
lemma flush_loop_eq (hpn : p + n ≤ 2 ^ 64 - 64) :
    flush_loop p n = some ((List.range ((n + 63) / 64)).map fun k =>
      Op.flush (cacheLine (p + 64 * k))) := by
  rw [flush_loop, flushLoopFrom_eq hpn n 0 (by omega), Nat.sub_zero, Nat.add_zero]

/-- The operations of the loop. -/
def loopOps (p n : ℕ) : List (Op AddressInfo) :=
  (List.range ((n + 63) / 64)).map fun k => Op.flush (cacheLine (p + 64 * k))

lemma flushed_loopOps {x : ℕ} :
    Flushed x (loopOps p n) ↔ ∃ k, k < (n + 63) / 64 ∧ x / 64 = (p + 64 * k) / 64 := by
  simp only [Flushed, loopOps, List.mem_map, List.mem_range]
  constructor
  · rintro ⟨_, ⟨k, hk, rfl⟩, hx⟩
    exact ⟨k, hk, mem_cacheLine.mp hx⟩
  · rintro ⟨k, hk, hx⟩
    exact ⟨_, ⟨k, hk, rfl⟩, mem_cacheLine.mpr hx⟩

/-- The rounds reach the line of the last byte exactly when the offsets of the first byte and
of the last in their lines leave room. -/
lemma flushed_all_iff :
    (∀ x, p ≤ x → x < p + n → Flushed x (loopOps p n)) ↔ n = 0 ∨ p % 64 + (n - 1) % 64 < 64 := by
  constructor
  · intro hall
    by_contra hneg
    rw [not_or, not_lt] at hneg
    obtain ⟨hn, hoff⟩ := hneg
    -- the line of the last byte comes after the line of the last round
    obtain ⟨k, hk, hline⟩ := flushed_loopOps.mp (hall (p + n - 1) (by omega) (by omega))
    have hlast : (p + n - 1) / 64 = p / 64 + (n - 1) / 64 + 1 := by omega
    have hround : (p + 64 * k) / 64 ≤ p / 64 + (n - 1) / 64 := by omega
    omega
  · rintro (rfl | hoff) x hpx hxn
    · omega
    · rw [flushed_loopOps]
      refine ⟨x / 64 - p / 64, ?_, by omega⟩
      have hlast : (p + n - 1) / 64 = p / 64 + (n - 1) / 64 := by omega
      have hx : x / 64 ≤ (p + n - 1) / 64 := Nat.div_le_div_right (by omega)
      omega

end Loop

/-! ### The routines -/

/-- The operations of a routine and the fence after it. -/
def thenFence (ops : List (Op AddressInfo)) : List (Op AddressInfo) := ops ++ [Op.fence]

/-- The call returns, and the fence after it makes the `n` bytes at `d` durable. -/
def PersistsRange {α : Type} (call : Option (α × List (Op AddressInfo))) (d n : ℕ) : Prop :=
  ∃ r ops, call = some (r, ops) ∧ ∀ x, d ≤ x → x < d + n → Durable x (thenFence ops)

lemma quiet_loopOps {p n x : ℕ} : Quiet x (loopOps p n ++ [Op.fence]) := by
  rw [quiet_append]
  refine ⟨?_, by simp [Quiet]⟩
  intro o ho
  obtain ⟨k, -, rfl⟩ := List.mem_map.mp ho
  exact stores_flush x _

/-- After the write a byte is durable exactly when the loop flushes it. -/
lemma durable_iff_flushed {p n x : ℕ} (hx : p ≤ x) (hxn : x < p + n) :
    Durable x (thenFence (Op.store ⟨p, n⟩ :: loopOps p n)) ↔ Flushed x (loopOps p n) := by
  have hsince : SinceStore x (thenFence (Op.store ⟨p, n⟩ :: loopOps p n))
      (loopOps p n ++ [Op.fence]) :=
    ⟨[], Op.store ⟨p, n⟩, rfl, AddressInfo.mem_iff.mpr ⟨hx, hxn⟩, quiet_loopOps⟩
  rw [hsince.durable_iff]
  constructor
  · intro hff
    have hfl := hff.flushed
    rw [flushed_append] at hfl
    exact hfl.resolve_right (by simp [Flushed])
  · exact fun hfl => flushFenced_append hfl (by simp)

/-- **A routine persists its range** exactly when the loop reaches the last line. -/
lemma persistsRange_iff {p n : ℕ} (hpn : p + n ≤ 2 ^ 64 - 64) (write : Memory → Memory)
    (mem : Memory) :
    PersistsRange (persistently write p n mem) p n ↔
      n = 0 ∨ p % 64 + (n - 1) % 64 < 64 := by
  rw [← flushed_all_iff, persistently, flush_loop_eq hpn]
  constructor
  · rintro ⟨r, ops, heq, hdur⟩ x hx hxn
    simp only [Option.map_some, Option.some.injEq, Prod.mk.injEq] at heq
    rw [← heq.2] at hdur
    exact (durable_iff_flushed hx hxn).mp (hdur x hx hxn)
  · intro hall
    refine ⟨write mem, _, rfl, fun x hx hxn => ?_⟩
    exact (durable_iff_flushed hx hxn).mpr (hall x hx hxn)

/-- `flush_loop` flushes every line of its range, and with it the four routines persist
theirs. -/
def PersistentRoutines (p n : ℕ) : Prop :=
  (∃ ops, flush_loop p n = some ops ∧ ∀ x, p ≤ x → x < p + n → Flushed x ops) ∧
    ∀ (mem : Memory) (s : ℕ) (c : UInt8) (b : Bool),
      PersistsRange (PMFIXER_memset p c n b mem) p n ∧
      PersistsRange (PMFIXER_memcpy p s n b mem) p n ∧
      PersistsRange (PMFIXER_memmove p s n b mem) p n ∧
      PersistsRange ((PMFIXER_strncpy p s n mem).map Prod.snd) p n

/-- **When the persistent routines flush everything they write**: when the range is empty or
the offset of its first byte and that of its length leave the last byte within the lines the
loop touches. -/
theorem persistentRoutines_iff (p n : ℕ) (hpn : p + n ≤ 2 ^ 64 - 64) :
    PersistentRoutines p n ↔ n = 0 ∨ p % 64 + (n - 1) % 64 < 64 := by
  have hstr : ∀ s mem, (PMFIXER_strncpy p s n mem).map Prod.snd =
      persistently (strncpy p s n) p n mem := fun s mem => by
    rw [PMFIXER_strncpy, Option.map_map]
    exact Option.map_id'
  constructor
  · rintro ⟨⟨ops, hops, hall⟩, -⟩
    obtain rfl : loopOps p n = ops := Option.some.inj ((flush_loop_eq hpn).symm.trans hops)
    exact flushed_all_iff.mp hall
  · intro hoff
    refine ⟨⟨loopOps p n, flush_loop_eq hpn, flushed_all_iff.mpr hoff⟩, fun mem s c b => ?_⟩
    rw [hstr]
    exact ⟨(persistsRange_iff hpn _ mem).mpr hoff, (persistsRange_iff hpn _ mem).mpr hoff,
      (persistsRange_iff hpn _ mem).mpr hoff, (persistsRange_iff hpn _ mem).mpr hoff⟩

/-- Eight bytes across a line boundary: one round, for the first line only. -/
theorem not_persistentRoutines_across :
    60 + 8 ≤ 2 ^ 64 - 64 ∧ flush_loop 60 8 = some [Op.flush ⟨0, 64⟩] ∧
      ¬ PersistentRoutines 60 8 := by
  refine ⟨by omega, rfl, ?_⟩
  rintro ⟨⟨ops, hops, hall⟩, -⟩
  have heq : flush_loop 60 8 = some [Op.flush ⟨0, 64⟩] := rfl
  obtain rfl : [Op.flush ⟨0, 64⟩] = ops := Option.some.inj (heq.symm.trans hops)
  obtain ⟨o, ho, hx⟩ := hall 64 (by omega) (by omega)
  rw [List.mem_singleton.mp ho] at hx
  exact absurd (AddressInfo.mem_iff.mp hx).2 (by decide)

theorem persistentRoutines_iff_aligned :
    PersistentRoutines 4096 200 ↔ 200 = 0 ∨ 4096 % 64 + (200 - 1) % 64 < 64 :=
  persistentRoutines_iff 4096 200 (by omega)

end Hippocrates
