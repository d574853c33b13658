import Mathlib.Tactic
import Hippocrates.Intrinsics.FlushLoop
import Hippocrates.Lib.ForLoop

/-!
The naive routines of `persistent_intrinsics.c`: `PMFIXER_memset_naive`,
`PMFIXER_memcpy_naive`, `PMFIXER_memmove_naive` and `PMFIXER_strncpy_naive`. They write byte by
byte, and flush the line of each byte when it is written, with the instruction that is built in
(`FlushKind`) and a fence if it needs one.

* `storeByte`: one round of their loops. `Stored` is what the rounds keep.
* `Implements`: the memory is as it should be in the end, and every byte written is flushed
  afterwards and not written again.

`naive_implements`: the routines do what the C library's do. `PMFIXER_memmove_naive` chooses the
direction by two comparisons of different types (`size_t`, and `int` after truncation), and
whichever loop is taken reads no byte it has written.
-/

namespace Hippocrates

open Persistency ForLoop

/-- The flush instruction that is built in. -/
inductive FlushKind where
  | CLWB
  | CLFLUSH_OPT
  | CLFLUSH
deriving DecidableEq

/-- Whether the flush is ordered by a fence only. -/
def FlushKind.needsFence : FlushKind → Bool
  | CLWB => true
  | CLFLUSH_OPT => true
  | CLFLUSH => false

/-- The flush of the line of `a`, and the fence. -/
def FlushKind.flush (k : FlushKind) (a : ℕ) : List (Op AddressInfo) :=
  if k.needsFence then [Op.flush (cacheLine a), Op.fence] else [Op.flush (cacheLine a)]

/-- The memory and the operations performed. -/
abbrev RunState := Memory × List (Op AddressInfo)

/-- The byte at `a` becomes `v` and is flushed. -/
def storeByte (k : FlushKind) (a : ℕ) (v : UInt8) (st : RunState) : RunState :=
  (Function.update st.1 a v, st.2 ++ Op.store ⟨a, 1⟩ :: k.flush a)

/-- `d[i] = s[i]`. -/
def copyByte (k : FlushKind) (d s i : ℕ) (st : RunState) : RunState :=
  storeByte k (wrap (d + i)) (st.1 (wrap (s + i))) st

def PMFIXER_memset_naive (k : FlushKind) (d : ℕ) (c : UInt8) (n : ℕ) (_unused : Bool)
    (mem : Memory) : RunState :=
  forUp (fun i => storeByte k (wrap (d + i)) c) n (mem, [])

def PMFIXER_memcpy_naive (k : FlushKind) (d s n : ℕ) (_unused : Bool) (mem : Memory) : RunState :=
  forUp (copyByte k d s) n (mem, [])

/-- The difference of two pointers, a `ptrdiff_t`. -/
def ptrDiff (a b : ℕ) : ℤ := Int.bmod (a - b) (2 ^ 64)

/-- `none` is the failed assertion on `n`. -/
def PMFIXER_memmove_naive (k : FlushKind) (d s n : ℕ) (_unused : Bool) (mem : Memory) :
    Option RunState :=
  let from' := s
  let to' := d
  if ¬ n < 2 ^ 63 - 1 then none
  else if from' = to' ∨ n = 0 then some (mem, [])
  -- `to - from` is converted to `size_t`
  else if to' > from' ∧ ptrDiff to' from' % 2 ^ 64 < n then
    some (forDown (copyByte k to' from') n (mem, []))
  -- `(int)n` truncates
  else if from' > to' ∧ ptrDiff from' to' < Int.bmod n (2 ^ 32) then
    some (forUp (copyByte k to' from') n (mem, []))
  else some (PMFIXER_memcpy_naive k d s n _unused mem)

/-- The destination is returned. -/
def PMFIXER_strncpy_naive (k : FlushKind) (dest src n : ℕ) (mem : Memory) : ℕ × RunState :=
  let copied := forWhile (fun i st => st.1 (wrap (src + i)) != 0) (copyByte k dest src) n 0
    (mem, [])
  let padded := forWhile (fun _ _ => true) (fun i => storeByte k (wrap (dest + i)) 0)
    (n - copied.1) copied.1 copied.2
  (dest, padded.2)

/-- From `mem` the run comes to the memory `mem'`; what it changes it writes, and every byte it
writes is flushed after its last write, and fenced if the flush needs it. -/
structure Implements (k : FlushKind) (mem mem' : Memory) (r : RunState) : Prop where
  memory : r.1 = mem'
  written : ∀ x, r.1 x ≠ mem x → Written x r.2
  settled : @StoresSettled ℕ AddressInfo _ k.needsFence r.2

/-! ### The rounds -/

/-- The run from `mem` has written the bytes of `W`, with the values of `val`. -/
structure Stored (k : FlushKind) (val mem : Memory) (W : Set ℕ) (st : RunState) : Prop where
  inside : ∀ x ∈ W, st.1 x = val x
  outside : ∀ x ∉ W, st.1 x = mem x
  written : ∀ x, Written x st.2 ↔ x ∈ W
  settled : @StoresSettled ℕ AddressInfo _ k.needsFence st.2

section Rounds

variable {k : FlushKind} {val mem : Memory} {W W' : Set ℕ} {st : RunState} {d s n : ℕ}

lemma stored_start : Stored k val mem ∅ (mem, []) :=
  ⟨by simp, by simp, by simp [Written], storesSettled_nil _⟩

lemma quiet_flush (a x : ℕ) : Quiet x (k.flush a) := by
  rw [FlushKind.flush]
  split <;> simp [Quiet]

lemma flushed_flush (a : ℕ) :
    Flushed a (k.flush a) ∧ (k.needsFence = true → FlushFenced a (k.flush a)) := by
  have hline : (Op.flush (cacheLine a)).Flushes a := mem_cacheLine.mpr rfl
  rw [FlushKind.flush]
  split_ifs with hfence
  · exact ⟨⟨_, by simp, hline⟩, fun _ => ⟨[], _, [Op.fence], rfl, hline, by simp⟩⟩
  · exact ⟨⟨_, by simp, hline⟩, fun h => absurd h hfence⟩

/-- A round writes one byte more. -/
lemma Stored.storeByte (h : Stored k val mem W st) {a : ℕ} (ha : a ∉ W) {v : UInt8}
    (hv : v = val a) (hW : ∀ x, x ∈ W' ↔ x = a ∨ x ∈ W) :
    Stored k val mem W' (storeByte k a v st) := by
  have hmem : ∀ x, x ∈ (⟨a, 1⟩ : AddressInfo) ↔ x = a := fun x => by
    rw [AddressInfo.mem_iff]
    dsimp only
    omega
  refine ⟨fun x hx => ?_, fun x hx => ?_, fun x => ?_, ?_⟩
  · show Function.update st.1 a v x = val x
    rw [Function.update_apply]
    split_ifs with hxa
    · rw [hv, hxa]
    · exact h.inside x (((hW x).mp hx).resolve_left hxa)
  · rw [hW, not_or] at hx
    show Function.update st.1 a v x = mem x
    rw [Function.update_apply, if_neg hx.1]
    exact h.outside x hx.2
  · rw [hW, ← h.written]
    -- the flushes before and after the store write nothing
    have hquiet := not_written_iff.mpr (quiet_flush (k := k) a x)
    simp only [Written, Hippocrates.storeByte, List.mem_append, List.mem_cons] at hquiet ⊢
    constructor
    · rintro ⟨o, ho | rfl | ho, hx⟩
      · exact .inr ⟨o, ho, hx⟩
      · exact .inl ((hmem x).mp hx)
      · exact absurd ⟨o, ho, hx⟩ hquiet
    · rintro (rfl | ⟨o, ho, hx⟩)
      · exact ⟨_, .inr (.inl rfl), (hmem x).mpr rfl⟩
      · exact ⟨o, .inl ho, hx⟩
  · refine h.settled.append (fun x hx => ?_) (fun x hx => ?_) (quiet_flush a)
    · rw [← not_written_iff, h.written, (hmem x).mp hx]
      exact ha
    · rw [(hmem x).mp hx]
      exact flushed_flush a

/-- A round copies one byte more, if its source has not been written. -/
lemma Stored.copyByte {i : ℕ} (h : Stored k (fun x => mem (s + (x - d))) mem W st)
    (hd : d + i < 2 ^ 64) (hs : s + i < 2 ^ 64) (ha : d + i ∉ W) (hread : s + i ∉ W)
    (hW : ∀ x, x ∈ W' ↔ x = d + i ∨ x ∈ W) :
    Stored k (fun x => mem (s + (x - d))) mem W' (copyByte k d s i st) := by
  rw [Hippocrates.copyByte, wrap, wrap, Nat.mod_eq_of_lt hd, Nat.mod_eq_of_lt hs]
  exact h.storeByte ha (by rw [h.outside _ hread, Nat.add_sub_cancel_left]) hW

/-- The forward copy, when no byte is read after it has been written. -/
lemma stored_copyUp (hd : d + n ≤ 2 ^ 64) (hs : s + n ≤ 2 ^ 64) (hfwd : d ≤ s ∨ s + n ≤ d) :
    Stored k (fun x => mem (s + (x - d))) mem (Set.Ico d (d + n))
      (forUp (copyByte k d s) n (mem, [])) := by
  refine forUp_inv (I := fun i st => Stored k (fun x => mem (s + (x - d))) mem
    (Set.Ico d (d + i)) st) (by simpa using stored_start) fun i st hi h => ?_
  refine h.copyByte (by omega) (by omega) ?_ ?_ fun x => ?_
  · rw [Set.mem_Ico]
    omega
  · rw [Set.mem_Ico]
    omega
  · simp only [Set.mem_Ico]
    omega

/-- The backward copy, to higher addresses. -/
lemma stored_copyDown (hd : d + n ≤ 2 ^ 64) (hs : s + n ≤ 2 ^ 64) (hbwd : s ≤ d) :
    Stored k (fun x => mem (s + (x - d))) mem (Set.Ico d (d + n))
      (forDown (copyByte k d s) n (mem, [])) := by
  refine forDown_inv (I := fun i st => Stored k (fun x => mem (s + (x - d))) mem
    (Set.Ico (d + i) (d + n)) st) (by simpa using stored_start) fun i st hi h => ?_
  refine h.copyByte (by omega) (by omega) ?_ ?_ fun x => ?_
  · rw [Set.mem_Ico]
    omega
  · rw [Set.mem_Ico]
    omega
  · simp only [Set.mem_Ico]
    omega

/-- A run that has written the whole range implements a write of the range. -/
lemma Stored.implements (h : Stored k val mem (Set.Ico d (d + n)) st) {mem' : Memory}
    (hmem : ∀ x, mem' x = if d ≤ x ∧ x < d + n then val x else mem x) :
    Implements k mem mem' st := by
  have hread : ∀ x, st.1 x = if d ≤ x ∧ x < d + n then val x else mem x := fun x => by
    split_ifs with hx
    · exact h.inside x hx
    · exact h.outside x hx
  refine ⟨funext fun x => (hread x).trans (hmem x).symm, fun x hne => ?_, h.settled⟩
  rw [h.written]
  by_contra hx
  exact hne (h.outside x hx)

end Rounds

/-! ### The routines -/

section Routines

variable {k : FlushKind} {mem : Memory} {d s n dest src : ℕ}

lemma memset_naive_implements (c : UInt8) (b : Bool) (hd : d + n ≤ 2 ^ 64) :
    Implements k mem (memset d c n mem) (PMFIXER_memset_naive k d c n b mem) := by
  have hstored : Stored k (fun _ => c) mem (Set.Ico d (d + n))
      (PMFIXER_memset_naive k d c n b mem) := by
    refine forUp_inv (I := fun i st => Stored k (fun _ => c) mem (Set.Ico d (d + i)) st)
      (by simpa using stored_start) fun i st hi h => ?_
    rw [wrap, Nat.mod_eq_of_lt (by omega)]
    refine h.storeByte ?_ rfl fun x => ?_
    · rw [Set.mem_Ico]
      omega
    · simp only [Set.mem_Ico]
      omega
  exact hstored.implements fun _ => rfl

lemma memcpy_naive_implements (b : Bool) (hd : d + n ≤ 2 ^ 64) (hs : s + n ≤ 2 ^ 64)
    (hfwd : d ≤ s ∨ s + n ≤ d) :
    Implements k mem (memmove d s n mem) (PMFIXER_memcpy_naive k d s n b mem) :=
  (stored_copyUp hd hs hfwd).implements fun _ => rfl

/-- The difference of two pointers as a `size_t`. -/
lemma ptrDiff_emod {a b : ℕ} (hba : b ≤ a) (ha : a < 2 ^ 64) :
    ptrDiff a b % 2 ^ 64 = ((a - b : ℕ) : ℤ) := by
  rw [ptrDiff, ← Nat.cast_sub hba]
  have hmod : Int.bmod ((a - b : ℕ) : ℤ) (2 ^ 64) % ((2 ^ 64 : ℕ) : ℤ) = _ := Int.bmod_emod
  rw [Nat.cast_pow, Nat.cast_ofNat] at hmod
  rw [hmod]
  exact Int.emod_eq_of_lt (Int.natCast_nonneg _) (by omega)

/-- Each branch copies in a direction that reads no byte after writing it. -/
lemma memmove_naive_implements (b : Bool) (hd : d + n ≤ 2 ^ 64) (hs : s + n ≤ 2 ^ 64)
    (hn : n < 2 ^ 63 - 1) :
    ∃ r, PMFIXER_memmove_naive k d s n b mem = some r ∧
      Implements k mem (memmove d s n mem) r := by
  rw [PMFIXER_memmove_naive, if_neg (not_not.mpr hn)]
  split_ifs with hnone hdown hup
  · refine ⟨_, rfl, ⟨funext fun x => ?_, fun x hx => absurd rfl hx, storesSettled_nil _⟩⟩
    rw [memmove]
    split_ifs with hx
    · -- the ranges are the same
      obtain rfl : s = d := hnone.resolve_right (by omega)
      rw [Nat.add_sub_cancel' hx.1]
    · rfl
  · exact ⟨_, rfl, (stored_copyDown hd hs hdown.1.le).implements fun _ => rfl⟩
  · exact ⟨_, rfl, (stored_copyUp hd hs (.inl hup.1.le)).implements fun _ => rfl⟩
  · refine ⟨_, rfl, memcpy_naive_implements b hd hs ?_⟩
    by_contra hover
    rw [not_or, not_le, not_le] at hover
    rw [not_or] at hnone
    refine hdown ⟨hover.1, ?_⟩
    rw [ptrDiff_emod hover.1.le (by omega)]
    omega

/-- The byte of `strncpy` at the offset `i`. -/
def strncpyByte (mem : Memory) (src i : ℕ) : UInt8 :=
  if (List.range i).any fun j => mem (src + j) == 0 then 0 else mem (src + i)

lemma strncpyByte_of_ne {i : ℕ} (h : ∀ j < i, mem (src + j) ≠ 0) :
    strncpyByte mem src i = mem (src + i) := by
  rw [strncpyByte, if_neg]
  simpa using h

lemma strncpyByte_of_le {i j : ℕ} (hj : j ≤ i) (hzero : mem (src + j) = 0) :
    strncpyByte mem src i = 0 := by
  rw [strncpyByte]
  split_ifs with hany
  · rfl
  · rcases hj.lt_or_eq with hlt | rfl
    · exact absurd (List.any_eq_true.mpr ⟨j, List.mem_range.mpr hlt, by simp [hzero]⟩) hany
    · exact hzero

/-- The bytes of the string, up to its terminator or `n`, lie apart from the destination. -/
def StringApart (mem : Memory) (dest src n : ℕ) : Prop :=
  ∀ i < n, (∀ j < i, mem (src + j) ≠ 0) →
    src + i < 2 ^ 64 ∧ (src + i < dest ∨ dest + n ≤ src + i)

lemma strncpy_naive_implements (hd : dest + n ≤ 2 ^ 64) (hsrc : StringApart mem dest src n) :
    Implements k mem (strncpy dest src n mem) (PMFIXER_strncpy_naive k dest src n mem).2 := by
  let val : Memory := fun x => strncpyByte mem src (x - dest)
  have hval : ∀ i, val (dest + i) = strncpyByte mem src i := fun i =>
    congrArg (strncpyByte mem src) (Nat.add_sub_cancel_left dest i)
  -- a round of either loop writes the next byte
  have hround : ∀ i st v, i < n → Stored k val mem (Set.Ico dest (dest + i)) st →
      v = strncpyByte mem src i →
      Stored k val mem (Set.Ico dest (dest + (i + 1))) (storeByte k (wrap (dest + i)) v st) := by
    intro i st v hi h hv
    rw [wrap, Nat.mod_eq_of_lt (by omega)]
    refine h.storeByte ?_ (hv.trans (hval i).symm) fun x => ?_
    · rw [Set.mem_Ico]
      omega
    · simp only [Set.mem_Ico]
      omega
  -- the byte read has not been written
  have hread : ∀ i st, i < n → (∀ j < i, mem (src + j) ≠ 0) →
      Stored k val mem (Set.Ico dest (dest + i)) st → st.1 (wrap (src + i)) = mem (src + i) := by
    intro i st hi hne h
    obtain ⟨hlt, hapart⟩ := hsrc i hi hne
    rw [wrap, Nat.mod_eq_of_lt hlt]
    refine h.outside _ ?_
    rw [Set.mem_Ico]
    omega
  obtain ⟨j, st, hcopied, ⟨hstored, hne⟩, -, hj, hend⟩ :=
    forWhile_inv (t := fun i st => st.1 (wrap (src + i)) != 0) (f := copyByte k dest src)
      (I := fun i st => Stored k val mem (Set.Ico dest (dest + i)) st ∧
        ∀ j < i, mem (src + j) ≠ 0) (r := n) (i := 0) (a := (mem, []))
      ⟨by simpa using stored_start, by simp⟩ fun i st _ hi htest h => by
        have hi : i < n := by omega
        have hbyte := hread i st hi h.2 h.1
        rw [hbyte, bne_iff_ne] at htest
        refine ⟨hround i st _ hi h.1 (hbyte.trans (strncpyByte_of_ne h.2).symm), fun j hj => ?_⟩
        rcases (Nat.lt_succ_iff_lt_or_eq.mp hj) with hlt | rfl
        · exact h.2 j hlt
        · exact htest
  have hpad : ∀ i, j ≤ i → i < n → strncpyByte mem src i = 0 := by
    intro i hji hin
    have hzero := hend (by omega)
    rw [hread j st (by omega) hne hstored] at hzero
    exact strncpyByte_of_le hji (by simpa using hzero)
  obtain ⟨i, st', hpadded, hstored', -, hi, hdone⟩ :=
    forWhile_inv (t := fun _ _ => true) (f := fun i => storeByte k (wrap (dest + i)) 0)
      (I := fun i st => Stored k val mem (Set.Ico dest (dest + i)) st) (r := n - j) hstored
      fun i st hji hin _ h => hround i st 0 (by omega) h (hpad i hji (by omega)).symm
  obtain rfl : i = n := by
    by_contra hin
    exact absurd (hdone (by omega)) (by simp)
  have hrun : (PMFIXER_strncpy_naive k dest src i mem).2 = st' := by
    rw [PMFIXER_strncpy_naive]
    simp only [hcopied, hpadded]
  rw [hrun]
  exact hstored'.implements fun _ => rfl

/-- **The naive routines** do what the C library's do, and persist every byte they write. -/
theorem naive_implements (k : FlushKind) (mem : Memory) {d n : ℕ} (hd : d + n ≤ 2 ^ 64) (b : Bool) :
    (∀ c, Implements k mem (memset d c n mem) (PMFIXER_memset_naive k d c n b mem)) ∧
    (∀ s, s + n ≤ 2 ^ 64 → (d + n ≤ s ∨ s + n ≤ d) →
      Implements k mem (memcpy d s n mem) (PMFIXER_memcpy_naive k d s n b mem)) ∧
    (∀ s, s + n ≤ 2 ^ 64 → n < 2 ^ 63 - 1 → ∃ r, PMFIXER_memmove_naive k d s n b mem = some r ∧
      Implements k mem (memmove d s n mem) r) ∧
    ∀ src, StringApart mem d src n → (PMFIXER_strncpy_naive k d src n mem).1 = d ∧
      Implements k mem (strncpy d src n mem) (PMFIXER_strncpy_naive k d src n mem).2 :=
  ⟨fun c => memset_naive_implements c b hd,
    fun s hs hapart => memcpy_naive_implements b hd hs (by omega),
    fun s hs hn => memmove_naive_implements b hd hs hn,
    fun src hsrc => ⟨rfl, strncpy_naive_implements hd hsrc⟩⟩

/-- Each byte holds the last byte of its address. -/
def addressBytes : Memory := fun a => UInt8.ofNat a

/-- Ranges that overlap for `memmove`, on either side: byte by byte from the wrong end, the move
would repeat the first six bytes. For `strncpy`, a string of 56 characters. -/
theorem naive_implements_overlap :
    Implements .CLWB addressBytes (memset 4096 7 200 addressBytes)
      (PMFIXER_memset_naive .CLWB 4096 7 200 false addressBytes) ∧
    Implements .CLWB addressBytes (memcpy 4096 8192 200 addressBytes)
      (PMFIXER_memcpy_naive .CLWB 4096 8192 200 false addressBytes) ∧
    (∃ r, PMFIXER_memmove_naive .CLWB 4096 4090 200 false addressBytes = some r ∧
      Implements .CLWB addressBytes (memmove 4096 4090 200 addressBytes) r ∧
      r.1 4102 = 0 ∧ r.1 4096 = 250) ∧
    (∃ r, PMFIXER_memmove_naive .CLWB 4096 4102 200 false addressBytes = some r ∧
      Implements .CLWB addressBytes (memmove 4096 4102 200 addressBytes) r ∧
      r.1 4096 = 6 ∧ r.1 4102 = 12) ∧
    Implements .CLWB addressBytes (strncpy 4096 8392 200 addressBytes)
      (PMFIXER_strncpy_naive .CLWB 4096 8392 200 addressBytes).2 := by
  have hall := @naive_implements .CLWB addressBytes 4096 200 (by omega) false
  have hsrc : StringApart addressBytes 4096 8392 200 := fun i hi hne => ⟨by omega, by omega⟩
  obtain ⟨up, hup, hmoved⟩ := hall.2.2.1 4090 (by omega) (by omega)
  obtain ⟨down, hdown, hmoved'⟩ := hall.2.2.1 4102 (by omega) (by omega)
  refine ⟨hall.1 7, hall.2.1 8192 (by omega) (by omega), ⟨up, hup, hmoved, ?_⟩,
    ⟨down, hdown, hmoved', ?_⟩, (hall.2.2.2 8392 hsrc).2⟩
  · rw [hmoved.memory]
    decide
  · rw [hmoved'.memory]
    decide

end Routines

end Hippocrates
