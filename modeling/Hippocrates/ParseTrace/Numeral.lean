import Mathlib.Tactic
import Hippocrates.Lib.Text

/-!
The strings of Python that `parse-trace` works on: the classes of characters its patterns use, and
the reading of numerals.

A string is the list of its characters. What the Unicode tables say of the characters beyond ASCII
is left open in `Unicode`, white space apart.

* `isSpace`, `isWord`, `isDigit`: the classes `\s`, `\w` and `\d`.
* `readInt`: `int(text, base)`. `readInt_toDigits`: what is printed is read back.
-/

namespace Hippocrates.ParseTrace

abbrev Text := List Char

/-- What the tables say of the characters beyond ASCII. -/
structure Unicode where
  isalnum : Char → Bool
  isnumeric : Char → Bool
  decimal : Char → Option (Fin 10)

/-- `\s`, the characters that `strip` drops. -/
def isSpace (c : Char) : Bool :=
  let n := c.toNat
  (9 ≤ n && n ≤ 13) || (28 ≤ n && n ≤ 32) || n == 133 || n == 160 || n == 5760 ||
    (8192 ≤ n && n ≤ 8202) || n == 8232 || n == 8233 || n == 8239 || n == 8287 || n == 12288

/-- `strip()`. -/
def strip (s : Text) : Text := Text.strip isSpace s

section

variable (U : Unicode)

/-- `\w`; white space is no part of a word. -/
def isWord (c : Char) : Bool :=
  if c.toNat < 128 then c.isAlphanum || c == '_' else !isSpace c && U.isalnum c

/-- The value of a decimal digit; white space is none. -/
def decimal (c : Char) : Option ℕ :=
  if c.toNat < 128 then if c.isDigit then some (c.toNat - '0'.toNat) else none
  else if isSpace c then none else (U.decimal c).map Fin.val

/-- `\d`. -/
def isDigit (c : Char) : Bool := (decimal U c).isSome

/-- The value of a digit to a base. -/
def digitVal (base : ℕ) (c : Char) : Option ℕ :=
  ((decimal U c).or
    (if c.isLower then some (c.toNat - 'a'.toNat + 10)
      else if c.isUpper then some (c.toNat - 'A'.toNat + 10) else none)).filter (· < base)

/-- The digits after the first; single underscores may stand between them. -/
def readDigits (base : ℕ) : ℕ → Text → Option ℕ
  | n, [] => some n
  | n, '_' :: c :: cs => (digitVal U base c).bind fun d => readDigits base (base * n + d) cs
  | n, c :: cs => (digitVal U base c).bind fun d => readDigits base (base * n + d) cs

/-- A numeral without a sign. -/
def readNat (base : ℕ) : Text → Option ℕ
  | [] => none
  | c :: cs => (digitVal U base c).bind fun d => readDigits U base d cs

/-- `0x` may stand before a hexadecimal numeral. -/
def dropBase : ℕ → Text → Text
  | 16, '0' :: 'x' :: '_' :: s => s
  | 16, '0' :: 'X' :: '_' :: s => s
  | 16, '0' :: 'x' :: s => s
  | 16, '0' :: 'X' :: s => s
  | _, s => s

/-- `int(text, base)`. -/
def readInt (base : ℕ) (s : Text) : Option ℤ :=
  match strip s with
  | '-' :: s => (readNat U base (dropBase base s)).map fun n : ℕ => -(n : ℤ)
  | '+' :: s => (readNat U base (dropBase base s)).map fun n : ℕ => (n : ℤ)
  | s => (readNat U base (dropBase base s)).map fun n : ℕ => (n : ℤ)

end

example : readInt ⟨fun _ => false, fun _ => false, fun _ => none⟩ 16 "0x7f_00\n".toList =
    some 32512 := by decide

/-! ### Digits -/

section Digits

variable {U : Unicode} {c : Char} {base n : ℕ}

lemma toNat_of_ascii (h : c.isDigit = true) : 48 ≤ c.toNat ∧ c.toNat ≤ 57 := by
  simpa [Char.isDigit, UInt32.le_iff_toNat_le] using h

lemma decimal_of_ascii (h : c.isDigit = true) : decimal U c = some (c.toNat - '0'.toNat) := by
  have hrange := toNat_of_ascii h
  rw [decimal, if_pos (by omega), if_pos h]

lemma isDigit_of_ascii (h : c.isDigit = true) : isDigit U c = true := by
  rw [isDigit, decimal_of_ascii h]
  rfl

lemma isSpace_of_ascii (h : c.isDigit = true) : isSpace c = false := by
  have hrange := toNat_of_ascii h
  simp [isSpace]
  omega

lemma isSpace_of_isWord (h : isWord U c = true) : isSpace c = false := by
  rw [isWord] at h
  split at h
  · have hrange : 48 ≤ c.toNat ∧ c.toNat ≤ 122 := by
      rcases Bool.or_eq_true_iff.mp h with h | h
      · have halnum : c.isAlphanum = (decide (c.val ≥ 'A'.val ∧ c.val ≤ 'Z'.val) ||
            (decide (c.val ≥ 'a'.val) && decide (c.val ≤ 'z'.val)) ||
            (decide (c.val ≥ '0'.val) && decide (c.val ≤ '9'.val))) := rfl
        simp only [halnum, Bool.or_eq_true, Bool.and_eq_true, decide_eq_true_eq,
          UInt32.le_iff_toNat_le, ge_iff_le] at h
        have hval : c.toNat = c.val.toNat := rfl
        simp at h
        omega
      · obtain rfl := beq_iff_eq.mp h
        decide
    simp [isSpace]
    omega
  · simpa using (Bool.and_eq_true_iff.mp h).1

lemma digitVal_lt {d : ℕ} (h : digitVal U base c = some d) : d < base := by
  simpa using (Option.filter_eq_some_iff.mp h).2

lemma digitVal_of_ascii (h : c.isDigit = true) : digitVal U 10 c = some (c.toNat - '0'.toNat) := by
  have hrange := toNat_of_ascii h
  rw [digitVal, decimal_of_ascii h, Option.some_or, Option.filter_some, if_pos]
  simp
  omega

lemma readDigits_cons (hc : c ≠ '_') (cs : Text) :
    readDigits U base n (c :: cs) =
      (digitVal U base c).bind fun d => readDigits U base (base * n + d) cs := by
  rw [readDigits]
  exact fun c' cs' h => absurd h hc

/-- A numeral without underscores is the sum of its digits. -/
lemma readDigits_eq {cs : Text} (h : ∀ c ∈ cs, c.isDigit = true) :
    readDigits U 10 n cs = some (Nat.ofDigitChars 10 cs n) := by
  induction cs generalizing n with
  | nil => rw [readDigits, Nat.ofDigitChars_nil]
  | cons c cs ih =>
      have hc := h c List.mem_cons_self
      have hne : c ≠ '_' := by
        rintro rfl
        simp at hc
      rw [readDigits_cons hne, digitVal_of_ascii hc, Option.bind_some,
        ih fun c' hc' => h c' (List.mem_cons_of_mem _ hc'), Nat.ofDigitChars_cons]

/-- The number of digits bounds the numeral. -/
lemma readDigits_lt {cs : Text} {m k : ℕ} (h : readDigits U base n cs = some m)
    (hn : n < base ^ k) : m < base ^ (k + cs.length) := by
  have hstep : ∀ {n k d : ℕ}, n < base ^ k → d < base → base * n + d < base ^ (k + 1) := by
    intro n k d hn hd
    calc base * n + d < base * n + base := by omega
      _ = base * (n + 1) := by ring
      _ ≤ base * base ^ k := Nat.mul_le_mul_left base hn
      _ = base ^ (k + 1) := by ring
  fun_induction readDigits U base n cs generalizing k with
  | case1 n =>
      obtain rfl := Option.some.inj h
      simpa using hn
  | case2 n c cs ih =>
      obtain ⟨d, hd, h⟩ := Option.bind_eq_some_iff.mp h
      have hlt := digitVal_lt hd
      refine (ih d h (hstep hn hlt)).trans_le (Nat.pow_le_pow_right (by omega) ?_)
      simp only [List.length_cons]
      omega
  | case3 n c cs _ ih =>
      obtain ⟨d, hd, h⟩ := Option.bind_eq_some_iff.mp h
      have hlt := digitVal_lt hd
      refine (ih d h (hstep hn hlt)).trans_le (Nat.pow_le_pow_right (by omega) ?_)
      simp only [List.length_cons]
      omega

lemma readNat_lt {s : Text} {m : ℕ} (h : readNat U base s = some m) : m < base ^ s.length := by
  cases s with
  | nil => cases h
  | cons c cs =>
      obtain ⟨d, hd, h⟩ := Option.bind_eq_some_iff.mp h
      have hlt := readDigits_lt (k := 1) h (by simpa using digitVal_lt hd)
      rwa [List.length_cons, Nat.add_comm]

/-- A decimal numeral has no prefix. -/
lemma dropBase_ten (s : Text) : dropBase 10 s = s := by
  rw [dropBase] <;> simp

lemma isSpace_of_isDigit (h : isDigit U c = true) : isSpace c = false := by
  rw [isDigit, decimal] at h
  split at h
  · split at h
    · exact isSpace_of_ascii ‹_›
    · cases h
  · split at h
    · cases h
    · exact Bool.eq_false_iff.mpr ‹_›

lemma exists_digitVal (h : isDigit U c = true) : ∃ d, digitVal U 10 c = some d := by
  obtain ⟨d, hd⟩ := Option.isSome_iff_exists.mp h
  have hlt : d < 10 := by
    rw [decimal] at hd
    split at hd
    · split at hd
      · rename_i hc
        have hrange := toNat_of_ascii hc
        obtain rfl := Option.some.inj hd
        simp
        omega
      · cases hd
    · split at hd
      · cases hd
      · obtain ⟨v, -, rfl⟩ := Option.map_eq_some_iff.mp hd
        exact v.isLt
  exact ⟨d, by simp [digitVal, hd, hlt]⟩

/-- Digits have no sign. -/
lemma readInt_eq {s : Text} (hs : ∀ c ∈ s, isDigit U c = true) :
    readInt U 10 s = (readNat U 10 s).map fun n : ℕ => (n : ℤ) := by
  have hstrip : strip s = s := Text.strip_eq_self fun c hc => isSpace_of_isDigit (hs c hc)
  simp only [readInt, hstrip, dropBase_ten]
  split
  · simp [isDigit, decimal] at hs
  · simp [isDigit, decimal] at hs
  · rfl

/-- Digits make a numeral. -/
lemma exists_readInt {s : Text} (hne : s ≠ []) (hs : ∀ c ∈ s, isDigit U c = true) :
    ∃ n : ℕ, readInt U 10 s = some (n : ℤ) := by
  have hdigits : ∀ (s : Text) (n : ℕ), (∀ c ∈ s, isDigit U c = true) →
      ∃ m, readDigits U 10 n s = some m := by
    intro s
    induction s with
    | nil => exact fun n _ => ⟨n, rfl⟩
    | cons c s ih =>
        intro n hs
        have hc := hs c List.mem_cons_self
        have hne : c ≠ '_' := by
          rintro rfl
          simp [isDigit, decimal] at hc
        obtain ⟨d, hd⟩ := exists_digitVal hc
        rw [readDigits_cons hne, hd, Option.bind_some]
        exact ih _ fun c hc => hs c (List.mem_cons_of_mem _ hc)
  rw [readInt_eq hs]
  obtain ⟨c, s, rfl⟩ := List.exists_cons_of_ne_nil hne
  obtain ⟨d, hd⟩ := exists_digitVal (hs c List.mem_cons_self)
  obtain ⟨m, hm⟩ := hdigits s d fun c hc => hs c (List.mem_cons_of_mem _ hc)
  exact ⟨m, by rw [readNat, hd, Option.bind_some, hm, Option.map_some]⟩

/-- What is printed is read back. -/
lemma readInt_toDigits (n : ℕ) : readInt U 10 (Nat.toDigits 10 n) = some (n : ℤ) := by
  have hdigit : ∀ c ∈ Nat.toDigits 10 n, c.isDigit = true := fun c hc =>
    Nat.isDigit_of_mem_toDigits (by omega) le_rfl hc
  have hval := Nat.ofDigitChars_ten_toDigits (n := n)
  rw [readInt_eq fun c hc => isDigit_of_ascii (hdigit c hc)]
  obtain ⟨c, cs, heq⟩ := List.exists_cons_of_ne_nil (Nat.toDigits_ne_nil (n := n) (b := 10))
  rw [heq] at hdigit hval ⊢
  rw [readNat, digitVal_of_ascii (hdigit c List.mem_cons_self), Option.bind_some,
    readDigits_eq fun c' hc' => hdigit c' (List.mem_cons_of_mem _ hc'), Option.map_some, ← hval,
    Nat.ofDigitChars_cons]
  simp

/-- A numeral has no fewer digits than are printed. -/
lemma length_toDigits_le {s : Text} (h : readInt U 10 s = some (n : ℤ)) (hs : s ≠ []) :
    (Nat.toDigits 10 n).length ≤ s.length := by
  have hlen : (strip s).length ≤ s.length := Text.length_strip_le s
  have hbound : n < 10 ^ s.length := by
    simp only [readInt, dropBase_ten] at h
    have hread : ∀ {t : Text} {m : ℕ}, readNat U 10 t = some m →
        t.length ≤ s.length → m < 10 ^ s.length := fun hm ht =>
      (readNat_lt hm).trans_le (Nat.pow_le_pow_right (by omega) ht)
    split at h
    · rename_i t ht
      rw [ht] at hlen
      obtain ⟨m, hm, hn⟩ := Option.map_eq_some_iff.mp h
      have hlt := hread hm ((Nat.le_succ _).trans hlen)
      omega
    · rename_i t ht
      rw [ht] at hlen
      obtain ⟨m, hm, hn⟩ := Option.map_eq_some_iff.mp h
      have hlt := hread hm ((Nat.le_succ _).trans hlen)
      omega
    · obtain ⟨m, hm, hn⟩ := Option.map_eq_some_iff.mp h
      have hlt := hread hm hlen
      omega
  exact (Nat.length_toDigits_le_iff (by omega) (List.length_pos_iff.mpr hs)).mpr hbound

end Digits

end Hippocrates.ParseTrace
