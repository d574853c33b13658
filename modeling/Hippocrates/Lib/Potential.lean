import Mathlib.Tactic

/-!
A measure for a search that opens new elements while it closes others.

An element has a rank, and closing one of rank `r` opens at most `N` that have not been there, all
of lower ranks. Then `potential` falls, so only finitely many elements are ever closed, although no
finite set of elements is given from the start.

* `potential_lt`: one element is closed.
-/

namespace Potential

variable {α : Type*} [DecidableEq α]

/-- An open element of rank `r` counts for itself and for all it may open. -/
def potential (N : ℕ) (rank : α → ℕ) (opened : Finset α) : ℕ := ∑ a ∈ opened, (N + 1) ^ rank a

section

variable {N : ℕ} {rank rank' : α → ℕ} {opened opened' fresh : Finset α} {a : α}

omit [DecidableEq α] in
lemma potential_congr (h : ∀ b ∈ opened, rank' b = rank b) :
    potential N rank' opened = potential N rank opened :=
  Finset.sum_congr rfl fun b hb => by rw [h b hb]

omit [DecidableEq α] in
/-- Elements of lower rank count less than one, if there are not too many. -/
lemma potential_fresh_lt (hcard : fresh.card ≤ N) (hrank : ∀ b ∈ fresh, rank b < rank a) :
    potential N rank fresh < (N + 1) ^ rank a := by
  cases ha : rank a with
  | zero =>
      have hempty : fresh = ∅ := by
        refine Finset.eq_empty_of_forall_notMem fun b hb => ?_
        have hlt := hrank b hb
        omega
      rw [hempty, potential, Finset.sum_empty]
      exact Nat.pow_pos N.succ_pos
  | succ r =>
      have hle : ∀ b ∈ fresh, (N + 1) ^ rank b ≤ (N + 1) ^ r := by
        intro b hb
        have hlt := hrank b hb
        exact Nat.pow_le_pow_right N.succ_pos (by omega)
      calc potential N rank fresh ≤ fresh.card * (N + 1) ^ r := by
            rw [← smul_eq_mul]
            exact Finset.sum_le_card_nsmul _ _ _ hle
        _ ≤ N * (N + 1) ^ r := Nat.mul_le_mul_right _ hcard
        _ < (N + 1) * (N + 1) ^ r :=
            Nat.mul_lt_mul_of_pos_right (Nat.lt_succ_self N) (Nat.pow_pos N.succ_pos)
        _ = (N + 1) ^ (r + 1) := (pow_succ' _ _).symm

/-- **One element is closed**: what is open afterwards was open before, or is of lower rank. -/
lemma potential_lt (ha : a ∈ opened) (hsub : opened' ⊆ opened.erase a ∪ fresh)
    (hsame : ∀ b ∈ opened, rank' b = rank b) (hcard : fresh.card ≤ N)
    (hrank : ∀ b ∈ fresh, rank' b < rank a) :
    potential N rank' opened' < potential N rank opened := by
  have hra : rank' a = rank a := hsame a ha
  have herase : potential N rank' (opened.erase a) = potential N rank (opened.erase a) :=
    potential_congr fun b hb => hsame b (Finset.mem_of_mem_erase hb)
  have hfresh : potential N rank' fresh < (N + 1) ^ rank a := by
    have hlt := @potential_fresh_lt _ N rank' fresh a hcard (hra ▸ hrank)
    rwa [hra] at hlt
  calc potential N rank' opened' ≤ potential N rank' (opened.erase a ∪ fresh) :=
        Finset.sum_le_sum_of_subset hsub
    _ ≤ potential N rank' (opened.erase a) + potential N rank' fresh := by
        rw [potential, potential, potential, ← Finset.sum_union_inter]
        exact Nat.le_add_right _ _
    _ < potential N rank (opened.erase a) + (N + 1) ^ rank a := by
        rw [herase]
        exact Nat.add_lt_add_left hfresh _
    _ = potential N rank opened := Finset.sum_erase_add _ _ ha

end

end Potential
